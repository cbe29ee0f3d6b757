import Residual.Proofs.Eval.Denotes
import Residual.Typed.Statement

/-!
Running residual code.

Bindings and statements are run in order, a conditional by its test, and operations on the values
of their operands. What is run are terms without calls and without unions; on any other code, and
where an operation has no result, there is no outcome. Values are literals, types, tuples, and
maps whose fields are values.
-/

namespace Residual

/-- The values of variables by their tags, the latest first. -/
abbrev Bindings := List (Tag × Term)

/-- The result of an operation on values. -/
def Op.compute : Op → List Term → Option Term
  | .prim op, args => (op.value args).map .lit
  | .tuple (.index i), [.tuple items] => items[i]?
  | .module (.getField x), [.map env _] => Fields.get? env.visible x
  | _, _ => none

mutual

/-- The value that code computes. -/
def Term.run (t : Term) (σ : Bindings) : Option Term :=
  match t with
  | .type ty => some (.type ty)
  | .var v => σ.lookup v.tag
  | .tuple items => (Term.runAll items σ).map .tuple
  | .map env kind => (env.run σ).map fun fields => .map (.plain fields) kind
  | .lit l => some (.lit l)
  | .letIn v bound rest _ => (bound.run σ).bind fun r => rest.run ((v.tag, r) :: σ)
  | .state stmt rest _ => (stmt.run σ).bind fun _ => rest.run σ
  | .op o args _ =>
    if o = .cond then Term.runCond args σ else (Term.runAll args σ).bind o.compute
  | .box _ _ | .call _ _ _ _ => none
termination_by structural t

def Term.runAll (ts : List Term) (σ : Bindings) : Option (List Term) :=
  match ts with
  | [] => some []
  | t :: rest => (t.run σ).bind fun r => (Term.runAll rest σ).map (r :: ·)
termination_by structural ts

/-- Only one side of a conditional is run. -/
def Term.runCond (ts : List Term) (σ : Bindings) : Option Term :=
  match ts with
  | [test, yes, no] =>
    (test.run σ).bind fun r => r.bool?.bind fun b => if b then yes.run σ else no.run σ
  | _ => none
termination_by structural ts

def Env.run (env : Env) (σ : Bindings) : Option (List (Name × Term)) :=
  match env with
  | .plain m => Env.runFields (fun _ => true) m σ
  | .restricted m used => Env.runFields used.contains m σ
  | .consed _ m => Env.runFields (fun _ => true) m σ
termination_by structural env

def Env.runFields (keep : Name → Bool) (m : List (Name × Term)) (σ : Bindings) :
    Option (List (Name × Term)) :=
  match m with
  | [] => some []
  | (x, t) :: rest =>
    if keep x then (t.run σ).bind fun r => (Env.runFields keep rest σ).map ((x, r) :: ·)
    else Env.runFields keep rest σ
termination_by structural m

end

/-- The bindings after a statement. -/
def Stmt.run : Stmt → Bindings → Option Bindings
  | .letIn v bound _, σ => (bound.run σ).map fun r => (v.tag, r) :: σ
  | .state stmt _, σ => (stmt.run σ).map fun _ => σ

/-- The bindings after some statements. -/
def Stmt.runAll : List Stmt → Bindings → Option Bindings
  | [], σ => some σ
  | s :: rest, σ => (s.run σ).bind (Stmt.runAll rest)

namespace Stmt

lemma runAll_append (as bs : List Stmt) (σ : Bindings) :
    runAll (as ++ bs) σ = (runAll as σ).bind (runAll bs) := by
  induction as generalizing σ with
  | nil => rfl
  | cons s rest ih =>
    rw [List.cons_append, runAll, runAll, Option.bind_assoc]
    congr 1
    funext σ'
    exact ih σ'

/-- Code that is closed around a value is run by its statements and then the value. -/
theorem run_close (stmts : List Stmt) (t : Term) (σ : Bindings) :
    (close stmts t).run σ = (runAll stmts σ).bind t.run := by
  induction stmts generalizing σ with
  | nil => rfl
  | cons s rest ih =>
    rw [close_cons, runAll, Option.bind_assoc]
    cases s with
    | letIn v bound trace =>
      rw [before, Term.run, run]
      cases bound.run σ with
      | none => rfl
      | some r => exact ih _
    | state stmt trace =>
      rw [before, Term.run, run]
      cases stmt.run σ with
      | none => rfl
      | some r => exact ih σ

end Stmt

/-! ### More bindings -/

/-- Every variable that has a value keeps it. -/
def Bindings.Le (σ τ : Bindings) : Prop := ∀ n r, σ.lookup n = some r → τ.lookup n = some r

namespace Bindings.Le

variable {σ τ υ : Bindings}

lemma refl (σ : Bindings) : σ.Le σ := fun _ _ h => h

lemma trans (h : σ.Le τ) (k : τ.Le υ) : σ.Le υ := fun n r hn => k n r (h n r hn)

/-- A variable without a value can be bound. -/
theorem cons {n : Tag} {r : Term} (h : σ.lookup n = none) : σ.Le ((n, r) :: σ) := by
  intro m s hm
  have hne : (m == n) = false := by
    rw [beq_eq_false_iff_ne]
    rintro rfl
    rw [h] at hm
    cases hm
  rw [List.lookup_cons, hne]
  exact hm

lemma cons_cons (h : σ.Le τ) (n : Tag) (r : Term) :
    Bindings.Le ((n, r) :: σ) ((n, r) :: τ) := by
  intro m s hm
  rw [List.lookup_cons] at hm ⊢
  split at hm
  · exact hm
  · exact h m s hm

end Bindings.Le

mutual

/-- Code that has an outcome keeps it when more variables have values. -/
lemma Term.run_mono (t : Term) {σ τ : Bindings} (h : σ.Le τ) {r : Term}
    (hr : t.run σ = some r) : t.run τ = some r := by
  match t with
  | .type ty => exact hr
  | .var v => exact h v.tag r hr
  | .lit l => exact hr
  | .tuple items =>
    obtain ⟨rs, hrs, rfl⟩ := Option.map_eq_some_iff.1 hr
    rw [Term.run, Term.runAll_mono items h hrs, Option.map_some]
  | .map env kind =>
    obtain ⟨m, hm, rfl⟩ := Option.map_eq_some_iff.1 hr
    rw [Term.run, Env.run_mono env h hm, Option.map_some]
  | .letIn v bound rest trace =>
    obtain ⟨b, hb, hrest⟩ := Option.bind_eq_some_iff.1 hr
    rw [Term.run, Term.run_mono bound h hb, Option.bind_some]
    exact Term.run_mono rest (h.cons_cons v.tag b) hrest
  | .state stmt rest trace =>
    obtain ⟨b, hb, hrest⟩ := Option.bind_eq_some_iff.1 hr
    rw [Term.run, Term.run_mono stmt h hb, Option.bind_some]
    exact Term.run_mono rest h hrest
  | .op o args ty =>
    rw [Term.run] at hr ⊢
    split at hr
    · rename_i ho
      rw [if_pos ho]
      exact Term.runCond_mono args h hr
    · rename_i ho
      obtain ⟨rs, hrs, hr⟩ := Option.bind_eq_some_iff.1 hr
      rw [if_neg ho, Term.runAll_mono args h hrs, Option.bind_some, hr]
  | .box inner ty => cases hr
  | .call key kind args ty => cases hr
termination_by structural t

lemma Term.runAll_mono (ts : List Term) {σ τ : Bindings} (h : σ.Le τ) {rs : List Term}
    (hr : Term.runAll ts σ = some rs) : Term.runAll ts τ = some rs := by
  match ts with
  | [] => exact hr
  | t :: rest =>
    obtain ⟨r, ht, hr⟩ := Option.bind_eq_some_iff.1 hr
    obtain ⟨rs, hrest, rfl⟩ := Option.map_eq_some_iff.1 hr
    rw [Term.runAll, Term.run_mono t h ht, Option.bind_some, Term.runAll_mono rest h hrest,
      Option.map_some]
termination_by structural ts

lemma Term.runCond_mono (ts : List Term) {σ τ : Bindings} (h : σ.Le τ) {r : Term}
    (hr : Term.runCond ts σ = some r) : Term.runCond ts τ = some r := by
  match ts with
  | [test, yes, no] =>
    obtain ⟨c, hc, hr⟩ := Option.bind_eq_some_iff.1 hr
    obtain ⟨b, hb, hr⟩ := Option.bind_eq_some_iff.1 hr
    rw [Term.runCond, Term.run_mono test h hc, Option.bind_some, hb, Option.bind_some]
    cases b with
    | true => exact Term.run_mono yes h hr
    | false => exact Term.run_mono no h hr
  | [] | [_] | [_, _] | _ :: _ :: _ :: _ :: _ => cases hr
termination_by structural ts

lemma Env.run_mono (env : Env) {σ τ : Bindings} (h : σ.Le τ) {rs : List (Name × Term)}
    (hr : env.run σ = some rs) : env.run τ = some rs := by
  match env with
  | .plain m => exact Env.runFields_mono _ m h hr
  | .restricted m used => exact Env.runFields_mono _ m h hr
  | .consed _ m => exact Env.runFields_mono _ m h hr
termination_by structural env

lemma Env.runFields_mono (keep : Name → Bool) (m : List (Name × Term)) {σ τ : Bindings}
    (h : σ.Le τ) {rs : List (Name × Term)} (hr : Env.runFields keep m σ = some rs) :
    Env.runFields keep m τ = some rs := by
  match m with
  | [] => exact hr
  | (x, t) :: rest =>
    rw [Env.runFields] at hr ⊢
    split at hr
    · rename_i hk
      obtain ⟨r, ht, hr⟩ := Option.bind_eq_some_iff.1 hr
      obtain ⟨rs, hrest, rfl⟩ := Option.map_eq_some_iff.1 hr
      rw [if_pos hk, Term.run_mono t h ht, Option.bind_some,
        Env.runFields_mono keep rest h hrest, Option.map_some]
    · rename_i hk
      rw [if_neg hk]
      exact Env.runFields_mono keep rest h hr
termination_by structural m

end

end Residual
