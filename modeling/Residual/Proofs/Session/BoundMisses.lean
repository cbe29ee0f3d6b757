import Residual.Proofs.Eval.Frame
import Residual.Proofs.Eval.Splits
import Residual.Proofs.Eval.Static
import Residual.Proofs.Session.Calls
import Residual.Proofs.Surface.Shapes
import Residual.Proofs.Typed.Places

/-!
Misses that are bound in a branch.

Inside a branch of a split that is left to run time, a match without a clause for its value comes to
a miss: a value like any other, that only a split looks for, at the end of its branches. A let whose
body is such a branch binds the miss to its name. Of the miss there is what the rest of the branch
does with the name, and what was emitted before.
-/

namespace Residual

open Eval

/-! ### Misses in code -/

/-- The node stands where no clause of a match applied. -/
def Term.isMiss : Term → Bool
  | .op .patternMiss _ _ => true
  | _ => false

/-- Somewhere in the code, or in the visible bindings of its maps, no clause of a match applied. -/
def Term.HasMiss (t : Term) : Prop := ∃ n ∈ t.nodes, n.isMiss = true

instance (t : Term) : Decidable t.HasMiss :=
  inferInstanceAs (Decidable (∃ n ∈ t.nodes, n.isMiss = true))

/-- The code of one of the statements has a miss. -/
def Stmt.AnyMiss (stmts : List Stmt) : Prop := ∃ s ∈ stmts, s.term.HasMiss

namespace Term

lemma mem_nodes_self (t : Term) : t ∈ t.nodes := by
  cases t <;> exact List.mem_cons_self ..

lemma HasMiss.of_isMiss {t : Term} (h : t.isMiss = true) : t.HasMiss := ⟨t, t.mem_nodes_self, h⟩

/-- An operation has the misses of its operands. -/
theorem HasMiss.op {t : Term} (h : t.HasMiss) (o : Op) {args : List Term} (ht : t ∈ args)
    (ty : Ty) : (Term.op o args ty).HasMiss := by
  obtain ⟨n, hn, hmiss⟩ := h
  exact ⟨n, List.mem_cons_of_mem _ (Term.mem_nodesOfAll.2 ⟨t, ht, hn⟩), hmiss⟩

lemma HasMiss.tuple {t : Term} (h : t.HasMiss) {items : List Term} (ht : t ∈ items) :
    (Term.tuple items).HasMiss := by
  obtain ⟨n, hn, hmiss⟩ := h
  exact ⟨n, List.mem_cons_of_mem _ (Term.mem_nodesOfAll.2 ⟨t, ht, hn⟩), hmiss⟩

end Term

namespace Stmt

lemma hasMiss_before {s : Stmt} {rest : Term} :
    (s.before rest).HasMiss ↔ s.term.HasMiss ∨ rest.HasMiss := by
  cases s <;> simp [before, term, Term.HasMiss, Term.nodes, Term.isMiss, or_and_right, exists_or]

/-- Closed code has the misses of its statements and of its result. -/
lemma hasMiss_close {stmts : List Stmt} {t : Term} :
    (close stmts t).HasMiss ↔ AnyMiss stmts ∨ t.HasMiss := by
  induction stmts with
  | nil => simp [AnyMiss]
  | cons s rest ih => rw [close_cons, hasMiss_before, ih]; simp [AnyMiss, or_assoc]

lemma anyMiss_append {as bs : List Stmt} : AnyMiss (as ++ bs) ↔ AnyMiss as ∨ AnyMiss bs := by
  simp [AnyMiss, or_and_right, exists_or]

end Stmt

lemma Term.HasMiss.of_endsInMiss {t : Term} (h : t.endsInMiss = true) : t.HasMiss := by
  induction t using Term.tail.induct with
  | case1 bind bound rest trace ih =>
    exact (Stmt.hasMiss_before (s := .letIn bind bound trace)).2 (.inr (ih h))
  | case2 stmt rest trace ih => exact (Stmt.hasMiss_before (s := .state stmt trace)).2 (.inr (ih h))
  | case3 t h1 h2 =>
    refine .of_isMiss ?_
    rw [Term.endsInMiss, Term.tail.eq_3 _ h1 h2] at h
    exact h

lemma Term.HasMiss.retypeMiss {t : Term} (h : t.HasMiss) (ty : Ty) :
    (t.retypeMiss ty).HasMiss := by
  induction t using Term.retypeMiss.induct with
  | case1 bind bound rest trace ih =>
    exact (Stmt.hasMiss_before (s := .letIn bind bound trace)).2
      ((Stmt.hasMiss_before (s := .letIn bind bound trace)).1 h |>.imp id ih)
  | case2 stmt rest trace ih =>
    exact (Stmt.hasMiss_before (s := .state stmt trace)).2
      ((Stmt.hasMiss_before (s := .state stmt trace)).1 h |>.imp id ih)
  | case3 args _ => exact .of_isMiss rfl
  | case4 t h1 h2 h3 => rwa [Term.retypeMiss.eq_4 _ _ h1 h2 h3]

/-! ### Splits -/

namespace Eval

/-- The body of a branch is its value after its statements. -/
lemma inBranch_eq_ok {act : Eval Term} {w : World} {body : Term}
    (h : (exec (inBranch act) w).1 = .ok body) :
    ∃ t w', exec act w.enterBranch = (.ok t, w') ∧ body = Stmt.close w'.scope.stmts t := by
  rw [exec_inBranch] at h
  rcases hact : exec act w.enterBranch with ⟨_ | t, w'⟩ <;> rw [hact] at h <;> cases h
  exact ⟨t, w', rfl, rfl⟩

/-- Code that is bound is in a new statement, and its result is no miss. -/
lemma bindResult_eq_ok {t v : Term} {ty : Ty} {w w' : World}
    (h : exec (bindResult t ty) w = (.ok v, w')) :
    (∃ s : Stmt, s.term = t ∧ w'.scope.stmts = w.scope.stmts ++ [s]) ∧ v.isMiss = false := by
  unfold bindResult at h
  split at h
  · cases h
    refine ⟨⟨.state t w.scope.trace, rfl, rfl⟩, ?_⟩
    cases ty <;> rfl
  · obtain ⟨u, w₁, hfresh, h⟩ := exec_bind_eq_ok.1 h
    cases h
    have hstmts : w₁.scope.stmts = w.scope.stmts := by
      obtain ⟨tag, w₂, htag, h⟩ := exec_bind_eq_ok.1 hfresh
      cases h
      rw [freshTag, exec_bind_of_ok (exec_getScope w)] at htag
      split at htag
      · cases htag
      · cases htag
        rfl
    exact ⟨⟨.letIn u t w₁.scope.trace, rfl, by rw [← hstmts]⟩, rfl⟩

/-- A split that succeeds is a new statement, with the misses of its bodies. Its result is a miss
only if all the bodies have one. -/
lemma finishSplit_eq_ok {op : Op} {arrange : List Term → List Term} {bodies : List Term}
    {v : Term} {w w' : World} (h : exec (finishSplit op arrange bodies) w = (.ok v, w')) :
    ∃ (s : Stmt) (bodies' : List Term) (ty : Ty), s ∈ w'.scope.stmts ∧
      s.term = .op op (arrange bodies') ty ∧ bodies'.length = bodies.length ∧
      ((∃ b ∈ bodies, b.HasMiss) → ∃ b ∈ bodies', b.HasMiss) ∧
      (v.isMiss = true → ∀ b ∈ bodies, b.HasMiss) := by
  obtain ⟨⟨bodies', ty?⟩, w₁, hmerge, h⟩ := exec_bind_eq_ok.1 h
  unfold merge at hmerge
  split at hmerge
  · rename_i hnone
    cases hmerge
    cases h
    refine ⟨.state (.op op (arrange bodies) .unit) w.scope.trace, bodies, .unit,
      List.mem_append_right _ (List.mem_singleton_self _), rfl, rfl, id,
      fun _ b hb => .of_endsInMiss ?_⟩
    rw [firstType?, Option.map_eq_none_iff, List.find?_eq_none] at hnone
    simpa using hnone b hb
  · rename_i ty _
    split at hmerge
    · cases hmerge
    · cases hmerge
      obtain ⟨⟨s, hs, hstmts⟩, hmiss⟩ := bindResult_eq_ok h
      refine ⟨s, _, ty, hstmts ▸ List.mem_append_right _ (List.mem_singleton_self _), hs,
        List.length_map .., ?_, fun hv => ?_⟩
      · rintro ⟨b, hb, hmiss⟩
        refine ⟨_, List.mem_map_of_mem hb, ?_⟩
        split
        · exact hmiss.retypeMiss ty
        · exact hmiss
      · rw [hmiss] at hv
        cases hv

end Eval

/-- Where a split is decided at run time, the misses of its branches are in its statement. Its
result is a miss only if all the branches have one. -/
theorem Splits.misses {ev : Expr → Eval Term} {e : Expr} {w w₀ w' : World} {acts : List (Eval Term)}
    {v : Term} (h : Splits ev e w acts w₀) (hrun : exec (step ev e) w = (.ok v, w')) :
    ∃ bodies, List.Forall₂ (Branched w₀) acts bodies ∧
      ((∃ b ∈ bodies, b.HasMiss) → Stmt.AnyMiss w'.scope.stmts) ∧
      (v.isMiss = true → ∀ b ∈ bodies, b.HasMiss) := by
  obtain ⟨op, arrange, harrange, hstep⟩ := h.exec_step
  rw [hstep] at hrun
  obtain ⟨bodies, w₁, hbodies, hfinish⟩ := exec_bind_eq_ok.1 hrun
  have hbranched := branches_eq_ok hbodies
  obtain ⟨s, bodies', ty, hs, hterm, hlength, hmiss, hall⟩ := finishSplit_eq_ok hfinish
  refine ⟨bodies, hbranched, fun hsome => ?_, hall⟩
  obtain ⟨b, hb, hmiss⟩ := hmiss hsome
  refine ⟨s, hs, hterm ▸ hmiss.op op (harrange bodies' ?_ hb) ty⟩
  rw [hlength, hbranched.length_eq]

/-! ### Lets -/

/-- The name, what is bound to it and the rest, of a let. -/
def Expr.let? : Expr → Option (Name × Expr × Expr)
  | .node _ (.op .apply [.node _ (.function x b), e])
  | .node _ (.op .apply [.node _ (.filtered _ x b), e]) => some (x, e, b)
  | _ => none

lemma Expr.IsLet.of_let? {l e b : Expr} {x : Name} (h : l.let? = some (x, e, b)) :
    l.IsLet x e b := by
  unfold let? at h
  split at h
  · cases h
    exact ⟨.plain⟩
  · cases h
    exact ⟨.filtered⟩
  · cases h

/-- The value of an expression is built from that of `x`, or the code for the value is. -/
inductive Expr.HandsOn : Name → Expr → Prop where
  | var {symbol : Nat} {x : Name} : HandsOn x (.node symbol (.var x))
  | pos {symbol : Nat} {x : Name} {span : Span} {e : Expr} :
    HandsOn x e → HandsOn x (.node symbol (.pos span e))
  | tuple {symbol : Nat} {x : Name} {items : List Expr} {e : Expr} :
    e ∈ items → HandsOn x e → HandsOn x (.node symbol (.tuple items))
  | bound {x y : Name} {l e b : Expr} : l.IsLet y e b → HandsOn x e → HandsOn y b → HandsOn x l
  | rest {x y : Name} {l e b : Expr} : l.IsLet y e b → x ≠ y → HandsOn x b → HandsOn x l
  | cond {symbol : Nat} {x : Name} {test yes no : Expr} : HandsOn x yes → HandsOn x no →
    HandsOn x (.node symbol (.op .cond [test, yes, no]))

lemma Captures.mem_of_mem_narrow {used : Captures} {x y : Name} {n : Nat}
    (h : y ∈ narrow x n used) : y ∈ used := by
  induction n generalizing used with
  | zero => exact h
  | succ n ih =>
    simp only [narrow] at h
    split at h
    · exact h
    · split at h
      · exact List.mem_of_mem_take (ih h)
      · exact List.mem_of_mem_drop (ih h)

/-- What is found in an environment is visible. -/
lemma Env.get?_visible {env : Env} {x : Name} {t : Term} (h : env.get? x = some t) :
    Fields.get? env.visible x = some t := by
  cases env with
  | plain m | consed _ m => exact h
  | restricted m used =>
    rw [Env.get?] at h
    split at h
    · rename_i hsees
      rw [Env.visible, Captures.get?_filter, if_pos, h]
      rw [Captures.sees, beq_iff_eq] at hsees
      exact List.contains_iff_mem.2 (Captures.mem_of_mem_narrow (hsees ▸ List.mem_singleton_self x))
    · cases h

namespace Eval

lemma exec_isFunction {f : Expr} {x : Name} {b : Expr} (hf : f.IsFunction x b) (fuel : Nat)
    (w : World) : ∃ used w₀, w₀.scope = w.scope ∧ exec (eval (fuel + 1) f) w =
      (.ok (.map (.restricted w.scope.env.visible used) (.function x b)), w₀) := by
  cases hf with
  | @plain symbol =>
    exact ⟨_, w.setStore ((Build.freeNameSet (.node symbol (.function x b))).run w.session.store).2,
      rfl, rfl⟩
  | filtered => exact ⟨_, w, rfl, rfl⟩

/-- A run of `l`, which is `let x = e in b`, from `w`: the function is built, then from `w₀` and in
the same scope `e` comes to `v`, and then `b` comes to `t` where `x` is bound to `v`. -/
structure LetRun (ev : Expr → Eval Term) (l : Expr) (x : Name) (e b : Expr) (w w₀ : World)
    (v : Term) (w₁ : World) (t : Term) (w₂ : World) : Prop where
  scope : w₀.scope = w.scope
  bound : exec (ev e) w₀ = (.ok v, w₁)
  body : ∃ symbol f used, l = .node symbol (.op .apply [f, e]) ∧
    exec (ev f) w = (.ok (.map (.restricted w.scope.env.visible used) (.function x b)), w₀) ∧
    exec (ev b) (w₁.setEnv ((Env.restricted w.scope.env.visible used).bind x v)) = (.ok t, w₂)

/-- A let that succeeds has a run. -/
lemma exists_letRun {l e b : Expr} {x : Name} (hl : l.IsLet x e b) {fuel : Nat} {w w' : World}
    {t : Term} (h : exec (eval (fuel + 1) l) w = (.ok t, w')) :
    ∃ w₀ v w₁ w₂, LetRun (eval fuel) l x e b w w₀ v w₁ t w₂ ∧ w'.scope.stmts = w₂.scope.stmts := by
  obtain @⟨symbol, _, f, _, _, hf⟩ := hl
  change exec (evalOp (eval fuel) .apply [f, e]) w = _ at h
  obtain ⟨values, w₁, hvalues, h⟩ := exec_bind_eq_ok.1 h
  rw [List.mapM_cons, List.mapM_cons, List.mapM_nil] at hvalues
  obtain ⟨g, w₀, hg, hvalues⟩ := exec_bind_eq_ok.1 hvalues
  obtain ⟨rest, w₁', hrest, hvalues⟩ := exec_bind_eq_ok.1 hvalues
  cases hvalues
  obtain ⟨v, w₁', hv, hrest⟩ := exec_bind_eq_ok.1 hrest
  cases hrest
  cases fuel with
  | zero => cases hg
  | succ fuel =>
    obtain ⟨used, w₀', hscope, hfun⟩ := exec_isFunction hf fuel w
    rw [hfun] at hg
    cases hg
    refine ⟨w₀, v, w₁, (exec (eval (fuel + 1) b)
      (w₁.setEnv ((Env.restricted w.scope.env.visible used).bind x v))).2, ?_⟩
    change exec (apply (eval (fuel + 1))
      (.map (.restricted w.scope.env.visible used) (.function x b)) v) w₁ = _ at h
    rw [exec_apply_function, exec_withEnv] at h
    obtain ⟨hrun, rfl⟩ := Prod.mk.inj h
    exact ⟨⟨hscope, hv, symbol, f, used, rfl, hfun, Prod.ext hrun rfl⟩, rfl⟩

/-- The run of a let goes on after the statements of the bound expression. -/
theorem LetRun.stmts {fuel : Nat} {l : Expr} {x : Name} {e b : Expr} {w w₀ w₁ w₂ : World}
    {v t : Term} (h : LetRun (eval fuel) l x e b w w₀ v w₁ t w₂) :
    w₁.scope.stmts <+: w₂.scope.stmts := by
  obtain ⟨-, -, used, -, -, hb⟩ := h.body
  have hframed := framed_eval fuel b
    (w₁.setEnv ((Env.restricted w.scope.env.visible used).bind x v))
  rw [hb] at hframed
  exact hframed.stmts

end Eval

lemma Stmt.AnyMiss.mono {as bs : List Stmt} (h : AnyMiss as) (hle : as <+: bs) :
    AnyMiss bs := by
  obtain ⟨s, hs, hmiss⟩ := h
  exact ⟨s, hle.subset hs, hmiss⟩

namespace Eval

/-- The value of a list item is in the tuple, and its statements are before those of later items. -/
lemma hasMiss_mapM {fuel : Nat} {items : List Expr} {e : Expr} (he : e ∈ items) {x : Name}
    {w w' : World} {values : List Term}
    (hitem : ∀ {w w' : World} {t : Term}, exec (eval fuel e) w = (.ok t, w') →
      ∃ v, Fields.get? w.scope.env.visible x = some v ∧
        (v.HasMiss → Stmt.AnyMiss w'.scope.stmts ∨ t.HasMiss))
    (h : exec (items.mapM (eval fuel)) w = (.ok values, w')) :
    ∃ v, Fields.get? w.scope.env.visible x = some v ∧
      (v.HasMiss → Stmt.AnyMiss w'.scope.stmts ∨ ∃ t ∈ values, t.HasMiss) := by
  induction items generalizing w values with
  | nil => exact absurd he List.not_mem_nil
  | cons d rest ih =>
    rw [List.mapM_cons] at h
    obtain ⟨t, w₁, ht, h⟩ := exec_bind_eq_ok.1 h
    obtain ⟨ts, w₂, hts, h⟩ := exec_bind_eq_ok.1 h
    cases h
    have hframed := framed_eval fuel d w
    rw [ht] at hframed
    rcases List.mem_cons.1 he with rfl | he
    · obtain ⟨v, hv, hmiss⟩ := hitem ht
      refine ⟨v, hv, fun hmem => ?_⟩
      rcases hmiss hmem with hstmts | hvalue
      · have hlater : w₁.Framed (exec (rest.mapM (eval fuel)) w₁).2 := framed_args rest w₁
        rw [hts] at hlater
        exact .inl (hstmts.mono hlater.stmts)
      · exact .inr ⟨t, List.mem_cons_self .., hvalue⟩
    · obtain ⟨v, hv, hmiss⟩ := ih he hts
      rw [hframed.env] at hv
      refine ⟨v, hv, fun hmem => (hmiss hmem).imp id ?_⟩
      rintro ⟨u, hu, hvalue⟩
      exact ⟨u, List.mem_cons_of_mem _ hu, hvalue⟩

/-- A branch of a split hands on a miss in its body. -/
lemma hasMiss_of_branched {act : Eval Term} {w : World} {body : Term} {x : Name}
    (h : Branched w act body)
    (hact : ∀ {w w' : World} {t : Term}, exec act w = (.ok t, w') →
      ∃ v, Fields.get? w.scope.env.visible x = some v ∧
        (v.HasMiss → Stmt.AnyMiss w'.scope.stmts ∨ t.HasMiss)) :
    ∃ v, Fields.get? w.scope.env.visible x = some v ∧ (v.HasMiss → body.HasMiss) := by
  obtain ⟨u, hu, hrun⟩ := h
  obtain ⟨t, w', hbranch, rfl⟩ := inBranch_eq_ok hrun
  obtain ⟨v, hv, hmiss⟩ := hact hbranch
  have henv : u.enterBranch.scope.env = w.scope.env := hu
  rw [henv] at hv
  exact ⟨v, hv, fun h => Stmt.hasMiss_close.2 (hmiss h)⟩

/-- Code that hands on the value of `x` keeps its misses: in a statement, or in the value. -/
lemma hasMiss_of_handsOn {x : Name} {e : Expr} (he : e.HandsOn x) {fuel : Nat} {w w' : World}
    {t : Term} (h : exec (eval fuel e) w = (.ok t, w')) :
    ∃ v, Fields.get? w.scope.env.visible x = some v ∧
      (v.HasMiss → Stmt.AnyMiss w'.scope.stmts ∨ t.HasMiss) := by
  -- Induction on how the value is handed on to the result.
  induction he generalizing fuel w w' t with
  | @var symbol x =>
    cases fuel with
    | zero => cases h
    | succ fuel =>
      rw [eval, step, Expr.kind] at h
      dsimp only at h
      rw [exec_bind_of_ok (exec_getScope w)] at h
      cases hv : w.scope.env.get? x with
      | none =>
        rw [hv] at h
        cases h
      | some t =>
        rw [hv] at h
        cases h
        exact ⟨t, Env.get?_visible hv, .inr⟩
  | @pos symbol x span e _ ih =>
    cases fuel with
    | zero => cases h
    | succ fuel =>
      rw [show exec (eval (fuel + 1) (.node symbol (.pos span e))) w =
        exec (if w.session.settings.traces then withSpan span (eval fuel e) else eval fuel e) w
        from rfl] at h
      split at h
      · rw [exec_withSpan] at h
        obtain ⟨hrun, rfl⟩ := Prod.mk.inj h
        have hinner : exec (eval fuel e) (w.setTrace (w.scope.trace.push span)) = (.ok t, _) :=
          Prod.ext hrun rfl
        obtain ⟨v, hv, hmiss⟩ := ih hinner
        exact ⟨v, hv, hmiss⟩
      · exact ih h
  | tuple he _ ih =>
    cases fuel with
    | zero => cases h
    | succ fuel =>
      obtain ⟨values, w₁, hvalues, h⟩ := exec_bind_eq_ok.1 h
      cases h
      obtain ⟨v, hv, hmiss⟩ := hasMiss_mapM he ih hvalues
      refine ⟨v, hv, fun hmem => (hmiss hmem).imp id ?_⟩
      rintro ⟨u, hu, hvalue⟩
      exact hvalue.tuple hu
  -- Under another name: the bound expression hands it on, and the rest the new name.
  | @bound x y l e b hl _ _ ihe ihb =>
    cases fuel with
    | zero => cases h
    | succ fuel =>
      obtain ⟨w₀, u, w₁, w₂, hrun, hstmts⟩ := exists_letRun hl h
      obtain ⟨-, -, used, -, -, hb⟩ := hrun.body
      obtain ⟨v, hv, hmiss⟩ := ihe hrun.bound
      obtain ⟨u', hu', hmiss'⟩ := ihb hb
      rw [hrun.scope] at hv
      have hu : u' = u := by
        change Fields.get? (Fields.insert _ y u) y = some u' at hu'
        rw [Fields.get?_insert, if_pos rfl] at hu'
        exact (Option.some.inj hu').symm
      subst hu
      refine ⟨v, hv, fun hmem => ?_⟩
      rcases hmiss hmem with hstmts' | hvalue
      · exact .inl (hstmts ▸ hstmts'.mono hrun.stmts)
      · exact hstmts ▸ hmiss' hvalue
  -- Past another binding: the name keeps its value.
  | @rest x y l e b hl hne _ ih =>
    cases fuel with
    | zero => cases h
    | succ fuel =>
      obtain ⟨w₀, u, w₁, w₂, hrun, hstmts⟩ := exists_letRun hl h
      obtain ⟨-, -, used, -, -, hb⟩ := hrun.body
      obtain ⟨v, hv, hmiss⟩ := ih hb
      refine ⟨v, ?_, hstmts ▸ hmiss⟩
      change Fields.get? (Fields.insert _ y u) x = some v at hv
      rw [Fields.get?_insert, if_neg hne, Env.visible, Captures.get?_filter] at hv
      split at hv
      · exact hv
      · cases hv
  -- By both sides of a conditional: the one that is taken, or the first body of the split.
  | @cond symbol x test yes no _ _ ihyes ihno =>
    cases fuel with
    | zero => cases h
    | succ fuel =>
      obtain ⟨c, w₁, htest, hrest⟩ := exec_bind_eq_ok.1 h
      have henv : w₁.scope.env = w.scope.env := by
        have hframed := framed_eval fuel test w
        rw [htest] at hframed
        exact hframed.env
      rw [← henv]
      cases hbool : c.bool? with
      | some taken =>
        rw [hbool] at hrest
        cases taken with
        | true => exact ihyes hrest
        | false => exact ihno hrest
      | none =>
        rw [hbool] at hrest
        cases hty : c.ty == .bool with
        | false =>
          simp only [hty] at hrest
          cases hrest
        | true =>
          obtain ⟨bodies, hbodies, hmiss, -⟩ := (Splits.cond htest hbool hty).misses h
          obtain ⟨yes', _, hyes, -, rfl⟩ := List.forall₂_cons_left_iff.1 hbodies
          obtain ⟨v, hv, hmem⟩ := hasMiss_of_branched hyes ihyes
          exact ⟨v, hv, fun h => .inl (hmiss ⟨yes', List.mem_cons_self .., hmem h⟩)⟩

/-- A let that is a branch and succeeds. The body of the branch has the misses of the statements of
both parts, and those of the value of the second. If what is bound is a miss, then it is there if
it came from a split that is left to run time, or if the rest hands it on. -/
theorem inBranch_let_hasMiss {l e b : Expr} {x : Name} (hl : l.IsLet x e b) {fuel : Nat}
    {w : World} {body : Term} (h : (exec (inBranch (eval (fuel + 2) l)) w).1 = .ok body) :
    ∃ w₀ v w₁ t w₂, LetRun (eval (fuel + 1)) l x e b w.enterBranch w₀ v w₁ t w₂ ∧
      (body.HasMiss ↔ Stmt.AnyMiss w₁.scope.stmts ∨
        Stmt.AnyMiss (w₂.scope.stmts.drop w₁.scope.stmts.length) ∨ t.HasMiss) ∧
      (v.isMiss = true → (∃ acts w₃, acts ≠ [] ∧ Splits (eval fuel) e w₀ acts w₃) →
        body.HasMiss) ∧
      (v.HasMiss → b.HandsOn x → body.HasMiss) := by
  obtain ⟨t, w₃, hbranch, rfl⟩ := inBranch_eq_ok h
  obtain ⟨w₀, v, w₁, w₂, hrun, hstmts⟩ := exists_letRun hl hbranch
  obtain ⟨later, hlater⟩ := hrun.stmts
  have hbody : (Stmt.close w₃.scope.stmts t).HasMiss ↔
      Stmt.AnyMiss w₁.scope.stmts ∨ Stmt.AnyMiss later ∨ t.HasMiss := by
    rw [Stmt.hasMiss_close, hstmts, ← hlater, Stmt.anyMiss_append, or_assoc]
  refine ⟨w₀, v, w₁, t, w₂, hrun, ?_, ?_, ?_⟩
  · rwa [← hlater, List.drop_left]
  · rintro hv ⟨acts, w₄, hacts, hsplit⟩
    obtain ⟨bodies, hbranched, hmiss, hall⟩ := hsplit.misses hrun.bound
    refine hbody.2 (.inl (hmiss ?_))
    -- The split has a branch, and this branch ends in a miss.
    obtain ⟨act, _, rfl⟩ := List.exists_cons_of_ne_nil hacts
    obtain ⟨first, _, -, -, rfl⟩ := List.forall₂_cons_left_iff.1 hbranched
    exact ⟨first, List.mem_cons_self .., hall hv _ (List.mem_cons_self ..)⟩
  · intro hv hb
    obtain ⟨-, -, used, -, -, hrest⟩ := hrun.body
    obtain ⟨v', hv', hmiss⟩ := hasMiss_of_handsOn hb hrest
    change Fields.get? (Fields.insert _ x v) x = some v' at hv'
    rw [Fields.get?_insert, if_pos rfl] at hv'
    cases hv'
    rw [Stmt.hasMiss_close, hstmts]
    exact hmiss hv

end Eval

/-! ### Programs with a let in a branch -/

namespace MissInLet

/-- A match of a character, whose only clause is for another one. -/
def missed : Build Expr := do
  let arm : Clause := .mk (← Build.pattern (.lit (.char 'b'))) (← Build.lit (.char 'c'))
  Build.matchWith (← Build.lit (.char 'a')) [arm]

/-- A split whose first branch binds the value of a match without a clause for it. -/
def program (rest : Expr → Build Expr) : Build Expr := do
  let x ← Build.name "x"
  let test ← Build.op .dynamize [← Build.lit (.bool true)]
  let yes ← Build.letIn x (← missed) (← rest (← Build.var x))
  Build.cond test yes (← Build.lit (.char 'd'))

def call (rest : Expr → Build Expr) : Call := .of (program rest) {} 20

/-- What a let binds. -/
def bound? (fuel : Nat) (l : Expr) (w : World) : Option Term :=
  match l with
  | .node _ (.op .apply [f, e]) =>
    match exec (eval fuel f) w with
    | (.ok _, w₀) => (exec (eval fuel e) w₀).1.toOption
    | _ => none
  | _ => none

lemma bound?_eq {fuel : Nat} {l e b : Expr} {x : Name} {w w₀ w₁ w₂ : World} {v t : Term}
    (h : LetRun (eval fuel) l x e b w w₀ v w₁ t w₂) : bound? fuel l w = some v := by
  obtain ⟨symbol, f, used, rfl, hf, -⟩ := h.body
  simp only [bound?, hf, h.bound]
  rfl

/-- The first branch of a program that is a split: the let, the world in which the branches start,
what is bound and the body of the branch. -/
structure Branch where
  expr : Expr
  parts : Name × Expr × Expr
  start : World
  bound : Term
  body : Term

def branch? (c : Call) : Option Branch :=
  match c.code with
  | .node symbol (.op .cond [test, yes, no]) => do
    let (_, w) ← split? (eval 18) (.node symbol (.op .cond [test, yes, no])) (c.world {})
    return ⟨yes, ← yes.let?, w, ← bound? 17 yes w.enterBranch,
      ← (exec (inBranch (eval 18 yes)) w).1.toOption⟩
  | _ => none

/-- The branch is one of the program, and its run is that of a let. -/
structure Branch.Of (c : Call) (r : Branch) : Prop where
  split : ∃ acts, eval 18 r.expr ∈ acts ∧ Splits (eval 18) c.code (c.world {}) acts r.start
  isLet : r.expr.IsLet r.parts.1 r.parts.2.1 r.parts.2.2
  body : (exec (inBranch (eval 18 r.expr)) r.start).1 = .ok r.body
  bound : bound? 17 r.expr r.start.enterBranch = some r.bound

lemma Branch.of_branch? {c : Call} {r : Branch} (h : branch? c = some r) : r.Of c := by
  unfold branch? at h
  split at h
  · rename_i symbol test yes no hcode
    obtain ⟨⟨acts, w⟩, hsplit, h⟩ := Option.bind_eq_some_iff.1 h
    obtain ⟨parts, hparts, h⟩ := Option.bind_eq_some_iff.1 h
    obtain ⟨v, hv, h⟩ := Option.bind_eq_some_iff.1 h
    obtain ⟨body, hbody, h⟩ := Option.bind_eq_some_iff.1 h
    cases h
    have hsplits := Splits.of_split? hsplit
    refine ⟨⟨acts, ?_, hcode ▸ hsplits⟩, .of_let? hparts, ?_, hv⟩
    · cases hsplits
      exact List.mem_cons_self ..
    · rcases hrun : (exec (inBranch (eval 18 yes)) w).1 with _ | term <;>
        rw [hrun] at hbody <;> cases hbody
      rfl
  · cases h

/-- The rest of the let does without the miss. -/
def dropped : Call := call fun _ => Build.lit (.char 'd')

/-- The rest of the let puts the miss in a pair. -/
def kept : Call := call fun x => do Build.tuple [x, ← Build.lit (.char 'd')]

/-- The rest of the let is a pair that starts with what is bound. -/
def Branch.pairs (r : Branch) : Bool :=
  match r.parts with
  | (x, _, .node _ (.tuple [.node _ (.var y), _])) => x = y
  | _ => false

lemma Branch.handsOn_of_pairs {r : Branch} (h : r.pairs = true) :
    r.parts.2.2.HandsOn r.parts.1 := by
  unfold pairs at h
  split at h
  · rename_i hparts
    cases of_decide_eq_true h
    rw [hparts]
    exact .tuple (List.mem_cons_self ..) .var
  · cases h

end MissInLet

theorem inBranch_let_hasMiss_pair : ∃ r : MissInLet.Branch, r.Of MissInLet.kept ∧
    r.parts.2.2.HandsOn r.parts.1 ∧ r.bound.isMiss = true ∧ r.body.HasMiss := by
  have hrun : (MissInLet.branch? MissInLet.kept).any
    (fun r => r.bound.isMiss && r.pairs) = true := by
    decide +kernel
  obtain ⟨r, hr, hmiss⟩ := (Option.any_eq_true _ _).1 hrun
  obtain ⟨hmiss, hpairs⟩ := Bool.and_eq_true_iff.1 hmiss
  have hof := MissInLet.Branch.of_branch? hr
  have hhands := MissInLet.Branch.handsOn_of_pairs hpairs
  obtain ⟨w₀, v, w₁, t, w₂, hlet, -, -, hkept⟩ := inBranch_let_hasMiss hof.isLet hof.body
  have hv : r.bound = v := Option.some.inj (hof.bound.symm.trans (MissInLet.bound?_eq hlet))
  exact ⟨r, hof, hhands, hmiss, hkept (hv ▸ .of_isMiss hmiss) hhands⟩

/-- What is bound in a branch is a miss, and the rest of the branch does not use it. The program
compiles, and nothing is left of the miss. -/
theorem miss_dropped : ∃ (r : MissInLet.Branch) (w₀ w₁ : World) (t : Term) (w₂ : World),
    r.Of MissInLet.dropped ∧ LetRun (eval 17) r.expr r.parts.1 r.parts.2.1 r.parts.2.2
        r.start.enterBranch w₀ r.bound w₁ t w₂ ∧
      r.bound.isMiss = true ∧ ¬ r.body.HasMiss ∧
      ∃ p, (MissInLet.dropped.run {}).1 = .ok p ∧ ¬ p.main.HasMiss := by
  have hrun : (MissInLet.branch? MissInLet.dropped).any
      (fun r => r.bound.isMiss && !decide r.body.HasMiss) = true := by decide +kernel
  obtain ⟨r, hr, hmiss⟩ := (Option.any_eq_true _ _).1 hrun
  obtain ⟨hmiss, hnone⟩ := Bool.and_eq_true_iff.1 hmiss
  rw [Bool.not_eq_true', decide_eq_false_iff_not] at hnone
  have hof := MissInLet.Branch.of_branch? hr
  obtain ⟨t, w₃, hstep, -⟩ := inBranch_eq_ok hof.body
  obtain ⟨w₀, v, w₁, w₂, hlet, -⟩ := exists_letRun hof.isLet hstep
  have hv : r.bound = v := Option.some.inj (hof.bound.symm.trans (MissInLet.bound?_eq hlet))
  exact ⟨r, w₀, w₁, t, w₂, hof, hv ▸ hlet, hmiss, hnone, Call.exists_of_run (by decide +kernel)⟩

end Residual
