import Residual.Proofs.Typed.RenameTwins
import Residual.Proofs.Typed.Traces
import Residual.Session

/-!
Tables and renaming with other source positions.

A renaming does the same with other positions: `Moves m b act act'` says that `act'`, from the
moved renaming, comes to the image under `b` of the result of `act`, or fails where `act` fails.
-/

namespace Residual

/-! ### Tables of comparable entries -/

namespace EnvTable

/-- The table with other positions. -/
def moved (m : Move) (t : EnvTable) : EnvTable := t.map (Fields.moved m)

variable {m : Move} (h : m.Faithful)
include h

lemma enter_moved (t : EnvTable) (fields : Fields Term) :
    (moved m t).enter (Fields.moved m fields) =
      (⟨(t.enter fields).1.symbol, Fields.moved m (t.enter fields).1.value⟩,
        moved m (t.enter fields).2) :=
  @Interner.intern_map _ ⟨Fields.sameContent⟩ _ (Fields.sameContent_moved h) t fields

lemma cons_moved (t : EnvTable) (fields : Fields Term) :
    (moved m t).cons (Fields.moved m fields) =
      ((t.cons fields).1.moved m, moved m (t.cons fields).2) := by
  unfold cons
  rw [enter_moved h]
  simp [Env.moved]

end EnvTable

namespace Application

/-- The operation with other positions in its operands. -/
def moved (m : Move) (a : Application) : Application := ⟨a.op, a.args.map (Term.moved m)⟩

lemma beq_moved {m : Move} (h : m.Faithful) (a b : Application) :
    (a.moved m == b.moved m) = (a == b) := by
  change (_ && _) = (_ && _)
  rw [(Term.quickAll ..).2, (Term.quickAll ..).2, moved, moved, ← Term.movedAll_eq,
    ← Term.movedAll_eq, Term.beqAll_moved h]

end Application

namespace Sharing

/-- The table with other positions. -/
def moved (m : Move) (t : Sharing) : Sharing :=
  { entries := t.entries.map fun e => (e.1.moved m, e.2.moved m)
    scopes := t.scopes.map (List.map (Application.moved m)) }

variable {m : Move} (h : m.Faithful)

include h

lemma get?_moved (t : Sharing) (a : Application) :
    (t.moved m).get? (a.moved m) = (t.get? a).map (Var.moved m) := by
  obtain ⟨entries, scopes⟩ := t
  simp only [get?, moved]
  induction entries with
  | nil => rfl
  | cons e rest ih =>
    obtain ⟨b, v⟩ := e
    simp only [List.map_cons, List.lookup_cons, ih, Application.beq_moved h]
    split <;> rfl

lemma erase_moved (t : Sharing) (a : Application) :
    (t.moved m).erase (a.moved m) = (t.erase a).moved m := by
  simp only [erase, moved, List.filter_map, Function.comp_def, Application.beq_moved h]

lemma insert_moved (t : Sharing) (a : Application) (v : Var) :
    (t.moved m).insert (a.moved m) (v.moved m) = (t.insert a v).moved m := by
  have herase := congrArg entries (erase_moved h t a)
  obtain ⟨entries, scopes⟩ := t
  simp only [insert, herase]
  cases scopes <;> rfl

lemma pop_moved (t : Sharing) : (t.moved m).pop = t.pop.moved m := by
  have hfold : ∀ (scope : List Application) (t : Sharing),
      (scope.map (Application.moved m)).foldl erase (t.moved m) =
        (scope.foldl erase t).moved m := by
    intro scope
    induction scope with
    | nil => exact fun _ => rfl
    | cons a rest ih =>
      intro t
      rw [List.map_cons, List.foldl_cons, List.foldl_cons, erase_moved h, ih]
  obtain ⟨entries, scopes⟩ := t
  cases scopes with
  | nil => rfl
  | cons scope outer => exact hfold scope ⟨entries, outer⟩

end Sharing

/-! ### Renaming -/

/-- The renaming with other positions. -/
def Renaming.moved (m : Move) (s : Renaming) : Renaming :=
  { s with
    envs := s.envs.moved m
    args := s.args.map (Var.moved m)
    params := s.params.map (Var.moved m) }

namespace Rename

variable {m : Move} {α β γ δ : Type}

/-- Where `act` has a result and leaves a renaming, `act'` has the image of the result and leaves
the moved renaming, from a renaming that was moved before. -/
def Moves (m : Move) (b : α → β) (act : Rename α) (act' : Rename β) : Prop :=
  ∀ s : Renaming, act'.run (s.moved m) = (act.run s).map fun r => (b r.1, r.2.moved m)

namespace Moves

protected lemma pure {b : α → β} {a : α} {a' : β} (h : a' = b a) :
    Moves m b (Pure.pure a) (Pure.pure a') :=
  fun s => by subst h; rfl

protected lemma bind {b : α → β} {c : γ → δ} {act : Rename α} {act' : Rename β}
    {next : α → Rename γ} {next' : β → Rename δ} (ha : Moves m b act act')
    (hn : ∀ a, Moves m c (next a) (next' (b a))) : Moves m c (act >>= next) (act' >>= next') := by
  intro s
  rw [StateT.run_bind, StateT.run_bind, ha s]
  cases act.run s with
  | none => rfl
  | some r => exact hn r.1 r.2

lemma mapM {b : α → β} {c : γ → δ} {act : α → Rename γ} {act' : β → Rename δ}
    (h : ∀ a, Moves m c (act a) (act' (b a))) (l : List α) :
    Moves m (List.map c) (l.mapM act) ((l.map b).mapM act') := by
  induction l with
  | nil => exact .pure rfl
  | cons a rest ih =>
    rw [List.map_cons, List.mapM_cons, List.mapM_cons]
    exact (h a).bind fun first => ih.bind fun others => .pure rfl

end Moves

lemma moves_freshTag : Moves m id freshTag freshTag := by
  intro s
  change (s.tags.fresh?.bind fun r => some (r.1, { s.moved m with tags := r.2 })) =
    (s.tags.fresh?.bind fun r => some (r.1, { s with tags := r.2 })).map
      fun r => (id r.1, r.2.moved m)
  cases s.tags.fresh? <;> rfl

lemma moves_modify {g g' : Renaming → Renaming} (h : ∀ s, g' (s.moved m) = (g s).moved m) :
    Moves m id (modify g : Rename Unit) (modify g') := by
  intro s
  change some ((), g' (s.moved m)) = some ((), (g s).moved m)
  rw [h]

lemma moves_freshVar (t : Ty) : Moves m (Var.moved m) (freshVar t) (freshVar (t.moved m)) :=
  moves_freshTag.bind fun _ => .pure rfl

lemma moves_bindVar (v : Var) : Moves m (Var.moved m) (bindVar v) (bindVar (v.moved m)) := by
  refine moves_freshTag.bind fun tag => (moves_modify fun s => ?_).bind fun _ => .pure ?_
  · rw [Var.tag_moved]
    rfl
  · rw [Var.ty_moved]
    rfl

lemma moves_useVar (v : Var) : Moves m (Var.moved m) (useVar v) (useVar (v.moved m)) := by
  intro s
  have hrenamed : (s.moved m).renamed = s.renamed := rfl
  have htags : (s.moved m).tags = s.tags := rfl
  rw [run_useVar_eq, run_useVar_eq, Var.tag_moved, Var.ty_moved, hrenamed, htags]
  cases s.renamed.lookup v.tag with
  | some tag => rfl
  | none =>
    cases s.tags.fresh? with
    | none => rfl
    | some a => simp [Renaming.moved, Var.moved]

lemma moves_consFields (h : m.Faithful) (fields : Fields Term) :
    Moves m (Env.moved m) (consFields fields) (consFields (Fields.moved m fields)) := by
  intro s
  change some (((s.envs.moved m).cons (Fields.moved m fields)).1,
    { s.moved m with envs := ((s.envs.moved m).cons (Fields.moved m fields)).2 }) = _
  rw [EnvTable.cons_moved h]
  rfl

lemma moves_inOrder {l : List (Name × Term)}
    (h : ∀ e ∈ l, Moves m (Term.moved m) (term e.2) (term (e.2.moved m))) :
    Moves m (Fields.moved m) (inOrder (fields l)) (inOrder (fields (Fields.moved m l))) := by
  induction l with
  | nil => exact .pure rfl
  | cons e rest ih =>
    obtain ⟨x, t⟩ := e
    obtain ⟨ht, hrest⟩ := List.forall_mem_cons.1 h
    have hfirst : Moves m (fun e : Name × Term => (e.1, e.2.moved m)) (do return (x, ← term t))
        (do return (x, ← term (t.moved m))) := ht.bind fun _ => .pure rfl
    rw [Fields.moved_cons, fields, fields, inOrder, inOrder, List.mapM_cons, List.mapM_cons]
    exact hfirst.bind fun first => (ih hrest).bind fun others => .pure rfl

mutual

lemma moves_term (h : m.Faithful) (t : Term) :
    Moves m (Term.moved m) (term t) (term (t.moved m)) := by
  match t with
  | .type _ => exact .pure rfl
  | .lit _ => exact .pure rfl
  | .var ⟨tag, ty⟩ =>
    rw [Term.moved, Var.moved, term, term, Ty.isUnit_moved]
    split
    · exact .pure (Term.ofUnit_moved m ty)
    · exact (moves_useVar ⟨tag, ty⟩).bind fun v => .pure rfl
  | .tuple items => exact (moves_terms h items).bind fun items => .pure (by simp [Term.moved])
  | .map e kind => exact (moves_env h e).bind fun e => .pure rfl
  | .box inner ty => exact (moves_term h inner).bind fun inner => .pure rfl
  | .letIn bind bound rest trace =>
    exact (moves_term h bound).bind fun bound => (moves_bindVar bind).bind fun bind =>
      (moves_term h rest).bind fun rest => .pure rfl
  | .state stmt rest trace =>
    exact (moves_term h stmt).bind fun stmt => (moves_term h rest).bind fun rest => .pure rfl
  | .op o args ty =>
    rw [Term.moved, term, term]
    split
    · exact (moves_caseArgs h args).bind fun args => .pure (by simp [Term.moved])
    · exact (moves_terms h args).bind fun args => .pure (by simp [Term.moved])
  | .call key kind args ty =>
    rw [Term.moved, Var.movedAll_eq, term, term]
    exact (Moves.mapM moves_useVar args).bind fun args => .pure (by simp [Term.moved])
termination_by structural t

lemma moves_terms (h : m.Faithful) (ts : List Term) :
    Moves m (List.map (Term.moved m)) (terms ts) (terms (Term.movedAll m ts)) := by
  match ts with
  | [] => exact .pure rfl
  | t :: rest =>
    exact (moves_term h t).bind fun first => (moves_terms h rest).bind fun others => .pure rfl
termination_by structural ts

lemma moves_caseArgs (h : m.Faithful) (ts : List Term) :
    Moves m (List.map (Term.moved m)) (caseArgs ts) (caseArgs (Term.movedAll m ts)) := by
  match ts with
  | [] => exact .pure rfl
  | t :: rest =>
    exact (moves_term h t).bind fun value => (moves_caseBinders h rest).bind fun others => .pure rfl
termination_by structural ts

lemma moves_caseBinders (h : m.Faithful) (ts : List Term) :
    Moves m (List.map (Term.moved m)) (caseBinders ts) (caseBinders (Term.movedAll m ts)) := by
  match ts with
  | [] => exact .pure rfl
  | t :: rest =>
    have hrest : ∀ a : Term, Moves m (List.map (Term.moved m))
        (do return a :: (← caseBodies rest))
        (do return a.moved m :: (← caseBodies (Term.movedAll m rest))) :=
      fun a => (moves_caseBodies h rest).bind fun others => .pure rfl
    have ht := moves_term h t
    cases t with
    | var v => exact (moves_bindVar v).bind fun u => hrest (.var u)
    | _ => exact ht.bind hrest
termination_by structural ts

lemma moves_caseBodies (h : m.Faithful) (ts : List Term) :
    Moves m (List.map (Term.moved m)) (caseBodies ts) (caseBodies (Term.movedAll m ts)) := by
  match ts with
  | [] => exact .pure rfl
  | t :: rest =>
    exact (moves_term h t).bind fun body => (moves_caseBinders h rest).bind fun others => .pure rfl
termination_by structural ts

lemma moves_env (h : m.Faithful) (e : Env) : Moves m (Env.moved m) (env e) (env (e.moved m)) := by
  match e with
  | .plain l =>
    rw [Env.moved, Env.movedFields_eq, env, env]
    exact (moves_inOrder (moves_fields h l)).bind fun l => moves_consFields h l
  | .restricted l used =>
    rw [Env.moved, Env.movedFields_eq, env, env, pick_fields, pick_fields, Fields.moved,
      Fields.pick_map]
    refine (moves_inOrder fun e he => moves_fields h l e (mem_pick he)).bind fun n => ?_
    have hlist := moves_consFields h (Fields.ofList n)
    rwa [Fields.moved, ← Fields.ofList_map] at hlist
  | .consed _ l =>
    rw [Env.moved, Env.movedFields_eq, env, env]
    exact (moves_inOrder (moves_fields h l)).bind fun l => moves_consFields h l
termination_by structural e

lemma moves_fields (h : m.Faithful) (l : List (Name × Term)) :
    ∀ e ∈ l, Moves m (Term.moved m) (term e.2) (term (e.2.moved m)) := by
  match l with
  | [] => exact fun e he => by cases he
  | (x, t) :: rest => exact List.forall_mem_cons.2 ⟨moves_term h t, moves_fields h rest⟩
termination_by structural l

end

end Rename

end Residual
