import Residual.Eval.Branch
import Residual.Proofs.Typed.TypeCodes
import Residual.Typed.Statement

/-!
Scopes of residual code.

A variable of a value is in scope if one with its tag and its type is. Code is scoped if every
occurrence is, where a binding puts its variable into the scope of what comes after it, and a
branch of a split by members has its own variable in scope. The tags that code binds are listed
from left to right.
-/

namespace Residual

/-- Among the variables is one with the tag of `v` and with its type. -/
def Var.InScope (vars : List Var) (v : Var) : Prop := v.mark id ∈ vars.map (Var.mark id)

instance (vars : List Var) (v : Var) : Decidable (v.InScope vars) :=
  inferInstanceAs (Decidable (v.mark id ∈ vars.map (Var.mark id)))

/-- Variables with one tag have one type. -/
def Var.OneType (vars : List Var) : Prop :=
  ∀ u ∈ vars, ∀ v ∈ vars, u.tag = v.tag → u.ty.code = v.ty.code

namespace Var

variable {vars vars' : List Var} {u v : Var}

lemma inScope_iff : v.InScope vars ↔ ∃ u ∈ vars, u.tag = v.tag ∧ u.ty.code = v.ty.code := by
  simp [InScope, mark]

lemma InScope.of_mem (h : v ∈ vars) : v.InScope vars := List.mem_map_of_mem h

lemma InScope.of_mark (h : v.InScope vars) (hmark : u.mark id = v.mark id) :
    u.InScope vars := by
  rw [InScope, hmark]
  exact h

lemma InScope.subset (h : v.InScope vars) (hsub : vars ⊆ vars') : v.InScope vars' :=
  List.map_subset _ hsub h

lemma InScope.tag_mem (h : v.InScope vars) : v.tag ∈ vars.map tag := by
  obtain ⟨u, hu, htag, -⟩ := inScope_iff.1 h
  exact htag ▸ List.mem_map_of_mem hu

lemma oneType_of_nodup (h : (vars.map tag).Nodup) : OneType vars := by
  induction vars with
  | nil => exact fun u hu => absurd hu List.not_mem_nil
  | cons w rest ih =>
    obtain ⟨hnew, hrest⟩ := List.nodup_cons.1 h
    have hne : ∀ v ∈ rest, v.tag ≠ w.tag := fun v hv htag => hnew (htag ▸ List.mem_map_of_mem hv)
    intro u hu v hv htag
    rcases List.mem_cons.1 hu with rfl | hu' <;> rcases List.mem_cons.1 hv with rfl | hv'
    · rfl
    · exact absurd htag.symm (hne v hv')
    · exact absurd htag (hne u hu')
    · exact ih hrest u hu' v hv' htag

/-- What is in a scope with one type for each tag has one type for each tag. -/
theorem OneType.of_inScope (h : OneType vars) (hscope : ∀ v ∈ vars', v.InScope vars) :
    OneType vars' := by
  intro u hu v hv htag
  obtain ⟨u', hu', hut, huty⟩ := inScope_iff.1 (hscope u hu)
  obtain ⟨v', hv', hvt, hvty⟩ := inScope_iff.1 (hscope v hv)
  rw [← huty, ← hvty]
  exact h u' hu' v' hv' (hut.trans (htag.trans hvt.symm))

lemma OneType.append (h : OneType vars) (h' : OneType vars')
    (hne : ∀ u ∈ vars, ∀ v ∈ vars', u.tag ≠ v.tag) : OneType (vars ++ vars') := by
  intro u hu v hv htag
  rcases List.mem_append.1 hu with hu | hu <;> rcases List.mem_append.1 hv with hv | hv
  · exact h u hu v hv htag
  · exact absurd htag (hne u hu v hv)
  · exact absurd htag.symm (hne v hv u hu)
  · exact h' u hu v hv htag

end Var

/-! ### Scopes -/

mutual

/-- Every variable in the code is in scope where it stands. -/
def Term.Scoped (vars : List Var) (t : Term) : Prop :=
  match t with
  | .type _ | .lit _ => True
  | .var v => v.InScope vars
  | .tuple items => Term.AllScoped vars items
  | .map env _ => env.Scoped vars
  | .box inner _ => inner.Scoped vars
  | .letIn bind bound rest _ => bound.Scoped vars ∧ rest.Scoped (vars ++ [bind])
  | .state stmt rest _ => stmt.Scoped vars ∧ rest.Scoped vars
  | .op o args _ => if o = .case then Term.CaseScoped vars args else Term.AllScoped vars args
  | .call _ _ args _ => ∀ v ∈ args, v.InScope vars
termination_by structural t

def Term.AllScoped (vars : List Var) (ts : List Term) : Prop :=
  match ts with
  | [] => True
  | t :: rest => t.Scoped vars ∧ Term.AllScoped vars rest
termination_by structural ts

/-- The parts of a split: the value, then for each branch its variable and its body. -/
def Term.CaseScoped (vars : List Var) (ts : List Term) : Prop :=
  match ts with
  | [] => True
  | t :: rest => t.Scoped vars ∧ Term.BranchesScoped vars rest
termination_by structural ts

def Term.BranchesScoped (vars : List Var) (ts : List Term) : Prop :=
  match ts with
  | [] => True
  | t :: rest =>
    match t with
    | .var b => Term.BodyScoped vars b rest
    | _ => False
termination_by structural ts

def Term.BodyScoped (vars : List Var) (b : Var) (ts : List Term) : Prop :=
  match ts with
  | [] => False
  | t :: rest => t.Scoped (vars ++ [b]) ∧ Term.BranchesScoped vars rest
termination_by structural ts

/-- The visible bindings are scoped. -/
def Env.Scoped (vars : List Var) (env : Env) : Prop :=
  match env with
  | .plain m => Env.FieldsScoped vars (fun _ => true) m
  | .restricted m used => Env.FieldsScoped vars used.contains m
  | .consed _ m => Env.FieldsScoped vars (fun _ => true) m
termination_by structural env

def Env.FieldsScoped (vars : List Var) (keep : Name → Bool) (m : List (Name × Term)) : Prop :=
  match m with
  | [] => True
  | (x, t) :: rest => (keep x = true → t.Scoped vars) ∧ Env.FieldsScoped vars keep rest
termination_by structural m

end

/-- The branches of a split: a variable and a body each. -/
def Term.branches? : List Term → Option (List (Var × Term))
  | [] => some []
  | .var b :: body :: rest => (Term.branches? rest).map ((b, body) :: ·)
  | _ => none

/-- The variables that the branches of a split bind. -/
def Term.binders (ts : List Term) : List Var := ((Term.branches? ts).getD []).map Prod.fst

mutual

/-- The tags that the code binds. -/
def Term.bound : Term → List Tag
  | .type _ | .lit _ | .var _ | .call _ _ _ _ => []
  | .tuple items => Term.boundOfAll items
  | .map env _ => env.bound
  | .box inner _ => inner.bound
  | .letIn bind bound rest _ => bound.bound ++ bind.tag :: rest.bound
  | .state stmt rest _ => stmt.bound ++ rest.bound
  | .op o args _ =>
    (if o = .case then (Term.binders args.tail).map Var.tag else []) ++ Term.boundOfAll args

def Term.boundOfAll : List Term → List Tag
  | [] => []
  | t :: rest => t.bound ++ Term.boundOfAll rest

def Env.bound : Env → List Tag
  | .plain m => Env.boundOfFields (fun _ => true) m
  | .restricted m used => Env.boundOfFields used.contains m
  | .consed _ m => Env.boundOfFields (fun _ => true) m

def Env.boundOfFields (keep : Name → Bool) : List (Name × Term) → List Tag
  | [] => []
  | (x, t) :: rest =>
    if keep x then t.bound ++ Env.boundOfFields keep rest else Env.boundOfFields keep rest

end

lemma Term.allScoped_iff {vars : List Var} {ts : List Term} :
    Term.AllScoped vars ts ↔ ∀ t ∈ ts, t.Scoped vars := by
  induction ts with
  | nil => simp [Term.AllScoped]
  | cons t rest ih => simp [Term.AllScoped, ih]

lemma Term.boundOfAll_eq (ts : List Term) : Term.boundOfAll ts = ts.flatMap Term.bound := by
  induction ts with
  | nil => rfl
  | cons t rest ih => simp [Term.boundOfAll, ih]

/-! ### Splits -/

lemma Term.branches?_flatMap (bs : List (Var × Term)) :
    Term.branches? (bs.flatMap fun b => [.var b.1, b.2]) = some bs := by
  induction bs with
  | nil => rfl
  | cons b rest ih => simp [Term.branches?, ih]

lemma Term.branchesScoped_flatMap {vars : List Var} {bs : List (Var × Term)} :
    Term.BranchesScoped vars (bs.flatMap fun b => [.var b.1, b.2]) ↔
      ∀ b ∈ bs, b.2.Scoped (vars ++ [b.1]) := by
  induction bs with
  | nil => simp [Term.BranchesScoped]
  | cons b rest ih => simp [Term.BranchesScoped, Term.BodyScoped, ih]

/-- A split binds the variables of its branches, and what the bodies bind. -/
theorem Term.bound_caseArgs (value : Term) {binders : List Var} {bodies : List Term}
    (h : binders.length = bodies.length) (ty : Ty) :
    (Term.op .case (Eval.caseArgs value binders bodies) ty).bound =
      binders.map Var.tag ++ (value.bound ++ bodies.flatMap Term.bound) := by
  have hbodies : ∀ bs : List (Var × Term),
      (bs.flatMap fun b => [Term.var b.1, b.2]).flatMap Term.bound =
        (bs.map Prod.snd).flatMap Term.bound := by
    intro bs
    induction bs with
    | nil => rfl
    | cons b rest ih => simp [Term.bound, ih]
  rw [Term.bound, if_pos rfl, Eval.caseArgs, List.tail_cons, Term.binders,
    Term.branches?_flatMap, Option.getD_some, List.map_fst_zip (by omega), Term.boundOfAll,
    Term.boundOfAll_eq, hbodies, List.map_snd_zip (by omega)]

/-! ### Values -/

mutual

lemma Term.Formed.scoped_iff {vars : List Var} (t : Term) (h : t.Formed) :
    t.Scoped vars ↔ ∀ v ∈ t.vars, v.InScope vars := by
  match t with
  | .type _ | .lit _ => simp [Term.Scoped, Term.vars]
  | .var v => simp [Term.Scoped, Term.vars]
  | .tuple items => exact Term.AllFormed.scoped_iff items h
  | .map env kind => exact Env.Formed.scoped_iff env h.1
  | .box inner ty => exact Term.Formed.scoped_iff inner h.1
  | .op o args ty =>
    rw [Term.Scoped, if_neg (by rw [h.1]; decide)]
    exact Term.AllFormed.scoped_iff args h.2.1
termination_by structural t

lemma Term.AllFormed.scoped_iff {vars : List Var} (ts : List Term) (h : Term.AllFormed ts) :
    Term.AllScoped vars ts ↔ ∀ v ∈ Term.varsOfAll ts, v.InScope vars := by
  match ts with
  | [] => simp [Term.AllScoped, Term.varsOfAll]
  | t :: rest =>
    rw [Term.AllScoped, Term.varsOfAll, List.forall_mem_append, Term.Formed.scoped_iff t h.1,
      Term.AllFormed.scoped_iff rest h.2]
termination_by structural ts

lemma Env.Formed.scoped_iff {vars : List Var} (env : Env) (h : env.Formed) :
    env.Scoped vars ↔ ∀ v ∈ env.vars, v.InScope vars := by
  match env with
  | .plain m => exact Env.FieldsFormed.scoped_iff _ m h.2
  | .restricted m used => exact Env.FieldsFormed.scoped_iff _ m h.2.1
  | .consed _ m => exact Env.FieldsFormed.scoped_iff _ m h.2
termination_by structural env

lemma Env.FieldsFormed.scoped_iff {vars : List Var} (keep : Name → Bool)
    (m : List (Name × Term)) (h : Env.FieldsFormed m) :
    Env.FieldsScoped vars keep m ↔ ∀ v ∈ Env.varsOfFields keep m, v.InScope vars := by
  match m with
  | [] => simp [Env.FieldsScoped, Env.varsOfFields]
  | (x, t) :: rest =>
    rw [Env.FieldsScoped, Env.varsOfFields, Env.FieldsFormed.scoped_iff keep rest h.2]
    by_cases hx : keep x = true
    · rw [if_pos hx, List.forall_mem_append, Term.Formed.scoped_iff t h.1]
      simp [hx]
    · simp [hx]
termination_by structural m

end

mutual

/-- Values bind nothing. -/
theorem Term.Formed.bound_eq (t : Term) (h : t.Formed) : t.bound = [] := by
  match t with
  | .type _ | .lit _ | .var _ => rfl
  | .tuple items => exact Term.AllFormed.bound_eq items h
  | .map env kind => exact Env.Formed.bound_eq env h.1
  | .box inner ty => exact Term.Formed.bound_eq inner h.1
  | .op o args ty =>
    rw [Term.bound, if_neg (by rw [h.1]; decide), Term.AllFormed.bound_eq args h.2.1]
    rfl
termination_by structural t

lemma Term.AllFormed.bound_eq (ts : List Term) (h : Term.AllFormed ts) :
    Term.boundOfAll ts = [] := by
  match ts with
  | [] => rfl
  | t :: rest =>
    rw [Term.boundOfAll, Term.Formed.bound_eq t h.1, Term.AllFormed.bound_eq rest h.2]
    rfl
termination_by structural ts

lemma Env.Formed.bound_eq (env : Env) (h : env.Formed) : env.bound = [] := by
  match env with
  | .plain m => exact Env.FieldsFormed.bound_eq _ m h.2
  | .restricted m used => exact Env.FieldsFormed.bound_eq _ m h.2.1
  | .consed _ m => exact Env.FieldsFormed.bound_eq _ m h.2
termination_by structural env

lemma Env.FieldsFormed.bound_eq (keep : Name → Bool) (m : List (Name × Term))
    (h : Env.FieldsFormed m) : Env.boundOfFields keep m = [] := by
  match m with
  | [] => rfl
  | (x, t) :: rest =>
    rw [Env.boundOfFields, Term.Formed.bound_eq t h.1, Env.FieldsFormed.bound_eq keep rest h.2]
    split <;> rfl
termination_by structural m

end

lemma Term.mem_varsOfAll {ts : List Term} {v : Var} :
    v ∈ Term.varsOfAll ts ↔ ∃ t ∈ ts, v ∈ t.vars := by
  induction ts with
  | nil => simp [Term.varsOfAll]
  | cons t rest ih => simp [Term.varsOfAll, ih]

lemma Env.mem_varsOfFields_iff {m : List (Name × Term)} {v : Var} :
    v ∈ Env.varsOfFields (fun _ => true) m ↔ ∃ e ∈ m, v ∈ e.2.vars := by
  induction m with
  | nil => simp [Env.varsOfFields]
  | cons e rest ih => simp [Env.varsOfFields, ih]

lemma Env.mem_vars_iff {env : Env} {v : Var} :
    v ∈ env.vars ↔ ∃ e ∈ env.visible, v ∈ e.2.vars := by
  rw [Env.vars_eq_visible, Env.mem_varsOfFields_iff]

/-! ### Statements -/

namespace Stmt

/-- The code that the statement runs. -/
def term : Stmt → Term
  | .letIn _ bound _ => bound
  | .state stmt _ => stmt

/-- The variable that the statement binds for those after it. -/
def binds : Stmt → List Var
  | .letIn bind _ _ => [bind]
  | .state _ _ => []

/-- The tags that the statement binds. -/
def bound (s : Stmt) : List Tag := s.term.bound ++ s.binds.map Var.tag

/-- Every variable in the statements is in scope where it stands. -/
def AllScoped (vars : List Var) : List Stmt → Prop
  | [] => True
  | s :: rest => s.term.Scoped vars ∧ AllScoped (vars ++ s.binds) rest

lemma allScoped_append {vars : List Var} {as bs : List Stmt} :
    AllScoped vars (as ++ bs) ↔
      AllScoped vars as ∧ AllScoped (vars ++ as.flatMap binds) bs := by
  induction as generalizing vars with
  | nil => simp [AllScoped]
  | cons s rest ih => simp [AllScoped, ih, and_assoc]

lemma scoped_close {vars : List Var} (stmts : List Stmt) (result : Term) :
    (close stmts result).Scoped vars ↔
      AllScoped vars stmts ∧ result.Scoped (vars ++ stmts.flatMap binds) := by
  induction stmts generalizing vars with
  | nil => simp [AllScoped]
  | cons s rest ih =>
    cases s <;> simp [before, Term.Scoped, AllScoped, term, binds, ih, and_assoc]

lemma bound_close (stmts : List Stmt) (result : Term) :
    (close stmts result).bound = stmts.flatMap bound ++ result.bound := by
  induction stmts with
  | nil => rfl
  | cons s rest ih => cases s <;> simp [before, Term.bound, bound, term, binds, ih]

end Stmt

/-! ### A miss at another type -/

lemma Term.scoped_retypeMiss {vars : List Var} {ty : Ty} {t : Term} (h : t.Scoped vars) :
    (t.retypeMiss ty).Scoped vars := by
  induction t using Term.retypeMiss.induct generalizing vars with
  | case1 bind bound rest trace ih => exact ⟨h.1, ih h.2⟩
  | case2 stmt rest trace ih => exact ⟨h.1, ih h.2⟩
  | case3 args _ => exact h
  | case4 t h1 h2 h3 => rwa [Term.retypeMiss.eq_4 _ _ h1 h2 h3]

lemma Term.bound_retypeMiss (ty : Ty) (t : Term) : (t.retypeMiss ty).bound = t.bound := by
  induction t using Term.retypeMiss.induct with
  | case1 bind bound rest trace ih => simp only [Term.retypeMiss, Term.bound, ih]
  | case2 stmt rest trace ih => simp only [Term.retypeMiss, Term.bound, ih]
  | case3 args _ => rfl
  | case4 t h1 h2 h3 => rw [Term.retypeMiss.eq_4 _ _ h1 h2 h3]

end Residual
