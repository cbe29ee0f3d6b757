import Residual.Proofs.Eval.Frame
import Residual.Proofs.Typed.AkinRenaming

/-!
Results that sharing would use again.

Code that was emitted without sharing may compute one result more than once. Its statements are gone
through as sharing would do it: an operation without effects on operands that stand for those of an
earlier one stands for the result of that one. So each variable has a variable that it stands for,
and two variables are merged if they stand for the same one.
-/

namespace Residual

/-- The variables that variables stand for so far, and the results that can be used again. -/
structure Merging where
  rep : Tag → Tag := id
  results : Sharing := {}

namespace Merging

/-- The variable `v` stands for that with the tag `n`. -/
def set (m : Merging) (v : Var) (n : Tag) : Merging :=
  { m with rep := fun t => if t = v.tag then n else m.rep t }

/-- The application, of variables that others stand for. -/
def application (m : Merging) (o : Op) (args : List Term) : Application :=
  ⟨o, Term.retagAll m.rep args⟩

def next (m : Merging) : Stmt → Merging
  | .letIn v (.op o args _) _ =>
    if o.isPure then
      match m.results.get? (m.application o args) with
      | some u => m.set v u.tag
      | none => { m.set v v.tag with results := m.results.insert (m.application o args) v }
    else m
  | _ => m

/-- What is merged by some statements. -/
def of (stmts : List Stmt) : Merging := stmts.foldl next {}

end Merging

/-- No two different variables with run-time data in the values are merged. -/
def Stmt.apart (stmts : List Stmt) (values : Fields Term) : Bool :=
  let rep := (Merging.of stmts).rep
  let tags := (Fields.data values).map Var.tag
  tags.all fun s => tags.all fun t => rep s != rep t || s == t

lemma Stmt.apart_iff {stmts : List Stmt} {values : Fields Term} :
    Stmt.apart stmts values = true ↔ Var.InjOn (Merging.of stmts).rep (Fields.data values) := by
  simp only [Stmt.apart, Var.InjOn, List.all_eq_true, Bool.or_eq_true, bne_iff_ne, beq_iff_eq]
  exact forall₂_congr fun s _ => forall₂_congr fun t _ => imp_iff_not_or.symm

namespace Sharing

variable {s : Sharing} {a b : Application}

lemma get?_congr (h : (a == b) = true) (s : Sharing) : s.get? a = s.get? b := by
  have hbeq : ∀ c : Application, (a == c) = (b == c) := fun c => by
    rw [Bool.eq_iff_iff]
    exact ⟨fun hac => BEq.trans (BEq.symm h) hac, fun hbc => BEq.trans h hbc⟩
  rw [get?, get?]
  induction s.entries with
  | nil => rfl
  | cons e rest ih => rw [List.lookup_cons, List.lookup_cons, hbeq, ih]

lemma get?_insert_self (s : Sharing) (a : Application) (v : Var) :
    (s.insert a v).get? a = some v := by
  rw [get?, insert, List.lookup_cons, BEq.refl]

end Sharing

namespace Merging

variable {known new : Set Tag} {m m' m'' : Merging}

/-- More is merged, but nothing changes for the known variables. -/
structure Later (known : Set Tag) (m m' : Merging) : Prop where
  rep : ∀ n ∈ known, m'.rep n = m.rep n
  results : m.results.Extends m'.results

lemma Later.refl (known : Set Tag) (m : Merging) : m.Later known m :=
  ⟨fun _ _ => rfl, .refl _⟩

lemma Later.trans (h : m.Later known m') (k : m'.Later known m'') : m.Later known m'' :=
  ⟨fun n hn => (k.rep n hn).trans (h.rep n hn), h.results.trans k.results⟩

lemma rep_set_of_ne {v : Var} {n t : Tag} (h : t ≠ v.tag) : (m.set v n).rep t = m.rep t :=
  if_neg h

lemma rep_set_self (m : Merging) (v : Var) (n : Tag) : (m.set v n).rep v.tag = n := if_pos rfl

/-- A statement binds a variable that was not known. -/
theorem later_next {s : Stmt} (h : ∀ v t trace, s = .letIn v t trace → v.tag ∉ known) :
    m.Later known (m.next s) := by
  fun_cases next m s with
  | case1 v o args ty trace hpure u hfound =>
    have hv := h _ _ _ rfl
    exact ⟨fun n hn => rep_set_of_ne (ne_of_mem_of_not_mem hn hv), .refl _⟩
  | case2 v o args ty trace hpure hnew =>
    have hv := h _ _ _ rfl
    exact ⟨fun n hn => rep_set_of_ne (ne_of_mem_of_not_mem hn hv), Sharing.extends_insert hnew v⟩
  | case3 => exact .refl known m
  | case4 => exact .refl known m

lemma of_append (stmts stmts' : List Stmt) :
    of (stmts ++ stmts') = stmts'.foldl next (of stmts) :=
  List.foldl_append ..

lemma of_concat (stmts : List Stmt) (s : Stmt) : of (stmts ++ [s]) = (of stmts).next s :=
  of_append ..

/-- The statements bind variables that were not known. -/
theorem later_append {stmts stmts' : List Stmt}
    (h : ∀ s ∈ stmts', ∀ v t trace, s = .letIn v t trace → v.tag ∉ known) :
    (of stmts).Later known (of (stmts ++ stmts')) := by
  rw [of_append]
  induction stmts' generalizing stmts with
  | nil => exact .refl known _
  | cons s rest ih =>
    obtain ⟨hs, hrest⟩ := List.forall_mem_cons.1 h
    rw [List.foldl_cons, ← of_concat]
    refine Later.trans ?_ (ih hrest)
    rw [of_concat]
    exact later_next hs

/-- An operation without effects stands for the result of the first application that is equal to
it. -/
theorem exists_next {o : Op} (hpure : o.isPure = true) (m : Merging) (v : Var) (args : List Term)
    (ty : Ty) (trace : Trace) : ∃ u, (m.next (.letIn v (.op o args ty) trace)).rep v.tag = u.tag ∧
      (m.next (.letIn v (.op o args ty) trace)).results.get? (m.application o args) = some u ∧
      ∀ u', m.results.get? (m.application o args) = some u' → u' = u := by
  rw [next, if_pos hpure]
  cases hfound : m.results.get? (m.application o args) with
  | some u => exact ⟨u, rep_set_self m v _, hfound, fun _ h => (Option.some.inj h).symm⟩
  | none =>
    exact ⟨v, rep_set_self m v _, Sharing.get?_insert_self .., fun _ h => by cases h⟩

/-- Nothing changes for operands that were known. -/
theorem Later.application (h : m.Later known m') {args : List Term}
    (hargs : ∀ v ∈ Term.varsOfAll args, v.tag ∈ known) (o : Op) :
    (m'.application o args == m.application o args) = true :=
  Application.beq_iff.2 ⟨rfl, Term.codeAll_retag_congr fun v hv => h.rep _ (hargs v hv)⟩

lemma Later.get? (h : m.Later known m') {args : List Term}
    (hargs : ∀ v ∈ Term.varsOfAll args, v.tag ∈ known) {o : Op} {u : Var}
    (hu : m.results.get? (m.application o args) = some u) :
    m'.results.get? (m'.application o args) = some u := by
  rw [Sharing.get?_congr (h.application hargs o)]
  exact h.results.get? hu

end Merging

end Residual
