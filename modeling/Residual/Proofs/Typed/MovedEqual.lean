import Residual.Proofs.Typed.Moved
import Residual.Typed.Order

/-!
What tells types and terms apart when their positions change.

The positions of code never count. The traces of bindings do: two bindings at different places
are different terms. A move is faithful if it tells traces apart, and orders them, as they were
before. Under a faithful move all comparisons have the same answers, so unions keep their members
in the same order.
-/

namespace Residual

/-- Traces are told apart and ordered as they were before. -/
structure Move.Faithful (m : Move) : Prop where
  inj : ∀ {s t}, m.trace s = m.trace t → s = t
  cmp : ∀ s t, Code.cmp (m.trace s).code (m.trace t).code = Code.cmp s.code t.code

namespace Move

/-- Move the positions of code only. -/
def code (f : Span → Span) : Move := ⟨f, id⟩

lemma faithful_code (f : Span → Span) : (code f).Faithful := ⟨fun h => h, fun _ _ => rfl⟩

lemma Faithful.beq {m : Move} (h : m.Faithful) (s t : Trace) :
    (m.trace s == m.trace t) = (s == t) := by
  rw [Bool.eq_iff_iff, beq_iff_eq, beq_iff_eq]
  exact ⟨h.inj, congrArg m.trace⟩

end Move

@[simp] lemma MapKind.beq_moved (m : Move) (k l : MapKind) :
    (k.moved m == l.moved m) = (k == l) := by
  change (k.moved m).beq (l.moved m) = k.beq l
  cases k <;> cases l <;> simp [MapKind.moved, MapKind.beq]

@[simp] lemma MapKind.code_moved (m : Move) (k : MapKind) : (k.moved m).code = k.code := by
  cases k <;> simp [MapKind.moved, MapKind.code]

@[simp] lemma Fields.isEmpty_moved (m : Move) (fields : Fields Term) :
    (Fields.moved m fields).isEmpty = fields.isEmpty :=
  List.isEmpty_map ..

lemma Identity.accepts_moved (m : Move) (i : Identity) (symbol : Nat) (env : Env) :
    i.accepts symbol (env.moved m) = i.accepts symbol env := by
  cases env <;> rfl

section

variable {m : Move} {i : Identity}

/-! ### Equality -/

mutual

lemma Ty.beq_moved (h : m.Faithful) (a b : Ty) : (a.moved m).beq i (b.moved m) = a.beq i b := by
  match a with
  | .prim _ => cases b <;> rfl
  | .list as => cases b <;> simp only [Ty.moved, Ty.beq, Ty.beqAll_moved h as]
  | .lit _ => cases b <;> rfl
  | .map as k =>
    cases b <;> simp only [Ty.moved, Ty.beq, Ty.beqFields_moved h as, MapKind.beq_moved]
  | .layout _ e k => cases b <;> simp only [Ty.moved, Ty.beq, Env.beq_moved h e, MapKind.beq_moved]
  | .closure a c => cases b <;> simp only [Ty.moved, Ty.beq, Ty.beq_moved h a, Ty.beq_moved h c]
  | .union as => cases b <;> simp only [Ty.moved, Ty.beq, Ty.beqAll_moved h as]
  | .recur _ => cases b <;> rfl
  | .array _ a => cases b <;> simp only [Ty.moved, Ty.beq, Ty.beq_moved h a]
  | .foreign _ ps => cases b <;> simp only [Ty.moved, Ty.beq, ForeignPart.beqAll_moved h ps]
termination_by structural a

lemma Ty.beqAll_moved (h : m.Faithful) (as bs : List Ty) :
    Ty.beqAll i (Ty.movedAll m as) (Ty.movedAll m bs) = Ty.beqAll i as bs := by
  match as with
  | [] => cases bs <;> rfl
  | a :: as => cases bs <;> simp only [Ty.movedAll, Ty.beqAll, Ty.beq_moved h a,
    Ty.beqAll_moved h as]
termination_by structural as

lemma Ty.beqFields_moved (h : m.Faithful) (as bs : List (Name × Ty)) :
    Ty.beqFields i (Ty.movedFields m as) (Ty.movedFields m bs) = Ty.beqFields i as bs := by
  match as with
  | [] => cases bs <;> rfl
  | (x, a) :: as =>
    cases bs <;> simp only [Ty.movedFields, Ty.beqFields, Ty.beq_moved h a, Ty.beqFields_moved h as]
termination_by structural as

lemma ForeignPart.beq_moved (h : m.Faithful) (a b : ForeignPart) :
    (a.moved m).beq i (b.moved m) = a.beq i b := by
  match a with
  | .text _ => cases b <;> rfl
  | .type a => cases b <;> simp only [ForeignPart.moved, ForeignPart.beq, Ty.beq_moved h a]
termination_by structural a

lemma ForeignPart.beqAll_moved (h : m.Faithful) (as bs : List ForeignPart) :
    ForeignPart.beqAll i (ForeignPart.movedAll m as) (ForeignPart.movedAll m bs) =
      ForeignPart.beqAll i as bs := by
  match as with
  | [] => cases bs <;> rfl
  | a :: as =>
    cases bs <;> simp only [ForeignPart.movedAll, ForeignPart.beqAll, ForeignPart.beq_moved h a,
      ForeignPart.beqAll_moved h as]
termination_by structural as

lemma Var.beq_moved (h : m.Faithful) (a b : Var) : (a.moved m).beq i (b.moved m) = a.beq i b := by
  match a with
  | ⟨t, a⟩ => simp only [Var.moved, Var.beq, Var.tag_moved, Var.ty_moved, Ty.beq_moved h a]
termination_by structural a

lemma Var.beqAll_moved (h : m.Faithful) (as bs : List Var) :
    Var.beqAll i (Var.movedAll m as) (Var.movedAll m bs) = Var.beqAll i as bs := by
  match as with
  | [] => cases bs <;> rfl
  | a :: as =>
    cases bs <;> simp only [Var.movedAll, Var.beqAll, Var.beq_moved h a, Var.beqAll_moved h as]
termination_by structural as

lemma Term.beq_moved (h : m.Faithful) (a b : Term) :
    (a.moved m).beq i (b.moved m) = a.beq i b := by
  match a with
  | .type a => cases b <;> simp only [Term.moved, Term.beq, Ty.beq_moved h a]
  | .var v => cases b <;> simp only [Term.moved, Term.beq, Var.beq_moved h v]
  | .tuple as => cases b <;> simp only [Term.moved, Term.beq, Term.beqAll_moved h as]
  | .map e k =>
    cases b <;> simp only [Term.moved, Term.beq, Env.beq_moved h e, MapKind.beq_moved]
  | .box a s => cases b <;> simp only [Term.moved, Term.beq, Term.beq_moved h a, Ty.beq_moved h s]
  | .lit _ => cases b <;> rfl
  | .letIn v a r s =>
    cases b <;> simp only [Term.moved, Term.beq, Var.beq_moved h v, Term.beq_moved h a,
      Term.beq_moved h r, h.beq]
  | .state a r s =>
    cases b <;> simp only [Term.moved, Term.beq, Term.beq_moved h a, Term.beq_moved h r, h.beq]
  | .op _ as s =>
    cases b <;> simp only [Term.moved, Term.beq, Term.beqAll_moved h as, Ty.beq_moved h s]
  | .call _ _ vs s =>
    cases b <;> simp only [Term.moved, Term.beq, Var.beqAll_moved h vs, Ty.beq_moved h s]
termination_by structural a

lemma Term.beqAll_moved (h : m.Faithful) (as bs : List Term) :
    Term.beqAll i (Term.movedAll m as) (Term.movedAll m bs) = Term.beqAll i as bs := by
  match as with
  | [] => cases bs <;> rfl
  | a :: as =>
    cases bs <;> simp only [Term.movedAll, Term.beqAll, Term.beq_moved h a, Term.beqAll_moved h as]
termination_by structural as

lemma Env.beq_moved (h : m.Faithful) (a b : Env) : (a.moved m).beq i (b.moved m) = a.beq i b := by
  match a with
  | .plain as => simp only [Env.moved, Env.beq, Env.visible_moved, Env.beqFields_moved h _ as]
  | .restricted as used =>
    simp only [Env.moved, Env.beq, Env.visible_moved, Env.beqFields_moved h _ as]
  | .consed symbol as =>
    simp only [Env.moved, Env.beq, Env.visible_moved, Env.beqFields_moved h _ as,
      Identity.accepts_moved]
termination_by structural a

lemma Env.beqFields_moved (h : m.Faithful) (keep : Name → Bool) (as bs : List (Name × Term)) :
    Env.beqFields i keep (Env.movedFields m as) (Fields.moved m bs) =
      Env.beqFields i keep as bs := by
  match as with
  | [] => simp only [Env.movedFields, Env.beqFields, Fields.isEmpty_moved]
  | (x, a) :: as =>
    cases bs with
    | nil =>
      have ih := Env.beqFields_moved h keep as []
      rw [Fields.moved_nil] at ih
      simp only [Env.movedFields, Env.beqFields, Fields.moved_nil, ih]
    | cons e bs =>
      have ih := Env.beqFields_moved h keep as (e :: bs)
      rw [Fields.moved_cons] at ih
      simp only [Env.movedFields, Env.beqFields, Fields.moved_cons, Term.beq_moved h a,
        Env.beqFields_moved h keep as bs, ih]
termination_by structural as

end

/-! ### Order -/

mutual

lemma Ty.cmp_moved (h : m.Faithful) (a b : Ty) : (a.moved m).cmp i (b.moved m) = a.cmp i b := by
  match a with
  | .prim _ => cases b <;> rfl
  | .list as => cases b <;> simp only [Ty.moved, Ty.cmp, Ty.rank, Ty.cmpAll_moved h as]
  | .lit _ => cases b <;> rfl
  | .map as k =>
    cases b <;> simp only [Ty.moved, Ty.cmp, Ty.rank, Ty.cmpFields_moved h as, MapKind.code_moved]
  | .layout _ e k =>
    cases b <;> simp only [Ty.moved, Ty.cmp, Ty.rank, Env.cmp_moved h e, MapKind.code_moved]
  | .closure a c =>
    cases b <;> simp only [Ty.moved, Ty.cmp, Ty.rank, Ty.cmp_moved h a, Ty.cmp_moved h c]
  | .union as => cases b <;> simp only [Ty.moved, Ty.cmp, Ty.rank, Ty.cmpAll_moved h as]
  | .recur _ => cases b <;> rfl
  | .array _ a => cases b <;> simp only [Ty.moved, Ty.cmp, Ty.rank, Ty.cmp_moved h a]
  | .foreign _ ps =>
    cases b <;> simp only [Ty.moved, Ty.cmp, Ty.rank, ForeignPart.cmpAll_moved h ps]
termination_by structural a

lemma Ty.cmpAll_moved (h : m.Faithful) (as bs : List Ty) :
    Ty.cmpAll i (Ty.movedAll m as) (Ty.movedAll m bs) = Ty.cmpAll i as bs := by
  match as with
  | [] => cases bs <;> rfl
  | a :: as => cases bs <;> simp only [Ty.movedAll, Ty.cmpAll, Ty.cmp_moved h a,
    Ty.cmpAll_moved h as]
termination_by structural as

lemma Ty.cmpFields_moved (h : m.Faithful) (as bs : List (Name × Ty)) :
    Ty.cmpFields i (Ty.movedFields m as) (Ty.movedFields m bs) = Ty.cmpFields i as bs := by
  match as with
  | [] => cases bs <;> rfl
  | (x, a) :: as =>
    cases bs <;> simp only [Ty.movedFields, Ty.cmpFields, Ty.cmp_moved h a, Ty.cmpFields_moved h as]
termination_by structural as

lemma ForeignPart.cmp_moved (h : m.Faithful) (a b : ForeignPart) :
    (a.moved m).cmp i (b.moved m) = a.cmp i b := by
  match a with
  | .text _ => cases b <;> rfl
  | .type a =>
    cases b <;> simp only [ForeignPart.moved, ForeignPart.cmp, ForeignPart.rank, Ty.cmp_moved h a]
termination_by structural a

lemma ForeignPart.cmpAll_moved (h : m.Faithful) (as bs : List ForeignPart) :
    ForeignPart.cmpAll i (ForeignPart.movedAll m as) (ForeignPart.movedAll m bs) =
      ForeignPart.cmpAll i as bs := by
  match as with
  | [] => cases bs <;> rfl
  | a :: as =>
    cases bs <;> simp only [ForeignPart.movedAll, ForeignPart.cmpAll, ForeignPart.cmp_moved h a,
      ForeignPart.cmpAll_moved h as]
termination_by structural as

lemma Var.cmp_moved (h : m.Faithful) (a b : Var) : (a.moved m).cmp i (b.moved m) = a.cmp i b := by
  match a with
  | ⟨t, a⟩ => simp only [Var.moved, Var.cmp, Var.tag_moved, Var.ty_moved, Ty.cmp_moved h a]
termination_by structural a

lemma Var.cmpAll_moved (h : m.Faithful) (as bs : List Var) :
    Var.cmpAll i (Var.movedAll m as) (Var.movedAll m bs) = Var.cmpAll i as bs := by
  match as with
  | [] => cases bs <;> rfl
  | a :: as =>
    cases bs <;> simp only [Var.movedAll, Var.cmpAll, Var.cmp_moved h a, Var.cmpAll_moved h as]
termination_by structural as

lemma Term.cmp_moved (h : m.Faithful) (a b : Term) :
    (a.moved m).cmp i (b.moved m) = a.cmp i b := by
  match a with
  | .type a => cases b <;> simp only [Term.moved, Term.cmp, Term.rank, Ty.cmp_moved h a]
  | .var v => cases b <;> simp only [Term.moved, Term.cmp, Term.rank, Var.cmp_moved h v]
  | .tuple as => cases b <;> simp only [Term.moved, Term.cmp, Term.rank, Term.cmpAll_moved h as]
  | .map e k =>
    cases b <;> simp only [Term.moved, Term.cmp, Term.rank, Env.cmp_moved h e, MapKind.code_moved]
  | .box a s =>
    cases b <;> simp only [Term.moved, Term.cmp, Term.rank, Term.cmp_moved h a, Ty.cmp_moved h s]
  | .lit _ => cases b <;> rfl
  | .letIn v a r s =>
    cases b <;> simp only [Term.moved, Term.cmp, Term.rank, Var.cmp_moved h v, Term.cmp_moved h a,
      Term.cmp_moved h r, h.cmp]
  | .state a r s =>
    cases b <;> simp only [Term.moved, Term.cmp, Term.rank, Term.cmp_moved h a, Term.cmp_moved h r,
      h.cmp]
  | .op _ as s =>
    cases b <;> simp only [Term.moved, Term.cmp, Term.rank, Term.cmpAll_moved h as,
      Ty.cmp_moved h s]
  | .call _ _ vs s =>
    cases b <;> simp only [Term.moved, Term.cmp, Term.rank, Var.cmpAll_moved h vs, Ty.cmp_moved h s]
termination_by structural a

lemma Term.cmpAll_moved (h : m.Faithful) (as bs : List Term) :
    Term.cmpAll i (Term.movedAll m as) (Term.movedAll m bs) = Term.cmpAll i as bs := by
  match as with
  | [] => cases bs <;> rfl
  | a :: as =>
    cases bs <;> simp only [Term.movedAll, Term.cmpAll, Term.cmp_moved h a, Term.cmpAll_moved h as]
termination_by structural as

lemma Env.cmp_moved (h : m.Faithful) (a b : Env) : (a.moved m).cmp i (b.moved m) = a.cmp i b := by
  match a with
  | .plain as => simp only [Env.moved, Env.cmp, Env.visible_moved, Env.cmpFields_moved h _ as]
  | .restricted as used =>
    simp only [Env.moved, Env.cmp, Env.visible_moved, Env.cmpFields_moved h _ as]
  | .consed symbol as =>
    simp only [Env.moved, Env.cmp, Env.visible_moved, Env.cmpFields_moved h _ as,
      Identity.accepts_moved]
termination_by structural a

lemma Env.cmpFields_moved (h : m.Faithful) (keep : Name → Bool) (as bs : List (Name × Term)) :
    Env.cmpFields i keep (Env.movedFields m as) (Fields.moved m bs) =
      Env.cmpFields i keep as bs := by
  match as with
  | [] => simp only [Env.movedFields, Env.cmpFields, Fields.isEmpty_moved]
  | (x, a) :: as =>
    cases bs with
    | nil =>
      have ih := Env.cmpFields_moved h keep as []
      rw [Fields.moved_nil] at ih
      simp only [Env.movedFields, Env.cmpFields, Fields.moved_nil, ih]
    | cons e bs =>
      have ih := Env.cmpFields_moved h keep as (e :: bs)
      rw [Fields.moved_cons] at ih
      simp only [Env.movedFields, Env.cmpFields, Fields.moved_cons, Term.cmp_moved h a,
        Env.cmpFields_moved h keep as bs, ih]
termination_by structural as

end

end

/-! ### What is compared in evaluation -/

section

variable {m : Move} (h : m.Faithful)
include h

lemma Ty.eq_moved (a b : Ty) : (a.moved m == b.moved m) = (a == b) := by
  rw [Ty.beq_eq, Ty.beq_eq, Ty.beq_moved h]

lemma Ty.contains_moved (ts : List Ty) (t : Ty) :
    (ts.map (Ty.moved m)).contains (t.moved m) = ts.contains t := by
  induction ts with
  | nil => rfl
  | cons u rest ih => rw [List.map_cons, List.contains_cons, List.contains_cons, Ty.eq_moved h, ih]

lemma Fields.sameContent_moved (as bs : Fields Term) :
    Fields.sameContent (Fields.moved m as) (Fields.moved m bs) = Fields.sameContent as bs := by
  rw [Fields.sameContent_eq, Fields.sameContent_eq, ← Env.movedFields_eq m as,
    Env.beqFields_moved h]

omit h in
lemma Ty.flatMembers_moved (t : Ty) :
    (t.moved m).flatMembers = t.flatMembers.map (Ty.moved m) := by
  cases t with
  | union members => simp [Ty.moved, Ty.flatMembers]
  | _ => rfl

lemma Ty.insertLast_moved (t : Ty) (ts : List Ty) :
    Ty.insertLast (t.moved m) (ts.map (Ty.moved m)) = (Ty.insertLast t ts).map (Ty.moved m) := by
  induction ts with
  | nil => rfl
  | cons u rest ih =>
    simp only [List.map_cons, Ty.insertLast, Ty.cmp_moved h]
    split
    · rw [ih, List.map_cons]
    · rfl

lemma Ty.sort_moved (ts : List Ty) :
    Ty.sort (ts.map (Ty.moved m)) = (Ty.sort ts).map (Ty.moved m) := by
  have hfold : ∀ sorted : List Ty,
      (ts.map (Ty.moved m)).foldl (fun sorted t => Ty.insertLast t sorted)
        (sorted.map (Ty.moved m)) =
      (ts.foldl (fun sorted t => Ty.insertLast t sorted) sorted).map (Ty.moved m) := by
    induction ts with
    | nil => exact fun _ => rfl
    | cons t rest ih =>
      intro sorted
      rw [List.map_cons, List.foldl_cons, List.foldl_cons, Ty.insertLast_moved h, ih]
  rw [Ty.sort, Ty.sort, List.map_reverse, ← hfold []]
  rfl

omit h in
/-- Repeats are dropped at the same places. -/
lemma eraseReps_map {α β : Type} [BEq α] [BEq β] {g : α → β}
    (hg : ∀ a b, (g a == g b) = (a == b)) (l : List α) :
    (l.map g).eraseReps = l.eraseReps.map g := by
  have hloop : ∀ (l : List α) (a : α) (done : List α),
      List.eraseRepsBy.loop (fun a b => a == b) (g a) (l.map g) (done.map g) =
        (List.eraseRepsBy.loop (fun a b => a == b) a l done).map g := by
    intro l
    induction l with
    | nil =>
      intro a done
      simp [List.eraseRepsBy.loop]
    | cons b rest ih =>
      intro a done
      simp only [List.map_cons, List.eraseRepsBy.loop, hg]
      cases a == b with
      | true => exact ih a done
      | false => exact ih b (a :: done)
  cases l with
  | nil => rfl
  | cons a rest => exact hloop rest a []

lemma Ty.unionOf_moved (ts : List Ty) :
    Ty.unionOf (ts.map (Ty.moved m)) = (Ty.unionOf ts).moved m := by
  have hmembers : (Ty.sort ((ts.map (Ty.moved m)).flatMap Ty.flatMembers)).eraseReps =
      ((Ty.sort (ts.flatMap Ty.flatMembers)).eraseReps).map (Ty.moved m) := by
    rw [← eraseReps_map (Ty.eq_moved h), ← Ty.sort_moved h, List.map_flatMap, List.flatMap_map]
    simp only [Ty.flatMembers_moved]
  rw [Ty.unionOf, Ty.unionOf, hmembers]
  generalize (Ty.sort (ts.flatMap Ty.flatMembers)).eraseReps = members
  rcases members with _ | ⟨t, _ | ⟨u, rest⟩⟩
  · rfl
  · rfl
  · simp [Ty.moved]

end

end Residual
