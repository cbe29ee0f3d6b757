import Residual.Proofs.Surface.Sorted
import Residual.Proofs.Typed.Members

/-!
Values that evaluation can meet: data and variables, or the mark that no clause of a match
applied, with names in ascending order wherever an environment lists them, and sorted code in
functions. What is formed stays formed under all that evaluation does to values.
-/

namespace Residual

def MapKind.Sorted : MapKind → Prop
  | .function _ body => body.Sorted
  | .recFunction _ _ body => body.Sorted
  | .module => True

mutual

/-- Fields ascend, and packed environments are formed. -/
def Ty.Formed : Ty → Prop
  | .prim _ | .lit _ | .recur _ => True
  | .list items | .union items => Ty.AllFormed items
  | .map fields kind => Fields.Ascending fields ∧ Ty.FieldsFormed fields ∧ kind.Sorted
  | .layout _ env kind => env.Formed ∧ kind.Sorted
  | .closure dom range => dom.Formed ∧ range.Formed
  | .array _ elem => elem.Formed
  | .foreign _ parts => ForeignPart.AllFormed parts

def Ty.AllFormed : List Ty → Prop
  | [] => True
  | t :: rest => t.Formed ∧ Ty.AllFormed rest

def Ty.FieldsFormed : List (Name × Ty) → Prop
  | [] => True
  | (_, t) :: rest => t.Formed ∧ Ty.FieldsFormed rest

def ForeignPart.Formed : ForeignPart → Prop
  | .text _ => True
  | .type t => t.Formed

def ForeignPart.AllFormed : List ForeignPart → Prop
  | [] => True
  | p :: rest => p.Formed ∧ ForeignPart.AllFormed rest

def Var.Formed : Var → Prop
  | ⟨_, t⟩ => t.Formed

/-- A value without code in it, except that no clause of a match applied. -/
def Term.Formed : Term → Prop
  | .type t => t.Formed
  | .var v => v.Formed
  | .tuple items => Term.AllFormed items
  | .map env kind => env.Formed ∧ kind.Sorted
  | .box inner ty => inner.Formed ∧ ty.Formed
  | .lit _ => True
  | .op o args ty => o = .patternMiss ∧ Term.AllFormed args ∧ ty.Formed
  | .letIn _ _ _ _ | .state _ _ _ | .call _ _ _ _ => False

def Term.AllFormed : List Term → Prop
  | [] => True
  | t :: rest => t.Formed ∧ Term.AllFormed rest

def Env.Formed : Env → Prop
  | .plain m => Fields.Ascending m ∧ Env.FieldsFormed m
  | .restricted m used => Fields.Ascending m ∧ Env.FieldsFormed m ∧ used.Ascending
  | .consed _ m => Fields.Ascending m ∧ Env.FieldsFormed m

def Env.FieldsFormed : List (Name × Term) → Prop
  | [] => True
  | (_, t) :: rest => t.Formed ∧ Env.FieldsFormed rest

end

lemma Ty.allFormed_iff {ts : List Ty} : Ty.AllFormed ts ↔ ∀ t ∈ ts, t.Formed := by
  induction ts with
  | nil => simp [Ty.AllFormed]
  | cons t rest ih => simp [Ty.AllFormed, ih]

lemma Ty.fieldsFormed_iff {m : List (Name × Ty)} :
    Ty.FieldsFormed m ↔ ∀ e ∈ m, e.2.Formed := by
  induction m with
  | nil => simp [Ty.FieldsFormed]
  | cons e rest ih => simp [Ty.FieldsFormed, ih]

lemma ForeignPart.allFormed_iff {ps : List ForeignPart} :
    ForeignPart.AllFormed ps ↔ ∀ p ∈ ps, p.Formed := by
  induction ps with
  | nil => simp [ForeignPart.AllFormed]
  | cons p rest ih => simp [ForeignPart.AllFormed, ih]

lemma Term.allFormed_iff {ts : List Term} : Term.AllFormed ts ↔ ∀ t ∈ ts, t.Formed := by
  induction ts with
  | nil => simp [Term.AllFormed]
  | cons t rest ih => simp [Term.AllFormed, ih]

lemma Env.fieldsFormed_iff {m : List (Name × Term)} :
    Env.FieldsFormed m ↔ ∀ e ∈ m, e.2.Formed := by
  induction m with
  | nil => simp [Env.FieldsFormed]
  | cons e rest ih => simp [Env.FieldsFormed, ih]

/-- A map of formed values in ascending order. -/
def Fields.Formed (m : Fields Term) : Prop := Fields.Ascending m ∧ Env.FieldsFormed m

namespace Fields.Formed

lemma get? {m : Fields Term} (h : Fields.Formed m) {x : Name} {t : Term}
    (hx : Fields.get? m x = some t) : t.Formed :=
  Env.fieldsFormed_iff.1 h.2 _ (Fields.mem_of_get? hx)

lemma filter {m : Fields Term} (h : Fields.Formed m) (p : Name × Term → Bool) :
    Fields.Formed (m.filter p) :=
  ⟨List.Pairwise.sublist List.filter_sublist h.1,
    Env.fieldsFormed_iff.2 fun e he => Env.fieldsFormed_iff.1 h.2 e (List.mem_filter.1 he).1⟩

lemma insert {m : Fields Term} (h : Fields.Formed m) {x : Name} {t : Term} (ht : t.Formed) :
    Fields.Formed (Fields.insert m x t) := by
  refine ⟨h.1.insert x t, Env.fieldsFormed_iff.2 fun e he => ?_⟩
  rcases Fields.mem_insert he with rfl | he
  · exact ht
  · exact Env.fieldsFormed_iff.1 h.2 e he

lemma erase {m : Fields Term} (h : Fields.Formed m) (x : Name) :
    Fields.Formed (Fields.erase m x) :=
  h.filter _

end Fields.Formed

lemma Fields.mem_ofList {α : Type} {entries : List (Name × α)} {e : Name × α}
    (h : e ∈ Fields.ofList entries) : e ∈ entries := by
  suffices ∀ m : Fields α, e ∈ entries.foldl (fun m e => Fields.insert m e.1 e.2) m →
      e ∈ m ∨ e ∈ entries by
    rcases this [] h with h | h
    · cases h
    · exact h
  clear h
  induction entries with
  | nil => exact fun m h => .inl h
  | cons d rest ih =>
    intro m h
    rcases ih _ h with h | h
    · rcases Fields.mem_insert h with rfl | h
      · exact .inr (List.mem_cons_self ..)
      · exact .inl h
    · exact .inr (List.mem_cons_of_mem _ h)

lemma Fields.formed_ofList {entries : List (Name × Term)} (h : ∀ e ∈ entries, e.2.Formed) :
    Fields.Formed (Fields.ofList entries) :=
  ⟨Fields.ascending_ofList entries,
    Env.fieldsFormed_iff.2 fun e he => h e (Fields.mem_ofList he)⟩

namespace Env.Formed

lemma ascending {env : Env} (h : env.Formed) : env.Ascending := by
  cases env with
  | plain m => exact h.1
  | restricted m used => exact ⟨h.1, h.2.2⟩
  | consed s m => exact h.1

lemma visible {env : Env} (h : env.Formed) : Fields.Formed env.visible := by
  cases env with
  | plain m => exact h
  | restricted m used => exact Fields.Formed.filter ⟨h.1, h.2.1⟩ _
  | consed s m => exact h

lemma get? {env : Env} (h : env.Formed) {x : Name} {t : Term} (hx : env.get? x = some t) :
    t.Formed := by
  rw [h.ascending.get?_eq] at hx
  exact h.visible.get? hx

lemma bind {env : Env} (h : env.Formed) (x : Name) {t : Term} (ht : t.Formed) :
    (env.bind x t).Formed :=
  h.visible.insert ht

end Env.Formed

/-! ### Types of formed values, and values of formed types -/

lemma Term.fieldTys_eq (keep : Name → Bool) (m : List (Name × Term)) :
    Term.fieldTys keep m = (m.filter fun e => keep e.1).map fun e => (e.1, e.2.ty) := by
  induction m with
  | nil => rfl
  | cons e rest ih =>
    obtain ⟨x, t⟩ := e
    by_cases h : keep x = true
    · simp [Term.fieldTys, h, ih]
    · simp only [Bool.not_eq_true] at h
      simp [Term.fieldTys, h, ih]

lemma Term.envTys_eq (env : Env) :
    Term.envTys env = env.visible.map fun e => (e.1, e.2.ty) := by
  cases env with
  | restricted m used => exact Term.fieldTys_eq used.contains m
  | _ => rw [Term.envTys, Term.fieldTys_eq, List.filter_eq_self.2 fun _ _ => rfl, Env.visible]

lemma Term.tys_eq (ts : List Term) : Term.tys ts = ts.map Term.ty := by
  induction ts with
  | nil => rfl
  | cons t rest ih => simp [Term.tys, ih]

lemma Term.ty_var (v : Var) : (Term.var v).ty = v.ty := by
  cases v
  rfl

lemma Term.ofUnitFields_eq (m : List (Name × Ty)) :
    Term.ofUnitFields m = m.map fun e => (e.1, Term.ofUnit e.2) := by
  induction m with
  | nil => rfl
  | cons e rest ih => simp [Term.ofUnitFields, ih]

mutual

lemma Term.ty_ofUnit (t : Ty) : (Term.ofUnit t).ty = t := by
  match t with
  | .list items => rw [Term.ofUnit, Term.ty, Term.tys_ofUnits items]
  | .map fields kind =>
    rw [Term.ofUnit, Term.ty, Term.envTys, Term.fieldTys_ofUnitFields fields]
  | .prim _ | .lit _ | .layout _ _ _ | .closure _ _ | .union _ | .recur _ | .array _ _
  | .foreign _ _ => rfl
termination_by structural t

lemma Term.tys_ofUnits (ts : List Ty) : Term.tys (Term.ofUnits ts) = ts := by
  match ts with
  | [] => rfl
  | t :: rest => rw [Term.ofUnits, Term.tys, Term.ty_ofUnit t, Term.tys_ofUnits rest]
termination_by structural ts

lemma Term.fieldTys_ofUnitFields (fields : List (Name × Ty)) :
    Term.fieldTys (fun _ => true) (Term.ofUnitFields fields) = fields := by
  match fields with
  | [] => rfl
  | (x, t) :: rest =>
    rw [Term.ofUnitFields, Term.fieldTys, if_pos rfl, Term.ty_ofUnit t,
      Term.fieldTys_ofUnitFields rest]
termination_by structural fields

end

mutual

lemma Term.Formed.ty (t : Term) (h : t.Formed) : t.ty.Formed := by
  match t with
  | .type t => exact h
  | .var ⟨_, t⟩ => exact h
  | .tuple items => exact Term.AllFormed.tys items h
  | .map env kind =>
    obtain ⟨henv, hkind⟩ := h
    refine ⟨?_, Env.Formed.tys env henv, hkind⟩
    rw [Term.envTys_eq]
    exact List.pairwise_map.2 henv.visible.1
  | .box _ t => exact h.2
  | .lit _ => trivial
  | .op _ _ t => exact h.2.2
termination_by structural t

lemma Term.AllFormed.tys (ts : List Term) (h : Term.AllFormed ts) :
    Ty.AllFormed (Term.tys ts) := by
  match ts with
  | [] => trivial
  | t :: rest => exact ⟨Term.Formed.ty t h.1, Term.AllFormed.tys rest h.2⟩
termination_by structural ts

lemma Env.Formed.tys (env : Env) (h : env.Formed) : Ty.FieldsFormed (Term.envTys env) := by
  match env with
  | .plain m => exact Env.FieldsFormed.tys _ m h.2
  | .restricted m used => exact Env.FieldsFormed.tys _ m h.2.1
  | .consed _ m => exact Env.FieldsFormed.tys _ m h.2
termination_by structural env

lemma Env.FieldsFormed.tys (keep : Name → Bool) (m : List (Name × Term))
    (h : Env.FieldsFormed m) : Ty.FieldsFormed (Term.fieldTys keep m) := by
  match m with
  | [] => trivial
  | (x, t) :: rest =>
    rw [Term.fieldTys]
    split
    · exact ⟨Term.Formed.ty t h.1, Env.FieldsFormed.tys keep rest h.2⟩
    · exact Env.FieldsFormed.tys keep rest h.2
termination_by structural m

end

mutual

lemma Term.formed_ofUnit (t : Ty) (h : t.Formed) : (Term.ofUnit t).Formed := by
  match t with
  | .list items => exact Term.formed_ofUnits items h
  | .map fields kind =>
    obtain ⟨hasc, hfields, hkind⟩ := h
    refine ⟨⟨?_, Term.formed_ofUnitFields fields hfields⟩, hkind⟩
    rw [Term.ofUnitFields_eq]
    exact List.pairwise_map.2 hasc
  | .prim _ | .lit _ | .layout _ _ _ | .closure _ _ | .union _ | .recur _ | .array _ _
  | .foreign _ _ => exact h
termination_by structural t

lemma Term.formed_ofUnits (ts : List Ty) (h : Ty.AllFormed ts) :
    Term.AllFormed (Term.ofUnits ts) := by
  match ts with
  | [] => trivial
  | t :: rest => exact ⟨Term.formed_ofUnit t h.1, Term.formed_ofUnits rest h.2⟩
termination_by structural ts

lemma Term.formed_ofUnitFields (m : List (Name × Ty)) (h : Ty.FieldsFormed m) :
    Env.FieldsFormed (Term.ofUnitFields m) := by
  match m with
  | [] => trivial
  | (x, t) :: rest => exact ⟨Term.formed_ofUnit t h.1, Term.formed_ofUnitFields rest h.2⟩
termination_by structural m

end

/-! ### Unions -/

lemma Ty.formed_flatMembers {t : Ty} (h : t.Formed) : ∀ u ∈ t.flatMembers, u.Formed := by
  cases t with
  | union members => exact Ty.allFormed_iff.1 h
  | _ =>
    intro u hu
    rw [List.mem_singleton.1 hu]
    exact h

lemma Ty.formed_unionOf {ts : List Ty} (h : ∀ t ∈ ts, t.Formed) : (Ty.unionOf ts).Formed := by
  have hall : ∀ u ∈ (Ty.sort (ts.flatMap Ty.flatMembers)).eraseReps, u.Formed := by
    intro u hu
    obtain ⟨t, ht, hut⟩ := List.mem_flatMap.1 (Ty.mem_sort (Ty.mem_eraseReps hu))
    exact Ty.formed_flatMembers (h t ht) u hut
  unfold Ty.unionOf
  split
  · rename_i t heq
    exact hall t (by rw [heq]; exact List.mem_singleton.2 rfl)
  · exact Ty.allFormed_iff.2 hall

end Residual
