import Residual.Proofs.Typed.Comparison

/-!
The maps in types and values: all functions that evaluation can get hold of through them.
-/

namespace Residual

mutual

/-- The kinds of the maps in a type, visible bindings only. -/
def Ty.kinds : Ty → List MapKind
  | .prim _ | .lit _ | .recur _ => []
  | .list items | .union items => Ty.kindsOfAll items
  | .map fields kind => kind :: Ty.kindsOfFields fields
  | .layout _ env kind => kind :: env.kinds
  | .closure dom range => dom.kinds ++ range.kinds
  | .array _ elem => elem.kinds
  | .foreign _ parts => ForeignPart.kindsOfAll parts

def Ty.kindsOfAll : List Ty → List MapKind
  | [] => []
  | t :: rest => t.kinds ++ Ty.kindsOfAll rest

def Ty.kindsOfFields : List (Name × Ty) → List MapKind
  | [] => []
  | (_, t) :: rest => t.kinds ++ Ty.kindsOfFields rest

def ForeignPart.kinds : ForeignPart → List MapKind
  | .text _ => []
  | .type t => t.kinds

def ForeignPart.kindsOfAll : List ForeignPart → List MapKind
  | [] => []
  | p :: rest => p.kinds ++ ForeignPart.kindsOfAll rest

/-- The kinds of the maps in a term. Of code only the result counts. -/
def Term.kinds : Term → List MapKind
  | .type t => t.kinds
  | .var ⟨_, t⟩ => t.kinds
  | .tuple items => Term.kindsOfAll items
  | .map env kind => kind :: env.kinds
  | .box inner t => inner.kinds ++ t.kinds
  | .lit _ => []
  | .letIn _ _ rest _ => rest.kinds
  | .state _ rest _ => rest.kinds
  | .op _ args t => Term.kindsOfAll args ++ t.kinds
  | .call _ _ _ t => t.kinds

def Term.kindsOfAll : List Term → List MapKind
  | [] => []
  | t :: rest => t.kinds ++ Term.kindsOfAll rest

def Env.kinds : Env → List MapKind
  | .plain m => Env.kindsOfFields (fun _ => true) m
  | .restricted m used => Env.kindsOfFields used.contains m
  | .consed _ m => Env.kindsOfFields (fun _ => true) m

def Env.kindsOfFields (keep : Name → Bool) : List (Name × Term) → List MapKind
  | [] => []
  | (x, t) :: rest =>
    if keep x then t.kinds ++ Env.kindsOfFields keep rest else Env.kindsOfFields keep rest

end

/-! ### Parts -/

lemma Ty.kindsOfAll_eq (ts : List Ty) : Ty.kindsOfAll ts = ts.flatMap Ty.kinds := by
  induction ts with
  | nil => rfl
  | cons t rest ih => rw [Ty.kindsOfAll, ih, List.flatMap_cons]

lemma Ty.kindsOfFields_eq (m : List (Name × Ty)) :
    Ty.kindsOfFields m = m.flatMap fun e => e.2.kinds := by
  induction m with
  | nil => rfl
  | cons e rest ih => rw [Ty.kindsOfFields, ih, List.flatMap_cons]

lemma ForeignPart.kindsOfAll_eq (ps : List ForeignPart) :
    ForeignPart.kindsOfAll ps = ps.flatMap ForeignPart.kinds := by
  induction ps with
  | nil => rfl
  | cons p rest ih => rw [ForeignPart.kindsOfAll, ih, List.flatMap_cons]

lemma Term.kindsOfAll_eq (ts : List Term) : Term.kindsOfAll ts = ts.flatMap Term.kinds := by
  induction ts with
  | nil => rfl
  | cons t rest ih => rw [Term.kindsOfAll, ih, List.flatMap_cons]

/-- The kinds of the maps in the bindings. -/
def Fields.kinds (m : Fields Term) : List MapKind := m.flatMap fun e => e.2.kinds

lemma Env.kindsOfFields_eq (keep : Name → Bool) (m : List (Name × Term)) :
    Env.kindsOfFields keep m = Fields.kinds (m.filter fun e => keep e.1) := by
  induction m with
  | nil => rfl
  | cons e rest ih =>
    rw [Env.kindsOfFields, ih, List.filter_cons]
    split <;> rfl

lemma Env.kinds_eq (env : Env) : env.kinds = Fields.kinds env.visible := by
  cases env with
  | plain m => rw [Env.kinds, kindsOfFields_eq, List.filter_eq_self.2 fun _ _ => rfl, visible]
  | consed s m => rw [Env.kinds, kindsOfFields_eq, List.filter_eq_self.2 fun _ _ => rfl, visible]
  | restricted m used => rw [Env.kinds, kindsOfFields_eq, visible]

lemma Fields.mem_kinds {m : Fields Term} {k : MapKind} :
    k ∈ Fields.kinds m ↔ ∃ e ∈ m, k ∈ e.2.kinds := List.mem_flatMap

lemma Term.kinds_var (v : Var) : (Term.var v).kinds = v.ty.kinds := by
  cases v
  rfl

/-! ### Canonical forms, types and unit values -/

mutual

lemma Ty.kinds_canon (t : Ty) : t.canon.kinds = t.kinds := by
  match t with
  | .prim _ | .lit _ | .recur _ => rfl
  | .list items => exact Ty.kindsOfAll_canon items
  | .union members => exact Ty.kindsOfAll_canon members
  | .map fields kind => exact congrArg (kind :: ·) (Ty.kindsOfFields_canon fields)
  | .layout l env kind => exact congrArg (kind :: ·) (Env.kinds_canon env)
  | .closure dom range =>
    rw [Ty.canon, Ty.kinds, Ty.kinds, Ty.kinds_canon dom, Ty.kinds_canon range]
  | .array storage elem => exact Ty.kinds_canon elem
  | .foreign target parts => exact ForeignPart.kindsOfAll_canon parts
termination_by structural t

lemma Ty.kindsOfAll_canon (ts : List Ty) :
    Ty.kindsOfAll (Ty.canonAll ts) = Ty.kindsOfAll ts := by
  match ts with
  | [] => rfl
  | t :: rest =>
    rw [Ty.canonAll, Ty.kindsOfAll, Ty.kindsOfAll, Ty.kinds_canon t, Ty.kindsOfAll_canon rest]
termination_by structural ts

lemma Ty.kindsOfFields_canon (m : List (Name × Ty)) :
    Ty.kindsOfFields (Ty.canonFields m) = Ty.kindsOfFields m := by
  match m with
  | [] => rfl
  | (x, t) :: rest =>
    rw [Ty.canonFields, Ty.kindsOfFields, Ty.kindsOfFields, Ty.kinds_canon t,
      Ty.kindsOfFields_canon rest]
termination_by structural m

lemma ForeignPart.kinds_canon (p : ForeignPart) : p.canon.kinds = p.kinds := by
  match p with
  | .text s => rfl
  | .type t => exact Ty.kinds_canon t
termination_by structural p

lemma ForeignPart.kindsOfAll_canon (ps : List ForeignPart) :
    ForeignPart.kindsOfAll (ForeignPart.canonAll ps) = ForeignPart.kindsOfAll ps := by
  match ps with
  | [] => rfl
  | p :: rest =>
    rw [ForeignPart.canonAll, ForeignPart.kindsOfAll, ForeignPart.kindsOfAll,
      ForeignPart.kinds_canon p, ForeignPart.kindsOfAll_canon rest]
termination_by structural ps

lemma Term.kinds_canon (t : Term) : t.canon.kinds = t.kinds := by
  match t with
  | .type t => exact Ty.kinds_canon t
  | .var ⟨_, t⟩ => exact Ty.kinds_canon t
  | .tuple items => exact Term.kindsOfAll_canon items
  | .map env kind => exact congrArg (kind :: ·) (Env.kinds_canon env)
  | .box inner t =>
    rw [Term.canon, Term.kinds, Term.kinds, Term.kinds_canon inner, Ty.kinds_canon t]
  | .lit _ => rfl
  | .letIn _ _ rest _ => exact Term.kinds_canon rest
  | .state _ rest _ => exact Term.kinds_canon rest
  | .op _ args t =>
    rw [Term.canon, Term.kinds, Term.kinds, Term.kindsOfAll_canon args, Ty.kinds_canon t]
  | .call _ _ _ t => exact Ty.kinds_canon t
termination_by structural t

lemma Term.kindsOfAll_canon (ts : List Term) :
    Term.kindsOfAll (Term.canonAll ts) = Term.kindsOfAll ts := by
  match ts with
  | [] => rfl
  | t :: rest =>
    rw [Term.canonAll, Term.kindsOfAll, Term.kindsOfAll, Term.kinds_canon t,
      Term.kindsOfAll_canon rest]
termination_by structural ts

lemma Env.kinds_canon (env : Env) : env.canon.kinds = env.kinds := by
  match env with
  | .plain m => exact Env.kindsOfFields_canon _ m
  | .restricted m used => exact Env.kindsOfFields_canon _ m
  | .consed _ m => exact Env.kindsOfFields_canon _ m
termination_by structural env

lemma Env.kindsOfFields_canon (keep : Name → Bool) (m : List (Name × Term)) :
    Env.kindsOfFields (fun _ => true) (Env.canonFields keep m) = Env.kindsOfFields keep m := by
  match m with
  | [] => rfl
  | (x, t) :: rest =>
    rw [Env.canonFields, Env.kindsOfFields]
    split
    · rw [Env.kindsOfFields, if_pos rfl, Term.kinds_canon t, Env.kindsOfFields_canon keep rest]
    · exact Env.kindsOfFields_canon keep rest
termination_by structural m

end

mutual

/-- The type of a term has no maps that the term does not have. -/
theorem Term.kinds_ty (t : Term) : t.ty.kinds ⊆ t.kinds := by
  match t with
  | .type _ | .var ⟨_, _⟩ | .call _ _ _ _ => exact List.Subset.refl _
  | .lit _ => exact List.nil_subset _
  | .tuple items => exact Term.kinds_tys items
  | .map env kind => exact List.cons_subset_cons kind (Env.kinds_tys env)
  | .box _ _ | .op _ _ _ => exact List.subset_append_right ..
  | .letIn _ _ rest _ => exact Term.kinds_ty rest
  | .state _ rest _ => exact Term.kinds_ty rest
termination_by structural t

lemma Term.kinds_tys (ts : List Term) : Ty.kindsOfAll (Term.tys ts) ⊆ Term.kindsOfAll ts := by
  match ts with
  | [] => exact List.Subset.refl _
  | t :: rest =>
    exact List.append_subset.2 ⟨List.Subset.trans (Term.kinds_ty t) (List.subset_append_left ..),
      List.Subset.trans (Term.kinds_tys rest) (List.subset_append_right ..)⟩
termination_by structural ts

lemma Env.kinds_tys (env : Env) : Ty.kindsOfFields (Term.envTys env) ⊆ env.kinds := by
  match env with
  | .plain m => exact Env.kinds_fieldTys _ m
  | .restricted m used => exact Env.kinds_fieldTys _ m
  | .consed _ m => exact Env.kinds_fieldTys _ m
termination_by structural env

lemma Env.kinds_fieldTys (keep : Name → Bool) (m : List (Name × Term)) :
    Ty.kindsOfFields (Term.fieldTys keep m) ⊆ Env.kindsOfFields keep m := by
  match m with
  | [] => exact List.Subset.refl _
  | (x, t) :: rest =>
    rw [Term.fieldTys, Env.kindsOfFields]
    split
    · exact List.append_subset.2 ⟨List.Subset.trans (Term.kinds_ty t) (List.subset_append_left ..),
        List.Subset.trans (Env.kinds_fieldTys keep rest) (List.subset_append_right ..)⟩
    · exact Env.kinds_fieldTys keep rest
termination_by structural m

end

mutual

lemma Term.kinds_ofUnit (t : Ty) : (Term.ofUnit t).kinds = t.kinds := by
  match t with
  | .list items => exact Term.kinds_ofUnits items
  | .map fields kind => exact congrArg (kind :: ·) (Term.kinds_ofUnitFields fields)
  | .prim _ | .lit _ | .layout _ _ _ | .closure _ _ | .union _ | .recur _ | .array _ _
  | .foreign _ _ => rfl
termination_by structural t

lemma Term.kinds_ofUnits (ts : List Ty) :
    Term.kindsOfAll (Term.ofUnits ts) = Ty.kindsOfAll ts := by
  match ts with
  | [] => rfl
  | t :: rest =>
    rw [Term.ofUnits, Term.kindsOfAll, Ty.kindsOfAll, Term.kinds_ofUnit t, Term.kinds_ofUnits rest]
termination_by structural ts

lemma Term.kinds_ofUnitFields (m : List (Name × Ty)) :
    Env.kindsOfFields (fun _ => true) (Term.ofUnitFields m) = Ty.kindsOfFields m := by
  match m with
  | [] => rfl
  | (x, t) :: rest =>
    rw [Term.ofUnitFields, Env.kindsOfFields, if_pos rfl, Ty.kindsOfFields, Term.kinds_ofUnit t,
      Term.kinds_ofUnitFields rest]
termination_by structural m

end

/-- A union has the maps of its members only. -/
theorem Ty.kinds_unionOf {ts : List Ty} {k : MapKind} (h : k ∈ (Ty.unionOf ts).kinds) :
    ∃ t ∈ ts, k ∈ t.kinds := by
  have hmembers : ∀ u ∈ (Ty.sort (ts.flatMap Ty.flatMembers)).eraseReps, k ∈ u.kinds →
      ∃ t ∈ ts, k ∈ t.kinds := by
    intro u hu hk
    obtain ⟨t, ht, hut⟩ := List.mem_flatMap.1 (Ty.mem_sort (Ty.mem_eraseReps hu))
    refine ⟨t, ht, ?_⟩
    cases t with
    | union members =>
      rw [Ty.kinds, Ty.kindsOfAll_eq]
      exact List.mem_flatMap.2 ⟨u, hut, hk⟩
    | _ => rw [← List.mem_singleton.1 hut]; exact hk
  unfold Ty.unionOf at h
  split at h
  · rename_i t heq
    exact hmembers t (by rw [heq]; exact List.mem_singleton.2 rfl) h
  · rw [Ty.kinds, Ty.kindsOfAll_eq] at h
    obtain ⟨u, hu, hk⟩ := List.mem_flatMap.1 h
    exact hmembers u hu hk

end Residual
