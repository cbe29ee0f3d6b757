import Residual.Proofs.Typed.Run
import Residual.Typed.Equal.Quick

/-!
Terms that stand for the values of core programs.

A term reads as a value if it has the value's form: literals and tuples correspond, a map is a
function of the same outline, and what the map can see is what the function's environment says.
Variables are left to a parameter. If there are none, the term is itself a value; if their values
are given by bindings, the term is an expression that computes a value.

All functions come from one table of nodes, so that equal types are the same type.
-/

namespace Residual

variable (nodes : Interner ExprKind)

/-- The map is a function with the given name for itself, parameter and body. -/
def MapKind.Draws (kind : MapKind) (this : Option Name) (param : Name) (body : Outline) : Prop :=
  match kind with
  | .function x e => this = none ∧ param = x ∧ body = e.outline
  | .recFunction f x e => this = some f ∧ param = x ∧ body = e.outline
  | .module => False

/-- The map is a function with core code from the table. -/
def MapKind.Core : MapKind → Prop
  | .function _ e | .recFunction _ _ e => e.In nodes ∧ e.outline.Core
  | .module => False

mutual

/-- Types of core values. -/
def Ty.Core : Ty → Prop
  | .prim _ => True
  | .list items => Ty.AllCore items
  | .map fields kind => Ty.FieldsCore fields ∧ kind.Core nodes
  | _ => False

def Ty.AllCore : List Ty → Prop
  | [] => True
  | t :: rest => t.Core ∧ Ty.AllCore rest

def Ty.FieldsCore : List (Name × Ty) → Prop
  | [] => True
  | (_, t) :: rest => t.Core ∧ Ty.FieldsCore rest

end

variable {nodes}

lemma MapKind.Core.eq_of_beq {k l : MapKind} (hk : k.Core nodes) (hl : l.Core nodes)
    (h : (k == l) = true) : k = l := by
  simp only [BEq.beq] at h
  unfold MapKind.beq at h
  split at h
  · rw [Bool.and_eq_true] at h
    rw [beq_iff_eq.1 h.1, hk.1.eq_of_beq hl.1 h.2]
  · rw [Bool.and_eq_true, Bool.and_eq_true] at h
    rw [beq_iff_eq.1 h.1.1, beq_iff_eq.1 h.1.2, hk.1.eq_of_beq hl.1 h.2]
  · rfl
  · cases h

mutual

/-- Equal core types are the same. -/
theorem Ty.Core.eq_of_beq {i : Identity} (a b : Ty) (ha : a.Core nodes) (hb : b.Core nodes)
    (h : a.beq i b = true) : a = b := by
  match a with
  | .prim p =>
    cases b with
    | prim q => rw [beq_iff_eq.1 h]
    | _ => cases h
  | .list as =>
    cases b with
    | list bs => rw [Ty.AllCore.eq_of_beq as bs ha hb h]
    | _ => cases h
  | .map as k =>
    cases b with
    | map bs l =>
      rw [Ty.beq, Bool.and_eq_true] at h
      rw [Ty.FieldsCore.eq_of_beq as bs ha.1 hb.1 h.1, ha.2.eq_of_beq hb.2 h.2]
    | _ => cases h
  | .lit _ | .layout _ _ _ | .closure _ _ | .union _ | .recur _ | .array _ _ | .foreign _ _ =>
    exact ha.elim
termination_by structural a

lemma Ty.AllCore.eq_of_beq {i : Identity} (as bs : List Ty) (ha : Ty.AllCore nodes as)
    (hb : Ty.AllCore nodes bs) (h : Ty.beqAll i as bs = true) : as = bs := by
  match as, bs with
  | [], [] => rfl
  | a :: as, b :: bs =>
    rw [Ty.beqAll, Bool.and_eq_true] at h
    rw [Ty.Core.eq_of_beq a b ha.1 hb.1 h.1, Ty.AllCore.eq_of_beq as bs ha.2 hb.2 h.2]
termination_by structural as

lemma Ty.FieldsCore.eq_of_beq {i : Identity} (as bs : List (Name × Ty))
    (ha : Ty.FieldsCore nodes as) (hb : Ty.FieldsCore nodes bs)
    (h : Ty.beqFields i as bs = true) : as = bs := by
  match as, bs with
  | [], [] => rfl
  | (x, a) :: as, (y, b) :: bs =>
    rw [Ty.beqFields, Bool.and_eq_true, Bool.and_eq_true] at h
    rw [beq_iff_eq.1 h.1.1, Ty.Core.eq_of_beq a b ha.1 hb.1 h.1.2,
      Ty.FieldsCore.eq_of_beq as bs ha.2 hb.2 h.2]
termination_by structural as

end

/-! ### Reading terms as values -/

mutual

/-- The term reads as the value, where variables read as the values that `P` allows. -/
def Term.Reads (nodes : Interner ExprKind) (P : Var → Value → Prop) (t : Term) (v : Value) : Prop :=
  match t with
  | .lit l => v = .lit l
  | .var x => x.ty.Core nodes ∧ P x v
  | .tuple items => ∃ vs, v = .tuple vs ∧ Term.AllRead nodes P items vs
  | .map env kind => ∃ ρ this param body, v = .function ρ this param body ∧
    kind.Core nodes ∧ kind.Draws this param body ∧ Env.Reads nodes P env ρ
  | _ => False
termination_by structural t

def Term.AllRead (nodes : Interner ExprKind) (P : Var → Value → Prop) (ts : List Term)
    (vs : List Value) : Prop :=
  match ts, vs with
  | [], [] => True
  | t :: ts, v :: vs => t.Reads nodes P v ∧ Term.AllRead nodes P ts vs
  | _, _ => False
termination_by structural ts

/-- What can be seen is in the environment, and each name once. -/
def Env.Reads (nodes : Interner ExprKind) (P : Var → Value → Prop) (env : Env)
    (ρ : List (Name × Value)) : Prop :=
  match env with
  | .plain m => Fields.Ascending m ∧ Env.FieldsRead nodes P (fun _ => true) m ρ
  | .restricted m used =>
    Fields.Ascending (m.filter fun e => used.contains e.1) ∧
      Env.FieldsRead nodes P used.contains m ρ
  | .consed _ m => Fields.Ascending m ∧ Env.FieldsRead nodes P (fun _ => true) m ρ
termination_by structural env

def Env.FieldsRead (nodes : Interner ExprKind) (P : Var → Value → Prop) (keep : Name → Bool)
    (m : List (Name × Term)) (ρ : List (Name × Value)) : Prop :=
  match m with
  | [] => True
  | (x, t) :: rest =>
    (keep x = true → ∃ v, Fields.get? ρ x = some v ∧ t.Reads nodes P v) ∧
      Env.FieldsRead nodes P keep rest ρ
termination_by structural m

end

/-- The term is a value: it has no variables. -/
def Term.Stands (nodes : Interner ExprKind) : Term → Value → Prop :=
  Term.Reads nodes fun _ _ => False

/-- The variable is bound to the value, at its type. -/
def Bindings.Holds (nodes : Interner ExprKind) (σ : Bindings) (x : Var) (v : Value) : Prop :=
  ∃ r, σ.lookup x.tag = some r ∧ r.Stands nodes v ∧ r.ty = x.ty

/-- The term has the value where the variables are bound. -/
def Term.Means (nodes : Interner ExprKind) (σ : Bindings) : Term → Value → Prop :=
  Term.Reads nodes (σ.Holds nodes)

def Term.AllMean (nodes : Interner ExprKind) (σ : Bindings) : List Term → List Value → Prop :=
  Term.AllRead nodes (σ.Holds nodes)

def Env.Means (nodes : Interner ExprKind) (σ : Bindings) : Env → List (Name × Value) → Prop :=
  Env.Reads nodes (σ.Holds nodes)

section Reads

variable {P Q : Var → Value → Prop}

lemma Env.fieldsRead_iff {keep : Name → Bool} {m : List (Name × Term)}
    {ρ : List (Name × Value)} : Env.FieldsRead nodes P keep m ρ ↔
      ∀ e ∈ m, keep e.1 = true → ∃ v, Fields.get? ρ e.1 = some v ∧ e.2.Reads nodes P v := by
  induction m with
  | nil => simp [Env.FieldsRead]
  | cons e rest ih => rw [Env.FieldsRead, ih, List.forall_mem_cons]

/-- An environment reads by its visible bindings. -/
theorem Env.reads_iff {env : Env} {ρ : List (Name × Value)} :
    env.Reads nodes P ρ ↔ Fields.Ascending env.visible ∧
      ∀ e ∈ env.visible, ∃ v, Fields.get? ρ e.1 = some v ∧ e.2.Reads nodes P v := by
  cases env with
  | plain m => simp [Env.Reads, Env.fieldsRead_iff, Env.visible]
  | consed s m => simp [Env.Reads, Env.fieldsRead_iff, Env.visible]
  | restricted m used =>
    simp only [Env.Reads, Env.fieldsRead_iff, Env.visible, List.mem_filter]
    exact and_congr_right fun _ =>
      ⟨fun h e he => h e he.1 he.2, fun h e he hk => h e ⟨he, hk⟩⟩

mutual

lemma Term.Reads.imp (hPQ : ∀ x v, P x v → Q x v) (t : Term) (v : Value)
    (h : t.Reads nodes P v) : t.Reads nodes Q v := by
  match t with
  | .lit l => exact h
  | .var x => exact ⟨h.1, hPQ x v h.2⟩
  | .tuple items =>
    obtain ⟨vs, rfl, hall⟩ := h
    exact ⟨vs, rfl, Term.AllRead.imp hPQ items vs hall⟩
  | .map env kind =>
    obtain ⟨ρ, this, param, body, rfl, hkind, hdraws, henv⟩ := h
    exact ⟨ρ, this, param, body, rfl, hkind, hdraws, Env.Reads.imp hPQ env ρ henv⟩
termination_by structural t

lemma Term.AllRead.imp (hPQ : ∀ x v, P x v → Q x v) (ts : List Term) (vs : List Value)
    (h : Term.AllRead nodes P ts vs) : Term.AllRead nodes Q ts vs := by
  match ts, vs with
  | [], [] => trivial
  | t :: ts, v :: vs => exact ⟨Term.Reads.imp hPQ t v h.1, Term.AllRead.imp hPQ ts vs h.2⟩
termination_by structural ts

lemma Env.Reads.imp (hPQ : ∀ x v, P x v → Q x v) (env : Env) (ρ : List (Name × Value))
    (h : env.Reads nodes P ρ) : env.Reads nodes Q ρ := by
  match env with
  | .plain m => exact ⟨h.1, Env.FieldsRead.imp hPQ _ m ρ h.2⟩
  | .restricted m used => exact ⟨h.1, Env.FieldsRead.imp hPQ _ m ρ h.2⟩
  | .consed _ m => exact ⟨h.1, Env.FieldsRead.imp hPQ _ m ρ h.2⟩
termination_by structural env

lemma Env.FieldsRead.imp (hPQ : ∀ x v, P x v → Q x v) (keep : Name → Bool)
    (m : List (Name × Term)) (ρ : List (Name × Value)) (h : Env.FieldsRead nodes P keep m ρ) :
    Env.FieldsRead nodes Q keep m ρ := by
  match m with
  | [] => trivial
  | (x, t) :: rest =>
    refine ⟨fun hk => ?_, Env.FieldsRead.imp hPQ keep rest ρ h.2⟩
    obtain ⟨v, hv, ht⟩ := h.1 hk
    exact ⟨v, hv, Term.Reads.imp hPQ t v ht⟩
termination_by structural m

end

mutual

lemma Term.Reads.core (t : Term) (v : Value) (h : t.Reads nodes P v) : t.ty.Core nodes := by
  match t with
  | .lit l => trivial
  | .var ⟨_, _⟩ => exact h.1
  | .tuple items =>
    obtain ⟨vs, rfl, hall⟩ := h
    exact Term.AllRead.core items vs hall
  | .map env kind =>
    obtain ⟨ρ, this, param, body, rfl, hkind, -, henv⟩ := h
    refine ⟨?_, hkind⟩
    match env with
    | .plain m => exact Env.FieldsRead.core _ m ρ henv.2
    | .restricted m used => exact Env.FieldsRead.core _ m ρ henv.2
    | .consed _ m => exact Env.FieldsRead.core _ m ρ henv.2
termination_by structural t

lemma Term.AllRead.core (ts : List Term) (vs : List Value) (h : Term.AllRead nodes P ts vs) :
    Ty.AllCore nodes (Term.tys ts) := by
  match ts, vs with
  | [], [] => trivial
  | t :: ts, v :: vs => exact ⟨Term.Reads.core t v h.1, Term.AllRead.core ts vs h.2⟩
termination_by structural ts

lemma Env.FieldsRead.core (keep : Name → Bool) (m : List (Name × Term))
    (ρ : List (Name × Value)) (h : Env.FieldsRead nodes P keep m ρ) :
    Ty.FieldsCore nodes (Term.fieldTys keep m) := by
  match m with
  | [] => trivial
  | (x, t) :: rest =>
    rw [Term.fieldTys]
    split
    · rename_i hk
      obtain ⟨v, -, ht⟩ := h.1 hk
      exact ⟨Term.Reads.core t v ht, Env.FieldsRead.core keep rest ρ h.2⟩
    · exact Env.FieldsRead.core keep rest ρ h.2
termination_by structural m

end

/-! ### Environments -/

lemma Captures.contains_of_sees {used : Captures} {x : Name} (h : used.sees x = true) :
    used.contains x = true := by
  have hsub : ∀ n (used : Captures), narrow x n used ⊆ used := by
    intro n
    induction n with
    | zero => exact fun used => List.Subset.refl used
    | succ n ih =>
      intro used
      simp only [narrow]
      split
      · exact List.Subset.refl used
      · split
        · exact List.Subset.trans (ih _) (List.take_subset ..)
        · exact List.Subset.trans (ih _) (List.drop_subset ..)
  have hmem : x ∈ narrow x used.length used := by
    rw [sees, beq_iff_eq] at h
    rw [h]
    exact List.mem_singleton_self x
  exact List.contains_iff_mem.2 (hsub _ _ hmem)

/-- What is looked up in an environment is visible there. -/
theorem Env.mem_visible_of_get? {env : Env} {x : Name} {t : Term} (h : env.get? x = some t) :
    (x, t) ∈ env.visible := by
  cases env with
  | plain m => exact Fields.mem_of_get? h
  | consed s m => exact Fields.mem_of_get? h
  | restricted m used =>
    rw [Env.get?] at h
    split at h
    · rename_i hsees
      exact List.mem_filter.2 ⟨Fields.mem_of_get? h, Captures.contains_of_sees hsees⟩
    · cases h

lemma Env.Reads.get? {env : Env} {ρ : List (Name × Value)} (h : env.Reads nodes P ρ) {x : Name}
    {t : Term} (ht : env.get? x = some t) : ∃ v, Fields.get? ρ x = some v ∧ t.Reads nodes P v :=
  (Env.reads_iff.1 h).2 _ (Env.mem_visible_of_get? ht)

/-- A function sees only some of what is there. -/
theorem Env.Reads.restricted {env : Env} {ρ : List (Name × Value)} (h : env.Reads nodes P ρ)
    (used : Captures) : (Env.restricted env.visible used).Reads nodes P ρ := by
  rw [Env.reads_iff] at h ⊢
  refine ⟨List.Pairwise.sublist List.filter_sublist h.1, fun e he => ?_⟩
  exact h.2 e (List.mem_filter.1 he).1

lemma Env.Reads.bind {env : Env} {ρ : List (Name × Value)} (h : env.Reads nodes P ρ) (x : Name)
    {t : Term} {v : Value} (ht : t.Reads nodes P v) :
    (env.bind x t).Reads nodes P ((x, v) :: ρ) := by
  rw [Env.reads_iff] at h ⊢
  have hasc : Fields.Ascending (Fields.insert env.visible x t) := h.1.insert x t
  refine ⟨hasc, fun e he => ?_⟩
  have hget := hasc.get?_of_mem he
  rw [Fields.get?_insert] at hget
  rw [Fields.get?_cons]
  split at hget
  · rename_i hx
    cases hget
    exact ⟨v, if_pos hx, ht⟩
  · rename_i hx
    rw [if_neg hx]
    exact h.2 e (Fields.mem_of_get? hget)

end Reads

/-! ### Types of environments -/

lemma Term.fieldTys_eq_map (keep : Name → Bool) (m : List (Name × Term)) :
    Term.fieldTys keep m = (m.filter fun e => keep e.1).map fun e => (e.1, e.2.ty) := by
  induction m with
  | nil => rfl
  | cons e rest ih =>
    rw [Term.fieldTys, ih, List.filter_cons]
    split <;> rfl

lemma Term.envTys_eq_map (env : Env) :
    Term.envTys env = env.visible.map fun e => (e.1, e.2.ty) := by
  have hall : ∀ m : List (Name × Term), m.filter (fun _ => true) = m :=
    fun m => List.filter_eq_self.2 fun _ _ => rfl
  cases env with
  | plain m => rw [Term.envTys, Term.fieldTys_eq_map, hall, Env.visible]
  | restricted m used => rw [Term.envTys, Term.fieldTys_eq_map, Env.visible]
  | consed s m => rw [Term.envTys, Term.fieldTys_eq_map, hall, Env.visible]

lemma Env.ascending_tys {env : Env} :
    Fields.Ascending (Term.envTys env) ↔ Fields.Ascending env.visible := by
  rw [Term.envTys_eq_map]
  exact List.pairwise_map

lemma Term.ofUnitFields_eq_map (fields : List (Name × Ty)) :
    Term.ofUnitFields fields = fields.map fun e => (e.1, Term.ofUnit e.2) := by
  induction fields with
  | nil => rfl
  | cons e rest ih => rw [Term.ofUnitFields, ih, List.map_cons]

/-! ### Computing values -/

mutual

/-- A term that has a value computes it, at the type of the term. -/
theorem Term.Means.run {σ : Bindings} (t : Term) (v : Value) (h : t.Means nodes σ v) :
    ∃ r, t.run σ = some r ∧ r.Stands nodes v ∧ r.ty = t.ty := by
  match t with
  | .lit l => exact ⟨.lit l, rfl, h, rfl⟩
  | .var ⟨tag, ty⟩ => exact h.2
  | .tuple items =>
    obtain ⟨vs, rfl, hall⟩ := h
    obtain ⟨rs, hrun, hrs, htys⟩ := Term.AllMean.run items vs hall
    refine ⟨.tuple rs, ?_, ⟨vs, rfl, hrs⟩, ?_⟩
    · rw [Term.run, hrun, Option.map_some]
    · rw [Term.ty, Term.ty, htys]
  | .map env kind =>
    obtain ⟨ρ, this, param, body, rfl, hkind, hdraws, henv⟩ := h
    obtain ⟨m, hrun, hm, htys⟩ := Env.Means.run env ρ henv
    refine ⟨.map (.plain m) kind, ?_, ⟨ρ, this, param, body, rfl, hkind, hdraws, hm⟩, ?_⟩
    · rw [Term.run, hrun, Option.map_some]
    · rw [Term.ty, Term.ty, htys]
termination_by structural t

lemma Term.AllMean.run {σ : Bindings} (ts : List Term) (vs : List Value)
    (h : Term.AllMean nodes σ ts vs) :
    ∃ rs, Term.runAll ts σ = some rs ∧ Term.AllRead nodes (fun _ _ => False) rs vs ∧
      Term.tys rs = Term.tys ts := by
  match ts, vs with
  | [], [] => exact ⟨[], rfl, trivial, rfl⟩
  | t :: ts, v :: vs =>
    obtain ⟨r, hrun, hr, hty⟩ := Term.Means.run t v h.1
    obtain ⟨rs, hruns, hrs, htys⟩ := Term.AllMean.run ts vs h.2
    refine ⟨r :: rs, ?_, ⟨hr, hrs⟩, ?_⟩
    · rw [Term.runAll, hrun, Option.bind_some, hruns, Option.map_some]
    · rw [Term.tys, Term.tys, hty, htys]
termination_by structural ts

lemma Env.Means.run {σ : Bindings} (env : Env) (ρ : List (Name × Value))
    (h : env.Means nodes σ ρ) :
    ∃ m, env.run σ = some m ∧ (Env.plain m).Reads nodes (fun _ _ => False) ρ ∧
      Term.envTys (.plain m) = Term.envTys env := by
  have hasc : Fields.Ascending (Term.envTys env) := Env.ascending_tys.2 (Env.reads_iff.1 h).1
  -- The fields of the value carry the names of the types, which ascend.
  suffices hfields : ∃ m, env.run σ = some m ∧
      Env.FieldsRead nodes (fun _ _ => False) (fun _ => true) m ρ ∧
      Term.envTys (.plain m) = Term.envTys env by
    obtain ⟨m, hrun, hm, htys⟩ := hfields
    rw [← htys] at hasc
    exact ⟨m, hrun, ⟨Env.ascending_tys.1 hasc, hm⟩, htys⟩
  match env with
  | .plain m => exact Env.FieldsRead.run _ m ρ h.2
  | .restricted m used => exact Env.FieldsRead.run _ m ρ h.2
  | .consed _ m => exact Env.FieldsRead.run _ m ρ h.2
termination_by structural env

lemma Env.FieldsRead.run {σ : Bindings} (keep : Name → Bool) (m : List (Name × Term))
    (ρ : List (Name × Value))
    (h : Env.FieldsRead nodes (σ.Holds nodes) keep m ρ) :
    ∃ rs, Env.runFields keep m σ = some rs ∧
      Env.FieldsRead nodes (fun _ _ => False) (fun _ => true) rs ρ ∧
      Term.fieldTys (fun _ => true) rs = Term.fieldTys keep m := by
  match m with
  | [] => exact ⟨[], rfl, trivial, rfl⟩
  | (x, t) :: rest =>
    obtain ⟨rs, hruns, hrs, htys⟩ := Env.FieldsRead.run keep rest ρ h.2
    rw [Env.runFields, Term.fieldTys]
    split
    · rename_i hk
      obtain ⟨v, hv, ht⟩ := h.1 hk
      obtain ⟨r, hrun, hr, hty⟩ := Term.Means.run t v ht
      refine ⟨(x, r) :: rs, ?_, ⟨fun _ => ⟨v, hv, hr⟩, hrs⟩, ?_⟩
      · rw [hrun, Option.bind_some, hruns, Option.map_some]
      · rw [Term.fieldTys, if_pos rfl, hty, htys]
    · exact ⟨rs, hruns, hrs, htys⟩
termination_by structural m

end

/-! ### Values without data -/

mutual

/-- A value of a type without run-time data is the only value of its type. -/
theorem Term.Stands.ofUnit {P : Var → Value → Prop} (r : Term) (v : Value)
    (h : r.Stands nodes v) (hunit : r.ty.isUnit = true) :
    (Term.ofUnit r.ty).Reads nodes P v := by
  match r with
  | .lit l => cases hunit
  | .var x => exact h.2.elim
  | .tuple items =>
    obtain ⟨vs, rfl, hall⟩ := h
    exact ⟨vs, rfl, Term.AllRead.ofUnit items vs hall hunit⟩
  | .map env kind =>
    obtain ⟨ρ, this, param, body, rfl, hkind, hdraws, henv⟩ := h
    have hasc : Fields.Ascending (Term.envTys env) := Env.ascending_tys.2 (Env.reads_iff.1 henv).1
    refine ⟨ρ, this, param, body, rfl, hkind, hdraws, ?_, ?_⟩
    · rw [Term.ofUnitFields_eq_map]
      exact List.pairwise_map.2 hasc
    · match env with
      | .plain m => exact Env.FieldsRead.ofUnit _ m ρ henv.2 hunit
      | .restricted m used => exact Env.FieldsRead.ofUnit _ m ρ henv.2 hunit
      | .consed _ m => exact Env.FieldsRead.ofUnit _ m ρ henv.2 hunit
termination_by structural r

lemma Term.AllRead.ofUnit {P : Var → Value → Prop} (rs : List Term) (vs : List Value)
    (h : Term.AllRead nodes (fun _ _ => False) rs vs)
    (hunit : Ty.allUnit (Term.tys rs) = true) :
    Term.AllRead nodes P (Term.ofUnits (Term.tys rs)) vs := by
  match rs, vs with
  | [], [] => trivial
  | r :: rs, v :: vs =>
    rw [Term.tys, Ty.allUnit, Bool.and_eq_true] at hunit
    exact ⟨Term.Stands.ofUnit r v h.1 hunit.1, Term.AllRead.ofUnit rs vs h.2 hunit.2⟩
termination_by structural rs

lemma Env.FieldsRead.ofUnit {P : Var → Value → Prop} (keep : Name → Bool)
    (m : List (Name × Term)) (ρ : List (Name × Value))
    (h : Env.FieldsRead nodes (fun _ _ => False) keep m ρ)
    (hunit : Ty.fieldsUnit (Term.fieldTys keep m) = true) :
    Env.FieldsRead nodes P (fun _ => true) (Term.ofUnitFields (Term.fieldTys keep m)) ρ := by
  match m with
  | [] => trivial
  | (x, t) :: rest =>
    rw [Term.fieldTys] at hunit ⊢
    split at hunit
    · rename_i hk
      rw [Ty.fieldsUnit, Bool.and_eq_true] at hunit
      obtain ⟨v, hv, ht⟩ := h.1 hk
      rw [if_pos hk]
      exact ⟨fun _ => ⟨v, hv, Term.Stands.ofUnit t v ht hunit.1⟩,
        Env.FieldsRead.ofUnit keep rest ρ h.2 hunit.2⟩
    · rename_i hk
      rw [if_neg hk]
      exact Env.FieldsRead.ofUnit keep rest ρ h.2 hunit
termination_by structural m

end

end Residual
