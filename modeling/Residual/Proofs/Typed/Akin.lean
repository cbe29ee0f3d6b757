import Mathlib.Data.Set.Basic
import Residual.Proofs.Typed.Numbering
import Residual.Proofs.Typed.Twins

/-!
Akin values: twins but for the tags of their variables.

Two runs of a program can bind the same results to variables with different tags, and one run can
use one variable where the other one has two. What is known of the tags are the maps that may take
the tags of the second run to those of the first. Values are akin if every one of these maps makes
twins of them; so akin values have one type and one head, and their parts are akin again.
-/

namespace Residual

variable {held held' : MapKind → Prop}

/-! ### What does not depend on tags -/

mutual

lemma Term.ty_retag (σ : Tag → Tag) (t : Term) : (t.retag σ).ty = t.ty := by
  match t with
  | .var ⟨_, _⟩ | .type _ | .lit _ | .letIn _ _ _ _ | .state _ _ _ | .call _ _ _ _ | .box _ _
  | .op _ _ _ => rfl
  | .tuple items => rw [Term.retag, Term.ty, Term.ty, Term.tys_retag σ items]
  | .map env kind => rw [Term.retag, Term.ty, Term.ty, Env.tys_retag σ env]
termination_by structural t

lemma Term.tys_retag (σ : Tag → Tag) (ts : List Term) :
    Term.tys (Term.retagAll σ ts) = Term.tys ts := by
  match ts with
  | [] => rfl
  | t :: rest => rw [Term.retagAll, Term.tys, Term.tys, Term.ty_retag σ t, Term.tys_retag σ rest]
termination_by structural ts

lemma Env.tys_retag (σ : Tag → Tag) (env : Env) :
    Term.envTys (env.retag σ) = Term.envTys env := by
  match env with
  | .plain m => exact Env.fieldTys_retag σ _ m
  | .restricted m used => exact Env.fieldTys_retag σ _ m
  | .consed _ m => exact Env.fieldTys_retag σ _ m
termination_by structural env

lemma Env.fieldTys_retag (σ : Tag → Tag) (keep : Name → Bool) (m : List (Name × Term)) :
    Term.fieldTys keep (Env.retagFields σ m) = Term.fieldTys keep m := by
  match m with
  | [] => rfl
  | (x, t) :: rest =>
    rw [Env.retagFields, Term.fieldTys, Term.fieldTys, Term.ty_retag σ t,
      Env.fieldTys_retag σ keep rest]
termination_by structural m

end

mutual

lemma Term.retag_ofUnit (σ : Tag → Tag) (t : Ty) : (Term.ofUnit t).retag σ = .ofUnit t := by
  match t with
  | .list items => rw [Term.ofUnit, Term.retag, Term.retag_ofUnits σ items]
  | .map fields kind => rw [Term.ofUnit, Term.retag, Env.retag, Term.retag_ofUnitFields σ fields]
  | .prim _ | .lit _ | .layout _ _ _ | .closure _ _ | .union _ | .recur _ | .array _ _
  | .foreign _ _ => rfl
termination_by structural t

lemma Term.retag_ofUnits (σ : Tag → Tag) (ts : List Ty) :
    Term.retagAll σ (Term.ofUnits ts) = Term.ofUnits ts := by
  match ts with
  | [] => rfl
  | t :: rest =>
    rw [Term.ofUnits, Term.retagAll, Term.retag_ofUnit σ t, Term.retag_ofUnits σ rest]
termination_by structural ts

lemma Term.retag_ofUnitFields (σ : Tag → Tag) (m : List (Name × Ty)) :
    Env.retagFields σ (Term.ofUnitFields m) = Term.ofUnitFields m := by
  match m with
  | [] => rfl
  | (x, t) :: rest =>
    rw [Term.ofUnitFields, Env.retagFields, Term.retag_ofUnit σ t,
      Term.retag_ofUnitFields σ rest]
termination_by structural m

end

lemma Env.retagFields_eq (σ : Tag → Tag) (m : List (Name × Term)) :
    Env.retagFields σ m = m.map fun e => (e.1, e.2.retag σ) := by
  induction m with
  | nil => rfl
  | cons e rest ih => rw [Env.retagFields, ih, List.map_cons]

lemma Term.retagAll_eq (σ : Tag → Tag) (ts : List Term) :
    Term.retagAll σ ts = ts.map (Term.retag σ) := by
  induction ts with
  | nil => rfl
  | cons t rest ih => rw [Term.retagAll, ih, List.map_cons]

lemma Env.visible_retag (σ : Tag → Tag) (env : Env) :
    (env.retag σ).visible = Env.retagFields σ env.visible := by
  cases env with
  | plain m => rfl
  | consed s m => rfl
  | restricted m used => exact Env.retagFields_filter σ used.contains m

mutual

lemma Term.canon_retag_id (t : Term) : (t.retag id).canon = t.canon := by
  match t with
  | .var ⟨_, _⟩ | .type _ | .lit _ | .letIn _ _ _ _ | .state _ _ _ | .call _ _ _ _ => rfl
  | .tuple items => rw [Term.retag, Term.canon, Term.canon, Term.canonAll_retag_id items]
  | .map env kind => rw [Term.retag, Term.canon, Term.canon, Env.canon_retag_id env]
  | .box inner ty => rw [Term.retag, Term.canon, Term.canon, Term.canon_retag_id inner]
  | .op o args ty => rw [Term.retag, Term.canon, Term.canon, Term.canonAll_retag_id args]
termination_by structural t

lemma Term.canonAll_retag_id (ts : List Term) :
    Term.canonAll (Term.retagAll id ts) = Term.canonAll ts := by
  match ts with
  | [] => rfl
  | t :: rest =>
    rw [Term.retagAll, Term.canonAll, Term.canonAll, Term.canon_retag_id t,
      Term.canonAll_retag_id rest]
termination_by structural ts

lemma Env.canon_retag_id (env : Env) : (env.retag id).canon = env.canon := by
  match env with
  | .plain m => exact congrArg Env.plain (Env.canonFields_retag_id _ m)
  | .restricted m used => exact congrArg Env.plain (Env.canonFields_retag_id _ m)
  | .consed _ m => exact congrArg Env.plain (Env.canonFields_retag_id _ m)
termination_by structural env

lemma Env.canonFields_retag_id (keep : Name → Bool) (m : List (Name × Term)) :
    Env.canonFields keep (Env.retagFields id m) = Env.canonFields keep m := by
  match m with
  | [] => rfl
  | (x, t) :: rest =>
    rw [Env.retagFields, Env.canonFields, Env.canonFields, Term.canon_retag_id t,
      Env.canonFields_retag_id keep rest]
termination_by structural m

end

/-! ### Maps with related values -/

namespace Fields

variable {α : Type} {R : α → α → Prop} {m n : Fields α}

lemma rel_insert (h : List.Forall₂ (Entry R) m n) (x : Name) {a b : α} (hab : R a b) :
    List.Forall₂ (Entry R) (insert m x a) (insert n x b) := by
  induction h with
  | nil => exact .cons ⟨rfl, hab⟩ .nil
  | @cons d e m n hde hmn ih =>
    obtain ⟨y, c⟩ := d
    obtain ⟨z, d⟩ := e
    obtain ⟨rfl, hcd⟩ := hde
    rw [insert, insert]
    split
    · exact .cons ⟨rfl, hab⟩ (.cons ⟨rfl, hcd⟩ hmn)
    · split
      · exact .cons ⟨rfl, hab⟩ hmn
      · exact .cons ⟨rfl, hcd⟩ ih

lemma rel_filter (h : List.Forall₂ (Entry R) m n) (keep : Name → Bool) :
    List.Forall₂ (Entry R) (m.filter fun e => keep e.1) (n.filter fun e => keep e.1) := by
  induction h with
  | nil => exact .nil
  | cons hde _ ih =>
    rw [List.filter_cons, List.filter_cons, hde.1]
    split
    · exact .cons hde ih
    · exact ih

lemma rel_erase (h : List.Forall₂ (Entry R) m n) (x : Name) :
    List.Forall₂ (Entry R) (erase m x) (erase n x) :=
  rel_filter h fun y => decide (y ≠ x)

lemma rel_ofList (h : List.Forall₂ (Entry R) m n) :
    List.Forall₂ (Entry R) (ofList m) (ofList n) := by
  suffices ∀ m' n' : Fields α, List.Forall₂ (Entry R) m' n' → List.Forall₂ (Entry R)
      (m.foldl (fun m e => insert m e.1 e.2) m') (n.foldl (fun m e => insert m e.1 e.2) n') from
    this [] [] .nil
  induction h with
  | nil => exact fun _ _ h => h
  | cons hde _ ih =>
    intro m' n' h'
    rw [List.foldl_cons, List.foldl_cons, hde.1]
    exact ih _ _ (rel_insert h' _ hde.2)

/-- Ascending maps with related values for every name have related entries. -/
theorem rel_ext (hm : Ascending m) (hn : Ascending n)
    (h : ∀ x, Option.Rel R (get? m x) (get? n x)) : List.Forall₂ (Entry R) m n := by
  -- Induction on one map; the first entries of both have the same key.
  induction m generalizing n with
  | nil =>
    cases n with
    | nil => exact .nil
    | cons e n =>
      have hfirst := h e.1
      rw [get?_cons e.1 e.2, if_pos rfl] at hfirst
      cases hfirst
  | cons d m ih =>
    obtain ⟨x, a⟩ := d
    have hfirst := h x
    rw [get?_cons, if_pos rfl] at hfirst
    cases n with
    | nil => cases hfirst
    | cons e n =>
      obtain ⟨y, b⟩ := e
      obtain ⟨hx, hm'⟩ := List.pairwise_cons.1 hm
      obtain ⟨hy, hn'⟩ := List.pairwise_cons.1 hn
      -- Else each key would come before the other one.
      obtain rfl : y = x := by
        by_contra hne
        have hsecond := h y
        rw [get?_cons x a, if_neg hne, get?_cons, if_pos rfl] at hsecond
        rw [get?_cons, if_neg (Ne.symm hne)] at hfirst
        generalize hfound : get? n x = o at hfirst
        generalize hfound' : get? m y = o' at hsecond
        cases hfirst with
        | some _ =>
          cases hsecond with
          | some _ =>
            have hxy := hx _ (mem_of_get? hfound')
            have hyx := hy _ (mem_of_get? hfound)
            exact Nat.lt_asymm hxy hyx
      rw [get?_cons, if_pos rfl] at hfirst
      obtain ⟨hab⟩ := hfirst
      refine .cons ⟨rfl, hab⟩ (ih hm' hn' fun z => ?_)
      -- The first key is not in the rest.
      by_cases hz : z = y
      · rw [hz, hm.get?_rest, hn.get?_rest]
        exact .none
      · have hrest := h z
        rwa [get?_cons y a, if_neg hz, get?_cons, if_neg hz] at hrest

end Fields

/-! ### What is known of tags -/

/-- The maps that may take the tags of a second run to those of a first one. -/
structure Tagging where
  maps : Set (Tag → Tag)
  nonempty : maps.Nonempty

namespace Tagging

/-- The later tagging knows all that the earlier one knows. -/
instance : Preorder Tagging where
  le T T' := T'.maps ⊆ T.maps
  le_refl T := Set.Subset.refl T.maps
  le_trans _ _ _ h k := Set.Subset.trans k h

/-- The tags are the same. -/
def same : Tagging := ⟨{id}, id, rfl⟩

/-- The tags of `known` are taken to where `σ` takes them; nothing is known of the others. -/
def of (σ : Tag → Tag) (known : Set Tag) : Tagging :=
  ⟨{τ | ∀ n ∈ known, τ n = σ n}, σ, fun _ _ => rfl⟩

variable {T : Tagging} {α β : Type}

/-- Lists are related under every map exactly if their elements are. -/
theorem forall₂_iff {R : (Tag → Tag) → α → β → Prop} {as : List α} {bs : List β} :
    (∀ σ ∈ T.maps, List.Forall₂ (R σ) as bs) ↔
      List.Forall₂ (fun a b => ∀ σ ∈ T.maps, R σ a b) as bs := by
  obtain ⟨τ, hτ⟩ := T.nonempty
  constructor
  · intro h
    induction as generalizing bs with
    | nil =>
      cases h τ hτ
      exact .nil
    | cons a as ih =>
      cases bs with
      | nil => cases h τ hτ
      | cons b bs =>
        refine .cons (fun σ hσ => ?_) (ih fun σ hσ => ?_)
        · exact (List.forall₂_cons.1 (h σ hσ)).1
        · exact (List.forall₂_cons.1 (h σ hσ)).2
  · exact fun h σ hσ => h.imp fun _ _ h => h σ hσ

/-- What holds under every map and does not mention it, holds. -/
lemma const_iff {P : Prop} : (∀ σ ∈ T.maps, P) ↔ P := by
  obtain ⟨τ, hτ⟩ := T.nonempty
  exact ⟨fun h => h τ hτ, fun h _ _ => h⟩

lemma and_iff {P Q : (Tag → Tag) → Prop} :
    (∀ σ ∈ T.maps, P σ ∧ Q σ) ↔ (∀ σ ∈ T.maps, P σ) ∧ ∀ σ ∈ T.maps, Q σ :=
  ⟨fun h => ⟨fun σ hσ => (h σ hσ).1, fun σ hσ => (h σ hσ).2⟩,
    fun h σ hσ => ⟨h.1 σ hσ, h.2 σ hσ⟩⟩

end Tagging

/-! ### Akin values -/

/-- Terms of which every map makes twins. -/
def Term.Akin (T : Tagging) (held : MapKind → Prop) (a b : Term) : Prop :=
  ∀ σ ∈ T.maps, a.Twin held (b.retag σ)

/-- Variables of twin types, where every map takes the tag of the second to that of the first. -/
structure Var.Akin (T : Tagging) (held : MapKind → Prop) (v w : Var) : Prop where
  tag : ∀ σ ∈ T.maps, v.tag = σ w.tag
  ty : v.ty.Twin held w.ty

/-- Bindings of the same names to akin values. -/
abbrev Fields.Akin (T : Tagging) (held : MapKind → Prop) : Fields Term → Fields Term → Prop :=
  List.Forall₂ (Fields.Entry (Term.Akin T held))

/-- Environments in which the same names are visible, with akin values. -/
abbrev Env.Akin (T : Tagging) (held : MapKind → Prop) (d e : Env) : Prop :=
  Fields.Akin T held d.visible e.visible

variable {T T' : Tagging}

lemma Fields.akin_iff {m n : Fields Term} : Fields.Akin T held m n ↔
    ∀ σ ∈ T.maps, Fields.Twin held m (Env.retagFields σ n) := by
  have hentry : Fields.Entry (Term.Akin T held) = fun d e => ∀ σ ∈ T.maps,
      Fields.Entry (Term.Twin held) d (e.1, e.2.retag σ) := by
    funext d e
    exact propext (Tagging.and_iff.trans (and_congr_left' Tagging.const_iff)).symm
  rw [Fields.Akin, hentry, ← Tagging.forall₂_iff]
  refine forall₂_congr fun σ _ => ?_
  rw [Fields.twin_iff, Env.retagFields_eq, List.forall₂_map_right_iff]

lemma Env.akin_iff {d e : Env} :
    d.Akin T held e ↔ ∀ σ ∈ T.maps, d.Twin held (e.retag σ) := by
  rw [Env.Akin, Fields.akin_iff]
  refine forall₂_congr fun σ _ => ?_
  rw [Env.twin_iff, Env.visible_retag]

lemma Var.Akin.mono {v w : Var} (h : v.Akin T held w) (hT : T ≤ T')
    (hheld : ∀ k, held k → held' k) : v.Akin T' held' w :=
  ⟨fun σ hσ => h.tag σ (hT hσ), h.ty.mono hheld⟩

namespace Term

variable {a b : Term}

lemma Akin.mono (h : a.Akin T held b) (hT : T ≤ T') (hheld : ∀ k, held k → held' k) :
    a.Akin T' held' b :=
  fun σ hσ => (h σ (hT hσ)).mono hheld

lemma akin_type_iff {s t : Ty} : (Term.type s).Akin T held (.type t) ↔ s.Twin held t :=
  Tagging.const_iff.trans twin_type_iff

lemma akin_var_iff {v w : Var} : (Term.var v).Akin T held (.var w) ↔ v.Akin T held w := by
  have hiff : (Term.var v).Akin T held (.var w) ↔
      ∀ σ ∈ T.maps, v.tag = σ w.tag ∧ v.ty.Twin held w.ty :=
    forall₂_congr fun σ _ => twin_var_iff.trans Var.twin_iff
  rw [hiff, Tagging.and_iff, Tagging.const_iff]
  exact ⟨fun h => ⟨h.1, h.2⟩, fun h => ⟨h.1, h.2⟩⟩

lemma akin_tuple_iff {as bs : List Term} :
    (Term.tuple as).Akin T held (.tuple bs) ↔ List.Forall₂ (Term.Akin T held) as bs := by
  refine Iff.trans (forall₂_congr fun σ _ => ?_) Tagging.forall₂_iff
  rw [retag, twin_tuple_iff, retagAll_eq, List.forall₂_map_right_iff]

lemma akin_map_iff {d e : Env} {k l : MapKind} :
    (Term.map d k).Akin T held (.map e l) ↔ d.Akin T held e ∧ k = l ∧ held k := by
  have hiff : (Term.map d k).Akin T held (.map e l) ↔
      ∀ σ ∈ T.maps, d.Twin held (e.retag σ) ∧ k = l ∧ held k :=
    forall₂_congr fun σ _ => twin_map_iff
  rw [hiff, Tagging.and_iff, Tagging.const_iff, ← Env.akin_iff]

lemma akin_box_iff {s t : Ty} :
    (Term.box a s).Akin T held (.box b t) ↔ a.Akin T held b ∧ s.Twin held t := by
  have hiff : (Term.box a s).Akin T held (.box b t) ↔
      ∀ σ ∈ T.maps, a.Twin held (b.retag σ) ∧ s.Twin held t :=
    forall₂_congr fun σ _ => twin_box_iff
  rw [hiff, Tagging.and_iff, Tagging.const_iff, Term.Akin]

lemma akin_lit (l : Literal) : (Term.lit l).Akin T held (.lit l) := fun _ _ => twin_lit l

/-- Where the tags are the same, akin terms are twins. -/
theorem akin_same_iff : a.Akin .same held b ↔ a.Twin held b := by
  constructor
  · exact fun h => ⟨(h id rfl).same.trans (canon_retag_id b), (h id rfl).held⟩
  · rintro h σ rfl
    exact ⟨h.same.trans (canon_retag_id b).symm, h.held⟩

lemma akin_miss (h : a.Akin T held b) : (Term.miss a).Akin T held (.miss b) :=
  fun σ hσ => twin_miss (h σ hσ)

lemma akin_ofUnit {s t : Ty} (h : s.Twin held t) :
    (Term.ofUnit s).Akin T held (.ofUnit t) := by
  intro σ _
  rw [retag_ofUnit]
  exact h.ofUnit

/-- The heads of akin terms. -/
inductive AkinHeads (T : Tagging) (held : MapKind → Prop) : Term → Term → Prop
  | type {s t : Ty} (h : s.Twin held t) : AkinHeads T held (.type s) (.type t)
  | var {v w : Var} (h : v.Akin T held w) : AkinHeads T held (.var v) (.var w)
  | tuple {as bs : List Term} (h : List.Forall₂ (Term.Akin T held) as bs) :
      AkinHeads T held (.tuple as) (.tuple bs)
  | map {d e : Env} {kind : MapKind} (h : d.Akin T held e) (hkind : held kind) :
      AkinHeads T held (.map d kind) (.map e kind)
  | box {a b : Term} {s t : Ty} (h : a.Akin T held b) (hty : s.Twin held t) :
      AkinHeads T held (.box a s) (.box b t)
  | lit (l : Literal) : AkinHeads T held (.lit l) (.lit l)
  | letIn (v w : Var) (a b c d : Term) (s t : Trace) :
      AkinHeads T held (.letIn v a c s) (.letIn w b d t)
  | state (a b c d : Term) (s t : Trace) : AkinHeads T held (.state a c s) (.state b d t)
  | op (o : Op) (as bs : List Term) (s t : Ty) : AkinHeads T held (.op o as s) (.op o bs t)
  | call (key : Key) (kind : PointKind) (vs ws : List Var) (s t : Ty) :
      AkinHeads T held (.call key kind vs s) (.call key kind ws t)

lemma Akin.heads (h : a.Akin T held b) : AkinHeads T held a b := by
  obtain ⟨τ, hτ⟩ := T.nonempty
  have hsame := (h τ hτ).same
  cases a <;> cases b <;> simp only [Term.retag, canon, reduceCtorEq] at hsame
  · exact .type (akin_type_iff.1 h)
  · exact .var (akin_var_iff.1 h)
  · exact .tuple (akin_tuple_iff.1 h)
  · obtain ⟨hm, rfl, hk⟩ := akin_map_iff.1 h
    exact .map hm hk
  · obtain ⟨h, hty⟩ := akin_box_iff.1 h
    exact .box h hty
  · cases hsame
    exact .lit _
  · exact .letIn ..
  · exact .state ..
  · rw [Term.op.injEq] at hsame
    rw [hsame.1]
    exact .op ..
  · rw [Term.call.injEq] at hsame
    rw [hsame.1, hsame.2.1]
    exact .call ..

lemma Akin.ty (h : a.Akin T held b) : a.ty.Twin held b.ty := by
  obtain ⟨τ, hτ⟩ := T.nonempty
  have hty := Twin.ty (h τ hτ)
  rwa [ty_retag] at hty

lemma Akin.tys {as bs : List Term} (h : List.Forall₂ (Term.Akin T held) as bs) :
    List.Forall₂ (Ty.Twin held) (as.map Term.ty) (bs.map Term.ty) :=
  List.forall₂_map_left_iff.2 (List.forall₂_map_right_iff.2 (h.imp fun _ _ h => Akin.ty h))

lemma Akin.lit? (h : a.Akin T held b) : a.lit? = b.lit? := by
  cases h.heads with
  | type hty => exact Twin.lit? (twin_type_iff.2 hty)
  | _ => rfl

lemma Akin.bool? (h : a.Akin T held b) : a.bool? = b.bool? := by
  rw [Term.bool?, Term.bool?, Akin.lit? h]

lemma Akin.string? (h : a.Akin T held b) : a.string? = b.string? := by
  rw [Term.string?, Term.string?, Akin.lit? h]

lemma Akin.endsInMiss (h : a.Akin T held b) : a.endsInMiss = b.endsInMiss := by
  obtain ⟨τ, hτ⟩ := T.nonempty
  have hretag : ∀ t : Term, (t.retag τ).endsInMiss = t.endsInMiss := by
    intro t
    cases t with
    | op o args ty => cases o <;> rfl
    | _ => rfl
  rw [← endsInMiss_canon a, (h τ hτ).same, endsInMiss_canon, hretag]

end Term

lemma Var.akin_same_iff {v w : Var} : v.Akin .same held w ↔ v.Twin held w :=
  Term.akin_var_iff.symm.trans (Term.akin_same_iff.trans Term.twin_var_iff)

lemma Fields.akin_same_iff {m n : Fields Term} :
    Fields.Akin .same held m n ↔ Fields.Twin held m n := by
  have hterm : Term.Akin .same held = Term.Twin held :=
    funext fun _ => funext fun _ => propext Term.akin_same_iff
  rw [Fields.Akin, hterm, Fields.twin_iff]

namespace Env

variable {d e : Env}

lemma Akin.bind (h : d.Akin T held e) (x : Name) {s t : Term} (ht : s.Akin T held t) :
    (d.bind x s).Akin T held (e.bind x t) :=
  Fields.rel_insert h x ht

lemma akin_same_iff : d.Akin .same held e ↔ d.Twin held e :=
  Fields.akin_same_iff.trans Env.twin_iff.symm

lemma Akin.get? (h : d.Akin T held e) (hd : d.Ascending) (he : e.Ascending) (x : Name) :
    Option.Rel (Term.Akin T held) (d.get? x) (e.get? x) := by
  rw [hd.get?_eq, he.get?_eq]
  exact Fields.get?_rel h x

end Env

end Residual
