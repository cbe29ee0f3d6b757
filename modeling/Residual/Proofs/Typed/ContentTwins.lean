import Residual.Proofs.Typed.Twins

/-!
Values of one content are twins.

The content of a value names the bodies of its functions by their symbols. Where the kinds of maps
are told apart by their contents, as those are that are made of code of one store, the content of a
value determines its canonical form.
-/

namespace Residual

/-- Kinds that are told apart by their codes. -/
def MapKind.Apart (held : MapKind → Prop) : Prop :=
  ∀ k l : MapKind, held k → held l → (k == l) = true → k = l

section Forms

variable {held : MapKind → Prop}

mutual

lemma Ty.canon_of_beq (hheld : MapKind.Apart held) (a b : Ty) (ha : a.Formed) (hb : b.Formed)
    (hk : ∀ k ∈ a.kinds, held k) (hl : ∀ k ∈ b.kinds, held k) (h : a.beq .content b = true) :
    a.canon = b.canon := by
  -- Two constructors never agree; a part of one agrees with the same part of the other.
  match a with
  | .prim _ | .lit _ | .recur _ => cases b <;> simp_all [Ty.beq]
  | .list as =>
    cases b with
    | list bs => exact congrArg Ty.list (Ty.canonAll_of_beq hheld as bs ha hb hk hl h)
    | _ => simp [Ty.beq] at h
  | .union as =>
    cases b with
    | union bs => exact congrArg Ty.union (Ty.canonAll_of_beq hheld as bs ha hb hk hl h)
    | _ => simp [Ty.beq] at h
  -- Held kinds are the same if the test says so.
  | .map m k =>
    cases b with
    | map n l =>
      rw [Ty.beq, Bool.and_eq_true] at h
      rw [Ty.kinds, List.forall_mem_cons] at hk hl
      rw [Ty.canon, Ty.canon, Ty.canonFields_of_beq hheld m n ha.2.1 hb.2.1 hk.2 hl.2 h.1,
        hheld k l hk.1 hl.1 h.2]
    | _ => simp [Ty.beq] at h
  | .layout l d k =>
    cases b with
    | layout m e j =>
      rw [Ty.beq, Bool.and_eq_true, Bool.and_eq_true, beq_iff_eq] at h
      rw [Ty.kinds, List.forall_mem_cons] at hk hl
      rw [Ty.canon, Ty.canon, h.1.1, Env.canon_of_beq hheld d e ha.1 hb.1 hk.2 hl.2 h.1.2,
        hheld k j hk.1 hl.1 h.2]
    | _ => simp [Ty.beq] at h
  | .closure s t =>
    cases b with
    | closure s' t' =>
      rw [Ty.beq, Bool.and_eq_true] at h
      rw [Ty.kinds, List.forall_mem_append] at hk hl
      rw [Ty.canon, Ty.canon, Ty.canon_of_beq hheld s s' ha.1 hb.1 hk.1 hl.1 h.1,
        Ty.canon_of_beq hheld t t' ha.2 hb.2 hk.2 hl.2 h.2]
    | _ => simp [Ty.beq] at h
  | .array p t =>
    cases b with
    | array q t' =>
      rw [Ty.beq, Bool.and_eq_true, beq_iff_eq] at h
      rw [Ty.canon, Ty.canon, h.1, Ty.canon_of_beq hheld t t' ha hb hk hl h.2]
    | _ => simp [Ty.beq] at h
  | .foreign target ps =>
    cases b with
    | foreign target' qs =>
      rw [Ty.beq, Bool.and_eq_true, beq_iff_eq] at h
      rw [Ty.canon, Ty.canon, h.1, ForeignPart.canonAll_of_beq hheld ps qs ha hb hk hl h.2]
    | _ => simp [Ty.beq] at h
termination_by structural a

lemma Ty.canonAll_of_beq (hheld : MapKind.Apart held) (as bs : List Ty) (ha : Ty.AllFormed as)
    (hb : Ty.AllFormed bs) (hk : ∀ k ∈ Ty.kindsOfAll as, held k)
    (hl : ∀ k ∈ Ty.kindsOfAll bs, held k) (h : Ty.beqAll .content as bs = true) :
    Ty.canonAll as = Ty.canonAll bs := by
  match as with
  | [] => cases bs <;> simp_all [Ty.beqAll]
  | a :: as =>
    cases bs with
    | nil => simp [Ty.beqAll] at h
    | cons b bs =>
      rw [Ty.beqAll, Bool.and_eq_true] at h
      rw [Ty.kindsOfAll, List.forall_mem_append] at hk hl
      rw [Ty.canonAll, Ty.canonAll, Ty.canon_of_beq hheld a b ha.1 hb.1 hk.1 hl.1 h.1,
        Ty.canonAll_of_beq hheld as bs ha.2 hb.2 hk.2 hl.2 h.2]
termination_by structural as

lemma Ty.canonFields_of_beq (hheld : MapKind.Apart held) (m n : List (Name × Ty))
    (ha : Ty.FieldsFormed m) (hb : Ty.FieldsFormed n) (hk : ∀ k ∈ Ty.kindsOfFields m, held k)
    (hl : ∀ k ∈ Ty.kindsOfFields n, held k) (h : Ty.beqFields .content m n = true) :
    Ty.canonFields m = Ty.canonFields n := by
  match m with
  | [] => cases n <;> simp_all [Ty.beqFields]
  | (x, a) :: m =>
    cases n with
    | nil => simp [Ty.beqFields] at h
    | cons e n =>
      obtain ⟨y, b⟩ := e
      rw [Ty.beqFields, Bool.and_eq_true, Bool.and_eq_true, beq_iff_eq] at h
      rw [Ty.kindsOfFields, List.forall_mem_append] at hk hl
      rw [Ty.canonFields, Ty.canonFields, h.1.1, Ty.canon_of_beq hheld a b
        ha.1 hb.1 hk.1 hl.1 h.1.2,
        Ty.canonFields_of_beq hheld m n ha.2 hb.2 hk.2 hl.2 h.2]
termination_by structural m

lemma ForeignPart.canon_of_beq (hheld : MapKind.Apart held) (p q : ForeignPart) (ha : p.Formed)
    (hb : q.Formed) (hk : ∀ k ∈ p.kinds, held k) (hl : ∀ k ∈ q.kinds, held k)
    (h : p.beq .content q = true) : p.canon = q.canon := by
  match p with
  | .text s => cases q <;> simp_all [ForeignPart.beq]
  | .type t =>
    cases q with
    | text => simp [ForeignPart.beq] at h
    | type t' => exact congrArg ForeignPart.type (Ty.canon_of_beq hheld t t' ha hb hk hl h)
termination_by structural p

lemma ForeignPart.canonAll_of_beq (hheld : MapKind.Apart held) (ps qs : List ForeignPart)
    (ha : ForeignPart.AllFormed ps) (hb : ForeignPart.AllFormed qs)
    (hk : ∀ k ∈ ForeignPart.kindsOfAll ps, held k) (hl : ∀ k ∈ ForeignPart.kindsOfAll qs, held k)
    (h : ForeignPart.beqAll .content ps qs = true) :
    ForeignPart.canonAll ps = ForeignPart.canonAll qs := by
  match ps with
  | [] => cases qs <;> simp_all [ForeignPart.beqAll]
  | p :: ps =>
    cases qs with
    | nil => simp [ForeignPart.beqAll] at h
    | cons q qs =>
      rw [ForeignPart.beqAll, Bool.and_eq_true] at h
      rw [ForeignPart.kindsOfAll, List.forall_mem_append] at hk hl
      rw [ForeignPart.canonAll, ForeignPart.canonAll,
        ForeignPart.canon_of_beq hheld p q ha.1 hb.1 hk.1 hl.1 h.1,
        ForeignPart.canonAll_of_beq hheld ps qs ha.2 hb.2 hk.2 hl.2 h.2]
termination_by structural ps

lemma Term.canon_of_beq (hheld : MapKind.Apart held) (a b : Term) (ha : a.Formed) (hb : b.Formed)
    (hk : ∀ k ∈ a.kinds, held k) (hl : ∀ k ∈ b.kinds, held k)
    (h : a.beq .content b = true) : a.canon = b.canon := by
  -- A value has no binders, so these are all the constructors there are.
  match a with
  | .type s =>
    cases b with
    | type t => exact congrArg Term.type (Ty.canon_of_beq hheld s t ha hb hk hl h)
    | _ => simp [Term.beq] at h
  | .var ⟨s, t⟩ =>
    cases b with
    | var w =>
      obtain ⟨s', t'⟩ := w
      rw [Term.beq, Var.beq, Bool.and_eq_true, beq_iff_eq] at h
      rw [Term.canon, Term.canon, Var.canon, Var.canon, h.1,
        Ty.canon_of_beq hheld t t' ha hb hk hl h.2]
    | _ => simp [Term.beq] at h
  | .lit l => cases b <;> simp_all [Term.beq]
  | .tuple as =>
    cases b with
    | tuple bs => exact congrArg Term.tuple (Term.canonAll_of_beq hheld as bs ha hb hk hl h)
    | _ => simp [Term.beq] at h
  | .map d k =>
    cases b with
    | map e l =>
      rw [Term.beq, Bool.and_eq_true] at h
      rw [Term.kinds, List.forall_mem_cons] at hk hl
      rw [Term.canon, Term.canon, Env.canon_of_beq hheld d e ha.1 hb.1 hk.2 hl.2 h.1,
        hheld k l hk.1 hl.1 h.2]
    | _ => simp [Term.beq] at h
  | .box c s =>
    cases b with
    | box d t =>
      rw [Term.beq, Bool.and_eq_true] at h
      rw [Term.kinds, List.forall_mem_append] at hk hl
      rw [Term.canon, Term.canon, Term.canon_of_beq hheld c d ha.1 hb.1 hk.1 hl.1 h.1,
        Ty.canon_of_beq hheld s t ha.2 hb.2 hk.2 hl.2 h.2]
    | _ => simp [Term.beq] at h
  | .op o as s =>
    cases b with
    | op o' bs t =>
      rw [Term.beq, Bool.and_eq_true, Bool.and_eq_true, beq_iff_eq] at h
      rw [Term.kinds, List.forall_mem_append] at hk hl
      rw [Term.canon, Term.canon, h.1.1,
        Term.canonAll_of_beq hheld as bs ha.2.1 hb.2.1 hk.1 hl.1 h.1.2,
        Ty.canon_of_beq hheld s t ha.2.2 hb.2.2 hk.2 hl.2 h.2]
    | _ => simp [Term.beq] at h
termination_by structural a

lemma Term.canonAll_of_beq (hheld : MapKind.Apart held) (as bs : List Term)
    (ha : Term.AllFormed as) (hb : Term.AllFormed bs) (hk : ∀ k ∈ Term.kindsOfAll as, held k)
    (hl : ∀ k ∈ Term.kindsOfAll bs, held k) (h : Term.beqAll .content as bs = true) :
    Term.canonAll as = Term.canonAll bs := by
  match as with
  | [] => cases bs <;> simp_all [Term.beqAll]
  | a :: as =>
    cases bs with
    | nil => simp [Term.beqAll] at h
    | cons b bs =>
      rw [Term.beqAll, Bool.and_eq_true] at h
      rw [Term.kindsOfAll, List.forall_mem_append] at hk hl
      rw [Term.canonAll, Term.canonAll, Term.canon_of_beq hheld a b ha.1 hb.1 hk.1 hl.1 h.1,
        Term.canonAll_of_beq hheld as bs ha.2 hb.2 hk.2 hl.2 h.2]
termination_by structural as

lemma Env.canon_of_beq (hheld : MapKind.Apart held) (d e : Env) (hd : d.Formed) (he : e.Formed)
    (hk : ∀ k ∈ d.kinds, held k) (hl : ∀ k ∈ e.kinds, held k)
    (h : d.beq .content e = true) : d.canon = e.canon := by
  have hvisible := he.visible.2
  rw [Env.kinds_eq] at hl
  rw [Env.canon_eq e]
  match d with
  | .plain m =>
    exact congrArg Env.plain (Env.canonFields_of_beq hheld _ m e.visible hd.2 hvisible hk hl h)
  | .restricted m used =>
    exact congrArg Env.plain (Env.canonFields_of_beq hheld _ m e.visible hd.2.1 hvisible hk hl h)
  | .consed _ m =>
    rw [Env.beq] at h
    have h : Env.beqFields .content (fun _ => true) m e.visible = true := by
      cases e <;> simpa [Identity.accepts] using h
    exact congrArg Env.plain (Env.canonFields_of_beq hheld _ m e.visible hd.2 hvisible hk hl h)
termination_by structural d

lemma Env.canonFields_of_beq (hheld : MapKind.Apart held) (keep : Name → Bool)
    (m : List (Name × Term)) (n : Fields Term) (ha : Env.FieldsFormed m) (hb : Env.FieldsFormed n)
    (hk : ∀ k ∈ Env.kindsOfFields keep m, held k) (hl : ∀ k ∈ Fields.kinds n, held k)
    (h : Env.beqFields .content keep m n = true) :
    Env.canonFields keep m = Fields.canon n := by
  match m with
  | [] => simp_all [Env.beqFields, Env.canonFields]
  | (x, a) :: m =>
    rw [Env.beqFields.eq_def] at h
    dsimp only at h
    rw [Env.kindsOfFields] at hk
    rw [Env.canonFields]
    by_cases hx : keep x = true
    · rw [if_pos hx] at h hk ⊢
      cases n with
      | nil => simp at h
      | cons e n =>
        obtain ⟨y, b⟩ := e
        rw [Bool.and_eq_true, Bool.and_eq_true, beq_iff_eq] at h
        rw [List.forall_mem_append] at hk
        rw [Fields.kinds, List.flatMap_cons, List.forall_mem_append] at hl
        rw [Fields.canon_cons, h.1.1, Term.canon_of_beq hheld a b ha.1 hb.1 hk.1 hl.1 h.1.2,
          Env.canonFields_of_beq hheld keep m n ha.2 hb.2 hk.2 hl.2 h.2]
    · rw [if_neg hx] at h hk ⊢
      exact Env.canonFields_of_beq hheld keep m n ha.2 hb hk hl h
termination_by structural m

end

end Forms

variable {held : MapKind → Prop} (hheld : MapKind.Apart held)
include hheld

/-- Types with one code are twins. -/
theorem Ty.twin_of_code {s t : Ty} (hs : s.Formed) (ht : t.Formed) (hk : ∀ k ∈ s.kinds, held k)
    (hl : ∀ k ∈ t.kinds, held k) (h : s.code = t.code) : s.Twin held t :=
  ⟨Ty.canon_of_beq hheld s t hs ht hk hl ((Ty.beq_content_iff s t).2 h), hk⟩

/-- Bindings with one code are twins. -/
theorem Fields.twin_of_code {m n : Fields Term} (hm : Fields.Formed m) (hn : Fields.Formed n)
    (hk : ∀ k ∈ Fields.kinds m, held k) (hl : ∀ k ∈ Fields.kinds n, held k)
    (h : Fields.code m = Fields.code n) : Fields.Twin held m n := by
  refine ⟨?_, hk⟩
  have hbeq := (Env.beqFields_content_iff (fun _ => true) m n).2 h
  have hkinds : ∀ k ∈ Env.kindsOfFields (fun _ => true) m, held k := by
    rw [Env.kindsOfFields_eq, List.filter_eq_self.2 fun _ _ => rfl]
    exact hk
  have hcanon := Env.canonFields_of_beq hheld (fun _ => true) m n hm.2 hn.2 hkinds hl hbeq
  rwa [Env.canonFields_eq, List.filter_eq_self.2 fun _ _ => rfl] at hcanon

end Residual
