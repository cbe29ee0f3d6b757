import Residual.Proofs.Eval.CoupledBranches
import Residual.Proofs.Eval.CoupledPoints

/-!
Coupled runs stay coupled through all of evaluation.

Each operation does the same on akin values, and each step of evaluation does the same in
environments that agree on what the expression reads. By induction on the nesting so does all of
evaluation, where the second run admits what is captured.
-/

namespace Residual.Coupling

open Eval
open Region (lax)

variable {c : Coupling} {Γ : List Stmt} {p q : Runs} {ev ev' : Expr → Eval Term}
  {evs : List Stmt → Expr → Eval Term} {a b f f' arg arg' : Term}
  {as bs : List Term} {d e : Env} {kind : MapKind}

/-! ### Operands -/

lemma together_operand (h : List.Forall₂ p.Same as bs) (o : Op) :
    c.Together Γ p (operand o as) (operand o bs) Runs.Same :=
  .of_matches_value (.of_paired (paired_operand (Runs.Same.kins h) o))
    (Region.does_operand o (Runs.Same.lefts h)) (Region.does_operand o (Runs.Same.rights h))

lemma together_operands₂ (h : List.Forall₂ p.Same as bs) (o : Op) :
    c.Together Γ p (operands₂ o as) (operands₂ o bs) fun q r r' =>
      q.Same r.1 r'.1 ∧ q.Same r.2 r'.2 :=
  (Together.of_paired (paired_operands₂ (R := Runs.Kin) (Runs.Same.kins h) o)
    (Region.does_operands₂ o (Runs.Same.lefts h))
    (Region.does_operands₂ o (Runs.Same.rights h))).imp fun _ _ _ _ ⟨hab, hl, hr⟩ =>
      ⟨⟨hab.1, hl.1, hr.1⟩, ⟨hab.2, hl.2, hr.2⟩⟩

lemma together_operands₃ (h : List.Forall₂ p.Same as bs) (o : Op) :
    c.Together Γ p (operands₃ o as) (operands₃ o bs) fun q r r' =>
      q.Same r.1 r'.1 ∧ q.Same r.2.1 r'.2.1 ∧ q.Same r.2.2 r'.2.2 :=
  (Together.of_paired (paired_operands₃ (R := Runs.Kin) (Runs.Same.kins h) o)
    (Region.does_operands₃ o (Runs.Same.lefts h))
    (Region.does_operands₃ o (Runs.Same.rights h))).imp fun _ _ _ _ ⟨hab, hl, hr⟩ =>
      ⟨⟨hab.1, hl.1, hr.1⟩, ⟨hab.2.1, hl.2.1, hr.2.1⟩, ⟨hab.2.2, hl.2.2, hr.2.2⟩⟩

lemma operands_of_same (h : List.Forall₂ p.Same as bs) :
    List.Forall₂ (Operand (lax.ground p.left) (lax.ground p.right) p) as bs :=
  h.imp fun _ _ h => ⟨h.kin, h.left.ty.sound, h.right.ty.sound⟩

/-- A value where it is there. -/
lemma matches_found (cause : Cause) {o o' : Option Term} (h : Option.Rel p.Kin o o') :
    c.Matches Γ p (o.elim (fail cause) pure) (o'.elim (fail cause) pure) Runs.Kin := by
  cases h with
  | none => exact .fail rfl
  | some h => exact .pure h

/-! ### Unions -/

lemma paired_unionMembers {s t : Ty} (h : p.Tys s t) :
    c.Paired Γ p (unionMembers s) (unionMembers t) fun q => List.Forall₂ q.Tys := by
  have hmembers : ∀ {s t : Ty}, p.Tys s t →
      List.Forall₂ p.Tys (s.members?.getD [s]) (t.members?.getD [t]) := by
    intro s t h
    cases h.heads with
    | union hst => exact hst
    | _ => exact .cons h .nil
  cases h.heads with
  | recur key =>
    refine .given fun hp => .getSession ?_
    have hrec := lookup_rel hp.session.recTypes key
    rw [Session.recType?, Session.recType?]
    generalize p.left.session.recTypes.lookup key = found at hrec
    generalize p.right.session.recTypes.lookup key = found' at hrec
    cases hrec with
    | none => exact Paired.fail (congrArg Cause.undefinedType h.same)
    | some hdef => exact Paired.pure (hmembers hdef)
  | _ => exact .pure (hmembers h)

lemma together_unionMembers {s t : Ty} (h : p.SameTy s t) :
    c.Together Γ p (unionMembers s) (unionMembers t) fun q ss ts =>
      List.Forall₂ q.SameTy ss ts ∧ q.right.scope.stmts = p.right.scope.stmts := by
  refine (Together.of_paired (paired_unionMembers h.twin) (Region.does_unionMembers h.left)
    (Region.does_unionMembers h.right)).imp ?_
  rintro q ss ts - ⟨hmembers, ⟨hq, hl, -⟩, ⟨hq', hr, -⟩⟩
  refine ⟨?_, by rw [hq']⟩
  rw [← hq] at hl
  rw [← hq'] at hr
  clear hq hq'
  induction hmembers with
  | nil => exact .nil
  | cons hst _ ih =>
    obtain ⟨hs, hl⟩ := List.forall_mem_cons.1 hl
    obtain ⟨ht, hr⟩ := List.forall_mem_cons.1 hr
    exact .cons ⟨hst, hs, ht⟩ (ih hl hr)

lemma contains_same {s t : Ty} (hst : p.SameTy s t) {ss ts : List Ty}
    (h : List.Forall₂ p.SameTy ss ts) : ss.contains s = ts.contains t := by
  induction h with
  | nil => rfl
  | cons hab _ ih => rw [List.contains_cons, List.contains_cons, ih, hst.beq hab]

lemma matches_boxValue {s t : Ty} (hst : p.SameTy s t) (hab : p.Same a b) :
    c.Matches Γ p (boxValue s a) (boxValue t b) Runs.Kin := by
  refine Together.bind_matches (together_unionMembers hst) fun ss ts q hq ⟨hmembers, _⟩ => ?_
  rw [contains_same (hab.mono hq).ty hmembers]
  split
  · exact Matches.pure (Term.akin_box_iff.2 ⟨hq.kin hab.kin, hq.tys hst.twin⟩)
  · exact Matches.fail (congrArg₂ Cause.notMember hst.twin.same hab.ty.twin.same)

/-! ### Fields -/

lemma SameMap.visible {m n : Env × MapKind} (h : SameMap p m n) :
    p.SameFields m.1.visible n.1.visible :=
  sameFields_of_kin (Term.akin_map_iff.1 h.2.kin).1 h.2.left.visible h.2.right.visible

lemma SameMap.get? {m n : Env × MapKind} (h : SameMap p m n) (x : Name) :
    Option.Rel p.Kin (m.1.get? x) (n.1.get? x) :=
  (Term.akin_map_iff.1 h.2.kin).1.get? h.2.left.formed.1.ascending h.2.right.formed.1.ascending x

lemma isSome_of_rel {α β : Type} {R : α → β → Prop} {o : Option α} {o' : Option β}
    (h : Option.Rel R o o') : o.isSome = o'.isSome := by
  cases h <;> rfl

lemma hasMember_of_same (h : p.Same a b) (x : Name) : a.hasMember x = b.hasMember x := by
  -- Of anything but a map only the type counts.
  have hty : (Term.type a.ty).hasMember x = (Term.type b.ty).hasMember x := by
    have htwin := h.kin.ty
    have hformed := h.left.formed.ty
    have hformed' := h.right.formed.ty
    generalize a.ty = s at htwin hformed
    generalize b.ty = t at htwin hformed'
    cases htwin.heads with
    | map hm hk => exact isSome_of_rel (Fields.get?_rel hm x)
    | layout he hk => exact isSome_of_rel (he.get? hformed.1.ascending hformed'.1.ascending x)
    | _ => rfl
  cases h.kin.heads with
  | map hde hk =>
    exact isSome_of_rel (hde.get? h.left.formed.1.ascending h.right.formed.1.ascending x)
  | var _ | _ => exact hty

section Laws

variable (hc : c.Laws)
include hc

/-- A field of what has to be a map. -/
lemma matches_fieldOf (op : ModuleOp) (h : p.Same a b) (x : Name)
    {k : Env × MapKind → Eval Term}
    (hk : ∀ m, k m = (m.1.get? x).elim (fail (.noField x)) pure) :
    c.Matches Γ p (mapValue (.module op) a >>= k) (mapValue (.module op) b >>= k) Runs.Kin := by
  refine Together.bind_matches (together_mapValue hc _ h) fun m n q _ hmn => ?_
  rw [hk, hk]
  exact matches_found _ (SameMap.get? hmn x)

lemma matches_openField (op : ModuleOp) (h : p.Same a b) (x : Name) :
    c.Matches Γ p (openField op a x) (openField op b x) Runs.Kin := by
  unfold openField
  cases h.kin.heads with
  | @var v v' hv =>
    obtain ⟨tag, s⟩ := v
    obtain ⟨tag', t⟩ := v'
    cases hv.ty.heads with
    | @map m n kind hmn hk =>
      have hget := Fields.get?_rel hmn x
      have hformed : (Ty.map m kind).Formed := h.left.formed
      dsimp only
      cases hm : Fields.get? m x with
      | none =>
        rw [hm] at hget
        generalize Fields.get? n x = found at hget
        cases hget
        exact .fail rfl
      | some s =>
        rw [hm] at hget
        generalize Fields.get? n x = found at hget
        cases hget with
        | some hty =>
          exact .of_paired (paired_readField hc hv hty hm
            (Ty.fieldsFormed_iff.1 hformed.2.1 _ (Fields.mem_of_get? hm)))
    | _ => exact matches_fieldOf hc op h x fun m => by dsimp only; cases m.1.get? x <;> rfl
  | _ => exact matches_fieldOf hc op h x fun m => by dsimp only; cases m.1.get? x <;> rfl

/-! ### Application -/

lemma matches_applyMap (hev : c.Uniform Γ ev ev') {d e : Env} {kind : MapKind}
    (hm : p.Same (.map d kind) (.map e kind)) (harg : p.Same arg arg') :
    c.Matches Γ p (applyMap ev d kind arg) (applyMap ev' e kind arg') Runs.Kin := by
  obtain ⟨hde, -, hbacked⟩ := Term.akin_map_iff.1 hm.kin
  cases kind with
  | function param body =>
    refine matches_withEnv (hm.left.bind param harg.left) (hm.right.bind param harg.right) ?_
    exact hev.same ⟨hbacked, .inl (hde.bind param harg.kin)⟩
  | recFunction this param body =>
    refine matches_withEnv ((hm.left.bind this hm.left).bind param harg.left)
      ((hm.right.bind this hm.right).bind param harg.right) ?_
    exact hev.same ⟨hbacked, .inl ((hde.bind this hm.kin).bind param harg.kin)⟩
  | module =>
    unfold applyMap
    dsimp only
    rw [harg.kin.string?]
    split
    · refine Matches.fail ?_
      exact congrArg Cause.notCallable (hm.kin.ty.same : (Term.map d .module).ty.canon = _)
    · rename_i field _
      refine Together.bind_matches (hc.build (Build.does_name field)
        fun t _ => Build.enters_name field) ?_
      rintro x _ q hq ⟨rfl, -, -⟩
      have hsame : SameMap q (d, .module) (e, .module) := ⟨rfl, hm.mono hq⟩
      have hfound : c.Matches Γ q _ _ _ := matches_found (.noField x) (hsame.get? x)
      dsimp only at hfound
      cases hd : d.get? x <;> cases he : e.get? x <;> rw [hd, he] at hfound <;> exact hfound

/-- Application of what has to be a map. -/
lemma matches_applyValue (hev : c.Uniform Γ ev ev') (hf : p.Same f f') (harg : p.Same arg arg')
    {k k' : Option (Env × MapKind) → Eval Term}
    (hsome : ∀ m, k (some m) = applyMap ev m.1 m.2 arg) (hnone : k none = fail (.notCallable f.ty))
    (hsome' : ∀ m, k' (some m) = applyMap ev' m.1 m.2 arg')
    (hnone' : k' none = fail (.notCallable f'.ty)) :
    c.Matches Γ p (mapValue? f >>= k) (mapValue? f' >>= k') Runs.Kin := by
  refine Together.bind_matches (together_mapValue? hc hf) fun m n q hq hmn => ?_
  cases hmn with
  | none =>
    rw [hnone, hnone']
    exact .fail (congrArg Cause.notCallable hf.kin.ty.same)
  | @some m n h =>
    obtain ⟨d, kind⟩ := m
    obtain ⟨e, kind'⟩ := n
    obtain ⟨rfl, h⟩ := h
    rw [hsome, hsome']
    exact matches_applyMap hc hev h (harg.mono hq)

lemma matches_apply (hev : c.Uniform Γ ev ev') (hf : p.Same f f') (harg : p.Same arg arg') :
    c.Matches Γ p (apply ev f arg) (apply ev' f' arg') Runs.Kin := by
  unfold apply
  cases hf.kin.heads with
  | @type s t hst =>
    cases hst.heads with
    | union => exact matches_boxValue ⟨hst, hf.left.ty, hf.right.ty⟩ harg
    | recur => exact matches_boxValue ⟨hst, hf.left.ty, hf.right.ty⟩ harg
    | _ => exact matches_applyValue hc hev hf harg (fun _ => rfl) rfl (fun _ => rfl) rfl
  | @var v v' hv =>
    obtain ⟨tag, s⟩ := v
    obtain ⟨tag', t⟩ := v'
    cases hv.ty.heads with
    | @closure dom range dom' range' hdom hrange =>
      have hl : Ty.Sound (lax.ground p.left) (.closure dom range) := hf.left.ty.sound
      have hr : Ty.Sound (lax.ground p.right) (.closure dom' range') := hf.right.ty.sound
      dsimp only
      rw [Ty.beq_of_canon harg.left.ty.sound hl.1 harg.right.ty.sound hr.1 harg.kin.ty.same
        hdom.same]
      split
      · refine .of_paired ((paired_toRuntime hc arg arg' p harg.kin).bind
          fun _ _ q hq hruntime => ?_)
        exact hc.emit (.cons (hq.kin hf.kin) (.cons hruntime .nil)) (hq.tys hrange)
          fun hpure => by cases hpure
      · exact Matches.fail (congrArg₂ Cause.closureArg hdom.same harg.kin.ty.same)
    | _ => exact matches_applyValue hc hev hf harg (fun _ => rfl) rfl (fun _ => rfl) rfl
  | _ => exact matches_applyValue hc hev hf harg (fun _ => rfl) rfl (fun _ => rfl) rfl

lemma together_apply (hev : c.Uniform Γ ev ev') (hf : p.Same f f') (harg : p.Same arg arg') :
    c.Together Γ p (apply ev f arg) (apply ev' f' arg') Runs.Same :=
  .of_matches_value (matches_apply hc hev hf harg) (Region.does_apply hev.left hf.left harg.left)
    (Region.does_apply hev.right hf.right harg.right)

/-! ### Modules -/

omit hc in
lemma together_fieldKey (x : Name) : c.Together Γ p (fieldKey x) (fieldKey x) Runs.Same := by
  refine .of_matches_value (.of_paired (.given fun hp => .getSession ?_)) (Region.does_fieldKey x)
    (Region.does_fieldKey x)
  rw [hp.session.store]
  exact Paired.pure (Term.akin_type_iff.2 (.refl fun _ hk => absurd hk List.not_mem_nil))

lemma together_mapFields (hev : c.Uniform Γ ev ev') (hf : p.Same f f') {m n : Fields Term}
    (hmn : p.SameFields m n) :
    c.Together Γ p (mapFields ev f m) (mapFields ev' f' n) Runs.SameFields := by
  induction m generalizing p n with
  | nil =>
    cases hmn
    exact .pure .nil
  | cons d m ih =>
    obtain _ | @⟨_, e, _, n, hde, hmn⟩ := hmn
    obtain ⟨x, s⟩ := d
    obtain ⟨y, t⟩ := e
    obtain ⟨rfl, hst⟩ := hde
    refine (together_fieldKey x).bind fun key key' q₁ h₁ hkey => ?_
    refine (together_apply hc hev (hf.mono h₁) hkey).bind fun g g' q₂ h₂ hg => ?_
    have h₁₂ := h₁.trans h₂
    refine (together_apply hc hev hg (hst.mono h₁₂)).bind fun u u' q₃ h₃ hu => ?_
    have hq := h₁₂.trans h₃
    exact (ih (hf.mono hq) (Runs.SameFields.mono hmn hq)).bind fun rest rest' r hr hrest =>
      .pure (.cons ⟨rfl, hu.mono hr⟩ hrest)

lemma together_foldFields (hev : c.Uniform Γ ev ev') (hf : p.Same f f') (ha : p.Same a b)
    {m n : Fields Term} (hmn : p.SameFields m n) :
    c.Together Γ p (foldFields ev f a m) (foldFields ev' f' b n) Runs.Same := by
  induction m generalizing p a b n with
  | nil =>
    cases hmn
    exact .pure ha
  | cons d m ih =>
    obtain _ | @⟨_, e, _, n, hde, hmn⟩ := hmn
    obtain ⟨x, s⟩ := d
    obtain ⟨y, t⟩ := e
    obtain ⟨rfl, hst⟩ := hde
    refine (together_fieldKey x).bind fun key key' q₁ h₁ hkey => ?_
    refine (together_apply hc hev (hf.mono h₁) (ha.mono h₁)).bind fun g g' q₂ h₂ hg => ?_
    refine (together_apply hc hev hg (hkey.mono h₂)).bind fun g g' q₃ h₃ hg => ?_
    have hq := (h₁.trans h₂).trans h₃
    refine (together_apply hc hev hg (hst.mono hq)).bind fun u u' q₄ h₄ hu => ?_
    exact ih (hf.mono (hq.trans h₄)) hu (Runs.SameFields.mono hmn (hq.trans h₄))

omit hc in
/-- Names with akin values. -/
lemma sameFields_zip (xs : List Name) (h : List.Forall₂ p.Same as bs) :
    p.SameFields (xs.zip as) (xs.zip bs) := by
  induction xs generalizing as bs with
  | nil => exact .nil
  | cons x xs ih =>
    cases h with
    | nil => exact .nil
    | cons hab h => exact .cons ⟨rfl, hab⟩ (ih h)

omit hc in
lemma kin_foldl_bind {d e : Env} (hde : p.KinEnv d e) {m n : Fields Term}
    (hmn : p.KinFields m n) : p.KinEnv (m.foldl (fun env e => env.bind e.1 e.2) d)
      (n.foldl (fun env e => env.bind e.1 e.2) e) := by
  induction hmn generalizing d e with
  | nil => exact hde
  | @cons a b m n hab _ ih =>
    obtain ⟨x, s⟩ := a
    obtain ⟨y, t⟩ := b
    obtain ⟨rfl, hst⟩ := hab
    exact ih (hde.bind x hst)

omit hc in
lemma kin_foldl_erase {m n : Fields Term} (hmn : p.KinFields m n) (xs : List Name) :
    p.KinFields (xs.foldl Fields.erase m) (xs.foldl Fields.erase n) := by
  induction xs generalizing m n with
  | nil => exact hmn
  | cons x xs ih => exact ih (Fields.rel_erase hmn x)

lemma matches_moduleOp (hev : c.Uniform Γ ev ev') (op : ModuleOp)
    (h : List.Forall₂ p.Same as bs) :
    c.Matches Γ p (moduleOp ev op as) (moduleOp ev' op bs) Runs.Kin := by
  cases op with
  -- New modules and extended ones: the values have kin, in the order of the names.
  | create xs =>
    unfold moduleOp
    dsimp only
    rw [h.length_eq]
    split
    · refine .pure (Term.akin_map_iff.2 ⟨?_, rfl, trivial⟩)
      exact Fields.rel_ofList (sameFields_zip xs h).kin
    · exact .fail rfl
  | extend xs =>
    cases h with
    | nil => exact .fail rfl
    | @cons a b as bs hab h =>
      refine Together.bind_matches (together_mapValue hc _ hab) ?_
      rintro ⟨d, kind⟩ ⟨e, _⟩ q hq ⟨rfl, hm⟩
      dsimp only
      rw [h.length_eq]
      split
      · obtain ⟨hde, -, hk⟩ := Term.akin_map_iff.1 hm.kin
        have hzip := (sameFields_zip xs (Runs.Same.all_mono h hq)).kin
        exact .pure (Term.akin_map_iff.2 ⟨kin_foldl_bind hde hzip, rfl, hk⟩)
      · exact .fail rfl
  | without xs =>
    refine Together.bind_matches (together_operand h _) fun a b _ _ hab => ?_
    refine Together.bind_matches (together_mapValue hc _ hab) ?_
    rintro ⟨d, kind⟩ ⟨e, _⟩ q - ⟨rfl, hm⟩
    obtain ⟨hde, -, hk⟩ := Term.akin_map_iff.1 hm.kin
    exact .pure (Term.akin_map_iff.2 ⟨kin_foldl_erase hde xs, rfl, hk⟩)
  -- Reading one field.
  | «open» x =>
    exact Together.bind_matches (together_operand h _) fun a b _ _ hab =>
      matches_openField hc _ hab x
  | getField x =>
    exact Together.bind_matches (together_operand h _) fun a b _ _ hab =>
      matches_openField hc _ hab x
  | hasMember x =>
    refine Together.bind_matches (together_operand h _) fun a b _ _ hab => ?_
    rw [hasMember_of_same hab x]
    exact .pure (Term.akin_lit _)
  -- The two operations that apply a function to all fields.
  | map =>
    refine Together.bind_matches (together_operands₂ h _) ?_
    rintro ⟨f, t⟩ ⟨f', t'⟩ q _ ⟨hf, ht⟩
    refine Together.bind_matches (together_mapValue hc _ ht) ?_
    rintro ⟨d, kind⟩ ⟨e, _⟩ r hr hm
    refine Together.bind_matches (together_mapFields hc hev (hf.mono hr) (SameMap.visible hm))
      fun m n _ _ hmn => .pure (Term.akin_map_iff.2 ⟨?_, rfl, trivial⟩)
    exact hmn.kin
  | fold =>
    refine Together.bind_matches (together_operands₃ h _) ?_
    rintro ⟨f, acc, t⟩ ⟨f', acc', t'⟩ q _ ⟨hf, hacc, ht⟩
    refine Together.bind_matches (together_mapValue hc _ ht) ?_
    rintro ⟨d, kind⟩ ⟨e, _⟩ r hr hm
    exact (together_foldFields hc hev (hf.mono hr) (hacc.mono hr)
      (SameMap.visible hm)).toMatches.imp fun _ _ _ _ h => h.kin

/-! ### Layouts -/

lemma matches_pack (layout : Layout) (hm : p.Same (.map d kind) (.map e kind))
    (hadmits : c.admits (Γ ++ p.right.scope.stmts) e.visible = true) :
    c.Matches Γ p
      (do
        let (type, r) ← rename (fun envs => { envs }) (Rename.env d)
        let ty := Ty.layout layout type kind
        bindResult (.op (.layout (.pack layout)) [.tuple (r.args.map .var)] ty) ty)
      (do
        let (type, r) ← rename (fun envs => { envs }) (Rename.env e)
        let ty := Ty.layout layout type kind
        bindResult (.op (.layout (.pack layout)) [.tuple (r.args.map .var)] ty) ty) Runs.Kin := by
  obtain ⟨hde, -, hk⟩ := Term.akin_map_iff.1 hm.kin
  refine Matches.bind_paired (hc.pack hde hm.left hm.right hadmits) ?_
  rintro ⟨d', r⟩ ⟨e', r'⟩ q hq ⟨henv, hargs⟩
  have hty : q.Tys (.layout layout d' kind) (.layout layout e' kind) :=
    Ty.twin_layout_iff.2 ⟨rfl, henv, rfl, hq.held _ hk⟩
  have hvars : List.Forall₂ q.Kin (r.args.map .var) (r'.args.map .var) :=
    List.forall₂_map_left_iff.2 (List.forall₂_map_right_iff.2
      (hargs.imp fun _ _ => Term.akin_var_iff.2))
  refine .given fun hlinked => hc.bindResult (fun hexact => ?_) hty
  exact hc.op_canon hlinked hexact (.cons (Term.akin_tuple_iff.2 hvars) .nil) hty

lemma matches_layoutOp (op : LayoutOp) (h : List.Forall₂ p.Same as bs)
    (hadmits : ∀ values v, exec (packedValues op bs) p.right = (.ok values, v) →
      c.admits (Γ ++ v.scope.stmts) values = true) :
    c.Matches Γ p (layoutOp op as) (layoutOp op bs) Runs.Kin := by
  refine Together.bind_matches (Moves.ran (together_operand h _)) fun a b q _ ⟨hab, hrun⟩ => ?_
  cases op with
  -- Packing renames what it captures, so the check of the second run is needed here.
  | pack layout =>
    refine Together.bind_matches (Moves.ran (together_mapValue hc _ hab)) ?_
    rintro ⟨d, kind⟩ ⟨e, _⟩ r _ ⟨⟨rfl, hm⟩, hrun'⟩
    refine matches_pack hc layout hm (hadmits e.visible r.right ?_)
    unfold packedValues
    rw [exec_bind_of_ok hrun, exec_bind_of_ok hrun']
    rfl
  -- Reading is from a variable of a packed type; all else is a fault.
  | read i =>
    have hfail : c.Matches Γ q (fail (.notLayout a.ty)) (fail (.notLayout b.ty)) Runs.Kin :=
      .fail (congrArg Cause.notLayout hab.kin.ty.same)
    cases hab.kin.heads with
    | @var v v' hv =>
      obtain ⟨tag, s⟩ := v
      obtain ⟨tag', t⟩ := v'
      cases hv.ty.heads with
      | @layout l d e kind hde hk =>
        have hl : (Ty.layout l d kind).Formed := hab.left.formed
        have hr : (Ty.layout l e kind).Formed := hab.right.formed
        refine Matches.bind_paired (hc.envVars hde hl.1 hr.1) fun vs vs' r hr hvs => ?_
        have hget := Twin.getElem?_rel hvs i
        generalize vs[i]? = found at hget
        generalize vs'[i]? = found' at hget
        cases hget with
        | none => exact .fail (congrArg Cause.notLayout hab.kin.ty.same)
        | some hfield =>
          exact hc.emit (.cons (hr.kin hab.kin) .nil) (Var.twin_iff.1 hfield).2
            fun hpure => by cases hpure
      | _ => exact hfail
    | _ => exact hfail

lemma matches_layoutOpAdmitting (op : LayoutOp) (h : List.Forall₂ p.Same as bs) :
    c.Matches Γ p (layoutOp op as) (layoutOpAdmitting c.admits Γ op bs) Runs.Kin :=
  .admitting hc fun hadmits => matches_layoutOp hc op h hadmits

/-! ### Splits -/

lemma matches_condAdmitting (hev : ∀ Γ, c.Uniform Γ ev (evs Γ)) {args : List Expr}
    (h : ∀ e ∈ args, p.ReadsHere e) :
    c.Matches Γ p (cond ev args) (condAdmitting Γ evs args) Runs.Kin := by
  match args with
  | [test, yes, no] =>
    have hyes := h yes (by simp)
    have hno := h no (by simp)
    refine Together.bind_matches ((hev Γ).together (h test (by simp))) fun t t' q hq ht => ?_
    rw [ht.kin.bool?]
    cases t'.bool? with
    | some taken =>
      refine (hev Γ).same ?_
      cases taken
      · exact hno.later hq
      · exact hyes.later hq
    | none =>
      have hbool : (t.ty == .bool) = (t'.ty == .bool) := Ty.beq_of_canon ht.left.ty.sound
        (Region.shape_prim .bool).sound ht.right.ty.sound (Region.shape_prim .bool).sound
        ht.kin.ty.same rfl
      dsimp only
      rw [hbool]
      split
      · exact Together.bind_matches (R := fun _ _ _ => False)
          (.fail (congrArg Cause.condition ht.kin.ty.same)) fun _ _ _ _ h => h.elim
      · -- The sides come after the statements that are there once the test is evaluated.
        have hside : ∀ e, p.ReadsHere e → ∀ r, q.Later r →
            r.right.scope.stmts = q.right.scope.stmts →
            c.Together (Γ ++ q.right.scope.stmts) (enterBranch r) (ev e)
              (evs (Γ ++ q.right.scope.stmts) e) Runs.Same := by
          intro e he r hr _
          have hreads := he.later (hq.trans hr)
          exact (hev _).together (p := enterBranch r) ⟨hreads.held, hreads.agree⟩
        refine .getScope_right (Together.bind_matches (together_branches hc
          (.cons (hside yes hyes) (.cons (hside no hno) .nil))) fun bs bs' r hr hbs => ?_)
        refine .of_paired (.given fun hlinked => ?_)
        refine paired_finishSplit hc .cond (fun hexact cs cs' hcs => ?_) hbs
        rw [List.map_cons, List.map_cons, hcs,
          hc.kin_canon hlinked (hr.kin ht.kin) hexact]
  | [] | [_] | [_, _] | _ :: _ :: _ :: _ :: _ => exact Matches.fail rfl

omit hc in
lemma canon_caseArgs {t t' : Term} (ht : t.canon = t'.canon) {vs vs' : List Var}
    (hvs : vs.map Var.canon = vs'.map Var.canon) {ts ts' : List Term}
    (hts : ts.map Term.canon = ts'.map Term.canon) :
    (caseArgs t vs ts).map Term.canon = (caseArgs t' vs' ts').map Term.canon := by
  unfold caseArgs
  rw [List.map_cons, List.map_cons, ht]
  congr 1
  induction vs generalizing vs' ts ts' with
  | nil =>
    rw [List.map_nil] at hvs
    rw [List.map_eq_nil_iff.1 hvs.symm]
    rfl
  | cons v vs ih =>
    cases vs' with
    | nil => cases hvs
    | cons v' vs' =>
      obtain ⟨hv, hvs⟩ := List.cons.inj hvs
      cases ts with
      | nil =>
        rw [List.map_nil] at hts
        rw [List.map_eq_nil_iff.1 hts.symm]
        rfl
      | cons t ts =>
        cases ts' with
        | nil => cases hts
        | cons t' ts' =>
          obtain ⟨hfirst, hrest⟩ := List.cons.inj hts
          rw [List.zip_cons_cons, List.zip_cons_cons, List.flatMap_cons, List.flatMap_cons,
            List.map_append, List.map_append, ih hvs hrest]
          simp only [List.map_cons, List.map_nil, hfirst, Term.canon, hv]

/-- Variables for the members of a union, alike. -/
lemma together_binders {ss ts : List Ty} (h : List.Forall₂ p.SameTy ss ts) :
    c.Together Γ p (ss.mapM freshVar) (ts.mapM freshVar) fun q vs ws =>
      List.Forall₂ (fun v w => q.KinVar v w ∧ q.SameTy v.ty w.ty) vs ws ∧
        q.right.scope.stmts = p.right.scope.stmts := by
  refine (Together.of_paired (Paired.mapM (Q := Runs.Tys) (S := Runs.KinVar)
    (fun _ _ _ _ hq h => hq.tys h) (fun _ _ _ _ hq h => hq.kinVar h) (h.imp fun _ _ h => h.twin)
    fun s t q _ hst => hc.freshVar hst) (Region.does_freshVars ss)
      (Region.does_freshVars ts)).imp ?_
  rintro q vs ws hq ⟨hvs, ⟨htys, -⟩, ⟨htys', -, -, hstmts⟩⟩
  rw [← htys, ← htys', List.forall₂_map_left_iff, List.forall₂_map_right_iff] at h
  exact ⟨List.Forall₂.mp (fun v w hvw hty => ⟨hvw, hty.mono hq⟩) hvs h, hstmts⟩

/-- A split by the member of a union that a variable is of. -/
lemma matches_caseSplit (hev : c.Uniform (Γ ++ p.right.scope.stmts) ev ev') {u u' : Var}
    (hu : p.Same (.var u) (.var u')) (hf : p.Same f f') :
    c.Matches Γ p
      (do
        let members ← unionMembers u.ty
        let binders ← members.mapM freshVar
        let bodies ← branches (binders.map fun b =>
          apply ev f (if b.ty.isUnit then .ofUnit b.ty else .var b))
        finishSplit .case (caseArgs (.var u) binders) bodies)
      (do
        let members ← unionMembers u'.ty
        let binders ← members.mapM freshVar
        let bodies ← branches (binders.map fun b =>
          apply ev' f' (if b.ty.isUnit then .ofUnit b.ty else .var b))
        finishSplit .case (caseArgs (.var u') binders) bodies) Runs.Kin := by
  have hty : p.SameTy u.ty u'.ty :=
    ⟨(Term.akin_var_iff.1 hu.kin).ty, hu.left.var_ty, hu.right.var_ty⟩
  refine Together.bind_matches (together_unionMembers hty) fun ss ts q hq ⟨hmembers, hq'⟩ => ?_
  refine Together.bind_matches (together_binders hc hmembers) fun vs ws r hr ⟨hvs, hr'⟩ => ?_
  have hf' := (hf.mono hq).mono hr
  have hstmts : r.right.scope.stmts = p.right.scope.stmts := hr'.trans hq'
  -- Each branch binds a variable of one member.
  have hbranches : Branching c Γ r
      (vs.map fun b => apply ev f (if b.ty.isUnit then .ofUnit b.ty else .var b))
      (ws.map fun b => apply ev' f' (if b.ty.isUnit then .ofUnit b.ty else .var b)) := by
    refine List.forall₂_map_left_iff.2 (List.forall₂_map_right_iff.2 (hvs.imp ?_))
    intro v w ⟨hv, hvty⟩ x hx _
    rw [hstmts]
    refine together_apply hc hev (same_enterBranch (hf'.mono hx)) ?_
    have hty := hvty.mono hx
    rw [hv.ty.isUnit]
    split
    · exact same_enterBranch ⟨Term.akin_ofUnit hty.twin, hty.left.ofUnit, hty.right.ofUnit⟩
    · exact same_enterBranch ⟨Term.akin_var_iff.2 (hx.kinVar hv),
        Region.value_var hty.left False.elim, Region.value_var hty.right False.elim⟩
  refine Together.bind_matches (together_branches hc hbranches) fun ts ts' x hx hts => ?_
  refine .of_paired (.given fun hlinked => ?_)
  refine paired_finishSplit hc .case (fun hexact cs cs' => canon_caseArgs ?_ ?_) hts
  · exact hc.kin_canon hlinked (((hu.mono hq).mono hr).mono hx).kin hexact
  · exact hc.kinVars_canon hlinked (hvs.imp fun _ _ h => hx.kinVar h.1) hexact

lemma matches_caseAdmitting (hev : ∀ Γ, c.Uniform Γ ev (evs Γ)) (hab : p.Same a b)
    (hf : p.Same f f') :
    c.Matches Γ p (case ev a f) (caseAdmitting Γ evs b f') Runs.Kin := by
  refine .getScope_right ?_
  cases hab.kin.heads with
  | box hinner =>
    exact matches_apply hc (hev Γ) hf ⟨hinner, hab.left.unbox, hab.right.unbox⟩
  | @var v v' hv =>
    obtain ⟨tag, s⟩ := v
    obtain ⟨tag', t⟩ := v'
    cases hv.ty.heads with
    | union => exact matches_caseSplit hc (hev _) hab hf
    | recur => exact matches_caseSplit hc (hev _) hab hf
    | _ => exact matches_apply hc (hev Γ) hf hab
  | _ => exact matches_apply hc (hev Γ) hf hab

omit hc in
lemma paired_patternMiss (hab : p.Kin a b) :
    c.Paired Γ p (patternMiss a) (patternMiss b) Runs.Kin := by
  refine .given fun hp => .getScope ?_
  rw [hp.scope.dynamicDepth]
  split
  · exact Paired.fail (congrArg Cause.noClause hab.ty.same)
  · exact Paired.pure (Term.akin_miss hab)

/-! ### Operations -/

lemma matches_annotateAdmitting (hev : ∀ Γ, c.Uniform Γ ev (evs Γ)) {args : List Expr}
    (h : ∀ e ∈ args, p.ReadsHere e) :
    c.Matches Γ p (annotate ev args) (annotateAdmitting c.admits Γ evs args) Runs.Kin := by
  match args with
  | [value, annot] =>
    have hvalue := h value (by simp)
    have hannot := h annot (by simp)
    have hunwrap := hvalue.unwrapPos
    have hplain : c.Matches Γ p
        (do
          let v ← ev value
          let annot ← ev annot
          if v.ty == annot.ty then return v
          else fail (.declared annot.ty v.ty))
        (do
          let v ← evs Γ value
          let annot ← evs Γ annot
          if v.ty == annot.ty then return v
          else fail (.declared annot.ty v.ty)) Runs.Kin := by
      refine Together.bind_matches ((hev Γ).together hvalue) fun a b q hq hab => ?_
      refine Together.bind_matches ((hev Γ).together (hannot.later hq)) fun t t' r hr ht => ?_
      have hab := hab.mono hr
      rw [hab.ty.beq ht.ty]
      split
      · exact Matches.pure hab.kin
      · exact Matches.fail (congrArg₂ Cause.declared ht.kin.ty.same hab.kin.ty.same)
    unfold annotateAdmitting
    dsimp only
    split
    · -- A method join point is entered with its result type.
      rename_i symbol body heq
      rw [heq] at hunwrap
      have hbody := hunwrap.arg body (List.mem_singleton_self body)
      have hleft : annotate ev [value, annot] = (do
          let annot ← ev annot
          enterPoint ev .method body (some annot.ty)) := by
        unfold annotate
        dsimp only
        rw [heq]
      rw [hleft]
      refine Together.bind_matches ((hev Γ).together hannot) fun t t' q hq ht => ?_
      exact matches_enterPointAdmitting hc hev .method (hbody.later hq) (.some ht.ty)
    · -- Any other value is evaluated before its type.
      rename_i hother
      unfold annotate
      dsimp only
      split
      · rename_i symbol inner heq
        split
        · rename_i body
          exact absurd heq (hother symbol body)
        · exact Matches.fail rfl
      · exact hplain
  | [] | [_] | _ :: _ :: _ :: _ => exact Matches.fail rfl

omit hc in
lemma matches_raise (hab : p.Kin a b) : c.Matches Γ p (raise a) (raise b) Runs.Kin := by
  unfold raise
  rw [hab.string?]
  split
  · exact Matches.fail rfl
  · exact Matches.fail (congrArg (fun ty => Cause.raised (.type ty)) hab.ty.same)

omit hc in
lemma together_args (hev : c.Uniform Γ ev ev') {args : List Expr}
    (h : ∀ e ∈ args, p.ReadsHere e) :
    c.Together Γ p (args.mapM ev) (args.mapM ev') fun q => List.Forall₂ q.Same :=
  .mapM fun e he _ hq => hev.together ((h e he).later hq)

lemma matches_evalOpAdmitting (hev : ∀ Γ, c.Uniform Γ ev (evs Γ)) (op : Op)
    {args : List Expr} (h : ∀ e ∈ args, p.ReadsHere e) :
    c.Matches Γ p (evalOp ev op args) (evalOpAdmitting c.admits Γ evs op args) Runs.Kin := by
  have hargs : c.Together Γ p (args.mapM ev) (args.mapM (evs Γ)) _ := together_args (hev Γ) h
  cases op with
  -- The operations that do not start by evaluating their operands.
  | cond => exact matches_condAdmitting hc hev h
  | annotate => exact matches_annotateAdmitting hc hev h
  | entry entry =>
    match args with
    | [body] =>
      exact matches_enterPointAdmitting hc hev entry (h body (List.mem_singleton_self body)) .none
    | [] | _ :: _ :: _ => exact Matches.fail rfl
  -- The operations that apply functions.
  | apply =>
    exact hargs.bind_matches fun _ _ _ _ hts => (together_operands₂ hts _).bind_matches
      fun _ _ _ _ hr => matches_apply hc (hev Γ) hr.1 hr.2
  | case =>
    exact hargs.bind_matches fun _ _ _ _ hts => (together_operands₂ hts _).bind_matches
      fun _ _ _ _ hr => matches_caseAdmitting hc hev hr.1 hr.2
  -- The others, by what each does with the values of its operands.
  | dynamize =>
    exact hargs.bind_matches fun _ _ _ _ hts => (together_operand hts _).bind_matches
      fun _ _ q _ ht => .of_paired (paired_toRuntime hc _ _ q ht.kin)
  | patternMiss =>
    exact hargs.bind_matches fun _ _ _ _ hts => (together_operand hts _).bind_matches
      fun _ _ _ _ ht => .of_paired (paired_patternMiss ht.kin)
  | errorType =>
    exact hargs.bind_matches fun _ _ _ _ hts => (together_operand hts _).bind_matches
      fun _ _ _ _ ht => matches_raise ht.kin
  | closure =>
    exact hargs.bind_matches fun _ _ _ _ hts => matches_closureOpAdmitting hc hev hts
  | prim op =>
    exact hargs.bind_matches fun _ _ _ _ hts =>
      .of_paired (paired_primOp hc op (Runs.Same.kins hts))
  | tuple op =>
    exact hargs.bind_matches fun _ _ _ _ hts =>
      .of_paired (paired_tupleOp hc op (Runs.Same.kins hts)
      fun a ha => (Runs.Same.lefts hts a ha).formed)
  | module op => exact hargs.bind_matches fun _ _ _ _ hts => matches_moduleOp hc (hev Γ) op hts
  | layout op => exact hargs.bind_matches fun _ _ _ _ hts => matches_layoutOpAdmitting hc op hts
  | array op =>
    exact hargs.bind_matches fun _ _ _ _ hts =>
      .of_paired (paired_arrayOp hc op (operands_of_same hts))
  | type op =>
    exact hargs.bind_matches fun _ _ _ _ hts => .of_paired (paired_typeOp op (operands_of_same hts))
  | foreign target =>
    exact hargs.bind_matches fun _ _ _ _ hts =>
      .of_paired (paired_foreignOp hc target (Runs.Same.kins hts))

/-! ### Functions -/

omit hc in
/-- What a function sees of two environments that agree on its captures. -/
lemma kinEnv_restricted {used : Captures} (hd : d.Ascending) (he : e.Ascending)
    (h : ∀ x ∈ used, Option.Rel p.Kin (d.get? x) (e.get? x)) :
    p.KinEnv (.restricted d.visible used) (.restricted e.visible used) := by
  have hget : ∀ {d : Env} (x : Name), d.Ascending →
      Fields.get? (Env.restricted d.visible used).visible x =
        if x ∈ used then d.get? x else none := by
    intro d x hd
    refine (Captures.get?_filter used d.visible x).trans ?_
    rw [hd.get?_eq]
    simp
  refine Fields.rel_ext (hd.visible.sublist List.filter_sublist)
    (he.visible.sublist List.filter_sublist) fun x => ?_
  rw [hget x hd, hget x he]
  split
  · rename_i hx
    exact h x hx
  · exact .none

omit hc in
lemma matches_close {used : Captures} {kind : MapKind} (hkind : kind.Backed p.left.session.store)
    (h : ∀ x ∈ used, Option.Rel p.Kin (p.left.scope.env.get? x) (p.right.scope.env.get? x)) :
    c.Matches Γ p (close used kind) (close used kind) Runs.Kin :=
  .given fun hp => .getScope (Matches.pure (Term.akin_map_iff.2
    ⟨kinEnv_restricted hp.left.env.formed.1.ascending hp.right.env.formed.1.ascending h, rfl,
      hkind⟩))

/-! ### Evaluation -/

lemma matches_stepAdmitting (hev : ∀ Γ, c.Uniform Γ ev (evs Γ)) {e : Expr}
    (he : p.ReadsHere e) :
    c.Matches Γ p (step ev e) (stepAdmitting c.admits Γ evs e) Runs.Kin := by
  refine .given fun hp => ?_
  have hl := hp.left.env.formed.1.ascending
  have hr := hp.right.env.formed.1.ascending
  have hsorted := he.sorted hp.left.session.store
  -- Functions capture the names that are free in them, which have kin on both sides.
  have hclosed : ∀ kind : MapKind, kind.Backed p.left.session.store → c.Matches Γ p
      (do close (← build (Build.freeNameSet e)) kind)
      (do close (← build (Build.freeNameSet e)) kind) Runs.Kin := by
    intro kind hkind
    refine Together.bind_matches (hc.build (Build.does_freeNameSet fun _ => hsorted)
      fun t ht => Build.enters_freeNameSet (he.held.mono ht)) ?_
    rintro used used' q hq ⟨rfl, -, hused⟩
    refine matches_close (hq.held kind hkind) ?_
    have hlater := he.later hq
    rw [← hq.left.env] at hl
    rw [← hq.right.env] at hr
    exact hlater.get? hl hr hused
  obtain ⟨symbol, kind⟩ := e
  cases kind with
  | var x =>
    have hnames : ∀ y, y ∈ [x] ↔ Expr.Free y (.node symbol (.var x)) :=
      fun _ => List.mem_singleton
    have hfound := he.get? hl hr (fun _ => hnames) x (List.mem_singleton_self x)
    refine .getScope ?_
    generalize p.left.scope.env.get? x = o at hfound
    generalize p.right.scope.env.get? x = o' at hfound
    cases hfound with
    | none => exact Matches.fail rfl
    | some h => exact Matches.pure h
  | lit l => exact Matches.pure (Term.akin_lit l)
  -- The code of a pattern uses names of its own, so all that is in scope has to have kin.
  | pattern pattern =>
    have hkin := he.agree.resolve_right fun h => h.1
    refine Together.bind_matches (hc.build (Build.does_lowerPattern fun _ => hsorted)
      fun t ht => Build.enters_lowerPattern fun c hc => (he.held.codes c hc).mono ht) ?_
    rintro e e' q hq ⟨rfl, -, hheld⟩
    refine (hev Γ).same ⟨hheld, .inl ?_⟩
    rw [hq.left.env, hq.right.env]
    exact hq.kinEnv hkin
  -- Functions, with their captures known or not.
  | function param body => exact hclosed _ (he.held.codes body (List.mem_singleton_self body))
  | filtered used param body =>
    refine matches_close (he.held.codes body (List.mem_singleton_self body)) ?_
    exact he.get? hl hr fun hlisted x => hlisted.1 x
  | recFunction this param body =>
    exact hclosed _ (he.held.codes body (List.mem_singleton_self body))
  | tuple items =>
    exact Together.bind_matches (together_args (hev Γ) he.item) fun ts ts' _ _ hts =>
      Matches.pure (Term.akin_tuple_iff.2 (Runs.Same.kins hts))
  -- Operations and positions.
  | op op args => exact matches_evalOpAdmitting hc hev op he.arg
  | pos span e =>
    have hinner : p.ReadsHere e := he.part (List.mem_singleton_self e) id fun _ hx => hx
    refine .getSession ?_
    rw [hp.session.traces]
    split
    · exact matches_withSpan span ((hev Γ).same ⟨hinner.held, hinner.agree⟩)
    · exact (hev Γ).same hinner

/-- Coupled runs evaluate alike: evaluation reads of its environment only what the free names of
the expression are bound to, and the second run goes on only with captured values that are
admitted. -/
theorem uniform_eval (fuel : Nat) (Γ : List Stmt) :
    c.Uniform Γ (eval fuel) (evalAdmitting c.admits fuel Γ) := by
  induction fuel generalizing Γ with
  | zero =>
    exact ⟨Region.evaluator_eval (fun _ => trivial) 0,
      Region.evaluator_evalAdmitting (fun _ => trivial) 0 Γ, fun _ => Matches.throw rfl⟩
  | succ fuel ih =>
    exact ⟨Region.evaluator_eval (fun _ => trivial) (fuel + 1),
      Region.evaluator_evalAdmitting (fun _ => trivial) (fuel + 1) Γ,
      fun he => matches_stepAdmitting hc ih he⟩

end Laws

end Residual.Coupling
