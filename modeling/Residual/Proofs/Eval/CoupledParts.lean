import Residual.Eval.Step
import Residual.Proofs.Eval.CouplingLaws

/-!
Coupled runs make values run-time data alike, read their parts alike, and do the same operations
on tuples, arrays, types and primitive values.

Where types are compared, they have to be sound: entered environments with one symbol are taken
for equal, and they are if the symbol comes from the table.
-/

namespace Residual.Coupling

open Eval
open Region (lax)

variable {c : Coupling} {Γ : List Stmt} {p q : Runs} {g g' : Ground}
  {a b : Term} {as bs : List Term}

/-! ### Operands -/

section Operands

variable {R : Runs → Term → Term → Prop} (h : List.Forall₂ (R p) as bs)
include h

lemma paired_operand (o : Op) : c.Paired Γ p (operand o as) (operand o bs) R := by
  match h with
  | .nil => exact .fail rfl
  | .cons ha .nil => exact .pure ha
  | .cons ha (.cons hb hrest) =>
    exact .fail (congrArg (Cause.arity o 1) (List.Forall₂.cons ha (.cons hb hrest)).length_eq)

lemma paired_operands₂ (o : Op) : c.Paired Γ p (operands₂ o as) (operands₂ o bs) fun q r r' =>
    R q r.1 r'.1 ∧ R q r.2 r'.2 := by
  match h with
  | .nil => exact .fail rfl
  | .cons _ .nil => exact .fail rfl
  | .cons ha (.cons hb .nil) => exact .pure ⟨ha, hb⟩
  | .cons ha (.cons hb (.cons hc hrest)) =>
    exact .fail (congrArg (Cause.arity o 2)
      (List.Forall₂.cons ha (.cons hb (.cons hc hrest))).length_eq)

lemma paired_operands₃ (o : Op) : c.Paired Γ p (operands₃ o as) (operands₃ o bs) fun q r r' =>
    R q r.1 r'.1 ∧ R q r.2.1 r'.2.1 ∧ R q r.2.2 r'.2.2 := by
  match h with
  | .nil => exact .fail rfl
  | .cons _ .nil => exact .fail rfl
  | .cons _ (.cons _ .nil) => exact .fail rfl
  | .cons ha (.cons hb (.cons hc .nil)) => exact .pure ⟨ha, hb, hc⟩
  | .cons ha (.cons hb (.cons hc (.cons hd hrest))) =>
    exact .fail (congrArg (Cause.arity o 3)
      (List.Forall₂.cons ha (.cons hb (.cons hc (.cons hd hrest)))).length_eq)

end Operands

/-- Akin values whose types are sound. -/
structure Operand (g g' : Ground) (p : Runs) (a b : Term) : Prop where
  kin : p.Kin a b
  left : a.ty.Sound g
  right : b.ty.Sound g'

lemma Operand.mono (h : Operand g g' p a b) (hq : p.Grows q) : Operand g g' q a b :=
  { h with kin := hq.kin h.kin }

/-! ### Run-time data -/

/-- The form of an environment does not matter. -/
lemma envToRuntime_eq (e : Env) :
    envToRuntime e = fieldsToRuntime (fun _ => true) e.visible := by
  have hfilter : ∀ (keep : Name → Bool) (m : List (Name × Term)), fieldsToRuntime keep m =
      fieldsToRuntime (fun _ => true) (m.filter fun e => keep e.1) := by
    intro keep m
    induction m with
    | nil => rfl
    | cons e rest ih =>
      rw [fieldsToRuntime, List.filter_cons, ih]
      split
      · rw [fieldsToRuntime, if_pos rfl]
      · rfl
  cases e with
  | restricted m used => exact hfilter used.contains m
  | _ => rfl

lemma paired_fieldsToRuntime {m n : Fields Term} (hmn : p.KinFields m n)
    (h : ∀ d ∈ m, ∀ t q, q.Kin d.2 t → c.Paired Γ q (toRuntime d.2) (toRuntime t) Runs.Kin) :
    c.Paired Γ p (fieldsToRuntime (fun _ => true) m) (fieldsToRuntime (fun _ => true) n)
      Runs.KinFields := by
  induction m generalizing p n with
  | nil =>
    cases hmn
    exact .pure .nil
  | cons d m ih =>
    obtain _ | @⟨_, e, _, n, hde, hmn⟩ := hmn
    obtain ⟨x, s⟩ := d
    obtain ⟨y, t⟩ := e
    obtain ⟨hd, hm⟩ := List.forall_mem_cons.1 h
    rw [fieldsToRuntime, fieldsToRuntime, if_pos rfl, if_pos rfl]
    exact (hd t p hde.2).bind fun _ _ q hq ht => (ih (hq.kinFields hmn) hm).bind
      fun _ _ r hr hrest => .pure (.cons ⟨hde.1, hr.kin ht⟩ hrest)

mutual

lemma paired_toRuntime (hc : c.Laws) (a b : Term) (p : Runs) (h : p.Kin a b) :
    c.Paired Γ p (toRuntime a) (toRuntime b) Runs.Kin := by
  match a with
  | .lit l =>
    cases h.heads with
    | lit l =>
      exact hc.bindResult (fun _ => rfl) (.refl fun _ hk => absurd hk List.not_mem_nil)
  | .box inner ty =>
    cases h.heads with
    | @box _ inner' _ ty' hi hty =>
      refine (paired_toRuntime hc inner inner' p hi).bind fun t t' q hq ht =>
        .given fun hlinked => ?_
      refine hc.bindResult (fun hexact => ?_) (hq.tys hty)
      exact hc.kin_canon hlinked (Term.akin_box_iff.2 ⟨ht, hq.tys hty⟩) hexact
  | .tuple items =>
    cases h.heads with
    | @tuple _ items' hi =>
      exact (paired_allToRuntime hc items items' p hi).bind fun _ _ _ _ hts =>
        .pure (Term.akin_tuple_iff.2 hts)
  | .map d kind =>
    cases h.heads with
    | @map _ e _ he hk =>
      exact (paired_envToRuntime hc d e p he).bind fun _ _ q hq hm =>
        .pure (Term.akin_map_iff.2 ⟨hm, rfl, hq.held _ hk⟩)
  | .type _ | .var _ | .op _ _ _ | .letIn _ _ _ _ | .state _ _ _ | .call _ _ _ _ =>
    cases h.heads; exact .pure h
termination_by structural a

lemma paired_allToRuntime (hc : c.Laws) (as bs : List Term) (p : Runs)
    (h : List.Forall₂ p.Kin as bs) :
    c.Paired Γ p (allToRuntime as) (allToRuntime bs) fun q => List.Forall₂ q.Kin := by
  match as with
  | [] =>
    cases h
    exact .pure .nil
  | a :: rest =>
    cases h with
    | @cons _ b _ rest' hb hrest =>
      exact (paired_toRuntime hc a b p hb).bind fun _ _ q hq hfirst =>
        (paired_allToRuntime hc rest rest' q (hq.kins hrest)).bind fun _ _ r hr hothers =>
          .pure (.cons (hr.kin hfirst) hothers)
termination_by structural as

lemma paired_envToRuntime (hc : c.Laws) (d e : Env) (p : Runs) (h : p.KinEnv d e) :
    c.Paired Γ p (envToRuntime d) (envToRuntime e) Runs.KinFields := by
  rw [envToRuntime_eq d, envToRuntime_eq e]
  match d with
  | .plain m => exact paired_fieldsToRuntime h (paired_fieldsOf hc m)
  | .restricted m used =>
    exact paired_fieldsToRuntime h fun b hb => paired_fieldsOf hc m b (List.mem_filter.1 hb).1
  | .consed _ m => exact paired_fieldsToRuntime h (paired_fieldsOf hc m)
termination_by structural d

lemma paired_fieldsOf (hc : c.Laws) (m : List (Name × Term)) :
    ∀ d ∈ m, ∀ t q, q.Kin d.2 t → c.Paired Γ q (toRuntime d.2) (toRuntime t) Runs.Kin := by
  match m with
  | [] => exact fun d hd => absurd hd List.not_mem_nil
  | (x, t) :: rest =>
    exact List.forall_mem_cons.2 ⟨fun b q hb => paired_toRuntime hc t b q hb,
      paired_fieldsOf hc rest⟩
termination_by structural m

end

section Laws

variable (hc : c.Laws)
include hc

/-! ### Tuples -/

omit hc in
lemma tupleLength?_of_kin (h : p.Kin a b) : a.tupleLength? = b.tupleLength? := by
  have hty := h.ty
  rw [Term.tupleLength?_eq, Term.tupleLength?_eq]
  generalize a.ty = s at hty
  generalize b.ty = t at hty
  cases hty.heads with
  | list h => exact congrArg some h.length_eq
  | _ => rfl

omit hc in
lemma paired_notTuple (op : TupleOp) (h : p.Kin a b) :
    c.Paired Γ p (notTuple op a) (notTuple op b) Runs.Kin :=
  .fail (congrArg (Cause.notTuple op) h.ty.same)

lemma paired_tupleIndex (h : p.Kin a b) (ha : a.Formed) (i : Nat) :
    c.Paired Γ p (tupleIndex a i) (tupleIndex b i) Runs.Kin := by
  have hmiss : c.Paired Γ p (notTuple (.index i) a) (notTuple (.index i) b) Runs.Kin :=
    paired_notTuple _ h
  unfold tupleIndex
  cases h.heads with
  -- An element that is known.
  | @tuple as bs hitems =>
    have hget := Twin.getElem?_rel hitems i
    dsimp only
    generalize as[i]? = x at hget
    generalize bs[i]? = y at hget
    cases hget with
    | none => exact hmiss
    | some ht => exact .pure ht
  -- A type of tuples stands for the tuple of its units.
  | @type s t hty =>
    cases hty.heads with
    | @list ss ts hitems =>
      have hget := Twin.getElem?_rel hitems i
      dsimp only
      generalize ss[i]? = x at hget
      generalize ts[i]? = y at hget
      cases hget with
      | none => exact hmiss
      | some ht => exact .pure (Term.akin_ofUnit ht)
    | _ => exact hmiss
  -- An element of a variable is read, unless it carries no data.
  | @var v v' hv =>
    obtain ⟨tag, s⟩ := v
    obtain ⟨tag', t⟩ := v'
    cases hv.ty.heads with
    | @list ss ts hitems =>
      have hget := Twin.getElem?_rel hitems i
      dsimp only
      cases hs : ss[i]? with
      | none =>
        rw [hs] at hget
        generalize ts[i]? = y at hget
        cases hget
        exact hmiss
      | some s =>
        rw [hs] at hget
        generalize ts[i]? = y at hget
        cases hget with
        | @some _ t ht =>
          dsimp only
          rw [ht.isUnit]
          split
          · exact .pure (Term.akin_ofUnit ht)
          · refine hc.emit (.cons h .nil) ht fun _ => ⟨?_, ?_⟩
            · exact congrArg (Option.map Ty.code) hs
            · exact Ty.allFormed_iff.1 ha s (List.mem_of_getElem? hs)
    | _ => exact hmiss
  | _ => exact hmiss

lemma paired_tupleOp (op : TupleOp) (h : List.Forall₂ p.Kin as bs)
    (ha : ∀ a ∈ as, a.Formed) : c.Paired Γ p (tupleOp op as) (tupleOp op bs) Runs.Kin := by
  have h' : List.Forall₂ (fun a b => p.Kin a b ∧ a.Formed) as bs := by
    clear hc
    induction h with
    | nil => exact .nil
    | cons h _ ih =>
      obtain ⟨ha, has⟩ := List.forall_mem_cons.1 ha
      exact .cons ⟨h, ha⟩ (ih has)
  refine (paired_operand (R := fun q a b => q.Kin a b ∧ a.Formed) h' _).bind
    fun a b q _ ⟨hab, ha⟩ => ?_
  have hlength := tupleLength?_of_kin hab
  -- Tuples with kin have one length.
  cases op with
  | lengthEq n =>
    dsimp only
    rw [hlength]
    exact .pure (Term.akin_lit _)
  | lengthGe n =>
    dsimp only
    rw [hlength]
    exact .pure (Term.akin_lit _)
  | index i => exact paired_tupleIndex hc hab ha i
  | slice n =>
    dsimp only
    rw [hlength]
    split
    · rename_i length hlength
      split
      · refine (Paired.mapM (Q := fun q k k' => k = k' ∧ q.Kin a b) (S := Runs.Kin)
          (fun p q _ _ hq h => ⟨h.1, hq.kin h.2⟩) (fun p q _ _ hq h => hq.kin h)
          (List.forall₂_same.2 fun _ _ => ⟨rfl, hab⟩) fun k k' r _ hk => ?_).bind
          fun _ _ _ _ hts => .pure (Term.akin_tuple_iff.2 hts)
        rw [hk.1]
        exact paired_tupleIndex hc hk.2 ha _
      · exact paired_notTuple _ hab
    · exact paired_notTuple _ hab

/-! ### Primitive operations -/

omit hc in
lemma fold_of_kin (op : PrimOp) (r : Prim) (h : List.Forall₂ p.Kin as bs) :
    Fold.fold op as r = Fold.fold op bs r := by
  match h with
  | .nil => rfl
  | .cons ha .nil =>
    cases ha.heads <;> cases op <;> rfl
  | .cons ha (.cons hb .nil) =>
    cases ha.heads <;> cases hb.heads <;> cases op <;> rfl
  | .cons _ (.cons _ (.cons _ _)) => cases op <;> simp [Fold.fold]

lemma paired_primOp (op : PrimOp) (h : List.Forall₂ p.Kin as bs) :
    c.Paired Γ p (primOp op as) (primOp op bs) Runs.Kin := by
  have hprims : as.map (fun a => a.ty.prim?) = bs.map fun a => a.ty.prim? := by
    clear hc
    induction h with
    | nil => rfl
    | cons hab _ ih => rw [List.map_cons, List.map_cons, ih, hab.ty.prim?]
  have htype : c.Paired Γ p (primType op as) (primType op bs) fun _ r r' =>
      r = r' ∧ Fold.resultType op (as.map fun a => a.ty.prim?) = some r := by
    unfold primType
    rw [h.length_eq, hprims]
    split
    · exact .fail rfl
    · split
      · rename_i r hr
        exact .pure ⟨rfl, hr⟩
      · exact .fail (congrArg (Cause.operands op) (Twin.forall₂_iff.1 (Term.Akin.tys h)).1)
  refine htype.bind fun r r' q hq ⟨hrr, hr⟩ => .given fun hlinked => .getSession ?_
  subst hrr
  rw [hlinked.session.folding, fold_of_kin op r h]
  split
  · exact Paired.pure (Term.akin_lit _)
  · exact hc.emit (hq.kins h) (.refl fun _ hk => absurd hk List.not_mem_nil)
      fun _ => ⟨⟨hr, rfl⟩, trivial⟩

/-! ### Arrays -/

omit hc in
lemma paired_elementType (op : ArrayOp) (h : Operand g g' p a b) :
    c.Paired Γ p (elementType op a) (elementType op b) fun q s t =>
      (q.Tys s t ∧ s.Sound g ∧ t.Sound g') ∧ a.ty.elem? op.onReference = some s := by
  obtain ⟨hkin, hleft, hright⟩ := h
  have hty := hkin.ty
  unfold elementType
  generalize a.ty = s at hty hleft
  generalize b.ty = t at hty hright
  cases hty.heads with
  | @array r s t hst =>
    dsimp only
    split
    · rename_i hstorage
      exact .pure ⟨⟨hst, hleft, hright⟩, if_pos hstorage⟩
    · exact .fail (congrArg (Cause.notArray op) hty.same)
  | _ => exact .fail (congrArg (Cause.notArray op) hty.same)

omit hc in
lemma paired_expectIndex (op : ArrayOp) (h : p.Kin a b) :
    c.Paired Γ p (expectIndex op a) (expectIndex op b) fun _ _ _ => True := by
  unfold expectIndex
  rw [h.ty.prim?]
  split
  · exact .pure trivial
  · exact .fail (congrArg (Cause.index op) h.ty.same)

omit hc in
lemma paired_expectElement (op : ArrayOp) {s t : Ty} (h : p.Tys s t ∧ s.Sound g ∧ t.Sound g')
    (hab : Operand g g' p a b) :
    c.Paired Γ p (expectElement op s a) (expectElement op t b) fun _ _ _ => True := by
  unfold expectElement
  rw [Ty.beq_of_canon hab.left h.2.1 hab.right h.2.2 hab.kin.ty.same h.1.same]
  split
  · exact .pure trivial
  · exact .fail (congrArg₂ (Cause.element op) h.1.same hab.kin.ty.same)

lemma paired_arrayOp (op : ArrayOp) (h : List.Forall₂ (Operand g g' p) as bs) :
    c.Paired Γ p (arrayOp op as) (arrayOp op bs) Runs.Kin := by
  cases op with
  -- In each case the checks come first, and change nothing; then the values are dynamized.
  | create storage =>
    refine (paired_operands₂ h _).bind fun r r' q hq hr => ?_
    refine (paired_expectIndex _ hr.2.kin).bind fun _ _ q₁ hq₁ _ => ?_
    refine (paired_toRuntime hc _ _ q₁ (hq₁.kin hr.2.kin)).bind fun _ _ q₂ hq₂ hlength => ?_
    have helem : q₂.Tys r.1.ty r'.1.ty := (hq₁.trans hq₂).tys hr.1.kin.ty
    exact hc.emit (.cons (Term.akin_type_iff.2 helem) (.cons hlength .nil))
      (Ty.twin_array_iff.2 ⟨rfl, helem⟩) fun hpure => by cases hpure
  | length =>
    refine (paired_operand h _).bind fun a b q _ hab => ?_
    refine (paired_elementType _ hab).bind fun _ _ q₁ hq₁ helem => ?_
    refine hc.emit (.cons (hq₁.kin hab.kin) .nil) (Ty.twin_prim _) fun _ => ⟨⟨?_, rfl⟩, trivial⟩
    exact Option.isSome_iff_exists.2 ⟨_, helem.2⟩
  | index =>
    refine (paired_operands₂ h _).bind fun r r' q _ hr => ?_
    refine (paired_elementType _ hr.1).bind fun _ _ q₁ hq₁ helem => ?_
    refine (paired_expectIndex _ (hq₁.kin hr.2.kin)).bind fun _ _ q₂ hq₂ _ => ?_
    have hargs := (hq₁.trans hq₂).kins (.cons hr.1.kin (.cons hr.2.kin .nil))
    exact hc.emit hargs (hq₂.tys helem.1.1) fun hpure => by cases hpure
  | set =>
    refine (paired_operands₃ h _).bind fun r r' q _ hr => ?_
    refine (paired_elementType _ hr.1).bind fun _ _ q₁ hq₁ ⟨helem, _⟩ => ?_
    refine (paired_expectIndex _ (hq₁.kin hr.2.1.kin)).bind fun _ _ q₂ hq₂ _ => ?_
    have h₂ := hq₁.trans hq₂
    refine (paired_expectElement _ ⟨hq₂.tys helem.1, helem.2⟩ (hr.2.2.mono h₂)).bind
      fun _ _ q₃ hq₃ _ => ?_
    have h₃ := h₂.trans hq₃
    refine (paired_toRuntime hc _ _ q₃ (h₃.kin hr.2.2.kin)).bind fun _ _ q₄ hq₄ hvalue => ?_
    have h₄ := h₃.trans hq₄
    exact hc.emit (.cons (h₄.kin hr.1.kin) (.cons (h₄.kin hr.2.1.kin) (.cons hvalue .nil)))
      Ty.twin_unit fun hpure => by cases hpure
  -- References.
  | refCreate =>
    refine (paired_operand h _).bind fun a b q _ hab => ?_
    refine (paired_toRuntime hc _ _ q hab.kin).bind fun _ _ q₁ hq₁ hvalue => ?_
    exact hc.emit (.cons hvalue .nil) (Ty.twin_array_iff.2 ⟨rfl, hq₁.tys hab.kin.ty⟩)
      fun hpure => by cases hpure
  | refGet =>
    refine (paired_operand h _).bind fun a b q _ hab => ?_
    refine (paired_elementType _ hab).bind fun _ _ q₁ hq₁ helem => ?_
    exact hc.emit (.cons (hq₁.kin hab.kin) .nil) helem.1.1 fun hpure => by cases hpure
  | refSet =>
    refine (paired_operands₂ h _).bind fun r r' q _ hr => ?_
    refine (paired_elementType _ hr.1).bind fun _ _ q₁ hq₁ ⟨helem, _⟩ => ?_
    refine (paired_expectElement _ helem (hr.2.mono hq₁)).bind fun _ _ q₂ hq₂ _ => ?_
    have h₂ := hq₁.trans hq₂
    refine (paired_toRuntime hc _ _ q₂ (h₂.kin hr.2.kin)).bind fun _ _ q₃ hq₃ hvalue => ?_
    exact hc.emit (.cons ((h₂.trans hq₃).kin hr.1.kin) (.cons hvalue .nil)) Ty.twin_unit
      fun hpure => by cases hpure

/-! ### Types and foreign text -/

omit hc in
lemma paired_foreignPart (h : p.Kin a b) :
    c.Paired Γ p (foreignPart a) (foreignPart b) fun q => ForeignPart.Twin q.held := by
  have hfail : c.Paired Γ p (fail (.foreignPart a.ty) : Eval ForeignPart) (fail (.foreignPart b.ty))
      fun q => ForeignPart.Twin q.held :=
    .fail (congrArg Cause.foreignPart h.ty.same)
  have hpart : ∀ {s t : Ty}, p.Tys s t → (ForeignPart.type s).Twin p.held (.type t) :=
    fun h => ⟨congrArg ForeignPart.type h.same, h.held⟩
  cases h.heads with
  | type hty => exact .pure (hpart hty)
  | @var v v' hv =>
    obtain ⟨tag, s⟩ := v
    obtain ⟨tag', t⟩ := v'
    exact .pure (hpart hv.ty)
  | lit l =>
    cases l with
    | string s => exact .pure (.refl fun _ hk => absurd hk List.not_mem_nil)
    | _ => exact hfail
  | _ => exact hfail

omit hc in
lemma paired_typeOp (op : TypeOp) (h : List.Forall₂ (Operand g g' p) as bs) :
    c.Paired Γ p (typeOp op as) (typeOp op bs) Runs.Kin := by
  cases op with
  | get =>
    exact (paired_operand h _).bind fun a b _ _ hab => .pure (Term.akin_type_iff.2 hab.kin.ty)
  | union =>
    refine (paired_operands₂ h _).bind fun r r' _ _ hr => .pure (Term.akin_type_iff.2 ?_)
    have hl : ∀ s ∈ [r.1.ty, r.2.ty], s.Sound g := by simpa using ⟨hr.1.left, hr.2.left⟩
    have hr' : ∀ t ∈ [r'.1.ty, r'.2.ty], t.Sound g' := by simpa using ⟨hr.1.right, hr.2.right⟩
    exact Ty.twin_unionOf hl hr' (.cons hr.1.kin.ty (.cons hr.2.kin.ty .nil))
  | literal =>
    refine (paired_operand h _).bind fun a b _ _ hab => ?_
    cases hab.kin.heads with
    | lit l => exact .pure (Term.akin_type_iff.2 (.refl fun _ hk => absurd hk List.not_mem_nil))
    | _ => exact .fail (congrArg Cause.notLiteral hab.kin.ty.same)
  | equal =>
    refine (paired_operands₂ h _).bind fun r r' _ _ hr => ?_
    dsimp only
    rw [Ty.beq_of_canon hr.1.left hr.2.left hr.1.right hr.2.right hr.1.kin.ty.same
      hr.2.kin.ty.same]
    exact .pure (Term.akin_lit _)
  | foreign target =>
    refine (Paired.mapM (Q := Operand g g') (S := fun q => ForeignPart.Twin q.held)
      (fun _ _ _ _ hq h => h.mono hq) (fun _ _ _ _ hq h => Residual.Twin.mono h hq.held) h
      fun a b _ _ hab => paired_foreignPart hab.kin).bind fun _ _ _ _ hps => ?_
    exact .pure (Term.akin_type_iff.2 (Ty.twin_foreign hps))

omit hc in
lemma paired_foreignArg (h : p.Kin a b) :
    c.Paired Γ p (foreignArg a) (foreignArg b) Runs.Kin := by
  have hfail : c.Paired Γ p (fail (.foreignPart a.ty) : Eval Term) (fail (.foreignPart b.ty))
      Runs.Kin :=
    .fail (congrArg Cause.foreignPart h.ty.same)
  cases h.heads with
  | type _ => exact .pure h
  | var _ => exact .pure h
  | lit l =>
    cases l with
    | string s => exact .pure h
    | _ => exact hfail
  | _ => exact hfail

lemma paired_foreignOp (target : Target) (h : List.Forall₂ p.Kin as bs) :
    c.Paired Γ p (foreignOp target as) (foreignOp target bs) Runs.Kin := by
  cases h with
  | nil => exact .fail rfl
  | cons hresult hparts =>
    refine (Paired.mapM (Q := Runs.Kin) (S := Runs.Kin) (fun _ _ _ _ hq h => hq.kin h)
      (fun _ _ _ _ hq h => hq.kin h) hparts fun a b _ _ hab => paired_foreignArg hab).bind
        fun _ _ q hq hps => .given fun hlinked => ?_
    have hty := hq.tys hresult.ty
    exact hc.bindResult (fun hexact =>
      hc.op_canon hlinked hexact (.cons (Term.akin_type_iff.2 hty) hps) hty) hty

/-! ### Fields -/

lemma paired_readField {tag tag' : Tag} {m n : Fields Ty} {kind kind' : MapKind}
    (hv : p.KinVar ⟨tag, .map m kind⟩ ⟨tag', .map n kind'⟩) {x : Name} {s t : Ty} (h : p.Tys s t)
    (hx : Fields.get? m x = some s) (hs : s.Formed) :
    c.Paired Γ p (readField ⟨tag, .map m kind⟩ x s) (readField ⟨tag', .map n kind'⟩ x t)
      Runs.Kin := by
  unfold readField
  rw [h.isUnit]
  split
  · exact .pure (Term.akin_ofUnit h)
  · exact hc.emit (.cons (Term.akin_var_iff.2 hv) .nil) h
      fun _ => ⟨congrArg (Option.map Ty.code) hx, hs⟩

lemma paired_readFields {tag tag' : Tag} {m n : Fields Ty} {kind kind' : MapKind}
    (hv : p.KinVar ⟨tag, .map m kind⟩ ⟨tag', .map n kind'⟩) {m' n' : List (Name × Ty)}
    (h : List.Forall₂ (Fields.Entry (Ty.Twin p.held)) m' n')
    (hm : ∀ e ∈ m', Fields.get? m e.1 = some e.2 ∧ e.2.Formed) :
    c.Paired Γ p (readFields ⟨tag, .map m kind⟩ m') (readFields ⟨tag', .map n kind'⟩ n')
      Runs.KinFields := by
  induction m' generalizing p n' with
  | nil =>
    cases h
    exact .pure .nil
  | cons d m' ih =>
    obtain _ | @⟨_, e, _, n', hde, h⟩ := h
    obtain ⟨x, s⟩ := d
    obtain ⟨y, t⟩ := e
    obtain ⟨rfl, hst⟩ := hde
    obtain ⟨hd, hm⟩ := List.forall_mem_cons.1 hm
    exact (paired_readField hc hv hst hd.1 hd.2).bind fun _ _ q hq ht =>
      (ih (hq.kinVar hv) (h.imp fun _ _ h => ⟨h.1, hq.tys h.2⟩) hm).bind fun _ _ r hr hrest =>
        .pure (.cons ⟨rfl, hr.kin ht⟩ hrest)

/-! ### Maps -/

/-- Maps of one kind, with akin bindings. -/
abbrev SameMap (p : Runs) (m n : Env × MapKind) : Prop :=
  m.2 = n.2 ∧ p.Same (.map m.1 m.2) (.map n.1 n.2)

lemma together_mapValue? (h : p.Same a b) :
    c.Together Γ p (mapValue? a) (mapValue? b) fun q => Option.Rel (SameMap q) := by
  have hmatch : c.Matches Γ p (mapValue? a) (mapValue? b) fun q =>
      Option.Rel fun m n => m.2 = n.2 ∧ q.Kin (.map m.1 m.2) (.map n.1 n.2) := by
    unfold mapValue?
    cases h.kin.heads with
    -- What is a map already, and what is one as a type.
    | map he hk => exact .pure (.some ⟨rfl, h.kin⟩)
    | @type s t hty =>
      cases hty.heads with
      | @map m n kind hm hk => exact .pure (.some ⟨rfl, Term.akin_ofUnit hty⟩)
      | _ => exact .pure .none
    -- A variable of a map type is read field by field, a packed one is unpacked.
    | @var v v' hv =>
      obtain ⟨tag, s⟩ := v
      obtain ⟨tag', t⟩ := v'
      cases hv.ty.heads with
      | @map m n kind hm hk =>
        have hformed : (Ty.map m kind).Formed := h.left.formed
        refine .of_paired ((paired_readFields hc hv hm fun e he => ⟨?_, ?_⟩).bind
          fun _ _ q hq hread => .pure (.some ⟨rfl, Term.akin_map_iff.2 ⟨hread, rfl, hq.held _ hk⟩⟩))
        · exact hformed.1.get?_of_mem he
        · exact Ty.fieldsFormed_iff.1 hformed.2.1 e he
      | @layout l d e kind he hk =>
        have hl : (Ty.layout l d kind).Formed := h.left.formed
        have hr : (Ty.layout l e kind).Formed := h.right.formed
        exact (hc.unpack hv he hl.1 hr.1).bind_paired fun _ _ q hq hread =>
          .pure (.some ⟨rfl, Term.akin_map_iff.2 ⟨hread, rfl, hq.held _ hk⟩⟩)
      | _ => exact .pure .none
    | _ => exact .pure .none
  refine (Together.of_matches hmatch (Region.does_mapValue? h.left)
    (Region.does_mapValue? h.right)).imp fun q m n _ ⟨hmn, hl, hr⟩ => ?_
  cases hmn with
  | none => exact .none
  | some h => exact .some ⟨h.1, h.2, hl _ rfl, hr _ rfl⟩

lemma together_mapValue (o : Op) (h : p.Same a b) :
    c.Together Γ p (mapValue o a) (mapValue o b) SameMap := by
  refine (together_mapValue? hc h).bind fun m n q _ hmn => ?_
  cases hmn with
  | none => exact .fail (congrArg (Cause.notModule o) h.kin.ty.same)
  | some hmn => exact .pure hmn

end Laws

end Residual.Coupling
