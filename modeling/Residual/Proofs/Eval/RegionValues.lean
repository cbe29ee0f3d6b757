import Residual.Proofs.Eval.Emission

/-!
Every step that does not evaluate expressions emits code by the rules: making values run-time
data, reading their parts, and the operations on tuples, arrays, types and primitive values.
-/

namespace Residual.Region

open Eval

variable {i : Region} {w : World}

/-! ### Run-time data -/

mutual

lemma does_toRuntime (t : Term) (w : World) (h : i.Value w t) :
    i.Does w (toRuntime t) fun v w' => i.Value w' v ∧ v.ty = t.ty := by
  match t with
  | .lit l => exact .given fun hw => does_bindResult (h.code hw)
  | .box inner ty =>
    refine (does_toRuntime inner w h.unbox).bind fun v w' hw' hv => .given fun hw => ?_
    have hbox : i.Value w' (.box v ty) := by
      refine value_box hv.1 (h.box_ty.mono hw') fun htyped members hm => ?_
      rw [hv.2]
      exact h.sound.2.2 htyped members hm
    exact does_bindResult (hbox.code hw)
  | .tuple items =>
    refine (does_allToRuntime items w fun t ht => h.item ht).bind fun ts w' _ hts =>
      .pure fun _ => ⟨value_tuple hts.1, ?_⟩
    rw [Term.ty, Term.ty, Term.tys_eq, Term.tys_eq, hts.2]
  | .map env kind =>
    refine (does_envToRuntime env w h).bind fun m w' _ hm => .pure fun _ => ⟨?_, ?_⟩
    · have hnames : m.map Prod.fst = env.visible.map Prod.fst := by
        have hfst := congrArg (List.map Prod.fst) hm.2
        rwa [List.map_map, List.map_map] at hfst
      exact value_map (Rename.ascending_of_names hnames h.formed.1.visible.1) h.formed.2 hm.1
    · rw [Term.ty, Term.ty, Term.envTys_eq, Term.envTys_eq]
      exact congrArg (Ty.map · kind) hm.2
  | .type _ | .var _ | .op _ _ _ => exact .pure fun _ => ⟨h, rfl⟩
  | .letIn _ _ _ _ | .state _ _ _ | .call _ _ _ _ => exact h.formed.elim
termination_by structural t

lemma does_allToRuntime (ts : List Term) (w : World) (h : ∀ t ∈ ts, i.Value w t) :
    i.Does w (allToRuntime ts) fun vs w' =>
      (∀ v ∈ vs, i.Value w' v) ∧ vs.map Term.ty = ts.map Term.ty := by
  match ts with
  | [] => exact .pure fun _ => ⟨fun v hv => absurd hv List.not_mem_nil, rfl⟩
  | t :: rest =>
    obtain ⟨ht, hrest⟩ := List.forall_mem_cons.1 h
    refine (does_toRuntime t w ht).bind fun v w₁ hw₁ hv => ?_
    refine (does_allToRuntime rest w₁ fun t ht => (hrest t ht).mono hw₁).bind fun vs w₂ hw₂ hvs =>
      .pure fun _ => ⟨List.forall_mem_cons.2 ⟨hv.1.mono hw₂, hvs.1⟩, ?_⟩
    rw [List.map_cons, List.map_cons, hv.2, hvs.2]
termination_by structural ts

lemma does_envToRuntime (env : Env) (w : World) {kind : MapKind}
    (h : i.Value w (.map env kind)) :
    i.Does w (envToRuntime env) fun m w' => (∀ e ∈ m, i.Value w' e.2) ∧
      m.map (fun e => (e.1, e.2.ty)) = env.visible.map fun e => (e.1, e.2.ty) := by
  have hvisible := h.visible
  match env with
  | .plain m =>
    refine (does_fieldsToRuntime (fun _ => true) m w fun e he _ => hvisible e he).imp
      fun n w' _ hn => ⟨hn.1, hn.2.trans ?_⟩
    rw [List.filter_eq_self.2 fun _ _ => rfl, Env.visible]
  | .restricted m used =>
    exact does_fieldsToRuntime used.contains m w fun e he hk =>
      hvisible e (List.mem_filter.2 ⟨he, hk⟩)
  | .consed _ m =>
    refine (does_fieldsToRuntime (fun _ => true) m w fun e he _ => hvisible e he).imp
      fun n w' _ hn => ⟨hn.1, hn.2.trans ?_⟩
    rw [List.filter_eq_self.2 fun _ _ => rfl, Env.visible]
termination_by structural env

lemma does_fieldsToRuntime (keep : Name → Bool) (m : List (Name × Term)) (w : World)
    (h : ∀ e ∈ m, keep e.1 = true → i.Value w e.2) :
    i.Does w (fieldsToRuntime keep m) fun n w' => (∀ e ∈ n, i.Value w' e.2) ∧
      n.map (fun e => (e.1, e.2.ty)) =
        (m.filter fun e => keep e.1).map fun e => (e.1, e.2.ty) := by
  match m with
  | [] => exact .pure fun _ => ⟨fun e he => absurd he List.not_mem_nil, rfl⟩
  | (x, t) :: rest =>
    obtain ⟨ht, hrest⟩ := List.forall_mem_cons.1 h
    rw [fieldsToRuntime]
    split
    · rename_i hk
      refine (does_toRuntime t w (ht hk)).bind fun v w₁ hw₁ hv => ?_
      refine (does_fieldsToRuntime keep rest w₁ fun e he hk => (hrest e he hk).mono hw₁).bind
        fun n w₂ hw₂ hn => .pure fun _ =>
          ⟨List.forall_mem_cons.2 ⟨hv.1.mono hw₂, hn.1⟩, ?_⟩
      rw [List.map_cons, hn.2, hv.2, List.filter_cons, if_pos hk, List.map_cons]
    · rename_i hk
      rw [List.filter_cons, if_neg hk]
      exact does_fieldsToRuntime keep rest w hrest
termination_by structural m

end

/-! ### Operands -/

lemma does_operand (o : Op) {args : List Term} (h : ∀ t ∈ args, i.Value w t) :
    i.Does w (operand o args) fun t w' => i.Value w' t := by
  unfold operand
  split
  · exact .pure fun _ => h _ (by simp)
  · exact .fail _

lemma does_operands₂ (o : Op) {args : List Term} (h : ∀ t ∈ args, i.Value w t) :
    i.Does w (operands₂ o args) fun r w' => i.Value w' r.1 ∧ i.Value w' r.2 := by
  unfold operands₂
  split
  · exact .pure fun _ => ⟨h _ (by simp), h _ (by simp)⟩
  · exact .fail _

lemma does_operands₃ (o : Op) {args : List Term} (h : ∀ t ∈ args, i.Value w t) :
    i.Does w (operands₃ o args) fun r w' =>
      i.Value w' r.1 ∧ i.Value w' r.2.1 ∧ i.Value w' r.2.2 := by
  unfold operands₃
  split
  · exact .pure fun _ => ⟨h _ (by simp), h _ (by simp), h _ (by simp)⟩
  · exact .fail _

/-! ### Tuples -/

lemma Shape.item {t : Ty} {items : List Ty} (h : i.Shape w (.list items)) (ht : t ∈ items) :
    i.Shape w t :=
  ⟨Ty.allFormed_iff.1 h.formed t ht, Ty.allSound_iff.1 h.sound t ht⟩

lemma does_tupleIndex {t : Term} (ht : i.Value w t) (n : Nat) :
    i.Does w (tupleIndex t n) fun v w' => i.Value w' v := by
  unfold tupleIndex
  split
  · split
    · rename_i item hitem
      exact .pure fun _ => ht.item (List.mem_of_getElem? hitem)
    · exact .fail _
  · split
    · rename_i item hitem
      exact .pure fun _ => (ht.ty.item (List.mem_of_getElem? hitem)).ofUnit
    · exact .fail _
  · split
    · rename_i tag items _ item hitem
      have hty : i.Shape w item := ht.ty.item (List.mem_of_getElem? hitem)
      split
      · exact .pure fun _ => hty.ofUnit
      · refine does_emit (by simp) (List.forall_mem_singleton.2 ht) hty fun _ => ?_
        change (items[n]?).map Ty.code = some item.code
        rw [hitem]
        rfl
    · exact .fail _
  · exact .fail _

lemma does_tupleOp (op : TupleOp) {args : List Term} (h : ∀ t ∈ args, i.Value w t) :
    i.Does w (tupleOp op args) fun v w' => i.Value w' v := by
  refine (does_operand _ h).bind fun t w' _ ht => ?_
  cases op with
  | lengthEq n => exact .pure fun _ => value_lit _
  | lengthGe n => exact .pure fun _ => value_lit _
  | index n => exact does_tupleIndex ht n
  | slice n =>
    cases hl : t.tupleLength? with
    | none => exact .fail _
    | some length =>
      by_cases hn : n ≤ length
      · simp only [hn, if_true]
        exact (Does.mapM_value fun k _ w hw => does_tupleIndex (ht.mono hw) (n + k)).bind
          fun ts _ _ hts => .pure fun _ => value_tuple hts
      · simp only [hn, if_false]
        exact .fail _

/-! ### Primitive operations -/

lemma shape_prim (p : Prim) : i.Shape w (.prim p) := ⟨trivial, trivial⟩

lemma shape_unit : i.Shape w .unit := ⟨trivial, trivial⟩

lemma does_primOp (op : PrimOp) {args : List Term} (h : ∀ t ∈ args, i.Value w t) :
    i.Does w (primOp op args) fun v w' => i.Value w' v := by
  have htype : i.Does w (primType op args) fun p _ =>
      Fold.resultType op (args.map fun a => a.ty.prim?) = some p := by
    unfold primType
    split
    · exact .fail _
    · split
      · rename_i p hp
        exact .pure fun _ => hp
      · exact .fail _
  refine htype.bind fun result w' hw' hresult => .getSession ?_
  split
  · exact .pure fun _ => value_lit _
  · exact does_emit (by simp) (fun t ht => (h t ht).mono hw') (shape_prim _) fun _ => ⟨hresult, rfl⟩

/-! ### Arrays -/

lemma does_elementType (op : ArrayOp) {t : Term} (ht : i.Value w t) :
    i.Does w (elementType op t) fun ty w' =>
      i.Shape w' ty ∧ t.ty.elem? op.onReference = some ty := by
  have hty := ht.ty
  unfold elementType
  split
  · rename_i storage elem heq
    rw [heq] at hty ⊢
    split
    · rename_i hmatch
      exact .pure fun _ => ⟨⟨hty.formed, hty.sound⟩, by rw [Ty.elem?, if_pos hmatch]⟩
    · exact .fail _
  · exact .fail _

lemma does_expectIndex (op : ArrayOp) (t : Term) :
    i.Does w (expectIndex op t) fun _ _ => t.ty.prim?.any Prim.isInt = true := by
  unfold expectIndex
  split
  · rename_i hint
    exact .pure fun _ => hint
  · exact .fail _

lemma does_expectElement (op : ArrayOp) {elem : Ty} {t : Term} (helem : i.Shape w elem)
    (ht : i.Value w t) :
    i.Does w (expectElement op elem t) fun _ _ => t.ty.code = elem.code := by
  unfold expectElement
  split
  · rename_i heq
    exact .pure fun _ => ht.ty.sound.code_of_beq helem.sound heq
  · exact .fail _

lemma does_arrayOp (op : ArrayOp) {args : List Term} (h : ∀ t ∈ args, i.Value w t) :
    i.Does w (arrayOp op args) fun v w' => i.Value w' v := by
  cases op with
  -- The rule of each operation is what its checks have established.
  | create storage =>
    refine (does_operands₂ _ h).bind fun r _ _ hr => (does_expectIndex _ _).bind
      fun _ w₁ hw₁ hint => (does_toRuntime r.2 w₁ (hr.2.mono hw₁)).bind
      fun length w₂ hw₂ hlength => ?_
    have helem : i.Shape w₂ r.1.ty := (hr.1.mono (hw₁.trans hw₂)).ty
    refine does_emit (by simp) (by simpa using ⟨helem.type, hlength.1⟩)
      ⟨helem.formed, helem.sound⟩ fun _ => ⟨?_, rfl⟩
    rw [hlength.2]
    exact hint
  | length =>
    refine (does_operand _ h).bind fun t _ _ ht => (does_elementType _ ht).bind
      fun elem w₁ hw₁ helem => ?_
    refine does_emit (by simp) (List.forall_mem_singleton.2 (ht.mono hw₁)) (shape_prim _)
      fun _ => ⟨?_, rfl⟩
    exact Option.isSome_iff_exists.2 ⟨elem, helem.2⟩
  | index =>
    refine (does_operands₂ _ h).bind fun r _ _ hr => (does_elementType _ hr.1).bind
      fun elem _ hw₁ helem => (does_expectIndex _ _).bind fun _ w₂ hw₂ hint => ?_
    have hw := hw₁.trans hw₂
    refine does_emit (by simp) (by simpa using ⟨hr.1.mono hw, hr.2.mono hw⟩) (helem.1.mono hw₂)
      fun _ => ⟨?_, hint⟩
    exact congrArg (Option.map Ty.code) helem.2
  | set =>
    refine (does_operands₃ _ h).bind fun r _ _ hr => (does_elementType _ hr.1).bind
      fun elem _ hw₁ helem => (does_expectIndex _ _).bind fun _ _ hw₂ hint => ?_
    refine (does_expectElement _ (helem.1.mono hw₂) (hr.2.2.mono (hw₁.trans hw₂))).bind
      fun _ w₃ hw₃ hcode => ?_
    have hw := (hw₁.trans hw₂).trans hw₃
    refine (does_toRuntime r.2.2 w₃ (hr.2.2.mono hw)).bind fun value w₄ hw₄ hvalue => ?_
    refine does_emit (by simp)
      (by simpa using ⟨hr.1.mono (hw.trans hw₄), hr.2.1.mono (hw.trans hw₄), hvalue.1⟩) shape_unit
      fun _ => ⟨?_, hint, rfl⟩
    rw [hvalue.2, hcode]
    exact congrArg (Option.map Ty.code) helem.2
  -- References: a cell has the type of what is put in.
  | refCreate =>
    refine (does_operand _ h).bind fun t w₁ _ ht => (does_toRuntime t w₁ ht).bind
      fun value w₂ hw₂ hvalue => ?_
    have hty := (ht.mono hw₂).ty
    refine does_emit (by simp) (List.forall_mem_singleton.2 hvalue.1)
      ⟨hty.formed, hty.sound⟩ fun _ => ?_
    change _ = (Ty.array .reference value.ty).code
    rw [hvalue.2]
  | refGet =>
    refine (does_operand _ h).bind fun t _ _ ht => (does_elementType _ ht).bind
      fun elem _ hw₁ helem => ?_
    refine does_emit (by simp) (List.forall_mem_singleton.2 (ht.mono hw₁)) helem.1 fun _ => ?_
    exact congrArg (Option.map Ty.code) helem.2
  | refSet =>
    refine (does_operands₂ _ h).bind fun r _ _ hr => (does_elementType _ hr.1).bind
      fun elem _ hw₁ helem => (does_expectElement _ helem.1 (hr.2.mono hw₁)).bind
      fun _ w₂ hw₂ hcode => ?_
    have hw := hw₁.trans hw₂
    refine (does_toRuntime r.2 w₂ (hr.2.mono hw)).bind fun value w₃ hw₃ hvalue => ?_
    refine does_emit (by simp) (by simpa using ⟨hr.1.mono (hw.trans hw₃), hvalue.1⟩) shape_unit
      fun _ => ⟨?_, rfl⟩
    rw [hvalue.2, hcode]
    exact congrArg (Option.map Ty.code) helem.2

/-! ### Types and foreign text -/

/-- A piece of a foreign type that evaluation may go on with. -/
structure Part (i : Region) (w : World) (p : ForeignPart) : Prop where
  formed : p.Formed
  sound : p.Sound (i.ground w)

lemma does_foreignPart {t : Term} (ht : i.Value w t) :
    i.Does w (foreignPart t) fun p w' => i.Part w' p := by
  unfold foreignPart
  split
  · exact .pure fun _ => ⟨trivial, trivial⟩
  · exact .pure fun _ => ⟨ht.formed, ht.sound⟩
  · exact .pure fun _ => ⟨ht.formed, ht.sound⟩
  · exact .fail _

lemma shape_foreign {target : Target} {ps : List ForeignPart} (h : ∀ p ∈ ps, i.Part w p) :
    i.Shape w (.foreign target ps) :=
  ⟨ForeignPart.allFormed_iff.2 fun p hp => (h p hp).formed,
    ForeignPart.allSound_iff.2 fun p hp => (h p hp).sound⟩

lemma shape_unionOf {ts : List Ty} (h : ∀ t ∈ ts, i.Shape w t) : i.Shape w (.unionOf ts) :=
  ⟨Ty.formed_unionOf fun t ht => (h t ht).formed, Ty.sound_unionOf fun t ht => (h t ht).sound⟩

lemma does_typeOp (op : TypeOp) {args : List Term} (h : ∀ t ∈ args, i.Value w t) :
    i.Does w (typeOp op args) fun v w' => i.Value w' v := by
  cases op with
  | get => exact (does_operand _ h).bind fun t _ _ ht => .pure fun _ => ht.ty.type
  | union =>
    refine (does_operands₂ _ h).bind fun r _ _ hr => .pure fun _ => ?_
    exact (shape_unionOf (by simpa using ⟨hr.1.ty, hr.2.ty⟩)).type
  | literal =>
    refine (does_operand _ h).bind fun t _ _ ht => ?_
    split
    · exact .pure fun _ => Shape.type ⟨trivial, trivial⟩
    · exact .fail _
  | equal => exact (does_operands₂ _ h).bind fun r _ _ _ => .pure fun _ => value_lit _
  | foreign target =>
    refine (Does.mapM (P := fun p w' => i.Part w' p) (fun p w w' hw hp => ?_)
      fun t ht w hw => does_foreignPart ((h t ht).mono hw)).bind fun ps _ _ hps => ?_
    · exact ⟨hp.formed, hp.sound.mono (le_of_framed i hw).ground⟩
    · exact .pure fun _ => (shape_foreign hps).type

lemma does_foreignArg {t : Term} (ht : i.Value w t) :
    i.Does w (foreignArg t) fun v w' => i.Value w' v := by
  unfold foreignArg
  split
  · exact .pure fun _ => ht
  · exact .pure fun _ => ht
  · exact .pure fun _ => ht
  · exact .fail _

lemma does_foreignOp (target : Target) {args : List Term} (h : ∀ t ∈ args, i.Value w t) :
    i.Does w (foreignOp target args) fun v w' => i.Value w' v := by
  unfold foreignOp
  split
  · exact .fail _
  · rename_i result parts
    obtain ⟨hresult, hparts⟩ := List.forall_mem_cons.1 h
    refine (Does.mapM_value fun t ht w hw => does_foreignArg ((hparts t ht).mono hw)).bind
      fun ps w' hw' hps => .given fun hw => ?_
    have hty := (hresult.mono hw').ty
    have hcode : i.Code w' (.op (.foreign target) (.type result.ty :: ps) result.ty) :=
      .op hw (by simp) (List.forall_mem_cons.2 ⟨hty.type, hps⟩) hty fun _ => rfl
    exact (does_bindResult hcode).imp fun _ _ _ hv => hv.1

end Residual.Region
