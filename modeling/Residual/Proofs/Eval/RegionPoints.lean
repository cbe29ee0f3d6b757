import Residual.Proofs.Eval.RegionParts
import Residual.Proofs.Eval.Signatures

/-!
The bodies of join points are regions of their own.

A request numbers the variables of the captured values, and these numbers are the parameters of
the body: all that the body can use from outside. So a body that is finished is closed, and the
caller passes variables that are in scope where it calls.
-/

namespace Residual

namespace Eval

/-- The variables that a body can use from outside. -/
def Captured.inputs (c : Captured) : List Var := c.params ++ c.closureParam.toList

namespace Requested

variable {env : Env} {body : Expr} {arg : Option ClosureArg} {w w' : World} {key : Key}
  {captured : Captured} {values raw : Fields Term} {r : Renaming}

/-- The inputs are numbered from zero on. -/
lemma inputs_tag (h : Requested env body arg w key captured w' values raw r)
    (hformed : ∀ e ∈ values, e.2.Formed) :
    captured.inputs.map Var.tag = List.range captured.tags.next := by
  have hparams := (h.numbered hformed).1.params_tag
  rw [Captured.inputs, List.map_append, h.params, hparams, h.closureParam, h.tags]
  cases arg with
  | none => simp
  | some a => simp [List.range_succ]

/-- One type for each tag is kept. -/
theorem oneType (h : Requested env body arg w key captured w' values raw r)
    (hformed : Env.FieldsFormed values)
    (hone : Var.OneType (Env.varsOfFields (fun _ => true) values)) :
    Var.OneType (Env.varsOfFields (fun _ => true) raw) := by
  have hcode := (h.numbered (Env.fieldsFormed_iff.1 hformed)).2
  have hid : Fields.code raw = Fields.code (Env.retagFields id raw) :=
    (Env.codeFields_retag_id _ raw).symm
  rw [hid] at hcode
  have hmarks := ((Env.codeFields_retag_iff _ raw _ id _).1 hcode).2
  refine Var.OneType.of_marks ?_ (Var.injOn_number _) hmarks.symm
  rw [Env.varsOfFields_solid_filter _ values hformed]
  exact fun u hu v hv => hone u (List.mem_filter.1 hu).1 v (List.mem_filter.1 hv).1

/-- The variables of the entered bindings are among the inputs. -/
theorem inScope (h : Requested env body arg w key captured w' values raw r)
    (hformed : Env.FieldsFormed values)
    (hone : Var.OneType (Env.varsOfFields (fun _ => true) values)) :
    ∀ e ∈ captured.env, ∀ v ∈ e.2.vars, v.InScope captured.inputs := by
  intro e he v hv
  have hcode := EnvTable.code_enter r.envs (enteredFields raw arg r.tags.next)
  rw [h.node] at hcode
  have hmark : v.mark id ∈
      (Env.varsOfFields (fun _ => true) (enteredFields raw arg r.tags.next)).map (Var.mark id) := by
    rw [← Fields.marks_of_code hcode]
    exact List.mem_map_of_mem (Env.mem_varsOfFields he hv)
  obtain ⟨u, hu, huv⟩ := List.mem_map.1 hmark
  refine Var.InScope.of_mark ?_ huv.symm
  obtain ⟨d, hd, hud⟩ := Env.mem_varsOfFields_iff.1 hu
  rcases List.mem_append.1 (Fields.mem_ofList hd) with hd | hd
  · -- A captured variable is a parameter.
    have hfirst := (h.oneType hformed hone).inScope_firsts (Env.mem_varsOfFields hd hud)
    rw [Var.InScope, ← h.marks_params (Env.fieldsFormed_iff.1 hformed)] at hfirst
    have hparam : u.InScope captured.params := hfirst
    exact hparam.subset (List.subset_append_left ..)
  · -- The argument is the last input, if it is run-time data.
    obtain ⟨a, ha, rfl⟩ := List.mem_map.1 hd
    have hclosure : captured.closureParam = some ⟨r.tags.next, a.dom⟩ := by
      rw [h.closureParam, Option.mem_toList.1 ha]
      rfl
    dsimp only at hud
    unfold ClosureArg.value at hud
    split at hud
    · rw [Term.vars_ofUnit] at hud
      cases hud
    · rw [List.mem_singleton.1 hud]
      refine .of_mem (List.mem_append_right _ ?_)
      rw [hclosure]
      exact List.mem_singleton_self _

end Requested

end Eval

namespace Rename

variable {asks : Demands} {r : Renaming}

lemma sounds_freshVar (ty : Ty) : Sounds asks r (freshVar ty) fun _ v => v.ty = ty := by
  intro hr v s hrun
  obtain ⟨tag, s', htag, hv⟩ := run_bind.1 hrun
  obtain ⟨-, rfl, rfl⟩ := run_freshTag.1 htag
  obtain ⟨rfl, rfl⟩ := run_pure.1 hv
  exact ⟨hr, ⟨.refl _, fun _ _ h => h⟩, rfl⟩

/-- The captured values and the argument can be entered. -/
lemma sounds_renameCaptures {values : List (Name × Term)} {arg : Option Eval.ClosureArg}
    (hformed : ∀ e ∈ values, e.2.Formed) (hv : ∀ e ∈ values, e.2.Sound ⟨r.envs, asks⟩ false)
    (ha : ∀ a ∈ arg, a.dom.Sound ⟨r.envs, asks⟩) :
    Sounds asks r (Eval.renameCaptures values arg) fun s res =>
      ∀ e ∈ res.1, e.2.Sound ⟨s.envs, asks⟩ true := by
  rw [Eval.renameCaptures, Eval.mapM_term_eq_inOrder]
  refine (sounds_inOrder (m := values) fun e he s hs => ?_).bind fun raw s hs hraw => ?_
  · exact sounds_term e.2 s (hformed e he) ((hv e he).mono (hs.ground asks))
  · cases arg with
    | none => exact sounds_pure fun e he => hraw.sound e (Fields.mem_ofList he)
    | some a =>
      have hdom : a.dom.Sound ⟨s.envs, asks⟩ := (ha a rfl).mono (hs.ground asks)
      refine (sounds_freshVar a.dom).bind fun v s' hs' hvty => sounds_pure fun e he => ?_
      have hdom' : a.dom.Sound ⟨s'.envs, asks⟩ := hdom.mono (hs'.ground asks)
      rcases List.mem_append.1 (Fields.mem_ofList he) with he | he
      · exact (hraw.sound e he).mono (hs'.ground asks)
      · rw [List.mem_singleton.1 he]
        dsimp only
        split
        · exact Term.sound_ofUnit _ hdom'
        · exact Var.sound_iff.2 (hvty ▸ hdom')

end Rename

namespace Region

open Eval

variable {i : Region} {w w' : World}

/-! ### Requests -/

lemma does_lookupAll {env : Env} {kind : MapKind} (h : i.Value w (.map env kind))
    (names : List Name) :
    i.Does w (lookupAll env names) fun values w' => ∀ e ∈ values, i.Value w' e.2 := by
  induction names with
  | nil => exact .pure fun _ e he => absurd he List.not_mem_nil
  | cons x rest ih =>
    unfold lookupAll
    cases hx : env.get? x with
    | none => exact .fail _
    | some t =>
      refine ih.bind fun values w' hw' hvalues => .pure fun _ => ?_
      exact List.forall_mem_cons.2 ⟨(h.get? hx).mono hw', hvalues⟩

/-- What the captures of a body hold, and what the caller passes for them. -/
structure Captures (i : Region) (w : World) (c : Captured) : Prop where
  formed : Fields.Formed c.env
  sound : ∀ e ∈ c.env, e.2.Sound (i.ground w) true
  args : ∀ v ∈ c.args, i.Value w (.var v) ∧ v.ty.isUnit = false
  inputs : ∀ v ∈ c.inputs, v.ty.Sound (i.ground w)
  tags : c.inputs.map Var.tag = List.range c.tags.next
  inScope : i.asks.tracked → ∀ e ∈ c.env, ∀ v ∈ e.2.vars, v.InScope c.inputs

/-- What is entered for a request is formed and sound. -/
theorem does_capture {env : Env} {kind : MapKind} (henv : i.Value w (.map env kind)) {body : Expr}
    (hbody : body.Sorted) {arg : Option ClosureArg} (harg : ∀ a ∈ arg, i.Shape w a.dom) :
    i.Does w (capture env body arg) fun c w' =>
      Fields.Formed c.env ∧ (∀ e ∈ c.env, e.2.Sound (i.ground w') true) ∧
        ∀ v ∈ c.args, v.Formed ∧ v.ty.isUnit = false := by
  refine (does_build (Build.does_freeNames fun _ => hbody)).bind fun free w₁ hw₁ _ => ?_
  refine (does_lookupAll (henv.mono hw₁) _).bind fun values w₂ hw₂ hvalues => ?_
  have hdom : ∀ a ∈ arg, i.Shape w₂ a.dom := fun a ha => (harg a ha).mono (hw₁.trans hw₂)
  refine (does_rename (fun _ => ⟨rfl, rfl, rfl⟩)
    (Discipline.keeps_renameCaptures (fun e he => (hvalues e he).formed)
      fun a ha => (hdom a ha).formed)
    (Rename.sounds_renameCaptures (fun e he => (hvalues e he).formed)
      (fun e he => (hvalues e he).sound) fun a ha => (hdom a ha).sound)).bind
    fun r w₃ _ hr => ?_
  obtain ⟨⟨captures, closureParam⟩, r⟩ := r
  obtain ⟨-, rfl, hformed, hr, -, hsound⟩ := hr
  obtain ⟨henvs, hvalue⟩ := hr.envs.enter hformed
  refine Does.bind (P := fun _ w' => (∀ e ∈ (r.envs.enter captures).1.value,
    e.2.Sound (i.ground w') true)) (.of_exec (exec_modifySession _ _) fun hw => ?_)
    fun _ w₄ hw₄ h₄ => .pure fun _ => ⟨hvalue, h₄, fun v hv => ⟨hr.args v hv, hr.data v hv⟩⟩
  obtain ⟨htable, hentered⟩ := hw.sound.envs.enter hsound
  obtain ⟨hready, hframed⟩ :=
    hw.setEnvs (EnvTable.extends_enter r.envs captures) henvs htable
  exact ⟨hready, hframed, hentered⟩

lemma does_enterKey (data : KeyData) :
    i.Does w (modifyGet fun w =>
      let (key, session) := w.session.enterKey data
      (key, { w with session }) : Eval Key) fun _ _ => True := by
  have hrun : exec (modifyGet fun w =>
      let (key, session) := w.session.enterKey data
      (key, { w with session }) : Eval Key) w =
      (.ok (w.session.enterKey data).1, { w with session := (w.session.enterKey data).2 }) := rfl
  refine .of_exec hrun fun hw => ?_
  have hq : w.session.Quiet (w.session.enterKey data).2 :=
    ⟨⟨.refl _, .refl _, Interner.extends_intern ..⟩, rfl, rfl⟩
  obtain ⟨hready, hframed⟩ := hw.quiet hq hw.session.store hw.session.envs hw.sound.envs
  exact ⟨hready, hframed, trivial⟩

lemma does_request {env : Env} {kind : MapKind} (henv : i.Value w (.map env kind)) {body : Expr}
    (hbody : body.Sorted) {arg : Option ClosureArg} (harg : ∀ a ∈ arg, i.Shape w a.dom) :
    i.Does w (request env body arg) fun r w' => i.Captures w' r.2 := by
  refine .given fun hw => ?_
  have hcapture : i.Does w (request env body arg) fun r w' =>
      Fields.Formed r.2.env ∧ (∀ e ∈ r.2.env, e.2.Sound (i.ground w') true) ∧
        ∀ v ∈ r.2.args, v.Formed ∧ v.ty.isUnit = false := by
    refine (does_capture henv hbody harg).bind fun c w₁ _ hc => ?_
    refine (does_enterKey _).bind fun _ w₂ hw₂ _ => .pure fun _ => ⟨hc.1, fun e he => ?_, hc.2.2⟩
    exact (hc.2.1 e he).mono (le_of_framed i hw₂).ground
  refine hcapture.ran.imp fun r w' hw' hr => ?_
  obtain ⟨⟨hformed, hsound, hargs⟩, hrun⟩ := hr
  obtain ⟨values, raw, s, hreq⟩ := requested_of_request hrun
  have hvalues : ∀ e ∈ values, i.Value w e.2 := fun e he => henv.get? (hreq.taken e he)
  have hvformed : ∀ e ∈ values, e.2.Formed := fun e he => (hvalues e he).formed
  have hff : Env.FieldsFormed values := Env.fieldsFormed_iff.2 hvformed
  have hvars : ∀ v ∈ Env.varsOfFields (fun _ => true) values, ∃ e ∈ values, v ∈ e.2.vars :=
    fun v hv => Env.mem_varsOfFields_iff.1 hv
  -- The variables that are passed were found in the values of the free names.
  have hpassed : ∀ v ∈ r.2.args, i.Value w' (.var v) := by
    intro v hv
    have hmem : v ∈ Env.varsOfFields (fun _ => true) (Env.solidFields values) := by
      rw [hreq.args, (hreq.numbered hvformed).1.args] at hv
      exact Var.firsts_subset _ hv
    rw [Env.varsOfFields_solid_filter _ values hff] at hmem
    obtain ⟨e, he, hve⟩ := hvars v (List.mem_filter.1 hmem).1
    exact ((hvalues e he).mono hw').of_mem_vars hve (hargs v hv).1
  refine ⟨hformed, hsound, fun v hv => ⟨hpassed v hv, (hargs v hv).2⟩, List.forall_mem_append.2
    ⟨fun v hv => ?_, fun v hv => ?_⟩,
    hreq.inputs_tag hvformed, fun htracked => hreq.inScope hff ?_⟩
  · -- A parameter has the type of the variable that is passed for it.
    have hty : v.ty ∈ r.2.args.map Var.ty := by
      rw [← hreq.params_ty hvformed]
      exact List.mem_map_of_mem hv
    obtain ⟨u, hu, huty⟩ := List.mem_map.1 hty
    rw [← huty]
    exact (hpassed u hu).var_ty.sound
  · rw [hreq.closureParam] at hv
    obtain ⟨a, ha, rfl⟩ := Option.map_eq_some_iff.1 (Option.mem_toList.1 hv)
    exact ((harg a ha).mono hw').sound
  · refine (hw.laid htracked).oneType_scope.of_inScope fun v hv => ?_
    obtain ⟨e, he, hve⟩ := hvars v hv
    exact (hvalues e he).inScope htracked v hve

/-! ### Bodies -/

/-- The region of a body with the given captures. -/
def inside (i : Region) (c : Captured) : Region := ⟨i.asks, c.inputs, c.tags.next⟩

/-- An evaluator whose code can be put anywhere, and which stops inside the types that are not
known. -/
structure Evaluator (asks : Demands) (ev : Expr → Eval Term) : Prop where
  good : ∀ i : Region, i.asks = asks → ∀ e w, e.Sorted →
    i.Does w (ev e) fun t w' => i.Value w' t
  stops : ∀ key, ¬ asks.known key → ∀ e w, w.scope.owner = some ⟨.type, key⟩ →
    ∃ s, exec (ev e) w = (.error s, w)

lemma Captures.mono {c : Captured} (h : i.Captures w c) (hw : w.Framed w') :
    i.Captures w' c := by
  have hg := (le_of_framed i hw).ground
  exact ⟨h.formed, fun e he => (h.sound e he).mono hg,
    fun v hv => ⟨(h.args v hv).1.mono hw, (h.args v hv).2⟩, fun v hv =>
      (h.inputs v hv).mono hg, h.tags, h.inScope⟩

lemma Captures.nodup {c : Captured} (h : i.Captures w c) : (c.inputs.map Var.tag).Nodup := by
  rw [h.tags]
  exact List.nodup_range

lemma Captures.below {c : Captured} (h : i.Captures w c) {v : Var} (hv : v ∈ c.inputs) :
    v.tag < c.tags.next := by
  have hmem : v.tag ∈ c.inputs.map Var.tag := List.mem_map_of_mem hv
  rw [h.tags] at hmem
  exact List.mem_range.1 hmem

/-- A body can be started from its captures. -/
theorem Captures.ready {c : Captured} (h : i.Captures w c) (hw : i.Ready w) {p : Point}
    (hp : p.kind = .type → i.asks.known p.key) {annot : Option Ty}
    (hannot : ∀ ty ∈ annot, i.Shape w ty) : (i.inside c).Ready (w.atBody p c annot) := by
  have hformed := Discipline.formed_atBody (p := p) hw.formed h.formed
    fun ty hty => (hannot ty hty).formed
  refine ⟨hformed.session, ⟨hw.sound.envs, ?_, ?_, hw.sound.recTypes⟩, ?_,
    fun e he => absurd he List.not_mem_nil, fun s hs => absurd hs List.not_mem_nil,
    fun htracked => ?_⟩
  · refine List.forall_mem_cons.2 ⟨?_, hw.sound.points⟩
    cases annot with
    | none => trivial
    | some ty => exact (hannot ty rfl).sound
  · exact List.forall_mem_cons.2 ⟨fun hkind _ => hp hkind, hw.sound.pending⟩
  · refine ⟨⟨hformed.env, trivial⟩, ⟨fun hheld => absurd hheld (by decide), ?_⟩,
      fun htracked v hv => ?_⟩
    · exact Env.fieldsSound_iff.2 fun e he _ => (h.sound e he).release
    · obtain ⟨e, he, hve⟩ := Env.mem_varsOfFields_iff.1 hv
      exact (h.inScope htracked e he v hve).subset (List.subset_append_left ..)
  · exact ⟨Var.oneType_of_nodup h.nodup, fun v hv => h.below hv, Nat.le_refl _, trivial,
      List.nodup_nil, fun tag htag => absurd htag List.not_mem_nil,
      fun s hs => absurd hs List.not_mem_nil⟩

/-- A body is given up. -/
theorem Ready.abandon (hw : i.Ready w) {w' : World} (hformed : w'.Formed)
    (hsound : w'.session.Sound i.asks) (hext : w.session.envs.Extends w'.session.envs)
    (p : Point) : i.Ready ((w'.setScope w.scope).abandon p) := by
  refine hw.setSession hext (Discipline.formed_abandon hw.formed hformed p).session
    ⟨hsound.envs, fun e he => ?_, fun e he => ?_, hsound.recTypes⟩
  · exact hsound.points e (List.mem_filter.1 he).1
  · exact hsound.pending e (List.mem_filter.1 he).1

/-- The type of a finished body. -/
lemma shape_bodyTy {j : Region} {p : Point} {value : Term} (hv : j.Value w value)
    (hp : p.kind = .type → j.asks.known p.key) :
    (p.bodyTy (w.bodyTerm p value)).Sound (j.ground w) := by
  unfold Point.bodyTy
  split
  · rename_i hrec
    exact hp hrec.1
  · rw [Discipline.bodyTerm_ty]
    exact hv.ty.sound

/-- A finished body is closed. -/
lemma closed_bodyTerm {c : Captured} (hc : i.Captures w c) {w' : World}
    (hw' : (i.inside c).Ready w') (hext : w.session.envs.Extends w'.session.envs) {p : Point}
    (hp : p.kind = .type → i.asks.known p.key) {value : Term} (hv : (i.inside c).Value w' value) :
    Body.Closed ((i.inside c).ground w')
      ⟨w'.bodyTerm p value, p.bodyTy (w'.bodyTerm p value), c.params, c.closureParam⟩ := by
  have hle : (i.ground w).Le ((i.inside c).ground w') := ⟨hext, rfl⟩
  have hcode := hv.code hw'
  refine ⟨shape_bodyTy hv hp, fun v hvar => (hc.inputs v hvar).mono hle, ?_, fun htracked => ?_,
    fun htracked => ?_, fun htracked => ?_⟩
  · unfold World.bodyTerm
    split
    · exact List.forall_mem_singleton.2
        ⟨fun _ => trivial, List.forall_mem_singleton.2 hv.ty.sound⟩
    · exact Stmt.fits_close hw'.fits hcode.fits
  · unfold World.bodyTerm
    split
    · trivial
    · exact (Stmt.scoped_close _ _).2 ⟨(hw'.laid htracked).stmts, hcode.inScope htracked⟩
  · unfold World.bodyTerm
    split
    · change (c.inputs.map Var.tag ++ []).Nodup
      rw [List.append_nil]
      exact hc.nodup
    · have hlaid := hw'.laid htracked
      rw [Stmt.bound_close, hv.formed.bound_eq, List.append_nil]
      refine List.nodup_append.2 ⟨hc.nodup, hlaid.nodup, fun a ha b hb heq => ?_⟩
      obtain ⟨v, hvar, rfl⟩ := List.mem_map.1 ha
      exact Nat.ne_of_lt (Nat.lt_of_lt_of_le (hc.below hvar) (hlaid.range b hb).1) heq
  · unfold World.bodyTerm
    split
    · trivial
    · exact Stmt.renamable_close (hw'.laid htracked).renamable hv.formed.renamable

/-- A body is finished. -/
theorem Ready.complete (hw : i.Ready w) {c : Captured} (hc : i.Captures w c) {w' : World}
    (hw' : (i.inside c).Ready w') (hext : w.session.envs.Extends w'.session.envs) {p : Point}
    (hp : p.kind = .type → i.asks.known p.key) {value : Term} (hv : (i.inside c).Value w' value) :
    i.Ready ((w'.setScope w.scope).complete p (w'.bodyTerm p value) c) := by
  have hclosed := closed_bodyTerm hc hw' hext hp hv
  have hty : (w'.bodyTerm p value).ty.Formed ∧
      (w'.bodyTerm p value).ty.Sound ((i.inside c).ground w') := by
    rw [Discipline.bodyTerm_ty]
    exact ⟨hv.ty.formed, hv.ty.sound⟩
  refine hw.setSession hext (Discipline.formed_complete hw.formed hw'.formed hty.1 c).session
    ⟨hw'.sound.envs, fun e he => ?_, fun e he => ?_, fun e he => ?_⟩
  · obtain ⟨⟨q, entry⟩, hq, rfl⟩ := List.mem_map.1 he
    dsimp only
    split
    · exact hclosed
    · exact hw'.sound.points _ hq
  · obtain ⟨⟨q, entry⟩, hq, rfl⟩ := List.mem_map.1 he
    dsimp only
    split
    · exact fun _ hpending => by cases hpending
    · exact hw'.sound.pending _ hq
  · change e ∈ (if p.kind = .type ∧ (w'.bodyTerm p value).ty.mentions p.key then
      (p.key, (w'.bodyTerm p value).ty) :: w'.session.recTypes.filter fun e => e.1 ≠ p.key
      else w'.session.recTypes) at he
    split at he
    · rcases List.mem_cons.1 he with rfl | he
      · exact hty.2
      · exact hw'.sound.recTypes e (List.mem_filter.1 he).1
    · exact hw'.sound.recTypes e he

variable {ev : Expr → Eval Term}

lemma does_specializeNew (hev : Evaluator i.asks ev) {p : Point} {body : Expr}
    (hbody : body.Sorted) {c : Captured} (hc : i.Captures w c) {annot : Option Ty}
    (hannot : ∀ ty ∈ annot, i.Shape w ty) (hnone : w.session.find? p = none) :
    i.Does w (specializeNew ev p body c annot) fun ty w' => i.Shape w' ty := by
  intro hw
  rw [exec_specializeNew]
  split
  · exact ⟨hw, .refl w, fun a ha => by cases ha⟩
  · by_cases hp : p.kind = .type → i.asks.known p.key
    · obtain ⟨hready, hframed, hvalue⟩ :=
        hev.good (i.inside c) rfl body _ hbody (hc.ready hw hp hannot)
      rcases hrun : exec (ev body) (w.atBody p c annot) with ⟨r, w'⟩
      rw [hrun] at hready hframed hvalue
      have hext : w.session.envs.Extends w'.session.envs := hframed.later.grows.envs
      have habandon : i.Ready ((w'.setScope w.scope).abandon p) :=
        hw.abandon hready.formed hready.sound hext p
      have hleave : w.Framed ((w'.setScope w.scope).abandon p) :=
        (Discipline.frame.abandon (i := ()) trivial hnone trivial hframed).2
      cases r with
      | error s => exact ⟨habandon, hleave, fun a ha => by cases ha⟩
      | ok v =>
        dsimp only
        rcases hcheck : (exec (checkBody p (w'.bodyTerm p v)) (w'.setScope w.scope)).1 with s | ⟨⟩
        · exact ⟨habandon, hleave, fun a ha => by cases ha⟩
        · have hv := hvalue v rfl
          refine ⟨hw.complete hc hready hext hp hv, .of_scope (hframed.later.of_tables
            ⟨rfl, rfl, rfl⟩ ⟨rfl, rfl, rfl⟩ rfl) hframed.settings rfl, fun a ha => ?_⟩
          cases ha
          refine ⟨Discipline.formed_bodyTy ?_, shape_bodyTy hv hp⟩
          rw [Discipline.bodyTerm_ty]
          exact hv.ty.formed
    · -- The body of a type that is not known is given up at once.
      obtain ⟨hkind, hunknown⟩ := Classical.not_imp.1 hp
      have howner : (w.atBody p c annot).scope.owner = some ⟨.type, p.key⟩ := by
        rw [← hkind]
        rfl
      obtain ⟨s, hrun⟩ := hev.stops p.key hunknown body _ howner
      rw [hrun]
      have hpoints : ∀ e ∈ ((w.atBody p c annot).setScope w.scope |>.abandon p).session.points,
          e ∈ w.session.points := by
        intro e he
        obtain ⟨he, hne⟩ := List.mem_filter.1 he
        exact (List.mem_cons.1 he).resolve_left fun heq => by simp [heq] at hne
      refine ⟨hw.setSession (.refl _) ⟨hw.session.store, hw.session.envs, fun e he => ?_,
        hw.session.recTypes⟩ ⟨hw.sound.envs, fun e he => ?_, fun e he => ?_, hw.sound.recTypes⟩,
        (Discipline.frame.abandon (i := ()) trivial hnone trivial (.refl _)).2,
        fun a ha => by cases ha⟩
      · exact hw.session.points e (hpoints e he)
      · exact hw.sound.points e (hpoints e he)
      · exact hw.sound.pending e (hpoints e he)

/-! ### Calls -/

lemma does_reuse {p : Point} {args : List Var} {entry : Entry}
    (hentry : w.session.find? p = some entry) :
    i.Does w (reuse p args entry.progress) fun spec w' =>
      i.Shape w' spec.ty ∧ spec.args = args := by
  obtain ⟨progress, trace⟩ := entry
  refine .given fun hw => ?_
  have hmem : (p, (⟨progress, trace⟩ : Entry)) ∈ w.session.points :=
    Discipline.mem_of_find? hentry
  have hformed := hw.session.points _ hmem
  have hsound := hw.sound.points _ hmem
  cases progress with
  | done body =>
    have hty : i.Shape w body.ty := ⟨hformed, hsound.ty⟩
    exact (does_modifyStats _ fun _ => by rfl).bind fun _ w' hw' _ =>
      .pure fun _ => ⟨hty.mono hw', rfl⟩
  | pending ty =>
    cases ty with
    | some ty =>
      have hty : i.Shape w ty := ⟨hformed, hsound⟩
      exact (does_modifyStats _ fun _ => by rfl).bind fun _ w' hw' _ =>
        .pure fun _ => ⟨hty.mono hw', rfl⟩
    | none =>
      refine (does_modifyStats _ fun _ => by rfl).bind fun _ w' hw' _ => ?_
      split
      · rename_i hkind
        have hknown : i.asks.known p.key := hw.sound.pending _ hmem hkind rfl
        exact .pure fun _ => ⟨⟨trivial, hknown⟩, rfl⟩
      · exact .getScope (.throw _)

lemma does_specialize (hev : Evaluator i.asks ev) {env : Env} {mapKind : MapKind}
    (henv : i.Value w (.map env mapKind)) {kind : PointKind} {body : Expr} (hbody : body.Sorted)
    {annot : Option Ty} (hannot : ∀ ty ∈ annot, i.Shape w ty) {arg : Option ClosureArg}
    (harg : ∀ a ∈ arg, i.Shape w a.dom) :
    i.Does w (specialize ev env kind body annot arg) fun spec w' =>
      i.Shape w' spec.ty ∧ ∀ v ∈ spec.args, i.Value w' (.var v) ∧ v.ty.isUnit = false := by
  refine (does_request henv hbody harg).bind fun r w₁ hw₁ hr => .getSession ?_
  cases hfind : w₁.session.find? ⟨kind, r.1⟩ with
  | some entry =>
    refine (does_reuse hfind).imp fun spec w₂ hw₂ hspec => ⟨hspec.1, fun v hv => ?_⟩
    rw [hspec.2] at hv
    exact (hr.mono hw₂).args v hv
  | none =>
    refine (does_specializeNew hev hbody hr (fun ty hty => (hannot ty hty).mono hw₁) hfind).bind
      fun ty w₂ hw₂ hty => .pure fun _ => ⟨hty, (hr.mono hw₂).args⟩

lemma does_enterPoint (hev : Evaluator i.asks ev) (op : EntryOp) {body : Expr}
    (hbody : body.Sorted) {annot : Option Ty} (hannot : ∀ ty ∈ annot, i.Shape w ty) :
    i.Does w (enterPoint ev op body annot) fun v w' => i.Value w' v := by
  refine .given fun hw => .getScope ?_
  refine (does_specialize hev hw.env hbody hannot fun a ha => by cases ha).bind
    fun spec w' _ hspec => ?_
  split
  · exact .pure fun _ => hspec.1.type
  · refine .given fun hw' => ?_
    have hcode : i.Code w' (.call spec.key op.kind spec.args spec.ty) :=
      .call hw' hspec.2 hspec.1
    exact (does_bindResult hcode).imp fun _ _ _ hv => hv.1

/-- A function is committed to a domain. -/
theorem does_closureOf (hev : Evaluator i.asks ev) {f : Term} (hf : i.Value w f) {dom : Ty}
    (hdom : i.Shape w dom) {range : Option Ty} (hrange : ∀ ty ∈ range, i.Shape w ty) :
    i.Does w (closureOf ev f dom range) fun v w' => i.Value w' v := by
  have hmain : ∀ (env : Env) (kind : MapKind) (param : Name) (body : Expr),
      i.Value w (.map env kind) → body.Sorted → i.Does w
        (do
          let spec ← specialize ev env .closure body range (some ⟨param, dom⟩)
          bindResult (.call spec.key .closure spec.args (.closure dom spec.ty))
            (.closure dom spec.ty))
        fun v w' => i.Value w' v := by
    intro env kind param body henv hbody
    refine (does_specialize hev henv hbody hrange fun a ha => by cases ha; exact hdom).bind
      fun spec w' hw' hspec => .given fun hready => ?_
    have hdom' := hdom.mono hw'
    have hcode : i.Code w' (.call spec.key .closure spec.args (.closure dom spec.ty)) :=
      .call hready hspec.2 ⟨⟨hdom'.formed, hspec.1.formed⟩, hdom'.sound, hspec.1.sound⟩
    exact (does_bindResult hcode).imp fun _ _ _ hv => hv.1
  unfold closureOf
  split
  · exact hmain _ _ _ _ hf hf.formed.2
  · exact hmain _ _ _ _ (hf.bind _ hf) hf.formed.2
  · exact Does.bind (P := fun _ _ => False) (.fail _) fun _ _ _ h => h.elim

lemma does_closureOp (hev : Evaluator i.asks ev) {args : List Term}
    (h : ∀ t ∈ args, i.Value w t) :
    i.Does w (closureOp ev args) fun v w' => i.Value w' v := by
  unfold closureOp
  split
  · exact does_closureOf hev (h _ (by simp)) (h _ (by simp) |>.ty) fun ty hty => by cases hty
  · refine (does_operands₃ _ h).bind fun r _ _ hr => ?_
    exact does_closureOf hev hr.1 hr.2.1.ty fun ty hty => by cases hty; exact hr.2.2.ty

end Region

end Residual
