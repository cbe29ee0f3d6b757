import Residual.Proofs.Eval.RegionValues

/-!
Parts of values that are known only at run time are read by the rules, and packed maps are put
together and taken apart: what is read from a packed map stands for the variables that its type
lists, so the environment inside the type can be used with the new variables in their place.
-/

namespace Residual.Region

open Eval

variable {i : Region} {w : World}

/-! ### Fields -/

lemma Value.field_ty {fields : List (Name × Ty)} {kind : MapKind} {tag : Tag}
    (hv : i.Value w (.var ⟨tag, .map fields kind⟩)) {e : Name × Ty} (he : e ∈ fields) :
    i.Shape w e.2 :=
  ⟨Ty.fieldsFormed_iff.1 hv.formed.2.1 e he, Ty.fieldsSound_iff.1 hv.sound e he⟩

lemma does_readField {fields : List (Name × Ty)} {kind : MapKind} {tag : Tag}
    (hv : i.Value w (.var ⟨tag, .map fields kind⟩)) {x : Name} {ty : Ty}
    (hx : Fields.get? fields x = some ty) :
    i.Does w (readField ⟨tag, .map fields kind⟩ x ty) fun t w' => i.Value w' t := by
  have hty : i.Shape w ty := hv.field_ty (Fields.mem_of_get? hx)
  unfold readField
  split
  · exact .pure fun _ => hty.ofUnit
  · refine does_emit (by simp) (List.forall_mem_singleton.2 hv) hty fun _ => ?_
    change (Fields.get? fields x).map Ty.code = some ty.code
    rw [hx]
    rfl

lemma does_readFields {fields : List (Name × Ty)} {kind : MapKind} {tag : Tag}
    (hv : i.Value w (.var ⟨tag, .map fields kind⟩)) {rest : List (Name × Ty)}
    (h : ∀ e ∈ rest, Fields.get? fields e.1 = some e.2) :
    i.Does w (readFields ⟨tag, .map fields kind⟩ rest) fun m w' =>
      m.map Prod.fst = rest.map Prod.fst ∧ ∀ e ∈ m, i.Value w' e.2 := by
  induction rest generalizing w with
  | nil => exact .pure fun _ => ⟨rfl, fun e he => absurd he List.not_mem_nil⟩
  | cons e rest ih =>
    obtain ⟨x, ty⟩ := e
    obtain ⟨hx, hrest⟩ := List.forall_mem_cons.1 h
    refine (does_readField hv hx).bind fun t w₁ hw₁ ht => ?_
    refine (ih (hv.mono hw₁) hrest).bind fun m w₂ hw₂ hm => .pure fun _ => ⟨?_, ?_⟩
    · rw [List.map_cons, hm.1, List.map_cons]
    · exact List.forall_mem_cons.2 ⟨ht.mono hw₂, hm.2⟩

/-! ### Packed maps -/

/-- The environment of a packed map can be renamed. -/
lemma Shape.sounds {l : Layout} {env : Env} {kind : MapKind} (h : i.Shape w (.layout l env kind))
    {r : Renaming} (hr : r.envs = w.session.envs) :
    Rename.Sounds i.asks r (Rename.env env) fun s e => Rename.EnvRenamed i.asks s env e := by
  refine Rename.sounds_env env r h.formed.1 ?_
  rw [hr]
  exact h.sound.1.release

lemma does_envVars {l : Layout} {env : Env} {kind : MapKind}
    (h : i.Shape w (.layout l env kind)) :
    i.Does w (envVars env) fun vs w' => vs = env.packed ∧ ∀ v ∈ vs, i.Shape w' v.ty := by
  refine (does_rename (fun _ => ⟨rfl, rfl, rfl⟩) (Rename.keeps_env env h.formed.1)
    (h.sounds rfl)).bind fun r w' hw' hr => .pure fun _ => ?_
  obtain ⟨hrun, -, -, hformed, -⟩ := hr
  have hlisted := (Rename.packed_env h.formed.1 hrun).listed
  refine ⟨hlisted, fun v hv => ⟨?_, ?_⟩⟩
  · have hv := hformed.args v hv
    cases v
    exact hv
  · rw [hlisted] at hv
    exact ((h.mono hw').sound.1.vars env) v (env.packed_subset hv)

/-- The result of an operation that is never shared is a new variable. -/
lemma does_emit_var {o : Op} {args : List Term} {ty : Ty} (hpure : o.isPure = false)
    (ho : o ≠ .case) (hargs : ∀ t ∈ args, i.Value w t) (hty : i.Shape w ty)
    (hdata : ty.isUnit = false) (hrule : i.asks.typed → o.Obeys args ty) :
    i.Does w (emit o args ty) fun t w' => ∃ u, t = .var u ∧ u.ty = ty ∧ i.Value w' (.var u) := by
  refine .given fun hw => .getSession ?_
  have hcode : i.Code w (.op o args ty) := .op hw ho hargs hty hrule
  rw [hpure, Bool.and_false, Bool.false_and]
  exact does_bindResult_var hcode hdata

/-- The variables that are read from a packed map, by the tags that they stand for. -/
structure Unpacked (i : Region) (w : World) (fields : List Var) (subst : List (Tag × Tag)) :
    Prop where
  tags : subst.map Prod.fst = fields.map Var.tag
  read : ∀ e ∈ subst, ∃ field ∈ fields, ∃ new : Var, e = (field.tag, new.tag) ∧
    new.ty = field.ty ∧ i.Value w (.var new)

lemma does_readPacked {l : Layout} {env : Env} {kind : MapKind} {tag : Tag}
    (hv : i.Value w (.var ⟨tag, .layout l env kind⟩)) {n : Nat} {fields : List Var}
    (h : fields = env.packed.drop n) (hshape : ∀ f ∈ fields, i.Shape w f.ty) :
    i.Does w (readPacked ⟨tag, .layout l env kind⟩ n fields) fun subst w' =>
      i.Unpacked w' fields subst := by
  induction fields generalizing w n with
  | nil => exact .pure fun _ => ⟨rfl, fun e he => absurd he List.not_mem_nil⟩
  | cons field rest ih =>
    have hget : env.packed[n]? = some field := by
      rw [← List.head?_drop, ← h]
      rfl
    have hmem : field ∈ env.packed := List.mem_of_getElem? hget
    have hdrop : rest = env.packed.drop (n + 1) := by
      rw [← List.tail_drop, ← h]
      rfl
    obtain ⟨hty, hrest⟩ := List.forall_mem_cons.1 hshape
    refine (does_emit_var rfl (by simp) (List.forall_mem_singleton.2 hv) hty
      (Env.not_isUnit_of_mem_packed hmem) fun _ => ?_).bind fun t w₁ hw₁ ht => ?_
    · change ((env.packed[n]?).map Var.ty).map Ty.code = some field.ty.code
      rw [hget]
      rfl
    · obtain ⟨new, rfl, hnewty, hnew⟩ := ht
      refine (ih (hv.mono hw₁) hdrop fun f hf => (hrest f hf).mono hw₁).bind
        fun later w₂ hw₂ hlater => .pure fun _ => ⟨?_, ?_⟩
      · rw [List.map_cons, hlater.tags, List.map_cons]
      · refine List.forall_mem_cons.2 ⟨⟨field, List.mem_cons_self .., new, rfl, hnewty,
          hnew.mono hw₂⟩, fun e he => ?_⟩
        obtain ⟨f, hf, hrest⟩ := hlater.read e he
        exact ⟨f, List.mem_cons_of_mem _ hf, hrest⟩

/-- A variable of the renamed environment is one of those that were read. -/
theorem Unpacked.inScope {env : Env} {subst : List (Tag × Tag)} (h : i.Unpacked w env.packed subst)
    (hone : Var.OneType env.vars) {start s : Renaming} (hlater : start.Later s)
    (hstart : start.renamed = subst.reverse) {news : List Var} (hcarries : s.Carries env.vars news)
    (htracked : i.asks.tracked) : ∀ v ∈ news, v.InScope (i.scope w) := by
  intro v' hv'
  obtain ⟨v, hv, hdata, hty, hlookup⟩ := hcarries v' hv'
  have hpacked : v.tag ∈ subst.map Prod.fst := by
    rw [h.tags]
    refine Var.mem_firsts.2 (List.mem_map_of_mem (List.mem_filter.2 ⟨hv, ?_⟩))
    rw [hdata]
    rfl
  -- The renaming starts with a tag for `v`, and keeps it.
  obtain ⟨new, hnew⟩ : ∃ new, subst.reverse.lookup v.tag = some new := by
    cases hnone : subst.reverse.lookup v.tag with
    | some new => exact ⟨new, rfl⟩
    | none =>
      obtain ⟨e, he, htag⟩ := List.mem_map.1 hpacked
      have := List.lookup_eq_none_iff.1 hnone e (List.mem_reverse.2 he)
      simp [htag] at this
  have hkept := hlater.kept v.tag new (hstart ▸ hnew)
  obtain rfl : new = v'.tag := Option.some.inj (hkept.symm.trans hlookup)
  obtain ⟨before, after, hsplit, -⟩ := List.lookup_eq_some_iff.1 hnew
  have hmem : (v.tag, v'.tag) ∈ subst := by
    rw [← List.mem_reverse, hsplit]
    simp
  obtain ⟨field, hfield, u, heq, huty, hu⟩ := h.read _ hmem
  obtain ⟨hvtag, hutag⟩ := Prod.mk.inj heq
  have hfieldty : field.ty.code = v.ty.code :=
    hone field (env.packed_subset hfield) v hv hvtag.symm
  refine (hu.inScope htracked u (List.mem_singleton_self u)).of_mark ?_
  rw [Var.mark, Var.mark, hutag, hty, huty, hfieldty]

lemma does_unpack {l : Layout} {env : Env} {kind : MapKind} {tag : Tag}
    (hv : i.Value w (.var ⟨tag, .layout l env kind⟩)) :
    i.Does w (unpack ⟨tag, .layout l env kind⟩ env) fun e w' => i.Value w' (.map e kind) := by
  refine (does_envVars hv.ty).bind fun vars w₁ hw₁ hvars => ?_
  obtain ⟨rfl, hshape⟩ := hvars
  refine (does_readPacked (n := 0) (hv.mono hw₁) rfl hshape).bind
    fun subst w₂ hw₂ hsubst => .getScope ?_
  have hty : i.Shape w₂ (.layout l env kind) := (hv.mono (hw₁.trans hw₂)).ty
  refine (does_rename (fun _ => ⟨rfl, rfl, rfl⟩) (Rename.keeps_env env hty.formed.1)
    (hty.sounds rfl)).bind fun r w₃ hw₃ hr => ?_
  obtain ⟨hrun, rfl, hformed, -, hlater, hrenamed⟩ := hr
  have htags : w₂.scope.tags.next ≤ r.2.tags.next := (Rename.grows_env env _ _ _ hrun).tags
  refine (Does.of_exec (exec_modifyScope _ _) fun hw => ?_).bind (P := fun _ w' =>
    w' = (w₂.setEnvs r.2.envs).setTags r.2.tags) fun _ w₄ hw₄ h₄ => .pure fun _ => ?_
  · obtain ⟨hready, hframed⟩ := hw.setTags (t := r.2.tags) htags
    exact ⟨hready, hframed, rfl⟩
  · refine ⟨⟨hformed, hty.formed.2⟩, ?_, fun htracked => ?_⟩
    · rw [h₄]
      exact hrenamed.sound.release
    · rw [h₄]
      exact hsubst.inScope (hty.sound.2 htracked) hlater rfl hrenamed.vars htracked

/-! ### Maps -/

lemma does_mapValue? {t : Term} (ht : i.Value w t) :
    i.Does w (mapValue? t) fun r w' => ∀ m ∈ r, i.Value w' (.map m.1 m.2) := by
  unfold mapValue?
  split
  · refine .pure fun _ m hm => ?_
    cases hm
    exact ht
  · rename_i tag fields kind
    have hasc : Fields.Ascending fields := ht.formed.1
    refine (does_readFields ht fun e he => hasc.get?_of_mem he).bind fun read _ _ hread =>
      .pure fun _ m hm => ?_
    cases hm
    exact value_map (Rename.ascending_of_names hread.1 hasc) ht.formed.2.2 hread.2
  · refine (does_unpack ht).bind fun read _ _ hread => .pure fun _ m hm => ?_
    cases hm
    exact hread
  · rename_i fields kind
    refine .pure fun _ m hm => ?_
    cases hm
    exact Shape.ofUnit (t := .map fields kind) ht.ty
  · refine .pure fun _ m hm => ?_
    cases hm

lemma does_mapValue (o : Op) {t : Term} (ht : i.Value w t) :
    i.Does w (mapValue o t) fun m w' => i.Value w' (.map m.1 m.2) := by
  refine (does_mapValue? ht).bind fun r _ _ hr => ?_
  cases r with
  | none => exact .fail _
  | some m => exact .pure fun _ => hr m rfl

lemma does_openField (op : ModuleOp) {t : Term} (ht : i.Value w t) (x : Name) :
    i.Does w (openField op t x) fun v w' => i.Value w' v := by
  unfold openField
  split
  · split
    · rename_i hty
      exact does_readField ht hty
    · exact .fail _
  · refine (does_mapValue _ ht).bind fun m _ _ hm => ?_
    cases hvalue : m.1.get? x with
    | some value =>
      simp only [hvalue]
      exact .pure fun _ => hm.get? hvalue
    | none =>
      simp only [hvalue]
      exact .fail _

/-- Packing lists the variables of the environment, and its type the same types. -/
theorem does_layoutOp (op : LayoutOp) {args : List Term} (h : ∀ t ∈ args, i.Value w t) :
    i.Does w (layoutOp op args) fun v w' => i.Value w' v := by
  refine (does_operand _ h).bind fun t _ _ ht => ?_
  cases op with
  -- The variables that are packed are among those of the value, each once.
  | pack layout =>
    refine (does_mapValue _ ht).bind fun m w₁ _ hm => ?_
    have hsounds : Rename.Sounds i.asks { envs := w₁.session.envs } (Rename.env m.1)
        fun s e => Rename.EnvRenamed i.asks s m.1 e := Rename.sounds_env m.1 _ hm.formed.1 hm.sound
    refine (does_rename (fun _ => ⟨rfl, rfl, rfl⟩) (Rename.keeps_env m.1 hm.formed.1) hsounds).bind
      fun r w₂ hw₂ hr => .given fun hw => ?_
    obtain ⟨hrun, rfl, hformed, hargs, -, hrenamed⟩ := hr
    have hpacked := Rename.packed_env hm.formed.1 hrun
    have hvars : ∀ v ∈ r.2.args, i.Value (w₁.setEnvs r.2.envs) (.var v) := fun v hv =>
      (hm.mono hw₂).of_mem_vars (m.1.packed_subset (hpacked.listed ▸ hv)) (hargs.args v hv)
    have hty : i.Shape (w₁.setEnvs r.2.envs) (.layout layout r.1 m.2) := by
      refine ⟨⟨hformed, hm.formed.2⟩, hrenamed.sound, fun htracked => hpacked.oneType ?_⟩
      exact ((hw.laid htracked).oneType_scope).of_inScope (hm.inScope htracked)
    have hcode : i.Code (w₁.setEnvs r.2.envs)
        (.op (.layout (.pack layout)) [.tuple (r.2.args.map .var)] (.layout layout r.1 m.2)) := by
      refine .op hw (by simp) (List.forall_mem_singleton.2 (value_tuple ?_)) hty fun _ => ?_
      · exact List.forall_mem_map.2 hvars
      · refine ⟨rfl, List.forall_mem_map.2 fun _ _ => rfl, ?_⟩
        rw [List.map_map, hpacked.tys]
        exact List.map_congr_left fun v _ => congrArg Ty.code (Term.ty_var v)
    exact (does_bindResult hcode).imp fun _ _ _ hv => hv.1
  -- A read has the type that the layout has at this place.
  | read n =>
    dsimp only
    split
    · rename_i tag l env kind
      refine (does_envVars ht.ty).bind fun vars w₁ hw₁ hvars => ?_
      obtain ⟨rfl, hshape⟩ := hvars
      split
      · rename_i field hfield
        refine does_emit (by simp) (List.forall_mem_singleton.2 (ht.mono hw₁))
          (hshape field (List.mem_of_getElem? hfield)) fun _ => ?_
        change ((env.packed[n]?).map Var.ty).map Ty.code = some field.ty.code
        rw [hfield]
        rfl
      · exact .fail _
    · exact .fail _

end Residual.Region
