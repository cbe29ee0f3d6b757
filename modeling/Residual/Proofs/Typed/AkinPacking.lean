import Residual.Proofs.Typed.AkinRenaming

/-!
Akin environments are packed alike, and unpacked alike.

A packed form holds the variables of an environment, and its type the environment in canonical tags.
Of akin environments the canonical ones are twins. Where the canonical environments are unpacked,
their variables are replaced, and the results are akin if the new variables are.
-/

namespace Residual

variable {held : MapKind → Prop} {σ τ ρ : Tag → Tag}

/-! ### Codes under other tags -/

/-- A twin has the same kinds of maps. -/
theorem Ty.Twin.held_right {s t : Ty} (h : s.Twin held t) : ∀ k ∈ t.kinds, held k := by
  rw [← kinds_canon t, ← h.same, kinds_canon]
  exact h.held

lemma Term.Akin.kinds_eq {T : Tagging} {a b : Term} (h : a.Akin T held b) :
    a.kinds = b.kinds := by
  obtain ⟨σ, hσ⟩ := T.nonempty
  rw [← kinds_canon a, (h σ hσ).same, kinds_canon, kinds_retag]

namespace Fields

variable {m n : Fields Term}

lemma Akin.held_left {T : Tagging} (h : Fields.Akin T held m n) :
    ∀ k ∈ Fields.kinds m, held k := by
  obtain ⟨σ, hσ⟩ := T.nonempty
  exact (akin_iff.1 h σ hσ).held

lemma Akin.held_right {T : Tagging} (h : Fields.Akin T held m n) :
    ∀ k ∈ Fields.kinds n, held k := by
  have hkinds : Fields.kinds m = Fields.kinds n := by
    induction h with
    | nil => rfl
    | cons hde _ ih => rw [Fields.kinds, Fields.kinds, List.flatMap_cons, List.flatMap_cons,
        hde.2.kinds_eq]; exact congrArg _ ih
  exact hkinds ▸ h.held_left

/-- What has the content of `n` in the tags of `ρ` keeps it under further tags. -/
lemma code_retag_comp (h : code m = code (Env.retagFields ρ n)) (σ : Tag → Tag) :
    code (Env.retagFields σ m) = code (Env.retagFields (fun tag => σ (ρ tag)) n) := by
  have hid : code (Env.retagFields id m) = code m := Env.codeFields_retag_id _ m
  obtain ⟨hshape, hmarks⟩ := (Env.codeFields_retag_iff _ m n id ρ).1 (hid.trans h)
  refine (Env.codeFields_retag_iff _ m n _ _).2 ⟨hshape, ?_⟩
  have hnew := congrArg (List.map fun p : Tag × Code => (σ p.1, p.2)) hmarks
  rwa [List.map_map, List.map_map] at hnew

lemma code_retag_of_code (h : code m = code n) (σ : Tag → Tag) :
    code (Env.retagFields σ m) = code (Env.retagFields σ n) :=
  code_retag_comp (ρ := id) (h.trans (Env.codeFields_retag_id _ n).symm) σ

/-- Only the tags of the variables matter. -/
theorem code_retag_congr (h : ∀ v ∈ Env.varsOfFields (fun _ => true) m, σ v.tag = τ v.tag) :
    code (Env.retagFields σ m) = code (Env.retagFields τ m) := by
  refine (Env.codeFields_retag_iff _ m m σ τ).2 ⟨rfl, List.map_congr_left fun v hv => ?_⟩
  rw [Var.mark, Var.mark, h v hv]

end Fields

/-! ### Entered bindings -/

/-- Akin bindings are entered as akin ones. -/
theorem EnvTable.Holds.akin_enter {T : Tagging} (hheld : MapKind.Apart held) {t t' : EnvTable}
    (ht : t.Holds held) (ht' : t'.Holds held) {m n : Fields Term} (hm : Fields.Formed m)
    (hn : Fields.Formed n) (hk : ∀ k ∈ Fields.kinds m, held k) (hl : ∀ k ∈ Fields.kinds n, held k)
    (h : ∀ σ ∈ T.maps, Fields.code m = Fields.code (Env.retagFields σ n)) :
    Fields.Akin T held (t.enter m).1.value (t'.enter n).1.value := by
  obtain ⟨-, hvalue, hkinds⟩ := ht.enter hm hk
  obtain ⟨-, hvalue', hkinds'⟩ := ht'.enter hn hl
  refine Fields.akin_of_code hheld hvalue hvalue' hkinds hkinds' fun σ hσ => ?_
  rw [EnvTable.code_enter, h σ hσ, Fields.code_retag_of_code (EnvTable.code_enter t' n)]

lemma EnvTable.Holds.twin_enter (hheld : MapKind.Apart held) {t t' : EnvTable}
    (ht : t.Holds held) (ht' : t'.Holds held) {m n : Fields Term} (hm : Fields.Formed m)
    (hn : Fields.Formed n) (hk : ∀ k ∈ Fields.kinds m, held k) (hl : ∀ k ∈ Fields.kinds n, held k)
    (h : Fields.code m = Fields.code n) :
    Fields.Twin held (t.enter m).1.value (t'.enter n).1.value := by
  obtain ⟨-, hvalue, hkinds⟩ := ht.enter hm hk
  obtain ⟨-, hvalue', hkinds'⟩ := ht'.enter hn hl
  exact Fields.twin_of_code hheld hvalue hvalue' hkinds hkinds'
    ((EnvTable.code_enter t m).trans (h.trans (EnvTable.code_enter t' n).symm))

namespace Rename

variable {d d' e e' : Env} {m : Fields Term} {t t' : EnvTable} {raw : Fields Term}
  {r s s' : Renaming}

lemma Started.fields (h : Started held m t raw r) (hm : Fields.Ascending m) :
    Fields.Formed raw :=
  ⟨ascending_of_names h.names hm, Env.fieldsFormed_iff.2 h.formed⟩

/-- The visible bindings of an environment are renamed from the start and entered. -/
lemma started_env (hd : d.Formed) (hk : ∀ k ∈ d.kinds, held k) (ht : t.Holds held)
    (hrun : (env d).run { envs := t } = some (d', s)) :
    ∃ raw r, Started held d.visible t raw r ∧
      d' = .consed (r.envs.enter raw).1.symbol (r.envs.enter raw).1.value ∧
      s = { r with envs := (r.envs.enter raw).2 } := by
  rw [env_eq hd] at hrun
  obtain ⟨raw, r, hraw, hcons⟩ := run_bind.1 hrun
  obtain ⟨rfl, rfl⟩ := run_consFields.1 hcons
  rw [Env.kinds_eq] at hk
  exact ⟨raw, r, started_inOrder (Env.fieldsFormed_iff.1 hd.visible.2) hk ht hraw, rfl, rfl⟩

/-- Akin environments have twins as their canonical forms, and akin variables. -/
theorem akin_env {known : Set Tag} (hheld : MapKind.Apart held) (hd : d.Formed) (he : e.Formed)
    (hk : ∀ k ∈ d.kinds, held k) (hl : ∀ k ∈ e.kinds, held k) (ht : t.Holds held)
    (ht' : t'.Holds held) (hde : d.Akin (.of σ known) held e)
    (hσ : Var.InjOn σ (Fields.data e.visible))
    (hrun : (env d).run { envs := t } = some (d', s))
    (hrun' : (env e).run { envs := t' } = some (e', s')) :
    d'.Twin held e' ∧ List.Forall₂ (Var.Akin (.of σ known) held) s.args s'.args := by
  obtain ⟨raw, r, h, rfl, rfl⟩ := started_env hd hk ht hrun
  obtain ⟨raw', r', h', rfl, rfl⟩ := started_env he hl ht' hrun'
  obtain ⟨hcode, -, hargs⟩ := h.akin hheld h' hde hσ
  have hraw := h.fields hd.visible.1
  have hraw' := h'.fields he.visible.1
  exact ⟨Env.twin_iff.2 (h.envs.twin_enter hheld h'.envs hraw hraw' h.kinds h'.kinds hcode), hargs⟩

/-- A renaming that lists no variables yet keeps to formed environments and to the kinds of maps
that there are. -/
theorem holds_env {tags : Tags} {renamed : List (Tag × Tag)} (hd : d.Formed)
    (hk : ∀ k ∈ d.kinds, held k) (ht : t.Holds held)
    (hrun : (env d).run { envs := t, tags, renamed } = some (d', s)) :
    d'.Formed ∧ (∀ k ∈ d'.kinds, held k) ∧ t.Extends s.envs ∧ s.envs.Holds held := by
  obtain ⟨hs, hd'⟩ := keeps_env d hd _ _ _ hrun ⟨ht.formed, fun _ h => absurd h List.not_mem_nil,
    fun _ h => absurd h List.not_mem_nil, fun _ h => absurd h List.not_mem_nil⟩
  have htwin := paired_env d d hd hd (.refl hk) { envs := t, tags, renamed }
    { envs := t, tags, renamed } ⟨ht.twin, rfl, rfl, .nil, .nil⟩
  rw [hrun] at htwin
  cases htwin with
  | some h => exact ⟨hd', h.1.held, (grows_env d _ _ _ hrun).envs, hs.envs, h.2.envs⟩

end Rename

/-! ### Unpacked environments -/

namespace Env

variable {d e : Env}

lemma Twin.held_right (h : d.Twin held e) : ∀ k ∈ e.kinds, held k := by
  rw [← kinds_canon e, ← h.same, kinds_canon]
  exact h.held

lemma Akin.held_left {T : Tagging} (h : d.Akin T held e) : ∀ k ∈ d.kinds, held k := by
  rw [kinds_eq]
  exact Fields.Akin.held_left h

lemma Akin.held_right {T : Tagging} (h : d.Akin T held e) : ∀ k ∈ e.kinds, held k := by
  rw [kinds_eq]
  exact Fields.Akin.held_right h

/-- Twins are akin where the tags are the same. -/
theorem Twin.akin (h : d.Twin held e) : d.Akin (.of id Set.univ) held e := by
  refine akin_iff.2 fun σ hσ => ⟨?_, h.held⟩
  obtain rfl : σ = id := funext fun n => hσ n (Set.mem_univ n)
  rw [canon_retag_id, h.same]

lemma data_eq (h : e.Formed) : Fields.data e.visible = e.vars.filter fun v => !v.ty.isUnit := by
  rw [← vars_solid e h, vars_eq_visible, visible_solid]

/-- Twins are so with the tags that they have. -/
lemma Twin.canon_visible (h : d.Twin held e) :
    Fields.canon d.visible = Fields.canon (retagFields id e.visible) := by
  have hcanon : ∀ m : Fields Term, Fields.canon m = canonFields (fun _ => true) m := fun m => by
    rw [canonFields_eq, List.filter_eq_self.2 fun _ _ => rfl]
  rw [(twin_iff.1 h).same, hcanon, hcanon, canonFields_retag_id]

/-- Twins hold variables of the same tags. -/
theorem Twin.packed_tag (h : d.Twin held e) (hd : d.Formed) (he : e.Formed) :
    d.packed.map Var.tag = e.packed.map Var.tag := by
  have hmarks := Var.firsts_mark (fun _ _ _ _ heq => heq) (Fields.marks_solid h.canon_visible).2
  rw [data_eq hd, data_eq he] at hmarks
  have htags := congrArg (List.map Prod.fst) hmarks
  rw [List.map_map, List.map_map] at htags
  exact htags.symm

/-- Twins with akin variables put in their places are akin. -/
theorem akin_unpacked {T : Tagging} (hheld : MapKind.Apart held) (h : d.Twin held e)
    (he : e.Formed) {read read' : Env} (hread : read.Formed) (hread' : read'.Formed)
    (hk : ∀ k ∈ read.kinds, held k) (hl : ∀ k ∈ read'.kinds, held k)
    (hcode : read.code = (d.solid.retag ρ).code) (hcode' : read'.code = (e.solid.retag τ).code)
    (hT : ∀ σ ∈ T.maps, ∀ v ∈ e.packed, ρ v.tag = σ (τ v.tag)) : read.Akin T held read' := by
  rw [kinds_eq] at hk hl
  rw [code_eq_visible, code_retag_visible, visible_solid] at hcode hcode'
  refine Fields.akin_of_code hheld hread.visible hread'.visible hk hl fun σ hσ => ?_
  calc Fields.code read.visible
      = Fields.code (retagFields ρ (solidFields d.visible)) := hcode
    _ = Fields.code (retagFields ρ (solidFields e.visible)) :=
        Fields.code_retag_comp (Fields.code_solid h.canon_visible) ρ
    _ = Fields.code (retagFields (fun tag => σ (τ tag)) (solidFields e.visible)) := by
        refine Fields.code_retag_congr fun v hv => ?_
        have hdata : v ∈ e.vars.filter fun v => !v.ty.isUnit := by rwa [← data_eq he]
        obtain ⟨u, hu, htag⟩ := List.mem_map.1 (Var.mem_firsts.2 (List.mem_map_of_mem hdata))
        rw [← htag]
        exact hT σ hσ u hu
    _ = Fields.code (retagFields σ read'.visible) := (Fields.code_retag_comp hcode' σ).symm

end Env

end Residual
