import Residual.Proofs.Eval.SharedCoupling
import Residual.Proofs.Eval.Signatures

/-!
Packing and entering of values in runs with and without sharing.

Values are renamed before they are packed or entered, and their variables numbered by first
occurrence. Where the values of the first run are admitted, none of their variables stands for two
of the second run. So both runs number the variables alike, and what they enter has one content.
-/

namespace Residual

open Eval

/-! ### Values that are kept apart -/

/-- Where the values are admitted, the map of the tags keeps their variables apart. -/
lemma Scope.Output.Shares.injOn {stmts : List Stmt} {st : Store} {σ : Tag → Tag}
    {known : Set Tag} {o o' : Scope.Output} {held : MapKind → Prop} {m n : Fields Term}
    (h : Shares (.of stmts) st σ known o o') (hmn : Fields.Akin (.of σ known) held m n)
    (hadmits : Stmt.apart stmts n = true) : Var.InjOn σ (Fields.data n) := by
  have hknown : ∀ s ∈ (Fields.data n).map Var.tag, s ∈ known := by
    intro s hs
    obtain ⟨v, hv, rfl⟩ := List.mem_map.1 hs
    exact hmn.known v hv
  exact fun s hs t ht heq =>
    Stmt.apart_iff.1 hadmits s hs t ht (h.merged s (hknown s hs) t (hknown t ht) heq)

namespace Coupling.Shared

open Region (lax)

variable {Γ : List Stmt} {p q : Runs} {α : Type}

/-! ### Tables -/

/-- The tables of environments only grow. -/
lemma linked_setEnvs (hp : shared.Linked Γ p) {t t' : EnvTable}
    (hext : p.left.session.envs.Extends t) (hext' : p.right.session.envs.Extends t')
    (ht : t.Twin p.held t) (ht' : t'.Twin p.held t') :
    shared.Linked Γ ⟨p.tags, p.left.setEnvs t, p.right.setEnvs t'⟩ :=
  ⟨{ hp.session with
    rest := ⟨hp.session.rest.plain, ht, ht', hp.session.rest.keys.imp
      fun _ _ h => h.mono hext hext'⟩ }, hp.scope⟩

/-- The tables hold formed environments, whose functions are made of code of the store. -/
theorem holds (hp : shared.Alike Γ p) :
    p.left.session.envs.Holds p.held ∧ p.right.session.envs.Holds p.held :=
  ⟨⟨hp.left.session.envs, hp.session.rest.envs⟩, ⟨hp.right.session.envs, hp.session.rest.envs'⟩⟩

/-- Environments are renamed from the start on both sides. -/
theorem rename {d e : Env} (hd : d.Formed) (he : e.Formed) (hk : ∀ k ∈ d.kinds, p.held k)
    (hl : ∀ k ∈ e.kinds, p.held k) {R : Env × Renaming → Env × Renaming → Prop}
    (h : shared.Alike Γ p → ∀ d' e' r r', (Rename.env d).run { envs := p.left.session.envs } =
      some (d', r) → (Rename.env e).run { envs := p.right.session.envs } = some (e', r') →
      R (d', r) (e', r')) :
    shared.Matches Γ p (Eval.rename (fun envs => { envs }) (Rename.env d))
      (Eval.rename (fun envs => { envs }) (Rename.env e)) fun q x x' =>
        q.tags = p.tags ∧ q.left.session.store = p.left.session.store ∧ R x x' := by
  have hstart := fun (e : Env) (w : World) => exec_rename (fun envs => { envs }) (Rename.env e) w
  cases hrun : (Rename.env d).run { envs := p.left.session.envs } with
  | none =>
    refine exhausted_left ?_
    rw [hstart, hrun]
  | some x =>
    cases hrun' : (Rename.env e).run { envs := p.right.session.envs } with
    | none =>
      refine exhausted_right ?_
      rw [hstart, hrun']
    | some x' =>
      obtain ⟨d', r⟩ := x
      obtain ⟨e', r'⟩ := x'
      intro hp
      obtain ⟨hholds, hholds'⟩ := holds hp
      obtain ⟨-, -, hext, ht⟩ := Rename.holds_env hd hk hholds hrun
      obtain ⟨-, -, hext', ht'⟩ := Rename.holds_env he hl hholds' hrun'
      have hlinked := linked_setEnvs hp.toLinked hext hext' ht.twin ht'.twin
      rw [hstart, hstart, hrun, hrun']
      exact .inr ⟨⟨p.tags, p.left.setEnvs r.envs, p.right.setEnvs r'.envs⟩, rfl, rfl,
        ⟨le_refl _, .refl _⟩, hlinked, .ok ⟨rfl, rfl, h hp d' e' r r' hrun hrun'⟩⟩

/-! ### Packing -/

lemma envVars {d e : Env} (hde : d.Twin p.held e) (hd : d.Formed) (he : e.Formed) :
    shared.Matches Γ p (envVars d) (envVars e) fun q => List.Forall₂ (Var.Twin q.held) := by
  refine Matches.bind_paired (rename hd he hde.held hde.held_right
    (R := fun x x' => List.Forall₂ (Var.Twin p.held) x.2.args x'.2.args)
    fun hp d' e' r r' hrun hrun' => ?_) fun x x' q _ ⟨_, hstore, h⟩ => .pure ?_
  · obtain ⟨hholds, hholds'⟩ := holds hp
    have hargs := (Rename.akin_env (MapKind.apart_backed _) hd he hde.held hde.held_right hholds
      hholds' hde.akin (fun _ _ _ _ heq => heq) hrun hrun').2
    exact hargs.imp fun v w hvw => Var.twin_iff.2 ⟨hvw.tag id Tagging.mem_of, hvw.ty⟩
  · rw [Runs.held, hstore]
    exact h

lemma pack {d e : Env} {kind kind' : MapKind} (hde : p.KinEnv d e)
    (hd : lax.Value p.left (.map d kind)) (he : lax.Value p.right (.map e kind'))
    (hadmits : Stmt.apart (Γ ++ p.right.scope.stmts) e.visible = true) :
    shared.Matches Γ p (Eval.rename (fun envs => { envs }) (Rename.env d))
      (Eval.rename (fun envs => { envs }) (Rename.env e)) fun q r r' =>
        r.1.Twin q.held r'.1 ∧ List.Forall₂ q.KinVar r.2.args r'.2.args := by
  refine (rename hd.formed.1 he.formed.1 hde.held_left hde.held_right
    (R := fun x x' => x.1.Twin p.held x'.1 ∧ List.Forall₂ p.KinVar x.2.args x'.2.args)
    fun hp d' e' r r' hrun hrun' => ?_).imp fun q x x' _ ⟨htags, hstore, h⟩ => ?_
  · obtain ⟨hholds, hholds'⟩ := holds hp
    obtain ⟨σ, known, hT, hshares⟩ := hp.scope.rest
    have hkin : d.Akin (.of σ known) p.held e := hT ▸ hde
    have hruns := Rename.akin_env (MapKind.apart_backed _) hd.formed.1 he.formed.1 hde.held_left
      hde.held_right hholds hholds' hkin (hshares.injOn hkin hadmits) hrun hrun'
    rwa [← hT] at hruns
  · have hheld : q.held = p.held := congrArg MapKind.Backed hstore
    refine ⟨hheld ▸ h.1, h.2.imp fun v w hvw => ?_⟩
    exact ⟨fun σ hσ => hvw.tag σ (htags ▸ hσ), hheld ▸ hvw.ty⟩

/-! ### Unpacking -/

/-- The reads are by the tags that are drawn first. -/
lemma known_readTags (n : Tag) (e : Env) :
    Var.Known (readTags n e.packed) (fun tag => n + (e.packed.map Var.tag).idxOf tag) e.vars := by
  intro v hv hdata
  refine lookup_readTags n e.nodup_packed (Var.mem_firsts.2 (List.mem_map_of_mem ?_))
  exact List.mem_filter.2 ⟨hv, by rw [hdata]; rfl⟩

/-- The reads bind variables that are drawn. -/
lemma drawn_readsFrom (x : Var) (trace : Trace) (i : Nat) {n : Tag} {fields : List Var}
    (hroom : n + fields.length ≤ Tags.limit) :
    ∀ s ∈ readsFrom x trace i n fields, ∀ v t trace', s = .letIn v t trace' →
      n ≤ v.tag ∧ v.tag < Tags.limit := by
  intro s hs v t trace' heq
  obtain ⟨j, hj, rfl⟩ := List.mem_mapIdx.1 hs
  cases heq
  exact ⟨Nat.le_add_right .., Nat.lt_of_lt_of_le (Nat.add_lt_add_left hj n) hroom⟩

lemma unpack {v v' : Var} {d e : Env} (hde : d.Twin p.held e) (hd : d.Formed) (he : e.Formed) :
    shared.Matches Γ p (unpack v d) (unpack v' e) Runs.KinEnv := by
  refine Moves.given fun hp => ?_
  obtain ⟨σ, known, hT, hshares⟩ := hp.scope.rest
  have htags := hde.packed_tag hd he
  have hlength : d.packed.length = e.packed.length := by simpa using congrArg List.length htags
  -- Both sides draw one tag for each packed variable, if there are enough left.
  by_cases hroom : p.left.scope.tags.next + d.packed.length ≤ Tags.limit
  swap
  · exact exhausted_left (exec_unpack_of_full hd v hshares.room (Nat.not_le.1 hroom))
  by_cases hroom' : p.right.scope.tags.next + e.packed.length ≤ Tags.limit
  swap
  · exact exhausted_right (exec_unpack_of_full he v' hshares.room' (Nat.not_le.1 hroom'))
  -- The reads are emitted in order, so the `i`-th variable on one side stands for the `i`-th on the
  -- other.
  obtain ⟨again, r, read, s, hrun, hread, -, hexec, halpha, -⟩ := exec_unpack hd v hroom
  obtain ⟨again', r', read', s', hrun', hread', -, hexec', halpha', -⟩ := exec_unpack he v' hroom'
  obtain ⟨hholds, hholds'⟩ := holds hp
  obtain ⟨-, -, hext₁, hr⟩ := Rename.holds_env hd hde.held hholds hrun
  obtain ⟨-, -, hext₁', hr'⟩ := Rename.holds_env he hde.held_right hholds' hrun'
  obtain ⟨hformed, hk, hext₂, hs⟩ := Rename.holds_env hd hde.held hr hread
  obtain ⟨hformed', hl, hext₂', hs'⟩ := Rename.holds_env he hde.held_right hr' hread'
  have hdrawn := linked_draw (k := d.packed.length) hp.toLinked hT hshares _ _ hroom
    (hlength ▸ hroom')
    (w := p.left.emits (readsFrom v p.left.scope.trace 0 p.left.scope.tags.next d.packed))
    (v := p.right.emits (readsFrom v' p.right.scope.trace 0 p.right.scope.tags.next e.packed))
    (by rw [World.emits, length_readsFrom]) (by rw [World.emits, length_readsFrom, hlength])
    (drawn_readsFrom v' p.right.scope.trace 0 hroom')
  obtain ⟨hgrows, hlinked⟩ := hdrawn
  have hlinked := linked_setEnvs hlinked (hext₁.trans hext₂) (hext₁'.trans hext₂') hs.twin hs'.twin
  have hkin := Env.akin_unpacked
    (T := .of (Tagging.shift σ p.left.scope.tags.next p.right.scope.tags.next)
      (known ∪ {n | p.right.scope.tags.next ≤ n ∧
        n < p.right.scope.tags.next + d.packed.length})) (MapKind.apart_backed _) hde he hformed
    hformed' hk hl (Env.Alpha.code_eq d hd (known_readTags _ d) halpha)
    (Env.Alpha.code_eq e he (known_readTags _ e) halpha') fun τ hτ u hu => ?_
  · exact Matches.of_paired (Paired.of_exec (q := ⟨_, _, _⟩) hexec hexec' fun _ =>
      ⟨⟨hgrows.tags, hgrows.store⟩, hlinked, hkin⟩)
  · have hidx := List.idxOf_lt_length_of_mem (List.mem_map_of_mem (f := Var.tag) hu)
    rw [List.length_map, ← hlength] at hidx
    have hle := Nat.le_add_right p.right.scope.tags.next ((e.packed.map Var.tag).idxOf u.tag)
    have hlt := Nat.add_lt_add_left hidx p.right.scope.tags.next
    rw [hτ _ (.inr ⟨hle, hlt⟩), Tagging.shift_drawn hle
      (Nat.lt_of_lt_of_le hlt (hlength ▸ hroom')), Nat.add_sub_cancel_left, htags]

/-! ### Entering -/

section Entered

variable {held : MapKind → Prop} {values raw : Fields Term} {t : EnvTable} {r : Renaming}
  {arg : Option ClosureArg}

/-- The values that are entered are formed and made of code of the store, and their variables are
numbered. -/
lemma enteredFields_holds (h : Rename.Started held values t raw r)
    (harg : ∀ a ∈ arg, a.dom.Formed ∧ ∀ k ∈ a.dom.kinds, held k) :
    Fields.Formed (enteredFields raw arg r.tags.next) ∧
      (∀ k ∈ Fields.kinds (enteredFields raw arg r.tags.next), held k) ∧
      ∀ v ∈ Env.varsOfFields (fun _ => true) (enteredFields raw arg r.tags.next),
        v.tag < r.tags.next + arg.toList.length := by
  have hentry : ∀ e ∈ raw ++ arg.toList.map (fun a => (a.name, a.value r.tags.next)),
      e.2.Formed ∧ (∀ k ∈ e.2.kinds, held k) ∧
        ∀ v ∈ e.2.vars, v.tag < r.tags.next + arg.toList.length := by
    intro e he
    rcases List.mem_append.1 he with he | he
    · refine ⟨h.formed e he, fun k hk => h.kinds k (Fields.mem_kinds.2 ⟨e, he, hk⟩),
        fun v hv => Nat.lt_of_lt_of_le (h.tag_lt v ?_) (Nat.le_add_right ..)⟩
      exact Env.mem_varsOfFields_iff.2 ⟨e, he, hv⟩
    · obtain ⟨a, ha, rfl⟩ := List.mem_map.1 he
      obtain rfl : arg = some a := Option.mem_toList.1 ha
      obtain ⟨hformed, hk⟩ := harg a rfl
      dsimp only [ClosureArg.value]
      split
      · rw [Term.kinds_ofUnit, Term.vars_ofUnit]
        exact ⟨Term.formed_ofUnit _ hformed, hk, fun v hv => absurd hv List.not_mem_nil⟩
      · rw [Term.kinds_var]
        refine ⟨hformed, hk, fun v hv => ?_⟩
        rw [List.mem_singleton.1 hv]
        exact Nat.lt_succ_self _
  refine ⟨Fields.formed_ofList fun e he => (hentry e he).1, fun k hk => ?_, fun v hv => ?_⟩
  · obtain ⟨e, he, hk⟩ := Fields.mem_kinds.1 hk
    exact (hentry e (Fields.mem_ofList he)).2.1 k hk
  · obtain ⟨e, he, hv⟩ := Env.mem_varsOfFields_iff.1 hv
    exact (hentry e (Fields.mem_ofList he)).2.2 v hv

/-- Arguments with one name and twin types have one content. -/
lemma code_arg {a a' : ClosureArg} (h : a.dom.Twin held a'.dom) (tag : Tag) :
    (a.value tag).code = (a'.value tag).code := by
  have htwin : (a.value tag).Twin held (a'.value tag) := by
    rw [ClosureArg.value, ClosureArg.value, h.isUnit]
    split
    · exact h.ofUnit
    · exact Term.twin_var_iff.2 (Var.twin_iff.2 ⟨rfl, h⟩)
  rw [← Term.code_canon, htwin.same, Term.code_canon]

/-- Values of one content are entered as one content. -/
lemma code_enteredFields {values' raw' : Fields Term} {t' : EnvTable} {r' : Renaming}
    {arg' : Option ClosureArg} (h : Rename.Started held values t raw r)
    (h' : Rename.Started held values' t' raw' r') (hcode : Fields.code raw = Fields.code raw')
    (htags : r.tags = r'.tags) (hnames : values'.map Prod.fst = values.map Prod.fst)
    (hnodup : (values.map Prod.fst).Nodup)
    (harg : Option.Rel (fun a a' : ClosureArg => a.name = a'.name ∧
      a.dom.Twin held a'.dom) arg arg')
    (hnew : ∀ a ∈ arg, a.name ∉ values.map Prod.fst) :
    Fields.code (enteredFields raw arg r.tags.next) =
      Fields.code (enteredFields raw' arg' r'.tags.next) := by
  have hcodes : raw.map (fun e => e.2.code) = raw'.map fun e => e.2.code := by
    have hsnd := congrArg (List.map Prod.snd) (Fields.code_eq_iff.1 hcode)
    rwa [List.map_map, List.map_map] at hsnd
  have hraw : raw'.map Prod.fst = raw.map Prod.fst := by rw [h.names, h'.names, hnames]
  rw [← h.names] at hnodup hnew
  cases harg with
  | none =>
    simp only [enteredFields, Option.toList_none, List.map_nil, List.append_nil]
    exact (Fields.code_ofList_iff hnodup hraw).2 hcodes
  | @some a a' ha =>
    obtain ⟨hname, hdom⟩ := ha
    refine (Fields.code_ofList_iff ?_ ?_).2 ?_
    · simpa using List.nodup_append.2 ⟨hnodup, List.nodup_singleton a.name, fun x hx y hy => by
        rw [List.mem_singleton.1 hy]
        exact fun heq => hnew a rfl (heq ▸ hx)⟩
    · simp [hraw, hname]
    · simp [hcodes, htags, code_arg hdom]

end Entered

/-- The types of the arguments are formed and made of code of the store. -/
lemma arg_holds {arg arg' : Option ClosureArg} (h : Option.Rel p.SameArg arg arg') :
    (∀ a ∈ arg, a.dom.Formed ∧ ∀ k ∈ a.dom.kinds, p.held k) ∧
      ∀ a ∈ arg', a.dom.Formed ∧ ∀ k ∈ a.dom.kinds, p.held k := by
  cases h with
  | none => exact ⟨fun _ ha => absurd ha (by simp), fun _ ha => absurd ha (by simp)⟩
  | some h =>
    refine ⟨fun a ha => ?_, fun a ha => ?_⟩
    · cases ha
      exact ⟨h.2.left.formed, h.2.twin.held⟩
    · cases ha
      exact ⟨h.2.right.formed, h.2.twin.held_right⟩

lemma entered {body : Expr} {arg arg' : Option ClosureArg} {values values' : Fields Term}
    (hvalues : p.SameFields values values') (hnodup : (values.map Prod.fst).Nodup)
    (harg : Option.Rel p.SameArg arg arg') (hnew : ∀ a ∈ arg, a.name ∉ values.map Prod.fst)
    (hadmits : Stmt.apart (Γ ++ p.right.scope.stmts) values' = true) :
    shared.Matches Γ p (entered body arg values) (entered body arg' values') shared.Requests := by
  cases hrun : (renameCaptures values arg).run { envs := p.left.session.envs } with
  | none => exact exhausted_left (congrArg Prod.fst (exec_entered_of_full hrun))
  | some x =>
    cases hrun' : (renameCaptures values' arg').run { envs := p.right.session.envs } with
    | none => exact exhausted_right (congrArg Prod.fst (exec_entered_of_full hrun'))
    | some x' =>
      obtain ⟨⟨captures, closureParam⟩, s⟩ := x
      obtain ⟨⟨captures', closureParam'⟩, s'⟩ := x'
      refine Moves.given fun hp => ?_
      obtain ⟨hholds, hholds'⟩ := holds hp
      obtain ⟨σ, known, hT, hshares⟩ := hp.scope.rest
      have hkin : Fields.Akin (.of σ known) p.held values values' := by
        have hkin := hvalues.kin
        rwa [Runs.KinFields, hT] at hkin
      -- Both runs number the variables of the values alike.
      obtain ⟨raw, r, hraw, rfl, rfl, rfl⟩ := run_renameCaptures hrun
      obtain ⟨raw', r', hraw', rfl, rfl, rfl⟩ := run_renameCaptures hrun'
      have h := Rename.started_inOrder (fun e he => (hvalues.lefts e he).formed) hkin.held_left
        hholds hraw
      have h' := Rename.started_inOrder (fun e he => (hvalues.rights e he).formed) hkin.held_right
        hholds' hraw'
      obtain ⟨hcode, htags, hargs⟩ :=
        h.akin (MapKind.apart_backed _) h' hkin (hshares.injOn hkin hadmits)
      -- So they enter one content.
      have hdom : Option.Rel (fun a a' : ClosureArg => a.name = a'.name ∧ a.dom.Twin p.held a'.dom)
          arg arg' := optionRel_imp (fun _ _ h => ⟨h.1, h.2.twin⟩) harg
      obtain ⟨hleft, hright⟩ := arg_holds harg
      have hentered := code_enteredFields h h' hcode htags hvalues.names hnodup hdom hnew
      obtain ⟨hformed, hk, -⟩ := enteredFields_holds h hleft
      obtain ⟨hformed', hl, hlt⟩ := enteredFields_holds h' hright
      have hext := h.grows.trans (EnvTable.extends_enter r.envs (enteredFields raw arg r.tags.next))
      have hext' := h'.grows.trans
        (EnvTable.extends_enter r'.envs (enteredFields raw' arg' r'.tags.next))
      obtain ⟨hsymbol, -, hkeys⟩ := Interner.intern_of_related (fun h k => KeyData.Alike.beq h k)
        (hp.session.rest.keys.imp fun _ _ h => h.mono hext hext')
        (.entered body hentered)
      have hlast : r.tags.next + arg.toList.length = r'.tags.next + arg'.toList.length := by
        rw [htags]
        cases harg <;> rfl
      have hroom : r.tags.next + arg.toList.length ≤ Tags.limit := by
        have hgrows := (Discipline.grows_renameCaptures values arg _ _ _ hrun).room
        simpa using hgrows
      refine Matches.of_paired (Paired.of_exec (q := ⟨p.tags, _, _⟩) (exec_entered hrun)
        (exec_entered hrun') fun _ => ⟨⟨le_refl _, .refl _⟩, ⟨?_, hp.scope⟩, ?_⟩)
      · exact { hp.session with rest := ⟨hp.session.rest.plain,
          (h.envs.enter hformed hk).1.twin, (h'.envs.enter hformed' hl).1.twin, hkeys⟩ }
      · refine ⟨congrArg Key.mk hsymbol, ?_, False.elim, False.elim,
          .of id {n | n < r'.tags.next + arg'.toList.length}, ?_, ⟨id, _, rfl, ?_⟩⟩
        · rwa [← hT] at hargs
        · refine h.envs.akin_enter (MapKind.apart_backed _) h'.envs hformed hformed' hk hl
            fun τ hτ => ?_
          rw [hentered, Fields.code_retag_congr fun v hv => hτ _ (hlt v hv)]
          exact (Env.codeFields_retag_id _ _).symm
        · exact ⟨fun n hn => .inl hn, fun n hn => .inl (hlast ▸ hn),
            fun _ _ _ _ heq => congrArg _ heq,
            hroom, hlast ▸ hroom, fun e he => absurd he List.not_mem_nil⟩

/-! ### The laws -/

lemma laws : shared.Laws where
  toDraws := draws
  refuses _ _ _ := trivial
  exact_stmts h := h.elim
  sessions_mono h hst :=
    have hheld := MapKind.Backed.mono hst
    ⟨h.plain, h.envs.imp fun _ _ h => Fields.Twin.mono hheld h,
      h.envs'.imp fun _ _ h => Fields.Twin.mono hheld h, h.keys⟩
  scopes_mono := fun ⟨σ, known, hT, h⟩ hst => ⟨σ, known, hT, h.mono hst⟩
  enterBranch := fun {Γ _ _ _ o'} ⟨σ, known, hT, h⟩ => by
    refine ⟨σ, known, hT, ?_⟩
    have hstmts : Γ ++ o'.stmts ++ o'.enterBranch.stmts = Γ ++ o'.stmts := List.append_nil _
    rw [hstmts]
    exact { h with }
  drawn := fun ⟨σ, known, hT, h⟩ ⟨_, _, _, k⟩ _ hle hle' => ⟨σ, known, hT,
    { h with
      drawn' := fun n hn => (h.drawn' n hn).imp (Nat.lt_of_lt_of_le · hle') id
      drawn := fun n hn => (h.drawn n hn).imp (Nat.lt_of_lt_of_le · hle) id
      room := k.room
      room' := k.room'
      table := fun e he => (h.table e he).mono (.refl _) hle }⟩
  emit hargs hty hpure := emit hargs hty hpure
  envVars hde hd he := envVars hde hd he
  unpack _ hde hd he := unpack hde hd he
  pack hde hd he hadmits := pack hde hd he hadmits
  entered hvalues hnodup harg hnew hadmits := entered hvalues hnodup harg hnew hadmits

end Coupling.Shared

end Residual
