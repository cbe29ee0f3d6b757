import Residual.Proofs.Eval.Frame
import Residual.Proofs.Typed.ValueRenaming

/-!
Regions: where residual code is put while it is emitted.

A region is the place of a piece of code that is being emitted: the variables that it can use from
outside, and the first tag that it can bind itself. The code of a program is one, and so are the
body of a join point and each branch of a split. The judgement `Region.Does` says of a step that
the code emitted so far stays closed, typed by its rules and with one binder for each tag, and that
its result can be used where the step ends.
-/

namespace Residual

/-! ### Sound sessions -/

/-- The variables that the code of a body can use from outside. -/
def Body.inputs (b : Body) : List Var := b.params ++ b.closureParam.toList

/-- The code of a finished body uses its inputs and what it binds, obeys the rules, binds each tag
once, and can be renamed. -/
structure Body.Closed (g : Ground) (b : Body) : Prop where
  ty : b.ty.Sound g
  inputs : ∀ v ∈ b.inputs, v.ty.Sound g
  fits : ∀ n ∈ b.term.nodes, n.Fits g.asks.typed (Ty.Sound g)
  inScope : g.asks.tracked → b.term.Scoped b.inputs
  nodup : g.asks.tracked → (b.inputs.map Var.tag ++ b.term.bound).Nodup
  renamable : g.asks.tracked → b.term.Renamable

lemma Body.Closed.mono {g g' : Ground} (hg : g.Le g') {b : Body} (h : b.Closed g) :
    b.Closed g' := by
  have hasks := hg.asks
  refine ⟨h.ty.mono hg, fun v hv => (h.inputs v hv).mono hg, fun n hn => ?_, ?_, ?_, ?_⟩
  · rw [hasks]
    exact (h.fits n hn).imp fun ty hty => hty.mono hg
  · rw [hasks]
    exact h.inScope
  · rw [hasks]
    exact h.nodup
  · rw [hasks]
    exact h.renamable

def Progress.Sound (g : Ground) : Progress → Prop
  | .pending none => True
  | .pending (some ty) => ty.Sound g
  | .done body => body.Closed g

lemma Progress.Sound.mono {g g' : Ground} (hg : g.Le g') {p : Progress} (h : p.Sound g) :
    p.Sound g' := by
  match p with
  | .pending none => trivial
  | .pending (some ty) => exact Ty.Sound.mono hg ty h
  | .done body => exact Body.Closed.mono hg h

/-- The types and bodies of a session are sound, and the types in evaluation are known. -/
structure Session.Sound (asks : Demands) (s : Session) : Prop where
  envs : s.envs.Sound asks
  points : ∀ e ∈ s.points, e.2.progress.Sound ⟨s.envs, asks⟩
  pending : ∀ e ∈ s.points, e.1.kind = .type → e.2.progress.isPending = true →
    asks.known e.1.key
  recTypes : ∀ e ∈ s.recTypes, e.2.Sound ⟨s.envs, asks⟩

lemma Session.Sound.setEnvs {asks : Demands} {s s' : Session} (h : s.Sound asks)
    (hext : s.envs.Extends s'.envs) (henvs : s'.envs.Sound asks)
    (hpoints : s'.points = s.points) (hrec : s'.recTypes = s.recTypes) : s'.Sound asks := by
  have hle : Ground.Le ⟨s.envs, asks⟩ ⟨s'.envs, asks⟩ := ⟨hext, rfl⟩
  refine ⟨henvs, ?_, ?_, ?_⟩
  · rw [hpoints]
    exact fun e he => (h.points e he).mono hle
  · rw [hpoints]
    exact h.pending
  · rw [hrec]
    exact fun e he => (h.recTypes e he).mono hle

/-! ### Regions -/

/-- A place for code: the variables from outside, and the first tag for variables of its own. -/
structure Region where
  asks : Demands
  vars : List Var
  first : Tag

namespace Region

variable {i j : Region} {w w' : World}

/-- What types are judged by. -/
def ground (i : Region) (w : World) : Ground := ⟨w.session.envs, i.asks⟩

/-- The variables in scope after the statements that are there. -/
def scope (i : Region) (w : World) : List Var := i.vars ++ w.scope.stmts.flatMap Stmt.binds

/-- The tags that the statements bind. -/
def bound (w : World) : List Tag := w.scope.stmts.flatMap Stmt.bound

/-- All that can be used at `w` in the one region can be used at `w'` in the other. -/
structure Le (i : Region) (w : World) (j : Region) (w' : World) : Prop where
  asks : j.asks = i.asks
  envs : w.session.envs.Extends w'.session.envs
  scope : i.scope w ⊆ j.scope w'

lemma Le.ground (h : Le i w j w') : (i.ground w).Le (j.ground w') := ⟨h.envs, h.asks⟩

lemma le_of_framed (i : Region) (h : w.Framed w') : Le i w i w' := by
  obtain ⟨rest, hrest⟩ := h.stmts
  refine ⟨rfl, h.later.grows.envs, ?_⟩
  rw [Region.scope, Region.scope, ← hrest, List.flatMap_append, ← List.append_assoc]
  exact List.subset_append_left ..

/-- A value that code after the statements can use. -/
structure Value (i : Region) (w : World) (t : Term) : Prop where
  formed : t.Formed
  sound : t.Sound (i.ground w) false
  inScope : i.asks.tracked → ∀ v ∈ t.vars, v.InScope (i.scope w)

/-- A type that code after the statements can have. -/
structure Shape (i : Region) (w : World) (t : Ty) : Prop where
  formed : t.Formed
  sound : t.Sound (i.ground w)

lemma Value.le {t : Term} (hle : Le i w j w') (h : i.Value w t) : j.Value w' t := by
  refine ⟨h.formed, h.sound.mono hle.ground, fun htracked v hv => ?_⟩
  rw [hle.asks] at htracked
  exact (h.inScope htracked v hv).subset hle.scope

lemma Shape.le {t : Ty} (hle : Le i w j w') (h : i.Shape w t) : j.Shape w' t :=
  ⟨h.formed, h.sound.mono hle.ground⟩

lemma Value.mono {t : Term} (h : i.Value w t) (hw : w.Framed w') : i.Value w' t :=
  h.le (le_of_framed i hw)

lemma Shape.mono {t : Ty} (h : i.Shape w t) (hw : w.Framed w') : i.Shape w' t :=
  h.le (le_of_framed i hw)

/-- The statements are scoped and can be renamed, and the tags that they bind are told apart from
each other and from those of the variables from outside. -/
structure Laid (i : Region) (w : World) : Prop where
  oneType : Var.OneType i.vars
  below : ∀ v ∈ i.vars, v.tag < i.first
  first : i.first ≤ w.scope.tags.next
  stmts : Stmt.AllScoped i.vars w.scope.stmts
  nodup : (bound w).Nodup
  range : ∀ tag ∈ bound w, i.first ≤ tag ∧ tag < w.scope.tags.next
  renamable : ∀ s ∈ w.scope.stmts, s.term.Renamable

/-- A world in which code for the region can be emitted. -/
structure Ready (i : Region) (w : World) : Prop where
  session : w.session.Formed
  sound : w.session.Sound i.asks
  env : i.Value w (.map w.scope.env .module)
  sharing : ∀ e ∈ w.scope.sharing.entries, i.Value w (.var e.2)
  fits : ∀ s ∈ w.scope.stmts, s.Fits i.asks.typed (Ty.Sound (i.ground w))
  laid : i.asks.tracked → i.Laid w

/-- The scope is the same after the same statements. -/
theorem scope_eq (i : Region) (h : w'.scope.stmts = w.scope.stmts) : i.scope w' = i.scope w := by
  rw [scope, scope, h]

lemma le_of_stmts (i : Region) (hsession : w'.session = w.session)
    (hstmts : w'.scope.stmts = w.scope.stmts) : Le i w i w' := by
  refine ⟨rfl, ?_, ?_⟩
  · rw [hsession]
    exact .refl _
  · rw [scope_eq i hstmts]
    exact List.Subset.refl _

lemma Value.of_stmts {t : Term} (h : i.Value w t) (hsession : w'.session = w.session)
    (hstmts : w'.scope.stmts = w.scope.stmts) : i.Value w' t :=
  h.le (le_of_stmts i hsession hstmts)

/-- Only tags were drawn. -/
theorem Laid.of_stmts (h : i.Laid w) (hstmts : w'.scope.stmts = w.scope.stmts)
    (htags : w.scope.tags.next ≤ w'.scope.tags.next) : i.Laid w' := by
  have hbound : bound w' = bound w := by rw [bound, bound, hstmts]
  refine ⟨h.oneType, h.below, Nat.le_trans h.first htags, ?_, ?_, ?_, ?_⟩
  · rw [hstmts]
    exact h.stmts
  · rw [hbound]
    exact h.nodup
  · rw [hbound]
    exact fun tag htag =>
      ⟨(h.range tag htag).1, Nat.lt_of_lt_of_le (h.range tag htag).2 htags⟩
  · rw [hstmts]
    exact h.renamable

/-- The session and the statements are the same, and all bindings can be used here too. -/
theorem Ready.of_stmts (hw : i.Ready w) (hsession : w'.session = w.session)
    (hstmts : w'.scope.stmts = w.scope.stmts)
    (htags : w.scope.tags.next ≤ w'.scope.tags.next)
    (henv : i.Value w (.map w'.scope.env .module))
    (hsharing : ∀ e ∈ w'.scope.sharing.entries, i.Value w (.var e.2)) : i.Ready w' := by
  have hle := le_of_stmts i hsession hstmts
  refine ⟨?_, ?_, henv.le hle, fun e he => (hsharing e he).le hle, ?_,
    fun htracked => (hw.laid htracked).of_stmts hstmts htags⟩
  · rw [hsession]
    exact hw.session
  · rw [hsession]
    exact hw.sound
  · rw [hstmts]
    exact fun s hs => (hw.fits s hs).imp fun ty hty => hty.mono hle.ground

lemma Ready.formed (hw : i.Ready w) : w.Formed :=
  ⟨hw.session, hw.env.formed.1, fun e he => (hw.sharing e he).formed⟩

lemma mem_bound_of_mem_binds {v : Var} (h : v ∈ w.scope.stmts.flatMap Stmt.binds) :
    v.tag ∈ bound w := by
  obtain ⟨s, hs, hv⟩ := List.mem_flatMap.1 h
  exact List.mem_flatMap.2 ⟨s, hs, List.mem_append_right _ (List.mem_map_of_mem hv)⟩

namespace Laid

lemma tag_lt (h : i.Laid w) {v : Var} (hv : v ∈ i.scope w) : v.tag < w.scope.tags.next := by
  rcases List.mem_append.1 hv with hv | hv
  · exact Nat.lt_of_lt_of_le (h.below v hv) h.first
  · exact (h.range _ (mem_bound_of_mem_binds hv)).2

/-- In scope each tag has one type. -/
theorem oneType_scope (h : i.Laid w) : Var.OneType (i.scope w) := by
  have hsub : ∀ stmts : List Stmt,
      ((stmts.flatMap Stmt.binds).map Var.tag).Sublist (stmts.flatMap Stmt.bound) := by
    intro stmts
    induction stmts with
    | nil => exact .slnil
    | cons s rest ih =>
      rw [List.flatMap_cons, List.flatMap_cons, List.map_append]
      exact (List.sublist_append_right ..).append ih
  refine h.oneType.append (Var.oneType_of_nodup (h.nodup.sublist (hsub _))) fun u hu v hv heq => ?_
  have hlt : u.tag < v.tag :=
    Nat.lt_of_lt_of_le (h.below u hu) (h.range _ (mem_bound_of_mem_binds hv)).1
  exact Nat.ne_of_lt hlt heq

end Laid

/-- Code that can be emitted after the statements. -/
structure Code (i : Region) (w : World) (t : Term) : Prop where
  ty : i.Shape w t.ty
  fits : ∀ n ∈ t.nodes, n.Fits i.asks.typed (Ty.Sound (i.ground w))
  inScope : i.asks.tracked → t.Scoped (i.scope w)
  nodup : i.asks.tracked → (bound w ++ t.bound).Nodup
  range : i.asks.tracked → ∀ tag ∈ t.bound, i.first ≤ tag ∧ tag < w.scope.tags.next
  renamable : i.asks.tracked → t.Renamable

/-- Code that binds nothing. -/
theorem Code.of_bound {t : Term} (hw : i.Ready w) (hty : i.Shape w t.ty)
    (hfits : ∀ n ∈ t.nodes, n.Fits i.asks.typed (Ty.Sound (i.ground w)))
    (hscope : i.asks.tracked → t.Scoped (i.scope w)) (hbound : t.bound = [])
    (hrenamable : i.asks.tracked → t.Renamable) : i.Code w t := by
  refine ⟨hty, hfits, hscope, fun htracked => ?_, fun _ tag htag => ?_, hrenamable⟩
  · rw [hbound, List.append_nil]
    exact (hw.laid htracked).nodup
  · rw [hbound] at htag
    exact absurd htag List.not_mem_nil

/-! ### Values and types -/

lemma Value.ty {t : Term} (h : i.Value w t) : i.Shape w t.ty :=
  ⟨h.formed.ty, h.sound.ty⟩

lemma Value.var_ty {v : Var} (h : i.Value w (.var v)) : i.Shape w v.ty := by
  cases v
  exact h.ty

lemma value_var {v : Var} (hty : i.Shape w v.ty)
    (h : i.asks.tracked → v.InScope (i.scope w)) : i.Value w (.var v) := by
  refine ⟨?_, Var.sound_iff.2 hty.sound, fun htracked => List.forall_mem_singleton.2 (h htracked)⟩
  cases v
  exact hty.formed

/-- The variables of a value are values. -/
theorem Value.of_mem_vars {t : Term} (h : i.Value w t) {v : Var} (hv : v ∈ t.vars)
    (hformed : v.Formed) : i.Value w (.var v) :=
  ⟨hformed, Var.sound_iff.2 (h.sound.vars t v hv),
    fun htracked => List.forall_mem_singleton.2 (h.inScope htracked v hv)⟩

lemma Shape.type {t : Ty} (h : i.Shape w t) : i.Value w (.type t) :=
  ⟨h.formed, h.sound, fun _ _ hv => absurd hv List.not_mem_nil⟩

lemma Shape.ofUnit {t : Ty} (h : i.Shape w t) : i.Value w (.ofUnit t) := by
  refine ⟨Term.formed_ofUnit t h.formed, Term.sound_ofUnit t h.sound, fun _ v hv => ?_⟩
  rw [Term.vars_ofUnit] at hv
  exact absurd hv List.not_mem_nil

lemma value_lit (l : Literal) : i.Value w (.lit l) :=
  ⟨trivial, trivial, fun _ _ hv => absurd hv List.not_mem_nil⟩

lemma value_tuple {ts : List Term} (h : ∀ t ∈ ts, i.Value w t) : i.Value w (.tuple ts) := by
  refine ⟨Term.allFormed_iff.2 fun t ht => (h t ht).formed,
    Term.allSound_iff.2 fun t ht => (h t ht).sound, fun htracked v hv => ?_⟩
  obtain ⟨t, ht, hv⟩ := Term.mem_varsOfAll.1 hv
  exact (h t ht).inScope htracked v hv

lemma Value.item {ts : List Term} (h : i.Value w (.tuple ts)) {t : Term} (ht : t ∈ ts) :
    i.Value w t :=
  ⟨Term.allFormed_iff.1 h.formed t ht, Term.allSound_iff.1 h.sound t ht,
    fun htracked v hv => h.inScope htracked v (Term.mem_varsOfAll.2 ⟨t, ht, hv⟩)⟩

lemma value_box {t : Term} {ty : Ty} (ht : i.Value w t) (hty : i.Shape w ty)
    (h : i.asks.typed → (Term.box t ty).Obeys) : i.Value w (.box t ty) :=
  ⟨⟨ht.formed, hty.formed⟩, ⟨ht.sound, hty.sound, h⟩, ht.inScope⟩

lemma Value.unbox {t : Term} {ty : Ty} (h : i.Value w (.box t ty)) : i.Value w t :=
  ⟨h.formed.1, h.sound.1, h.inScope⟩

lemma Value.box_ty {t : Term} {ty : Ty} (h : i.Value w (.box t ty)) : i.Shape w ty :=
  ⟨h.formed.2, h.sound.2.1⟩

/-- The value of a match in which no clause applied. -/
theorem value_miss {t : Term} (h : i.Value w t) : i.Value w (.miss t) := by
  refine ⟨⟨rfl, ⟨h.formed, trivial⟩, trivial⟩, ⟨⟨h.sound, trivial⟩, rfl⟩, fun htracked v hv => ?_⟩
  have hv' : v ∈ t.vars ++ [] := hv
  rw [List.append_nil] at hv'
  exact h.inScope htracked v hv'

lemma Value.code {t : Term} (hw : i.Ready w) (h : i.Value w t) : i.Code w t :=
  .of_bound hw h.ty (h.sound.fits t h.formed)
    (fun htracked => (h.formed.scoped_iff).2 (h.inScope htracked)) h.formed.bound_eq
    fun _ => h.formed.renamable

/-! #### Maps -/

/-- The bindings of a map. -/
theorem value_map {m : Fields Term} {kind : MapKind} (hasc : Fields.Ascending m)
    (hkind : kind.Sorted) (h : ∀ e ∈ m, i.Value w e.2) : i.Value w (.map (.plain m) kind) := by
  refine ⟨⟨⟨hasc, Env.fieldsFormed_iff.2 fun e he => (h e he).formed⟩, hkind⟩,
    Env.sound_plain fun e he => (h e he).sound, fun htracked v hv => ?_⟩
  obtain ⟨e, he, hv⟩ := Env.mem_vars_iff.1 hv
  exact (h e he).inScope htracked v hv

lemma Value.visible {env : Env} {kind : MapKind} (h : i.Value w (.map env kind)) :
    ∀ e ∈ env.visible, i.Value w e.2 := by
  refine fun e he => ⟨Env.fieldsFormed_iff.1 h.formed.1.visible.2 e he, h.sound.visible e he,
    fun htracked v hv => ?_⟩
  exact h.inScope htracked v (Env.mem_vars_iff.2 ⟨e, he, hv⟩)

lemma Value.kind {env : Env} {kind : MapKind} (h : i.Value w (.map env kind))
    {kind' : MapKind} (hkind : kind'.Sorted) : i.Value w (.map env kind') :=
  ⟨⟨h.formed.1, hkind⟩, h.sound, h.inScope⟩

lemma Value.get? {env : Env} {kind : MapKind} (h : i.Value w (.map env kind)) {x : Name}
    {t : Term} (ht : env.get? x = some t) : i.Value w t := by
  rw [h.formed.1.ascending.get?_eq] at ht
  exact h.visible (x, t) (Fields.mem_of_get? ht)

lemma Value.bind {env : Env} {kind : MapKind} (h : i.Value w (.map env kind)) (x : Name)
    {t : Term} (ht : i.Value w t) : i.Value w (.map (env.bind x t) kind) := by
  refine value_map (h.formed.1.visible.1.insert x t) h.formed.2 fun e he => ?_
  rcases Fields.mem_insert he with rfl | he
  · exact ht
  · exact h.visible e he

/-- The visible bindings with fewer names visible. -/
theorem Value.restrict {env : Env} {kind : MapKind} (h : i.Value w (.map env kind))
    {used : Captures} (hused : used.Ascending) {kind' : MapKind} (hkind : kind'.Sorted) :
    i.Value w (.map (.restricted env.visible used) kind') := by
  have hvisible := h.formed.1.visible
  refine ⟨⟨⟨hvisible.1, hvisible.2, hused⟩, hkind⟩,
    Env.fieldsSound_iff.2 fun e he _ => (h.visible e he).sound, fun htracked v hv => ?_⟩
  obtain ⟨e, he, hv⟩ := Env.mem_vars_iff.1 hv
  exact (h.visible e (List.mem_filter.1 he).1).inScope htracked v hv

end Region

end Residual
