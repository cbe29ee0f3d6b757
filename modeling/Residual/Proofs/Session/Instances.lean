import Residual.Proofs.Session.Emitted
import Residual.Proofs.Typed.CopiedScopes

/-!
Copies of finished bodies.

A finished body is closed: all that is free in it are its inputs. So a copy that renames the inputs
first and then the code meets no variable that it does not know, and draws one tag for each input
and each binder. Main statement: copies that are made one after the other from one supply of tags
are closed, differ from their bodies in tags only, and share no tag; the session keeps its join
points.
-/

namespace Residual

namespace Rename

variable {β : Type} {n : Tag} {cs : List Tag} {ws : List Var} {Q : List (Tag × Tag) → β → Prop}

/-- Variables and what became of them go in pairs of the table. -/
def Pairs (l : List (Tag × Tag)) (vs ws : List Var) : Prop :=
  List.Forall₂ (fun v w : Var => (v.tag, w.tag) ∈ l ∧ v.ty = w.ty) vs ws

lemma Pairs.tys {l : List (Tag × Tag)} {vs ws : List Var} (h : Pairs l vs ws) :
    ws.map Var.ty = vs.map Var.ty := by
  induction h with
  | nil => rfl
  | cons hvw _ ih => rw [List.map_cons, List.map_cons, ih, hvw.2]

lemma Pairs.tags {l : List (Tag × Tag)} {vs ws : List Var} (h : Pairs l vs ws) :
    List.Forall₂ (fun a b => (a, b) ∈ l) (vs.map Var.tag) (ws.map Var.tag) :=
  List.forall₂_map_left_iff.2 (List.forall₂_map_right_iff.2 (h.imp fun _ _ hvw => hvw.1))

/-- What comes after binders is in the scope of all of them. -/
theorem Renames.bindVars {vs : List Var} {f : List Var → Rename β}
    (hf : ∀ news, Renames n (f news) cs ws fun l b => Pairs l vs news → Q l b) :
    Renames n (bindVars vs >>= f) (vs.map Var.tag ++ cs)
      (ws.filter fun w => w.tag ∉ vs.map Var.tag) Q := by
  induction vs generalizing f Q with
  | nil =>
    have hws : (ws.filter fun w => w.tag ∉ ([] : List Var).map Var.tag) = ws :=
      List.filter_eq_self.2 fun w _ => by simp
    rw [hws]
    exact (hf []).imp fun l b hb => hb .nil
  | cons v rest ih =>
    have hws : (ws.filter fun w => w.tag ∉ (v :: rest).map Var.tag) =
        (ws.filter fun w => w.tag ∉ rest.map Var.tag).filter fun w => w.tag ≠ v.tag := by
      rw [List.filter_filter]
      refine List.filter_congr fun w _ => ?_
      by_cases hw : w.tag = v.tag <;> simp [hw]
    rw [hws, Rename.bindVars, List.mapM_cons, bind_assoc]
    refine Renames.bindVar fun tag => ?_
    simp only [bind_assoc, pure_bind]
    exact ih fun news => (hf (⟨tag, v.ty⟩ :: news)).imp
      fun l b hb hpairs htag => hb (.cons ⟨htag, rfl⟩ hpairs)

end Rename

open Rename

/-! ### One copy -/

/-- The variables that the code of an instance can use from outside. -/
def Session.Instance.inputs (i : Session.Instance) : List Var := i.params ++ i.closureParam.toList

/-- The tags of an instance: those of its inputs, and those of all variables in its code. -/
def Session.Instance.tags (i : Session.Instance) : List Tag :=
  i.inputs.map Var.tag ++ i.body.places

/-- A copy draws one tag for each input and for each binder. -/
def Body.size (b : Body) : Nat := b.inputs.length + b.term.bound.length

/-- The instance is a copy of the body in tags from `first` up to `next`: the types are the same
and in the same order, the code differs in tags only, uses its inputs and what it binds, and binds
each tag once. -/
structure Body.Copied (b : Body) (first next : Tag) (i : Session.Instance) : Prop where
  params : i.params.map Var.ty = b.params.map Var.ty
  closureParam : i.closureParam.map Var.ty = b.closureParam.map Var.ty
  ty : i.body.ty.code = b.term.ty.code
  alpha : b.term.Alpha ((b.inputs.map Var.tag).zip (i.inputs.map Var.tag)) i.body
  nodup : (i.inputs.map Var.tag).Nodup
  single : i.body.SingleAssignment i.inputs
  closed : ∀ tag ∈ i.body.places, tag ∈ i.inputs.map Var.tag ∨ tag ∈ i.body.bound
  range : ∀ tag ∈ i.tags, first ≤ tag ∧ tag < next

/-- What a copy does to the parts of a body. -/
lemma renames_copy {n : Tag} (b : Body) (hok : b.term.Renamable) :
    Renames n (Session.copy b) (b.inputs.map Var.tag ++ b.term.binderTags)
      (b.term.free.filter fun v => v.tag ∉ b.inputs.map Var.tag) fun l i =>
        Pairs l b.params i.params ∧ Pairs l b.closureParam.toList i.closureParam.toList ∧
          Becomes b.term l i.body := by
  obtain ⟨term, ty, params, closureParam⟩ := b
  have hterm := renames_term (n := n) term hok
  cases closureParam with
  | none =>
    have hinputs : Body.inputs ⟨term, ty, params, none⟩ = params := List.append_nil _
    rw [hinputs]
    exact Renames.bindVars fun news => hterm.map fun l t ht hpairs => ⟨hpairs, .nil, ht⟩
  | some c =>
    have htags : (Body.inputs ⟨term, ty, params, some c⟩).map Var.tag ++ term.binderTags =
        params.map Var.tag ++ c.tag :: term.binderTags := by
      simp [Body.inputs]
    have hfree : (term.free.filter fun v =>
        v.tag ∉ (Body.inputs ⟨term, ty, params, some c⟩).map Var.tag) =
        (term.free.filter fun v => v.tag ≠ c.tag).filter fun v =>
          v.tag ∉ params.map Var.tag := by
      rw [List.filter_filter]
      refine List.filter_congr fun v _ => ?_
      by_cases hv : v.tag = c.tag <;> simp [Body.inputs, hv]
    rw [htags, hfree]
    refine Renames.bindVars fun news => ?_
    have hparam : (some c).mapM bindVar = do return some (← bindVar c) := rfl
    dsimp only
    rw [hparam]
    simp only [bind_assoc, pure_bind]
    refine Renames.bindVar fun tag => hterm.map fun l t ht htag hpairs => ⟨hpairs, ?_, ht⟩
    exact .cons ⟨htag, rfl⟩ .nil

/-- The inputs of a copy are those of the body in new tags. -/
lemma leads_of_pairs {l : List (Tag × Tag)} (hl : OneToOne l) {vs ws : List Var}
    (h : Pairs l vs ws) : Var.Leads ((vs.map Var.tag).zip (ws.map Var.tag)) vs ws := by
  intro v w hv hvw
  obtain ⟨u, hu, htag, hty⟩ := Var.inScope_iff.1 hv
  obtain ⟨k, hk, rfl⟩ := List.getElem_of_mem hu
  have hk' : k < ws.length := h.length_eq ▸ hk
  obtain ⟨hmem, huty⟩ := List.Forall₂.get h hk hk'
  have hpair : (v.tag, w.tag) ∈ l := List.forall₂_iff_zip.1 h.tags |>.2 (mem_of_lookup hvw.there)
  have hsame : w.tag = ws[k].tag := hl.eq hpair (htag ▸ hmem)
  refine Var.inScope_iff.2 ⟨ws[k], List.getElem_mem hk', hsame.symm, ?_⟩
  calc ws[k].ty.code
    _ = vs[k].ty.code := congrArg Ty.code huty.symm
    _ = v.ty.code := hty
    _ = w.ty.code := hvw.ty

/-- A closed body can be copied as long as there are tags. -/
theorem Body.Closed.copied {g : Ground} (htracked : g.asks.tracked) {b : Body} (h : b.Closed g)
    (envs : EnvTable) {n : Tag} (hroom : n + b.size ≤ Tags.limit) :
    ∃ i r, (Session.copy b).run { envs, tags := ⟨n⟩ } = some (i, r) ∧
      r.tags = ⟨n + b.size⟩ ∧ b.Copied n (n + b.size) i := by
  obtain ⟨hinputs, hbound, hdisjoint⟩ := List.nodup_append.1 (h.nodup htracked)
  have hscope := h.inScope htracked
  have hperm := hscope.binderTags_perm
  have hsingle : b.term.SingleAssignment b.inputs :=
    ⟨hscope, hbound, fun v hv htag => hdisjoint v.tag (List.mem_map_of_mem hv) v.tag htag rfl⟩
  have honce : (b.inputs.map Var.tag ++ b.term.binderTags).Nodup :=
    ((hperm.append_left _).nodup_iff).2 (h.nodup htracked)
  -- All that is free is an input, so the renaming meets nothing that it does not know.
  have hfree : (b.term.free.filter fun v => v.tag ∉ b.inputs.map Var.tag) = [] :=
    List.filter_eq_nil_iff.2 fun v hv => by simpa using hscope.free_tag_mem _ _ v hv
  have hsize : (b.inputs.map Var.tag ++ b.term.binderTags).length = b.size := by
    rw [List.length_append, List.length_map, hperm.length_eq, Body.size]
  have hrenames := renames_copy (n := n) b (h.renamable htracked)
  rw [hfree] at hrenames
  obtain ⟨i, r, hrun, hr, hmet, hparams, hclosureParam, hfollows, hty⟩ :=
    hrenames _ (.start envs n) ⟨honce, fun _ _ => List.not_mem_nil, fun _ _ => List.not_mem_nil,
      hsize ▸ hroom⟩
  have hnext : r.tags = ⟨n + b.size⟩ := by
    have hdrawn := hmet.next
    rw [← hsize]
    exact congrArg Tags.mk hdrawn
  have hpairs : Pairs r.renamed b.inputs i.inputs := List.rel_append hparams hclosureParam
  have hall := List.rel_append hpairs.tags hfollows.binders
  have halpha : b.term.Alpha ((b.inputs.map Var.tag).zip (i.inputs.map Var.tag)) i.body := by
    refine hfollows.related _ _ (List.Subset.refl _) hr.oneToOne (fun p hp => ?_) fun v hv => ?_
    · exact List.forall₂_iff_zip.1 hpairs.tags |>.2 hp
    · rw [List.map_fst_zip (Nat.le_of_eq hpairs.tags.length_eq)]
      exact hscope.free_tag_mem _ _ v hv
  have hnodup : (i.inputs.map Var.tag ++ i.body.binderTags).Nodup := hr.oneToOne.nodup hall honce
  have hscope' : i.body.Scoped i.inputs :=
    halpha.scoped _ hsingle (leads_of_pairs hr.oneToOne hpairs)
  have hperm' := hscope'.binderTags_perm
  obtain ⟨hinputs', hbinders', hdisjoint'⟩ := List.nodup_append.1 hnodup
  have hclosed := hscope'.mem_places
  refine ⟨i, r, hrun, hnext, hparams.tys, ?_, hty, halpha, hinputs', ⟨hscope',
    hperm'.nodup_iff.1 hbinders', fun v hv htag => ?_⟩, hclosed, fun tag htag => ?_⟩
  · have htys := hclosureParam.tys
    rw [← Option.toList_map, ← Option.toList_map] at htys
    have hhead := congrArg List.head? htys
    rwa [Option.head?_toList, Option.head?_toList] at hhead
  · exact hdisjoint' v.tag (List.mem_map_of_mem hv) v.tag (hperm'.mem_iff.2 htag) rfl
  · have hmem : tag ∈ i.inputs.map Var.tag ++ i.body.binderTags := by
      rcases List.mem_append.1 htag with htag | htag
      · exact List.mem_append_left _ htag
      · rcases hclosed tag htag with htag | htag
        · exact List.mem_append_left _ htag
        · exact List.mem_append_right _ (hperm'.mem_iff.2 htag)
    obtain ⟨a, -, hpair⟩ := OneToOne.exists_partner hall hmem
    have hrange := hr.lt hpair
    rwa [hnext] at hrange

/-! ### Copies one after the other -/

namespace Session

/-- A copy of the body of a join point, with the next tag before and after it was made. -/
structure Made where
  point : Point
  first : Tag
  next : Tag
  copy : Instance

/-- Copies of the bodies of finished join points, one after the other, from one supply of tags.
There is no outcome if one is not done, or if the supply ends. -/
def instantiateAll (s : Session) (tags : Tags) :
    List Point → Option (List Made × Tags × Session)
  | [] => some ([], tags, s)
  | p :: rest => do
    let (copy?, tags', s') ← s.instantiate p tags
    let copy ← copy?
    let (copies, tags'', s'') ← s'.instantiateAll tags' rest
    return (⟨p, tags.next, tags'.next, copy⟩ :: copies, tags'', s'')

/-- The tags that copies of the bodies take. -/
def copySize : List (Point × Body) → Nat
  | [] => 0
  | e :: rest => e.2.size + copySize rest

variable {s : Session}

/-- A copy of a closed body, and the session after it. -/
lemma instantiate_eq {g : Ground} (htracked : g.asks.tracked) {p : Point} {b : Body}
    (hbody : s.body? p = some b) (h : b.Closed g) {n : Tag} (hroom : n + b.size ≤ Tags.limit) :
    ∃ i envs, s.instantiate p ⟨n⟩ = some (some i, ⟨n + b.size⟩, { s with envs }) ∧
      b.Copied n (n + b.size) i := by
  obtain ⟨i, r, hrun, hnext, hcopied⟩ := h.copied htracked s.envs hroom
  refine ⟨i, r.envs, ?_, hcopied⟩
  rw [instantiate, hbody]
  simp [hrun, hnext]

lemma instantiateAll_eq {g : Ground} (htracked : g.asks.tracked) {done : List (Point × Body)}
    (hdone : ∀ e ∈ done, s.body? e.1 = some e.2 ∧ e.2.Closed g) {n : Tag}
    (hroom : n + copySize done ≤ Tags.limit) :
    ∃ copies envs, s.instantiateAll ⟨n⟩ (done.map Prod.fst) =
        some (copies, ⟨n + copySize done⟩, { s with envs }) ∧
      List.Forall₂ (fun e c => e.1 = c.point ∧ e.2.Copied c.first c.next c.copy) done copies ∧
      (∀ c ∈ copies, n ≤ c.first) ∧ copies.Pairwise fun c d => c.next ≤ d.first := by
  induction done generalizing s n with
  | nil => exact ⟨[], s.envs, rfl, .nil, fun c hc => absurd hc List.not_mem_nil, .nil⟩
  | cons e rest ih =>
    obtain ⟨p, b⟩ := e
    obtain ⟨⟨hbody, hclosed⟩, hrest⟩ := List.forall_mem_cons.1 hdone
    have hsize : n + copySize ((p, b) :: rest) = n + b.size + copySize rest := by
      rw [copySize, Nat.add_assoc]
    rw [hsize] at hroom ⊢
    have hfirst : n + b.size ≤ Tags.limit := Nat.le_trans (Nat.le_add_right ..) hroom
    obtain ⟨i, envs, hrun, hcopied⟩ := instantiate_eq htracked hbody hclosed hfirst
    obtain ⟨copies, envs', hruns, hcopies, hlater, hpairs⟩ :=
      @ih { s with envs } hrest (n + b.size) hroom
    refine ⟨⟨p, n, n + b.size, i⟩ :: copies, envs', ?_, .cons ⟨rfl, hcopied⟩ hcopies, ?_, ?_⟩
    · simp [instantiateAll, hrun, hruns]
    · refine List.forall_mem_cons.2 ⟨Nat.le_refl _, fun c hc => ?_⟩
      exact Nat.le_trans (Nat.le_add_right ..) (hlater c hc)
    · exact .cons hlater hpairs

end Session

/-- Copies of finished bodies, made one after the other from one supply of tags with room for
them: each is a closed copy of its body, all its tags were drawn while it was made, so no two
copies share a tag, and nothing of the session changes but the table of environments. The bodies
are those of any session that ran compilations from environments of atomic values, in which each
tag has one type. -/
theorem instantiate_fresh {s : Session} (hs : s.Reached .scoping) {done : List (Point × Body)}
    (hdone : ∀ e ∈ done, s.body? e.1 = some e.2) {n : Tag}
    (hroom : n + Session.copySize done ≤ Tags.limit) :
    ∃ copies envs, s.instantiateAll ⟨n⟩ (done.map Prod.fst) =
        some (copies, ⟨n + Session.copySize done⟩, { s with envs }) ∧
      List.Forall₂ (fun e c => e.1 = c.point ∧ e.2.Copied c.first c.next c.copy) done copies ∧
      copies.Pairwise fun c d =>
        c.next ≤ d.first ∧ ∀ tag ∈ c.copy.tags, tag ∉ d.copy.tags := by
  have hsound := (hs.sound fun _ => trivial).2
  have hclosed : ∀ e ∈ done, s.body? e.1 = some e.2 ∧ e.2.Closed ⟨s.envs, .scoping⟩ := by
    intro e he
    obtain ⟨trace, hfind⟩ := Session.body?_eq_some_iff.1 (hdone e he)
    exact ⟨hdone e he, hsound.points _ (Discipline.mem_of_find? hfind)⟩
  obtain ⟨copies, envs, hrun, hcopies, -, hpairs⟩ :=
    Session.instantiateAll_eq trivial hclosed hroom
  refine ⟨copies, envs, hrun, hcopies, ?_⟩
  have hrange : ∀ c ∈ copies, ∀ tag ∈ c.copy.tags, c.first ≤ tag ∧ tag < c.next := by
    intro c hc
    obtain ⟨k, hk, rfl⟩ := List.getElem_of_mem hc
    have hk' : k < done.length := hcopies.length_eq ▸ hk
    exact (List.Forall₂.get hcopies hk' hk).2.range
  refine hpairs.imp_of_mem fun {c d} hc hd hle => ⟨hle, fun tag htag htag' => ?_⟩
  have hlt : tag < d.first := Nat.lt_of_lt_of_le (hrange c hc tag htag).2 hle
  exact Nat.not_le_of_lt hlt (hrange d hd tag htag').1

/-! ### Two copies of a function -/

namespace SharedSum

/-- The sum of a number with itself, as a function. -/
def sum : Build Expr := do
  let x ← Build.name "x"
  let number ← Build.var x
  Build.joinMethod (← Build.op (.prim (.arith .add)) [number, number])

lemma does_sum : Build.Does True sum (Build.Fine True) := by
  refine (Build.does_name "x").bind fun x _ => ?_
  refine (Build.does_var x).bind fun number hnumber => ?_
  exact (Build.does_op₂ hnumber hnumber).bind fun _ hsum => Build.does_op₁ hsum

def call : Call := PackedInput.withVar sum {} "x" ⟨5, .prim (.int .i32)⟩

/-- The session after the compilation for a number that is known at run time only. -/
def session : Session := (call.run {}).2

lemma reached : session.Reached .scoping := by
  have hint : (Ty.prim (.int .i32)).Formed ∧ (Ty.prim (.int .i32)).Sound ⟨{}, .scoping⟩ :=
    ⟨trivial, trivial⟩
  exact .run (.new {})
    (PackedInput.meets_withVar does_sum (Session.formed_new {}) "x" (by decide) hint.1 hint.2)

/-- The function has one input and binds its result. -/
lemma exists_function : ∃ f ∈ session.functions,
    f.body.inputs.map Var.tag = [0] ∧ f.body.term.bound = [1] := by
  have h : session.functions.any (fun f =>
      decide (f.body.inputs.map Var.tag = [0] ∧ f.body.term.bound = [1])) = true := by
    decide +kernel
  obtain ⟨f, hf, h⟩ := List.any_eq_true.1 h
  exact ⟨f, hf, of_decide_eq_true h⟩

end SharedSum

/-- Two copies of the sum from tag 100 on take two tags each, and share none. -/
theorem instantiate_fresh_sum : ∃ f ∈ SharedSum.session.functions, f.body.term.bound = [1] ∧
    ∃ a b envs, SharedSum.session.instantiateAll ⟨100⟩ [f.point, f.point] =
        some ([a, b], ⟨104⟩, { SharedSum.session with envs }) ∧
      f.body.Copied a.first a.next a.copy ∧ f.body.Copied b.first b.next b.copy ∧
      ∀ tag ∈ a.copy.tags, tag ∉ b.copy.tags := by
  obtain ⟨f, hf, hinputs, hbound⟩ := SharedSum.exists_function
  have hbody : SharedSum.session.body? f.point = some f.body := (Session.mem_functions.1 hf).2.2
  have hsize : f.body.size = 2 := by
    rw [Body.size, hbound, ← List.length_map (f := Var.tag), hinputs]
    rfl
  have htotal : Session.copySize [(f.point, f.body), (f.point, f.body)] = 4 := by
    simp [Session.copySize, hsize]
  have hdone : ∀ e ∈ [(f.point, f.body), (f.point, f.body)],
      SharedSum.session.body? e.1 = some e.2 := by
    simpa using hbody
  obtain ⟨copies, envs, hrun, hcopies, hapart⟩ :=
    instantiate_fresh SharedSum.reached hdone (n := 100) (by rw [htotal]; decide)
  rw [htotal] at hrun
  obtain ⟨a, _, ha, hrest, rfl⟩ := List.forall₂_cons_left_iff.1 hcopies
  obtain ⟨b, _, hb, hnil, rfl⟩ := List.forall₂_cons_left_iff.1 hrest
  obtain rfl := List.forall₂_nil_left_iff.1 hnil
  refine ⟨f, hf, hbound, a, b, envs, hrun, ha.2, hb.2, ?_⟩
  exact ((List.pairwise_cons.1 hapart).1 b (List.mem_singleton_self b)).2

end Residual
