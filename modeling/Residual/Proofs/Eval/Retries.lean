import Residual.Proofs.Eval.Visits
import Residual.Proofs.Eval.Table

/-!
What evaluation leaves of the table of join points.

A body that is being evaluated leaves the entries of all others as they are: join points that it
finishes or gives up are new ones, and of its own entry only the promised type can change. So what
was done under a guess can be taken back. Main statement: forgetting what was done since the guess
restores the table and the order in which join points were done, but for the type that the guess
replaced.
-/

namespace Residual

open Eval

/-! ### Entries after a change -/

namespace World

variable {w : World} {p : Point}

lemma find?_setPending (w : World) (p : Point) (ty : Option Ty) (q : Point) :
    (w.setPending p ty).session.find? q =
      if q = p then (w.session.find? q).map fun e => { e with progress := .pending ty }
      else w.session.find? q :=
  PointTable.get?_setProgress ..

lemma find?_atBody (w : World) (p : Point) (captured : Captured) (annot : Option Ty)
    (q : Point) :
    (w.atBody p captured annot).session.find? q =
      if q = p then some ⟨.pending annot, w.scope.trace⟩ else w.session.find? q :=
  PointTable.get?_insert ..

lemma find?_complete (w : World) (p : Point) (term : Term) (captured : Captured) (q : Point) :
    (w.complete p term captured).session.find? q =
      if q = p then (w.session.find? q).map fun e =>
        { e with progress := .done ⟨term, p.bodyTy term, captured.params, captured.closureParam⟩ }
      else w.session.find? q :=
  PointTable.get?_setProgress ..

lemma find?_abandon (w : World) (p : Point) (q : Point) :
    (w.abandon p).session.find? q = if q = p then none else w.session.find? q :=
  PointTable.get?_erase ..

lemma find?_retract (w : World) (p : Point) (mark : Nat) (q : Point) :
    (w.retract p mark).session.find? q =
      if q ∈ w.session.finished.drop mark then none
      else if q = p then (w.session.find? q).map fun e => { e with progress := .pending none }
      else w.session.find? q := by
  have hforget : ∀ q, (w.session.forgetSince mark).find? q =
      if q ∈ w.session.finished.drop mark then none else w.session.find? q :=
    PointTable.get?_foldl_erase _ _
  refine (find?_setPending { w with session := w.session.forgetSince mark } p none q).trans ?_
  rw [hforget]
  by_cases hmem : q ∈ w.session.finished.drop mark <;> simp [hmem]

end World

/-! ### What stays while a body is evaluated -/

/-- The join points that were there before are as they were, but for the promise of the one whose
body is evaluated, and those that are new are done. -/
structure World.Keeps (w w' : World) : Prop where
  later : w.Later w'
  finished : w.session.finished <+: w'.session.finished
  entries : ∀ q e, w.scope.owner ≠ some q → w.session.find? q = some e →
    w'.session.find? q = some e
  owner : ∀ q ty trace, w.session.find? q = some ⟨.pending ty, trace⟩ →
    ∃ ty', w'.session.find? q = some ⟨.pending ty', trace⟩
  new : ∀ q, w.session.find? q = none → w'.session.find? q ≠ none →
    q ∈ w'.session.finished.drop w.session.finished.length

namespace World.Keeps

variable {w w₁ w₂ w₃ w' : World} {stack : List Point} {p : Point}

/-- Changes of the scope do not count, but for its owner, and neither do those of other tables. -/
theorem of_points (hlater : w.Later w') (hpoints : w'.session.points = w.session.points)
    (hfinished : w'.session.finished = w.session.finished) : w.Keeps w' := by
  have hfind : ∀ q, w'.session.find? q = w.session.find? q := fun q => by
    unfold Session.find?
    rw [hpoints]
  refine ⟨hlater, hfinished ▸ List.prefix_rfl, fun q e _ h => (hfind q).trans h,
    fun q ty trace h => ⟨ty, (hfind q).trans h⟩, fun q h h' => ?_⟩
  rw [hfind] at h'
  exact absurd h h'

lemma refl (w : World) : w.Keeps w := of_points (.refl w) rfl rfl

lemma quiet {s' : Session} (hq : w.session.Quiet s') : w.Keeps { w with session := s' } := by
  have hpoints : s'.points = w.session.points := by rw [hq.rest]
  have hfinished : s'.finished = w.session.finished := by rw [hq.rest]
  exact of_points ⟨hq.grows, rfl⟩ hpoints hfinished

lemma trans (h : w₁.Keeps w₂) (k : w₂.Keeps w₃) : w₁.Keeps w₃ := by
  refine ⟨h.later.trans k.later, h.finished.trans k.finished, fun q e hq he => ?_,
    fun q ty trace hq => ?_, fun q hq hq' => ?_⟩
  · exact k.entries q e (h.later.owner ▸ hq) (h.entries q e hq he)
  · obtain ⟨ty', hq'⟩ := h.owner q ty trace hq
    exact k.owner q ty' trace hq'
  · obtain ⟨rest, hrest⟩ := h.finished
    obtain ⟨rest', hrest'⟩ := k.finished
    have hdrop : w₃.session.finished.drop w₁.session.finished.length = rest ++ rest' := by
      rw [← hrest', ← hrest, List.append_assoc, List.drop_left]
    rw [hdrop, List.mem_append]
    by_cases hmid : w₂.session.find? q = none
    · have hmem := k.new q hmid hq'
      rw [← hrest', List.drop_left] at hmem
      exact .inr hmem
    · have hmem := h.new q hq hmid
      rw [← hrest, List.drop_left] at hmem
      exact .inl hmem

/-- The scope and the tables other than that of the join points may be taken from elsewhere. -/
lemma of_scopes {w₁' w₂' : World} (h : w₁.Keeps w₂) (h₁ : w₁'.session = w₁.session)
    (h₂ : w₂'.session = w₂.session) (howner₁ : w₁'.scope.owner = w₁.scope.owner)
    (howner₂ : w₂'.scope.owner = w₂.scope.owner) : w₁'.Keeps w₂' := by
  obtain ⟨hlater, hfinished, hentries, howner, hnew⟩ := h
  refine ⟨⟨?_, ?_⟩, ?_, ?_, ?_, ?_⟩
  · rw [h₁, h₂]
    exact hlater.grows
  · rw [howner₁, howner₂]
    exact hlater.owner
  · rw [h₁, h₂]
    exact hfinished
  · rw [h₁, h₂, howner₁]
    exact hentries
  · rw [h₁, h₂]
    exact howner
  · rw [h₁, h₂]
    exact hnew

lemma guess (hp : w.scope.owner = some p) (ty : Option Ty) : w.Keeps (w.setPending p ty) := by
  refine ⟨(World.Later.refl w).of_tables ⟨rfl, rfl, rfl⟩ ⟨rfl, rfl, rfl⟩ rfl, List.prefix_rfl,
    fun q e hq he => ?_, fun q old trace hq => ?_, fun q hq hq' => ?_⟩
  · rw [World.find?_setPending, if_neg, he]
    rintro rfl
    exact hq hp
  · rw [World.find?_setPending]
    split
    · exact ⟨ty, by rw [hq]; rfl⟩
    · exact ⟨old, hq⟩
  · rw [World.find?_setPending, hq] at hq'
    split at hq' <;> exact absurd rfl hq'

/-- Taking back what was done since a guess restores all entries but that of the join point whose
type was guessed, and that one as far as it is not the promised type. -/
theorem restores (hw : w.InStack stack) (hp : w.scope.owner = some p) {ty : Option Ty}
    (hw' : w'.InStack stack) (h : (w.setPending p ty).Keeps w') :
    (w'.retract p w.session.finished.length).session.finished = w.session.finished ∧
      ∀ q, (w'.retract p w.session.finished.length).session.find? q =
        if q = p then (w.session.find? q).map fun e => { e with progress := .pending none }
        else w.session.find? q := by
  have hfinished : w'.session.finished =
      w.session.finished ++ w'.session.finished.drop w.session.finished.length := by
    obtain ⟨rest, hrest⟩ := h.finished
    change w.session.finished ++ rest = _ at hrest
    rw [← hrest, List.drop_left]
  have hdisjoint : ∀ q ∈ w.session.finished,
      q ∉ w'.session.finished.drop w.session.finished.length := by
    have hnodup := hw'.table.finished
    rw [hfinished, List.nodup_append] at hnodup
    exact fun q h₁ h₂ => hnodup.2.2 q h₁ q h₂ rfl
  -- A join point in evaluation is not done later on, before its evaluation ends.
  have hpending : ∀ q, w.session.InEvaluation q →
      q ∉ w'.session.finished.drop w.session.finished.length := by
    intro q hq hmem
    have hstack := (hw.table.inEvaluation q).2 hq
    refine ((hw'.table.inEvaluation q).1 hstack).not_done ((hw'.table.done q).1 ?_)
    exact List.mem_of_mem_drop hmem
  refine ⟨?_, fun q => ?_⟩
  · change w'.session.finished.take w.session.finished.length = _
    rw [hfinished, List.take_left]
  · rw [World.find?_retract]
    have hq' := World.find?_setPending w p ty q
    by_cases hq : q = p
    · subst hq
      have hin := (hw.table.inEvaluation q).1 (hw.mem_owner hp)
      obtain ⟨old, trace, hfind⟩ := hin
      rw [if_pos rfl, hfind] at hq'
      obtain ⟨new, hnew⟩ := h.owner q ty trace hq'
      rw [if_neg (hpending q ⟨old, trace, hfind⟩), if_pos rfl, if_pos rfl, hnew, hfind]
      rfl
    · rw [if_neg hq] at hq'
      rw [if_neg hq, if_neg hq]
      cases hfind : w.session.find? q with
      | none =>
        rw [hfind] at hq'
        by_cases hnew : w'.session.find? q = none
        · rw [hnew, ite_self]
        · exact if_pos (h.new q hq' hnew)
      | some e =>
        rw [hfind] at hq'
        have howner : (w.setPending p ty).scope.owner ≠ some q := fun h =>
          hq (Option.some.inj (hp.symm.trans h)).symm
        rw [if_neg, h.entries q e howner hq']
        obtain ⟨_ | body, trace⟩ := e
        · exact hpending q ⟨_, _, hfind⟩
        · exact hdisjoint q ((hw.table.done q).2 ⟨_, _, hfind⟩)

lemma retract (hw : w.InStack stack) (hp : w.scope.owner = some p) {ty : Option Ty}
    (hw' : w'.InStack stack) (h : (w.setPending p ty).Keeps w') :
    w.Keeps (w'.retract p w.session.finished.length) := by
  obtain ⟨hfinished, hfind⟩ := restores hw hp hw' h
  refine ⟨h.later.of_tables ⟨rfl, rfl, rfl⟩ ⟨rfl, rfl, rfl⟩ h.later.owner,
    ?_, fun q e hq he => ?_, fun q old trace hq => ?_, fun q hq hq' => ?_⟩
  · simp only [hfinished, List.prefix_rfl]
  · rw [hfind, if_neg, he]
    rintro rfl
    exact hq hp
  · rw [hfind]
    split
    · exact ⟨none, by rw [hq]; rfl⟩
    · exact ⟨old, hq⟩
  · rw [hfind, hq] at hq'
    split at hq' <;> exact absurd rfl hq'

lemma complete (hnone : w.session.find? p = none) {captured : Captured} {annot : Option Ty}
    (h : (w.atBody p captured annot).Keeps w') (term : Term) :
    w.Keeps ((w'.setScope w.scope).complete p term captured) := by
  refine ⟨h.later.of_tables ⟨rfl, rfl, rfl⟩ ⟨rfl, rfl, rfl⟩ rfl,
    h.finished.trans (List.prefix_append ..), fun q e _ he => ?_, fun q ty trace hq => ?_,
    fun q hq hq' => ?_⟩
  · have hne : q ≠ p := fun h => by rw [h, hnone] at he; cases he
    rw [World.find?_complete, if_neg hne]
    refine h.entries q e (fun h => hne (Option.some.inj h).symm) ?_
    rw [World.find?_atBody, if_neg hne, he]
  · have hne : q ≠ p := fun h => by rw [h, hnone] at hq; cases hq
    rw [World.find?_complete, if_neg hne]
    refine h.owner q ty trace ?_
    rw [World.find?_atBody, if_neg hne, hq]
  · obtain ⟨rest, hrest⟩ := h.finished
    change w.session.finished ++ rest = _ at hrest
    change q ∈ (w'.session.finished ++ [p]).drop w.session.finished.length
    rw [← hrest, List.append_assoc, List.drop_left, List.mem_append, List.mem_singleton]
    by_cases hqp : q = p
    · exact .inr hqp
    · rw [World.find?_complete, if_neg hqp] at hq'
      have hmem := h.new q (by rw [World.find?_atBody, if_neg hqp, hq]) hq'
      change q ∈ w'.session.finished.drop w.session.finished.length at hmem
      rw [← hrest, List.drop_left] at hmem
      exact .inl hmem

lemma abandon (hnone : w.session.find? p = none) {captured : Captured} {annot : Option Ty}
    (h : (w.atBody p captured annot).Keeps w') : w.Keeps ((w'.setScope w.scope).abandon p) := by
  refine ⟨h.later.of_tables ⟨rfl, rfl, rfl⟩ ⟨rfl, rfl, rfl⟩ rfl, h.finished, fun q e _ he => ?_,
    fun q ty trace hq => ?_, fun q hq hq' => ?_⟩
  · have hne : q ≠ p := fun h => by rw [h, hnone] at he; cases he
    rw [World.find?_abandon, if_neg hne]
    refine h.entries q e (fun h => hne (Option.some.inj h).symm) ?_
    rw [World.find?_atBody, if_neg hne, he]
  · have hne : q ≠ p := fun h => by rw [h, hnone] at hq; cases hq
    rw [World.find?_abandon, if_neg hne]
    refine h.owner q ty trace ?_
    rw [World.find?_atBody, if_neg hne, hq]
  · rw [World.find?_abandon] at hq'
    split at hq'
    · exact absurd rfl hq'
    · rename_i hne
      exact h.new q (by rw [World.find?_atBody, if_neg hne, hq]) hq'

end World.Keeps

/-- Evaluation keeps the entries of the join points that are there. -/
def Discipline.entries : Discipline where
  Index := List Point
  strict := False
  Inv stack w := w.InStack stack
  Le := World.Keeps
  Known _ _ _ _ := True
  inner stack p := p :: stack
  within i _ := i
  le_refl := .refl
  le_trans := .trans
  le_grows h := h.later.grows
  le_owner h := h.later.owner
  known_le _ _ _ := trivial
  known_pending _ _ _ _ := trivial
  known_done _ _ _ _ := trivial
  known_stmts := Discipline.table.known_stmts
  quiet h hq := ⟨⟨h.table.quiet hq, h.owner⟩, .quiet hq⟩
  tags h _ := ⟨⟨h.table, h.owner⟩, .of_points ⟨.refl _, rfl⟩ rfl rfl⟩
  push h _ := ⟨⟨h.table, h.owner⟩, .of_points ⟨.refl _, rfl⟩ rfl rfl⟩
  share h _ _ _ := ⟨⟨h.table, h.owner⟩, .of_points ⟨.refl _, rfl⟩ rfl rfl⟩
  setEnv := Discipline.table.setEnv
  resetEnv _ h := h.of_scopes rfl rfl rfl rfl
  setTrace := Discipline.table.setTrace
  resetTrace _ h := h.of_scopes rfl rfl rfl rfl
  enterBranch := Discipline.table.enterBranch
  leaveBranch _ h' hle := ⟨⟨h'.table, h'.owner⟩, hle.of_scopes rfl rfl rfl rfl⟩
  guess _ h hp _ := ⟨⟨h.table.setPending (h.mem_owner hp) _, h.owner⟩, .guess hp _⟩
  retract h hp _ h' hle _ := ⟨h'.retract (hle.later.owner.trans hp) _, .retract h hp h' hle⟩
  start := Discipline.table.start
  complete h hnone _ h' hle _ _ _ :=
    ⟨h.complete h' _ _, .complete hnone hle _, fun _ _ _ => trivial⟩
  abandon h hnone h' hle := ⟨h.abandon h', .abandon hnone hle⟩

instance : Discipline.entries.Unguarded :=
  ⟨fun _ _ => trivial, fun _ _ _ => trivial, fun h => h⟩

end Residual
