import Residual.Proofs.Eval.Table

/-!
Calls between bodies.

A call is emitted when its join point is done, or still in evaluation with a promised type. The
first kind stays right: a done body keeps its type for as long as it is there, and what is
retracted are always the bodies done last. So a body agrees with all bodies that were done before
it. Nothing of the sort holds for a promise, which the join point can break after the body that
relies on it is done.
-/

namespace Residual

namespace Session

variable {s : Session} {p : Point}

lemma body?_eq_some_iff {body : Body} :
    s.body? p = some body ↔ ∃ trace, s.find? p = some ⟨.done body, trace⟩ := by
  unfold body?
  rcases s.find? p with _ | ⟨progress, trace⟩
  · simp
  · cases progress <;> simp

lemma done_iff : s.Done p ↔ ∃ body, s.body? p = some body := by
  simp only [Done, body?_eq_some_iff]

lemma InEvaluation.body?_eq_none (h : s.InEvaluation p) : s.body? p = none := by
  obtain ⟨ty, trace, h⟩ := h
  simp [body?, h]

lemma body?_congr {s' : Session} {q : Point} (h : s'.find? q = s.find? q) :
    s'.body? q = s.body? q := by
  unfold body?
  rw [h]

lemma body?_setPending (h : s.InEvaluation p) (ty : Option Ty) (q : Point) :
    Session.body? { s with points := s.points.setProgress p (.pending ty) } q = s.body? q := by
  by_cases hq : q = p
  · subst hq
    obtain ⟨old, trace, hfind⟩ := h
    have hfind' : Session.find? { s with points := s.points.setProgress q (.pending ty) } q =
        some ⟨.pending ty, trace⟩ := by
      change s.points.get? q = _ at hfind
      change (s.points.setProgress q (.pending ty)).get? q = _
      rw [PointTable.get?_setProgress, if_pos rfl, hfind]
      rfl
    rw [InEvaluation.body?_eq_none ⟨_, _, hfind'⟩, InEvaluation.body?_eq_none ⟨_, _, hfind⟩]
  · refine body?_congr ?_
    change (s.points.setProgress p (.pending ty)).get? q = _
    rw [PointTable.get?_setProgress, if_neg hq]
    rfl

lemma body?_forgetSince (mark : Nat) (q : Point) :
    (s.forgetSince mark).body? q = if q ∈ s.finished.drop mark then none else s.body? q := by
  have hfind : (s.forgetSince mark).find? q =
      if q ∈ s.finished.drop mark then none else s.find? q :=
    PointTable.get?_foldl_erase _ _ _
  split
  · rename_i hq
    rw [if_pos hq] at hfind
    simp [body?, hfind]
  · rename_i hq
    rw [if_neg hq] at hfind
    exact body?_congr hfind

lemma body?_start (h : s.find? p = none) (annot : Option Ty) (trace : Trace) (depth : Nat)
    (q : Point) :
    Session.body? { s with points := s.points.insert p ⟨.pending annot, trace⟩, depth } q =
      s.body? q := by
  have hfind : Session.find?
      { s with points := s.points.insert p ⟨.pending annot, trace⟩, depth } q =
      if q = p then some ⟨.pending annot, trace⟩ else s.find? q :=
    PointTable.get?_insert s.points p q _
  by_cases hq : q = p
  · subst hq
    rw [if_pos rfl] at hfind
    simp [body?, hfind, h]
  · rw [if_neg hq] at hfind
    exact body?_congr hfind

lemma body?_setDone {s' : Session} (h : s.InEvaluation p) (body : Body)
    (hs' : s'.points = s.points.setProgress p (.done body)) (q : Point) :
    s'.body? q = if q = p then some body else s.body? q := by
  have hfind : s'.find? q =
      if q = p then (s.find? q).map fun e => { e with progress := .done body } else s.find? q := by
    unfold find?
    rw [hs', PointTable.get?_setProgress]
  split
  · rename_i hq
    subst hq
    obtain ⟨ty, trace, h⟩ := h
    rw [if_pos rfl, h] at hfind
    simp [body?, hfind]
  · rename_i hq
    rw [if_neg hq] at hfind
    exact body?_congr hfind

lemma body?_abandon (h : s.InEvaluation p) (depth : Nat) (q : Point) :
    Session.body? { s with points := s.points.erase p, depth } q = s.body? q := by
  have hfind : Session.find? { s with points := s.points.erase p, depth } q =
      if q = p then none else s.find? q :=
    PointTable.get?_erase s.points p q
  by_cases hq : q = p
  · subst hq
    rw [if_pos rfl] at hfind
    rw [h.body?_eq_none]
    simp [body?, hfind]
  · rw [if_neg hq] at hfind
    exact body?_congr hfind

/-- The function `p` is done, and its result has the type `ty`. -/
def Defines (s : Session) (p : Point) (ty : Ty) : Prop :=
  p.kind ≠ .type ∧ ∃ body, s.body? p = some body ∧ body.ty = ty

/-- Every body agrees with the bodies that were done before it. -/
def Linked (s : Session) : Prop :=
  ∀ before p after, s.finished = before ++ p :: after → ∀ body, s.body? p = some body →
    ∀ c ∈ body.term.calls, c.1.kind ≠ .type ∧ (c.1 ∈ before → s.Defines c.1 c.2)

/-- The second session has the bodies of the first, done in the same order, and then others. -/
structure Continues (s s' : Session) : Prop where
  finished : s.finished <+: s'.finished
  bodies : ∀ p body, s.body? p = some body → s'.body? p = some body

namespace Continues

lemma refl (s : Session) : s.Continues s := ⟨List.prefix_rfl, fun _ _ h => h⟩

lemma trans {s₁ s₂ s₃ : Session} (h : s₁.Continues s₂) (k : s₂.Continues s₃) :
    s₁.Continues s₃ :=
  ⟨h.finished.trans k.finished, fun p body hp => k.bodies p body (h.bodies p body hp)⟩

lemma of_eq {s s' : Session} (hfinished : s'.finished = s.finished)
    (hbodies : ∀ p, s'.body? p = s.body? p) : s.Continues s' :=
  ⟨hfinished ▸ List.prefix_rfl, fun p _ hp => (hbodies p).trans hp⟩

lemma defines {s s' : Session} (h : s.Continues s') {p : Point} {ty : Ty}
    (hp : s.Defines p ty) : s'.Defines p ty := by
  obtain ⟨hkind, body, hbody, hty⟩ := hp
  exact ⟨hkind, body, h.bodies p body hbody, hty⟩

end Continues

lemma Linked.of_eq {s s' : Session} (h : s.Linked) (hfinished : s'.finished = s.finished)
    (hbodies : ∀ p, s'.body? p = s.body? p) : s'.Linked := by
  intro before p after hsplit body hbody c hc
  rw [hfinished] at hsplit
  rw [hbodies] at hbody
  obtain ⟨hkind, hbefore⟩ := h before p after hsplit body hbody c hc
  exact ⟨hkind, fun hmem => (Continues.of_eq hfinished hbodies).defines (hbefore hmem)⟩

variable {stack : List Point}

/-- Forgetting keeps what was done before the mark. -/
lemma continues_forgetSince {s₀ : Session} (h₀ : s₀.Consistent stack)
    (h : s.finished.Nodup) (hle : s₀.Continues s) :
    s₀.Continues (s.forgetSince s₀.finished.length) := by
  obtain ⟨rest, hrest⟩ := hle.finished
  have htake : s.finished.take s₀.finished.length = s₀.finished := by simp [← hrest]
  have hdrop : s.finished.drop s₀.finished.length = rest := by simp [← hrest]
  rw [← hrest, List.nodup_append] at h
  refine ⟨?_, fun p body hp => ?_⟩
  · change s₀.finished <+: s.finished.take s₀.finished.length
    simp only [htake, List.prefix_rfl]
  · have hmem : p ∈ s₀.finished := (h₀.done p).2 (done_iff.2 ⟨body, hp⟩)
    rw [body?_forgetSince, hdrop, if_neg fun hp' => h.2.2 p hmem p hp' rfl]
    exact hle.bodies p body hp

lemma Linked.forgetSince (h : s.Linked) (hnodup : s.finished.Nodup) (mark : Nat) :
    (s.forgetSince mark).Linked := by
  intro before p after hsplit body hbody c hc
  change s.finished.take mark = _ at hsplit
  have hfinished : s.finished = before ++ p :: (after ++ s.finished.drop mark) := by
    rw [← List.cons_append, ← List.append_assoc, ← hsplit, List.take_append_drop]
  have hkept : ∀ q, q ∈ s.finished.take mark → (s.forgetSince mark).body? q = s.body? q := by
    intro q hq
    have hdisjoint := hnodup
    rw [← List.take_append_drop mark s.finished, List.nodup_append] at hdisjoint
    rw [body?_forgetSince, if_neg fun hq' => hdisjoint.2.2 q hq q hq' rfl]
  rw [hkept p (by simp [hsplit])] at hbody
  obtain ⟨hkind, hbefore⟩ := h before p _ hfinished body hbody c hc
  refine ⟨hkind, fun hmem => ?_⟩
  obtain ⟨-, body', hbody', hty⟩ := hbefore hmem
  exact ⟨hkind, body', (hkept c.1 (by simp [hsplit, hmem])).trans hbody', hty⟩

/-- A body that is done last agrees with those before it if its calls were right when they were
emitted: the join points that only had a promise are not done yet. -/
theorem Linked.complete (h : s.Linked) (hcons : s.Consistent (p :: stack)) (body : Body)
    {s' : Session} (hpoints : s'.points = s.points.setProgress p (.done body))
    (hfinished : s'.finished = s.finished ++ [p])
    (hcalls : ∀ c ∈ body.term.calls, c.1.kind ≠ .type ∧
      (s.Defines c.1 c.2 ∨ c.1 ∈ p :: stack)) : s'.Linked := by
  have hp : s.InEvaluation p := (hcons.inEvaluation p).1 (List.mem_cons_self ..)
  have hbodies := body?_setDone hp body hpoints
  have hold : ∀ q, q ∈ s.finished → s'.body? q = s.body? q := by
    intro q hq
    rw [hbodies, if_neg]
    rintro rfl
    exact hp.not_done ((hcons.done q).1 hq)
  have hdefines : ∀ q ty, q ∈ s.finished → s.Defines q ty → s'.Defines q ty := by
    rintro q ty hq ⟨hkind, body', hbody', hty⟩
    exact ⟨hkind, body', (hold q hq).trans hbody', hty⟩
  intro before q after hsplit body' hbody' c hc
  rw [hfinished] at hsplit
  rcases List.eq_nil_or_concat after with rfl | ⟨init, last, rfl⟩
  · -- The body that was just done.
    obtain ⟨rfl, hq⟩ := List.append_inj' hsplit rfl
    cases hq
    rw [hbodies, if_pos rfl] at hbody'
    cases hbody'
    obtain ⟨hkind, hcall⟩ := hcalls c hc
    refine ⟨hkind, fun hmem => hdefines _ _ hmem ?_⟩
    rcases hcall with hcall | hcall
    · exact hcall
    · exact absurd ((hcons.done c.1).1 hmem) ((hcons.inEvaluation c.1).1 hcall).not_done
  · rw [List.concat_eq_append, ← List.cons_append, ← List.append_assoc] at hsplit
    obtain ⟨hsplit, -⟩ := List.append_inj' hsplit rfl
    rw [hold q (by simp [hsplit])] at hbody'
    obtain ⟨hkind, hbefore⟩ := h before q init hsplit body' hbody' c hc
    exact ⟨hkind, fun hmem => hdefines _ _ (by simp [hsplit, hmem]) (hbefore hmem)⟩

end Session

/-- A call of `p` that expects the type `ty` may be emitted: `p` is done with this type, or it is
in evaluation. -/
def Session.Callable (stack : List Point) (s : Session) (p : Point) (ty : Ty) : Prop :=
  p.kind ≠ .type ∧ (s.Defines p ty ∨ p ∈ stack)

lemma Session.Callable.continues {stack : List Point} {s s' : Session} {p : Point} {ty : Ty}
    (h : s.Callable stack p ty) (hs : s.Continues s') : s'.Callable stack p ty :=
  ⟨h.1, h.2.imp_left hs.defines⟩

/-- The table is consistent, the bodies agree with those before them, and the calls in the
statements were right when they were emitted. -/
structure World.Linked (w : World) (stack : List Point) : Prop where
  inStack : w.InStack stack
  bodies : w.session.Linked
  stmts : ∀ s ∈ w.scope.stmts, ∀ c ∈ s.calls, w.session.Callable stack c.1 c.2

/-- Nothing that was done before is gone. -/
structure World.Continues (w w' : World) : Prop where
  later : w.Later w'
  bodies : w.session.Continues w'.session

namespace World.Linked

variable {w w' : World} {stack : List Point} {p : Point}

lemma mono_stmts (h : w.Linked stack) (hle : w.session.Continues w'.session)
    (hstmts : w'.scope.stmts = w.scope.stmts) :
    ∀ s ∈ w'.scope.stmts, ∀ c ∈ s.calls, w'.session.Callable stack c.1 c.2 := by
  intro s hs c hc
  rw [hstmts] at hs
  exact (h.stmts s hs c hc).continues hle

lemma quiet (h : w.Linked stack) {s' : Session} (hq : w.session.Quiet s') :
    World.Linked { w with session := s' } stack ∧ w.Continues { w with session := s' } := by
  have hpoints : s'.points = w.session.points := by rw [hq.rest]
  have hfinished : s'.finished = w.session.finished := by rw [hq.rest]
  have hbodies : ∀ p, s'.body? p = w.session.body? p := by
    intro p
    unfold Session.body? Session.find?
    rw [hpoints]
  have hle : w.session.Continues s' := .of_eq hfinished hbodies
  exact ⟨⟨⟨h.inStack.table.quiet hq, h.inStack.owner⟩, h.bodies.of_eq hfinished hbodies,
    h.mono_stmts hle rfl⟩, ⟨hq.grows, rfl⟩, hle⟩

lemma push (h : w.Linked stack) {s : Stmt}
    (hs : ∀ c ∈ s.calls, w.session.Callable stack c.1 c.2) : (w.push s).Linked stack := by
  refine ⟨⟨h.inStack.table, h.inStack.owner⟩, h.bodies, fun s' hs' c hc => ?_⟩
  rcases List.mem_append.1 hs' with hs' | hs'
  · exact h.stmts s' hs' c hc
  · rw [List.mem_singleton] at hs'
    subst hs'
    exact hs c hc

lemma leaveBranch (h : w.Linked stack) (h' : w'.Linked stack)
    (hle : w.enterBranch.Continues w') : (w.leaveBranch w').Linked stack :=
  ⟨⟨h'.inStack.table, h'.inStack.owner⟩, h'.bodies, h.mono_stmts hle.bodies rfl⟩

lemma guess (h : w.Linked stack) (hp : w.scope.owner = some p) (ty : Option Ty) :
    (w.setPending p ty).Linked stack ∧ w.session.Continues (w.setPending p ty).session := by
  have hin := (h.inStack.table.inEvaluation p).1 (h.inStack.mem_owner hp)
  have hbodies := Session.body?_setPending hin ty
  have hle : w.session.Continues (w.setPending p ty).session := .of_eq rfl hbodies
  exact ⟨⟨⟨h.inStack.table.setPending (h.inStack.mem_owner hp) _, h.inStack.owner⟩,
    h.bodies.of_eq rfl hbodies, h.mono_stmts hle rfl⟩, hle⟩

/-- What was done under a guess is forgotten. -/
theorem retract (h : w.Linked stack) (hp : w.scope.owner = some p) (h' : w'.Linked stack)
    {ty : Option Ty} (hle : (w.setPending p ty).Continues w')
    (hstmts : w'.scope.stmts = w.scope.stmts) :
    (w'.retract p w.session.finished.length).Linked stack ∧
      w.session.Continues (w'.retract p w.session.finished.length).session := by
  have hle' : w.session.Continues w'.session := (h.guess hp ty).2.trans hle.bodies
  have hp' : w'.scope.owner = some p := hle.later.owner.trans hp
  have hforget := Session.continues_forgetSince h.inStack.table h'.inStack.table.finished hle'
  have hlinked : World.Linked
      { w' with session := w'.session.forgetSince w.session.finished.length } stack :=
    ⟨⟨h'.inStack.table.forgetSince _, h'.inStack.owner⟩,
      h'.bodies.forgetSince h'.inStack.table.finished _, h.mono_stmts hforget hstmts⟩
  obtain ⟨hretract, hbodies⟩ := hlinked.guess hp' none
  exact ⟨hretract, hforget.trans hbodies⟩

lemma start (h : w.Linked stack) (hnone : w.session.find? p = none)
    (hlimit : w.session.depth < w.session.settings.maxDepth) (captured : Eval.Captured)
    (annot : Option Ty) : (w.atBody p captured annot).Linked (p :: stack) :=
  ⟨h.inStack.start hnone hlimit captured annot,
    h.bodies.of_eq rfl (Session.body?_start hnone annot w.scope.trace _),
    fun _ hs => absurd hs List.not_mem_nil⟩

lemma continues_atBody (hnone : w.session.find? p = none) (captured : Eval.Captured)
    (annot : Option Ty) : w.session.Continues (w.atBody p captured annot).session :=
  .of_eq rfl (Session.body?_start hnone annot w.scope.trace _)

lemma complete (h : w.Linked stack) (h' : w'.Linked (p :: stack))
    (hle : w.session.Continues w'.session) (term : Term) (captured : Eval.Captured)
    (hcalls : ∀ c ∈ term.calls, w'.session.Callable (p :: stack) c.1 c.2) :
    ((w'.setScope w.scope).complete p term captured).Linked stack ∧
      w.session.Continues ((w'.setScope w.scope).complete p term captured).session ∧
      (p.kind ≠ .type → Session.Defines
        ((w'.setScope w.scope).complete p term captured).session p (p.bodyTy term)) := by
  have hp : w'.session.InEvaluation p :=
    (h'.inStack.table.inEvaluation p).1 (List.mem_cons_self ..)
  have hbodies : ∀ q, ((w'.setScope w.scope).complete p term captured).session.body? q =
      if q = p then some ⟨term, p.bodyTy term, captured.params, captured.closureParam⟩
      else w'.session.body? q :=
    Session.body?_setDone hp _ rfl
  have hle' : w.session.Continues ((w'.setScope w.scope).complete p term captured).session := by
    refine ⟨hle.finished.trans (List.prefix_append _ _), fun q body hq => ?_⟩
    have hq' := hle.bodies q body hq
    rw [hbodies, if_neg, hq']
    rintro rfl
    rw [hp.body?_eq_none] at hq'
    cases hq'
  refine ⟨⟨h.inStack.complete h'.inStack _ _, ?_, h.mono_stmts hle' rfl⟩, hle', fun hkind => ?_⟩
  · exact h'.bodies.complete h'.inStack.table _ rfl rfl hcalls
  · exact ⟨hkind, _, (hbodies p).trans (if_pos rfl), rfl⟩

lemma abandon (h : w.Linked stack) (h' : w'.Linked (p :: stack))
    (hle : w.session.Continues w'.session) :
    ((w'.setScope w.scope).abandon p).Linked stack ∧
      w.session.Continues ((w'.setScope w.scope).abandon p).session := by
  have hp : w'.session.InEvaluation p :=
    (h'.inStack.table.inEvaluation p).1 (List.mem_cons_self ..)
  have hbodies := Session.body?_abandon hp (w'.session.depth - 1)
  have hle' : w.session.Continues ((w'.setScope w.scope).abandon p).session :=
    hle.trans (.of_eq rfl hbodies)
  exact ⟨⟨h.inStack.abandon h'.inStack, h'.bodies.of_eq rfl hbodies, h.mono_stmts hle' rfl⟩, hle'⟩

end World.Linked

/-- Evaluation keeps every body in agreement with those that were done before it. -/
def Discipline.links : Discipline where
  Index := List Point
  strict := True
  Inv stack w := w.Linked stack
  Le := World.Continues
  Known stack s p ty := s.Callable stack p (p.kind.result ty)
  inner stack p := p :: stack
  within i _ := i
  le_refl w := ⟨.refl w, .refl _⟩
  le_trans h k := ⟨h.later.trans k.later, h.bodies.trans k.bodies⟩
  le_grows h := h.later.grows
  le_owner h := h.later.owner
  known_le _ hle h := h.continues hle.bodies
  known_pending h hkind hfind _ :=
    ⟨hkind, .inr ((h.inStack.table.inEvaluation _).2 ⟨_, _, hfind⟩)⟩
  known_done _ hkind hfind hty :=
    ⟨hkind, .inl ⟨hkind, _, Session.body?_eq_some_iff.2 ⟨_, hfind⟩, hty.result_eq.symm⟩⟩
  known_stmts _ h s hs := Stmt.forall_calls.1 (h.stmts s hs)
  quiet h hq := h.quiet hq
  tags h _ := ⟨⟨⟨h.inStack.table, h.inStack.owner⟩, h.bodies, h.stmts⟩, ⟨.refl _, rfl⟩, .refl _⟩
  push h hs := ⟨h.push (Stmt.forall_calls.2 (hs trivial)), ⟨.refl _, rfl⟩, .refl _⟩
  share h _ _ _ := ⟨⟨⟨h.inStack.table, h.inStack.owner⟩, h.bodies, h.stmts⟩,
    ⟨.refl _, rfl⟩, .refl _⟩
  setEnv _ h := ⟨⟨h.inStack.table, h.inStack.owner⟩, h.bodies, h.stmts⟩
  resetEnv _ h := ⟨⟨h.later.grows, h.later.owner⟩, h.bodies⟩
  setTrace _ h := ⟨⟨h.inStack.table, h.inStack.owner⟩, h.bodies, h.stmts⟩
  resetTrace _ h := ⟨⟨h.later.grows, h.later.owner⟩, h.bodies⟩
  enterBranch h := ⟨⟨h.inStack.table, h.inStack.owner⟩, h.bodies,
    fun s hs => absurd hs List.not_mem_nil⟩
  leaveBranch h h' hle :=
    ⟨h.leaveBranch h' hle, ⟨hle.later.grows, hle.later.owner⟩, hle.bodies⟩
  guess _ h hp _ := ⟨(h.guess hp _).1,
    (World.Later.refl _).of_tables ⟨rfl, rfl, rfl⟩ ⟨rfl, rfl, rfl⟩ rfl, (h.guess hp _).2⟩
  retract h hp _ h' hle hstmts := ⟨(h.retract hp h' hle hstmts).1,
    hle.later.of_tables ⟨rfl, rfl, rfl⟩ ⟨rfl, rfl, rfl⟩ hle.later.owner,
    (h.retract hp h' hle hstmts).2⟩
  start h hnone hlimit _ := h.start hnone hlimit _ _
  complete h hnone _ h' hle hcalls _ _ := by
    obtain ⟨hlinked, hbodies, hdefines⟩ := h.complete h'
      ((World.Linked.continues_atBody hnone _ _).trans hle.bodies) _ _
      (Term.forall_calls.2 (hcalls trivial))
    exact ⟨hlinked, ⟨hle.later.of_tables ⟨rfl, rfl, rfl⟩ ⟨rfl, rfl, rfl⟩ rfl, hbodies⟩,
      fun hkind _ hty => ⟨hkind, .inl (hty.result_eq ▸ hdefines hkind)⟩⟩
  abandon h hnone h' hle := by
    obtain ⟨hlinked, hbodies⟩ :=
      h.abandon h' ((World.Linked.continues_atBody hnone _ _).trans hle.bodies)
    exact ⟨hlinked, hle.later.of_tables ⟨rfl, rfl, rfl⟩ ⟨rfl, rfl, rfl⟩ rfl, hbodies⟩

instance : Discipline.links.Unguarded :=
  ⟨fun _ _ => trivial, fun _ _ _ => trivial, fun h => h⟩

end Residual
