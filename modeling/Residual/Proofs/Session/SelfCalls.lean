import Residual.Proofs.Eval.Fuel
import Residual.Proofs.Eval.Retries
import Residual.Proofs.Session.Programs
import Residual.Proofs.Session.TypeTable

/-!
The calls of a join point in its own body.

While a body is evaluated a call of its own join point takes the type that was promised: by the
program, or by a split that took it from one of its branches. Main statement: when the body is done
its own calls have its type, unless a split guessed the type after another split, in one of its
branches, had already told it. That is possible: the split looks at whether the type was known when
the branch recursed, not at whether it is known now, and the calls under the first guess stay.
-/

namespace Residual

open Eval

/-! ### Guesses of a type that is known -/

namespace Eval

/-- The first run of the branches of a split ends with a guess of the type of `p`, and this type
has been told already. -/
def guessesAgain (p : Point) (acts : List (Eval Term)) (w : World) : Bool :=
  match exec (firstRun acts) w with
  | (.ok (bodies, some (_, q)), w') =>
    q == p && (firstType? (bodies.filterMap id)).isSome &&
      match w'.session.find? p with
      | some ⟨.pending (some _), _⟩ => true
      | _ => false
  | _ => false

/-- Evaluation that gives up at a split which would guess the type of `p` although it is known. -/
def evalOnceGuessed (p : Point) : Nat → Expr → Eval Term
  | 0, _ => throw .outOfFuel
  | fuel + 1, e => do
    if (split? (evalOnceGuessed p fuel) e (← get)).any fun r => guessesAgain p r.1 r.2 then
      throw .outOfFuel
    else step (evalOnceGuessed p fuel) e

lemma exec_evalOnceGuessed (p : Point) (fuel : Nat) (e : Expr) (w : World) :
    exec (evalOnceGuessed p (fuel + 1) e) w =
      if (split? (evalOnceGuessed p fuel) e w).any fun r => guessesAgain p r.1 r.2 then
        (.error .outOfFuel, w)
      else exec (step (evalOnceGuessed p fuel) e) w := by
  rw [evalOnceGuessed, exec_bind_of_ok (exec_get w)]
  split <;> rfl

/-- Where it does not give up it does what evaluation does. -/
lemma lower_evalOnceGuessed (p : Point) (fuel : Nat) :
    Lower (evalOnceGuessed p fuel) (eval fuel) := by
  induction fuel with
  | zero => exact .outOfFuel _
  | succ fuel ih =>
    refine ⟨fun e w => ?_, fun e w => ?_⟩
    all_goals rw [exec_evalOnceGuessed]; split
    · exact .refl w
    · exact ih.step.framed e w
    · exact .inr rfl
    · exact ih.step.agree e w

lemma guessesAgain_eq_false {p : Point} {acts : List (Eval Term)} {w w' : World}
    {bodies : List (Option Term)} {fault : Fault} {ty : Ty} (h : guessesAgain p acts w = false)
    (hfirst : exec (firstRun acts) w = (.ok (bodies, some (fault, p)), w'))
    (hty : firstType? (bodies.filterMap id) = some ty) (promised : Ty) (trace : Trace) :
    w'.session.find? p ≠ some ⟨.pending (some promised), trace⟩ := by
  intro hfind
  simp only [guessesAgain, hfirst, hty, hfind, beq_self_eq_true, Option.isSome_some,
    Bool.and_self, Bool.true_eq_false] at h

/-- A body that passes its check has the type that was promised. -/
lemma promised_of_checkBody {p : Point} {term : Term} {w : World} {ty : Ty} {trace : Trace}
    (h : (exec (checkBody p term) w).1 = .ok ())
    (hfind : w.session.find? p = some ⟨.pending (some ty), trace⟩) : (ty == term.ty) = true := by
  have hexpected : exec (expectedType p) w = (.ok (some ty), w) := by
    unfold expectedType
    rw [exec_bind_of_ok (exec_getSession w), hfind]
    rfl
  unfold checkBody at h
  dsimp only at h
  split at h
  · rw [exec_bind_of_error (exec_fail _ w)] at h
    cases h
  · rw [exec_bind_of_ok hexpected] at h
    dsimp only at h
    split at h
    · rw [exec_bind_of_error (exec_fail _ w)] at h
      cases h
    · rename_i hne
      cases heq : ty == term.ty with
      | true => rfl
      | false =>
        rw [heq] at hne
        exact absurd rfl hne

end Eval

/-! ### The invariant -/

/-- The calls of `p` in its own body have the type of the body. -/
def Body.SelfTyped (p : Point) (body : Body) : Prop :=
  ∀ site ∈ body.term.sites, site.1 = p → ∃ ty, p.kind.Expects site.2 ty ∧ (ty == body.ty) = true

/-- A type was promised for the join point, and a call of it can have the type `callTy`. -/
def Session.Promises (s : Session) (p : Point) (callTy : Ty) : Prop :=
  ∃ ty trace, s.find? p = some ⟨.pending (some ty), trace⟩ ∧ p.kind.Expects callTy ty

/-- The body of `p` has its type in its own calls, and where this body is evaluated the calls so
far have the type that is promised. -/
structure World.SelfTyped (w : World) (p : Point) (stack : List Point) : Prop where
  inStack : w.InStack stack
  body : p.kind ≠ .type → ∀ body, w.session.body? p = some body → body.SelfTyped p
  stmts : stack.head? = some p → ∀ s ∈ w.scope.stmts, ∀ site ∈ s.sites, site.1 = p →
    w.session.Promises p site.2

/-- The tables only grow, and a type that is promised for `p` stays. -/
structure World.KeepsPromise (p : Point) (w w' : World) : Prop where
  later : w.Later w'
  promise : ∀ ty trace, w.session.find? p = some ⟨.pending (some ty), trace⟩ →
    w'.session.find? p = some ⟨.pending (some ty), trace⟩

namespace World.KeepsPromise

variable {p : Point} {w w' w₁ w₂ w₃ : World}

lemma refl (w : World) : w.KeepsPromise p w := ⟨.refl w, fun _ _ h => h⟩

lemma trans (h : w₁.KeepsPromise p w₂) (k : w₂.KeepsPromise p w₃) : w₁.KeepsPromise p w₃ :=
  ⟨h.later.trans k.later, fun ty trace hp => k.promise ty trace (h.promise ty trace hp)⟩

/-- The table of join points is the same. -/
theorem of_points (hlater : w.Later w') (hpoints : w'.session.points = w.session.points) :
    w.KeepsPromise p w' := by
  refine ⟨hlater, fun ty trace h => ?_⟩
  unfold Session.find?
  rw [hpoints]
  exact h

lemma promises (h : w.KeepsPromise p w') {callTy : Ty} (hp : w.session.Promises p callTy) :
    w'.session.Promises p callTy := by
  obtain ⟨ty, trace, hfind, hexpects⟩ := hp
  exact ⟨ty, trace, h.promise ty trace hfind, hexpects⟩

end World.KeepsPromise

namespace World.SelfTyped

variable {w w' : World} {p q : Point} {stack : List Point}

/-- Nothing that matters has changed. -/
theorem of_eq (h : w.SelfTyped p stack) (hin : w'.InStack stack)
    (hbody : w'.session.body? p = w.session.body? p) (hkeeps : w.KeepsPromise p w')
    (hstmts : w'.scope.stmts = w.scope.stmts) : w'.SelfTyped p stack := by
  refine ⟨hin, ?_, ?_⟩
  · rw [hbody]
    exact h.body
  · rw [hstmts]
    exact fun htop s hs site hsite heq => hkeeps.promises (h.stmts htop s hs site hsite heq)

/-- The promise that is not there yet may be made. -/
theorem guess (h : w.SelfTyped p stack) (hq : w.scope.owner = some q)
    (hnew : q = p → ∀ ty trace, w.session.find? p ≠ some ⟨.pending (some ty), trace⟩)
    (ty : Option Ty) :
    (w.setPending q ty).SelfTyped p stack ∧ w.KeepsPromise p (w.setPending q ty) := by
  have hmem := h.inStack.mem_owner hq
  have hkeeps : w.KeepsPromise p (w.setPending q ty) := by
    refine ⟨(World.Later.refl w).of_tables ⟨rfl, rfl, rfl⟩ ⟨rfl, rfl, rfl⟩ rfl,
      fun promised trace hfind => ?_⟩
    rw [World.find?_setPending, if_neg fun heq => hnew heq.symm promised trace hfind]
    exact hfind
  refine ⟨h.of_eq ⟨h.inStack.table.setPending hmem ty, h.inStack.owner⟩ ?_ hkeeps rfl, hkeeps⟩
  exact Session.body?_setPending ((h.inStack.table.inEvaluation q).1 hmem) ty p

lemma forgetSince (h : w.SelfTyped p stack) (mark : Nat) :
    World.SelfTyped { w with session := w.session.forgetSince mark } p stack ∧
      w.KeepsPromise p { w with session := w.session.forgetSince mark } := by
  have hkeeps : w.KeepsPromise p { w with session := w.session.forgetSince mark } := by
    refine ⟨(World.Later.refl w).of_tables ⟨rfl, rfl, rfl⟩ ⟨rfl, rfl, rfl⟩ rfl,
      fun promised trace hfind => ?_⟩
    have hforget : (w.session.forgetSince mark).find? p =
        if p ∈ w.session.finished.drop mark then none else w.session.find? p :=
      PointTable.get?_foldl_erase _ _ _
    -- What is in evaluation is not done, so it is not forgotten.
    have hpending : w.session.InEvaluation p := ⟨_, _, hfind⟩
    rw [hforget, if_neg fun hmem =>
      hpending.not_done ((h.inStack.table.done p).1 (List.mem_of_mem_drop hmem))]
    exact hfind
  refine ⟨⟨⟨h.inStack.table.forgetSince mark, h.inStack.owner⟩, fun hkind body hbody => ?_,
    fun htop s hs site hsite heq => hkeeps.promises (h.stmts htop s hs site hsite heq)⟩, hkeeps⟩
  rw [Session.body?_forgetSince] at hbody
  split at hbody
  · cases hbody
  · exact h.body hkind body hbody

/-- A guess is only taken back where no type was known before it. -/
theorem retract (h : w.SelfTyped p stack) (hq : w.scope.owner = some q)
    (hnew : q = p → ∀ ty trace, w.session.find? p ≠ some ⟨.pending (some ty), trace⟩)
    {ty : Option Ty} (h' : w'.SelfTyped p stack) (hle : (w.setPending q ty).KeepsPromise p w')
    (hstmts : w'.scope.stmts = w.scope.stmts) (mark : Nat) :
    (w'.retract q mark).SelfTyped p stack ∧ w.KeepsPromise p (w'.retract q mark) := by
  obtain ⟨hforget, hkeeps'⟩ := h'.forgetSince mark
  have hkeeps : w.KeepsPromise p (w'.retract q mark) := by
    refine ⟨hle.later.of_tables ⟨rfl, rfl, rfl⟩ ⟨rfl, rfl, rfl⟩ hle.later.owner,
      fun promised trace hfind => ?_⟩
    have hne : p ≠ q := fun heq => hnew heq.symm promised trace hfind
    refine (World.find?_setPending _ q none p).trans ((if_neg hne).trans ?_)
    refine hkeeps'.promise promised trace (hle.promise promised trace ?_)
    rw [World.find?_setPending, if_neg hne, hfind]
  have hmem : q ∈ stack := h'.inStack.mem_owner (hle.later.owner.trans hq)
  refine ⟨⟨⟨hforget.inStack.table.setPending hmem none, h'.inStack.owner⟩, ?_, ?_⟩, hkeeps⟩
  · have hbody : (w'.retract q mark).session.body? p = (w'.session.forgetSince mark).body? p :=
      Session.body?_setPending ((hforget.inStack.table.inEvaluation q).1 hmem) none p
    rw [hbody]
    exact hforget.body
  · intro htop s hs site hsite heq
    exact hkeeps.promises (h.stmts htop s (hstmts ▸ hs) site hsite heq)

lemma quiet (h : w.SelfTyped p stack) {s' : Session} (hq : w.session.Quiet s') :
    World.SelfTyped { w with session := s' } p stack ∧
      w.KeepsPromise p { w with session := s' } := by
  have hpoints : s'.points = w.session.points := by rw [hq.rest]
  have hkeeps : w.KeepsPromise p { w with session := s' } := .of_points ⟨hq.grows, rfl⟩ hpoints
  refine ⟨h.of_eq ⟨h.inStack.table.quiet hq, h.inStack.owner⟩ ?_ hkeeps rfl, hkeeps⟩
  exact Session.body?_congr (by unfold Session.find?; rw [hpoints])

/-- A body that is done has the type that was promised in its own calls. -/
theorem complete (h : w.SelfTyped p stack) (hnone : w.session.find? q = none)
    (h' : w'.SelfTyped p (q :: stack)) {captured : Captured} {annot : Option Ty}
    (hle : (w.atBody q captured annot).KeepsPromise p w') {term : Term}
    (hsites : q = p → ∀ site ∈ term.sites, site.1 = p → w'.session.Promises p site.2)
    (hcheck : (exec (checkBody q term) (w'.setScope w.scope)).1 = .ok ()) :
    ((w'.setScope w.scope).complete q term captured).SelfTyped p stack ∧
      w.KeepsPromise p ((w'.setScope w.scope).complete q term captured) := by
  have hq := (h'.inStack.table.inEvaluation q).1 (List.mem_cons_self ..)
  have hbodies : ((w'.setScope w.scope).complete q term captured).session.body? p =
      if p = q then some ⟨term, q.bodyTy term, captured.params, captured.closureParam⟩
      else w'.session.body? p :=
    Session.body?_setDone hq _ rfl p
  have hkeeps : w.KeepsPromise p ((w'.setScope w.scope).complete q term captured) := by
    refine ⟨hle.later.of_tables ⟨rfl, rfl, rfl⟩ ⟨rfl, rfl, rfl⟩ rfl, fun ty trace hfind => ?_⟩
    have hne : p ≠ q := fun heq => by rw [heq, hnone] at hfind; cases hfind
    rw [World.find?_complete, if_neg hne]
    refine hle.promise ty trace ?_
    rw [World.find?_atBody, if_neg hne, hfind]
  refine ⟨⟨h.inStack.complete h'.inStack _ _, fun hkind body hbody => ?_,
    fun htop s hs site hsite heq => hkeeps.promises (h.stmts htop s hs site hsite heq)⟩, hkeeps⟩
  rw [hbodies] at hbody
  split at hbody
  · rename_i hpq
    subst hpq
    cases hbody
    intro site hsite heq
    obtain ⟨ty, trace, hfind, hexpects⟩ := hsites rfl site hsite heq
    refine ⟨ty, hexpects, ?_⟩
    rw [Point.bodyTy, if_neg fun hand => hkind hand.1]
    exact promised_of_checkBody hcheck hfind
  · exact h'.body hkind body hbody

lemma abandon (h : w.SelfTyped p stack) (hnone : w.session.find? q = none)
    (h' : w'.SelfTyped p (q :: stack)) {captured : Captured} {annot : Option Ty}
    (hle : (w.atBody q captured annot).KeepsPromise p w') :
    ((w'.setScope w.scope).abandon q).SelfTyped p stack ∧
      w.KeepsPromise p ((w'.setScope w.scope).abandon q) := by
  have hq := (h'.inStack.table.inEvaluation q).1 (List.mem_cons_self ..)
  have hkeeps : w.KeepsPromise p ((w'.setScope w.scope).abandon q) := by
    refine ⟨hle.later.of_tables ⟨rfl, rfl, rfl⟩ ⟨rfl, rfl, rfl⟩ rfl, fun ty trace hfind => ?_⟩
    have hne : p ≠ q := fun heq => by rw [heq, hnone] at hfind; cases hfind
    rw [World.find?_abandon, if_neg hne]
    refine hle.promise ty trace ?_
    rw [World.find?_atBody, if_neg hne, hfind]
  refine ⟨⟨h.inStack.abandon h'.inStack, fun hkind body hbody => ?_,
    fun htop s hs site hsite heq => hkeeps.promises (h.stmts htop s hs site hsite heq)⟩, hkeeps⟩
  have hsame : ((w'.setScope w.scope).abandon q).session.body? p = w'.session.body? p :=
    Session.body?_abandon hq _ p
  rw [hsame] at hbody
  exact h'.body hkind body hbody

end World.SelfTyped

/-- Evaluation gives the calls of `p` in its own body the type of the body, if its type is only
guessed where it is not known. -/
def Discipline.selfCalls (p : Point) : Discipline where
  Index := List Point
  strict := True
  Inv stack w := w.SelfTyped p stack
  Le := World.KeepsPromise p
  Known stack s q callTy := stack.head? = some p → q = p → s.Promises p callTy
  inner stack q := q :: stack
  within i _ := i
  Guesses _ w q := q = p → ∀ ty trace, w.session.find? p ≠ some ⟨.pending (some ty), trace⟩
  le_refl := .refl
  le_trans := .trans
  le_grows h := h.later.grows
  le_owner h := h.later.owner
  known_le _ hle h htop heq := hle.promises (h htop heq)
  known_pending _ _ hfind hexpects _ heq := by
    subst heq
    exact ⟨_, _, hfind, hexpects⟩
  known_done h _ hfind _ htop heq := by
    subst heq
    -- The join point whose body is evaluated is not done.
    obtain ⟨_, _, hpending⟩ := (h.inStack.table.inEvaluation _).1 (List.mem_of_head? htop)
    rw [hfind] at hpending
    cases hpending
  known_stmts _ h s hs site hsite htop heq := h.stmts htop s hs site hsite heq
  quiet h hq := h.quiet hq
  tags h _ := ⟨⟨⟨h.inStack.table, h.inStack.owner⟩, h.body, h.stmts⟩,
    .of_points ⟨.refl _, rfl⟩ rfl⟩
  push h hs := by
    refine ⟨⟨⟨h.inStack.table, h.inStack.owner⟩, h.body, fun htop s hmem site hsite heq => ?_⟩,
      .of_points ⟨.refl _, rfl⟩ rfl⟩
    rcases List.mem_append.1 hmem with hmem | hmem
    · exact h.stmts htop s hmem site hsite heq
    · rw [List.mem_singleton.1 hmem] at hsite
      exact hs trivial site hsite htop heq
  share h _ _ _ := ⟨⟨⟨h.inStack.table, h.inStack.owner⟩, h.body, h.stmts⟩,
    .of_points ⟨.refl _, rfl⟩ rfl⟩
  setEnv _ h := ⟨⟨h.inStack.table, h.inStack.owner⟩, h.body, h.stmts⟩
  resetEnv _ h := ⟨⟨h.later.grows, h.later.owner⟩, h.promise⟩
  setTrace _ h := ⟨⟨h.inStack.table, h.inStack.owner⟩, h.body, h.stmts⟩
  resetTrace _ h := ⟨⟨h.later.grows, h.later.owner⟩, h.promise⟩
  enterBranch h := ⟨⟨h.inStack.table, h.inStack.owner⟩, h.body,
    fun _ s hs => absurd hs List.not_mem_nil⟩
  leaveBranch h h' hle := by
    refine ⟨⟨⟨h'.inStack.table, h'.inStack.owner⟩, h'.body, fun htop s hs site hsite heq => ?_⟩,
      ⟨hle.later.grows, hle.later.owner⟩, hle.promise⟩
    exact hle.promises (h.stmts htop s hs site hsite heq)
  guess ty h hq hnew := h.guess hq hnew (some ty)
  retract h hq hnew h' hle hstmts := h.retract hq hnew h' hle hstmts _
  start h hnone hlimit _ := by
    refine ⟨h.inStack.start hnone hlimit _ _, fun hkind body hbody => h.body hkind body ?_,
      fun _ s hs => absurd hs List.not_mem_nil⟩
    exact (Session.body?_start hnone _ _ _ p).symm.trans hbody
  complete h hnone _ h' hle hsites hcheck _ := by
    obtain ⟨hinv, hkeeps⟩ := h.complete hnone h' hle (fun heq site hsite hp =>
      hsites trivial site hsite (congrArg some heq) hp) hcheck
    refine ⟨hinv, hkeeps, fun _ callTy _ htop heq => ?_⟩
    -- The join point is new, so it is not the one whose body is evaluated outside.
    subst heq
    obtain ⟨_, _, hpending⟩ := (h.inStack.table.inEvaluation _).1 (List.mem_of_head? htop)
    rw [hnone] at hpending
    cases hpending
  abandon h hnone h' hle := h.abandon hnone h' hle

namespace Discipline

open Eval

/-- A body whose type is told keeps it, since no split guesses another. -/
lemma does_evalOnceGuessed (p : Point) (fuel : Nat) {stack : List Point} {e : Expr} {w : World}
    (he : e.Sorted) :
    (selfCalls p).Does stack w (evalOnceGuessed p fuel e) (evalOnceGuessed p fuel e)
      fun t _ => (selfCalls p).Value t := by
  induction fuel generalizing stack e w with
  | zero => exact .throw _
  | succ fuel ih =>
    have hpair : ∀ stack, (selfCalls p).Pair stack (evalOnceGuessed p fuel)
        (evalOnceGuessed p fuel) := fun stack =>
      ⟨fun e w he => ih (he trivial), fun q e w he => ih (he trivial),
        fun _ _ _ _ _ _ => trivial⟩
    intro hw
    rw [exec_evalOnceGuessed]
    split
    · exact ⟨.refl _, hw, (selfCalls p).le_refl w, fun a ha => by cases ha⟩
    · rename_i hagain
      refine does_step (hpair stack) (fun acts w₀ hsplit => ⟨hpair _, ?_⟩) (fun _ => he) hw
      rintro bodies fault q w' ty hfirst hty rfl
      rw [hsplit.split?_eq, Option.any_some, Bool.not_eq_true] at hagain
      exact guessesAgain_eq_false hagain hfirst hty

end Discipline

/-! ### Sessions -/

/-- In the compilation a split guesses the type of `p` although it is known: to give up there
makes a difference to the run. -/
def Call.GuessesAgain (c : Call) (s : Session) (p : Point) : Prop :=
  exec (evalOnceGuessed p c.fuel c.code) (c.world s) ≠ exec (eval c.fuel c.code) (c.world s)

/-- The body of `p` has its type in its own calls. -/
def Session.SelfTyped (s : Session) (p : Point) : Prop :=
  ∀ body, s.body? p = some body → body.SelfTyped p

lemma Session.SelfTyped.run {s : Session} {p : Point} (hkind : p.kind ≠ .type) (hs : s.Ready)
    (h : s.SelfTyped p) {c : Call} (hc : c.Formed) (hagain : ¬ c.GuessesAgain s p) :
    (c.run s).2.SelfTyped p := by
  have hgood : (Discipline.selfCalls p).Good [] (c.world s) :=
    ⟨⟨hs.table.inStack c, fun _ => h, fun htop => by cases htop⟩, (hc.good hs).2⟩
  obtain ⟨-, hgood', -, -⟩ :=
    Discipline.does_evalOnceGuessed p c.fuel hc.filtered.1 hgood
  rw [Classical.not_not.1 hagain] at hgood'
  rw [c.session_run s]
  exact hgood'.1.body hkind

lemma Session.SelfTyped.after {s : Session} {p : Point} (hkind : p.kind ≠ .type)
    (hs : s.Ready) (h : s.SelfTyped p) {calls : List Call} (hcalls : ∀ c ∈ calls, c.Formed) :
    (s.after calls).SelfTyped p ∨ ∃ before c after, calls = before ++ c :: after ∧
      c.GuessesAgain (s.after before) p := by
  induction calls generalizing s with
  | nil => exact .inl h
  | cons c rest ih =>
    obtain ⟨hc, hrest⟩ := List.forall_mem_cons.1 hcalls
    by_cases hagain : c.GuessesAgain s p
    · exact .inr ⟨[], c, rest, rfl, hagain⟩
    · refine (ih (hs.run hc) (h.run hkind hs hc hagain) hrest).imp_right ?_
      rintro ⟨before, d, after, rfl, hd⟩
      exact ⟨c :: before, d, after, rfl, hd⟩

/-- In every session the body of a function has the type of its code. Its own calls have this type
too, unless in one of the compilations a split guessed the type although it was known. -/
theorem selfCalls_typed (settings : Settings) (calls : List Call)
    (hcalls : ∀ c ∈ calls, c.Formed) (p : Point) (hkind : p.kind ≠ .type) (body : Body)
    (hbody : (Session.after { settings } calls).body? p = some body) :
    body.ty = body.term.ty ∧
      (body.SelfTyped p ∨ ∃ before c after, calls = before ++ c :: after ∧
        c.GuessesAgain (Session.after { settings } before) p) := by
  have htyped := ((Session.settled_new {} settings).after calls).bodies p body hbody
  refine ⟨?_, ?_⟩
  · rw [htyped.1, Point.bodyTy, if_neg fun hand => hkind hand.1]
  · have hnew : Session.SelfTyped { settings } p := fun body hbody => by cases hbody
    exact (hnew.after hkind (.new settings) hcalls).imp_left fun h => h body hbody

/-! ### Two splits

A method calls itself in one branch of a split. The other branch is a number. In the second program
this branch has a split inside that guesses a text before. -/

namespace GuessedTwice

/-- Both are evaluated, the first one first, and the second one is the result. -/
def second (a b : Expr) : Build Expr := do
  Build.op (.tuple (.index 1)) [← Build.tuple [a, b]]

lemma does_second {a b : Expr} (ha : Build.Fine True a) (hb : Build.Fine True b) :
    Build.Does True (second a b) (Build.Fine True) := by
  have hpair : Build.Does True (Build.tuple [a, b]) (Build.Fine True) :=
    Build.does_tuple fun h => ⟨ha h, hb h, trivial⟩
  exact hpair.bind fun _ hpair => Build.does_op₁ hpair

/-- A method that is a split on its argument. The sides may call it. -/
def method (yes no : Expr → Expr → Build Expr) : Build Expr := do
  let f ← Build.name "f"
  let x ← Build.name "x"
  let test ← Build.var x
  let again ← Build.apply (← Build.var f) test
  let body ← Build.joinMethod (← Build.cond test (← yes test again) (← no test again))
  let loop ← Build.expr (.recFunction f x body)
  Build.apply loop (← Build.op .dynamize [← Build.lit (.bool true)])

lemma does_method {yes no : Expr → Expr → Build Expr}
    (hyes : ∀ test again, Build.Fine True test → Build.Fine True again →
      Build.Does True (yes test again) (Build.Fine True))
    (hno : ∀ test again, Build.Fine True test → Build.Fine True again →
      Build.Does True (no test again) (Build.Fine True)) :
    Build.Does True (method yes no) (Build.Fine True) := by
  refine (Build.does_name "f").bind fun f _ => ?_
  refine (Build.does_name "x").bind fun x _ => ?_
  refine (Build.does_var x).bind fun test htest => ?_
  refine (Build.does_var f).bind fun callee hcallee => ?_
  refine (Build.does_op₂ hcallee htest).bind fun again hagain => ?_
  refine (hyes test again htest hagain).bind fun a ha => ?_
  refine (hno test again htest hagain).bind fun b hb => ?_
  refine (Build.does_cond htest ha hb).bind fun split hsplit => ?_
  refine (Build.does_op₁ hsplit).bind fun body hbody => ?_
  refine (Build.does_expr (.recFunction f x body) hbody).bind fun loop hloop => ?_
  exact (Build.does_lit _).bind fun _ hlit => (Build.does_op₁ hlit).bind fun _ hdynamic =>
    Build.does_op₂ hloop hdynamic

def number : Build Expr := Build.lit (.int .i32 5 (by decide))

def text : Build Expr := Build.lit (.string "text")

/-- The result of the method is that of the call or a number. -/
def once : Build Expr := method (fun _ again => pure again) fun _ _ => number

/-- The result is a number. In the second branch the call has that of a text. -/
def twice : Build Expr :=
  method (fun _ again => do second again (← number)) fun test again => do
    let inner ← Build.cond test (← second again (← text)) (← text)
    second inner (← number)

lemma does_once : Build.Does True once (Build.Fine True) :=
  does_method (fun _ _ _ hagain => .pure hagain) fun _ _ _ _ => Build.does_lit _

lemma does_twice : Build.Does True twice (Build.Fine True) := by
  refine does_method (fun _ again _ hagain => ?_) fun test again htest hagain => ?_
  · exact (Build.does_lit _).bind fun _ hnumber => does_second hagain hnumber
  · refine (Build.does_lit _).bind fun _ htext => (does_second hagain htext).bind fun _ hyes => ?_
    refine (Build.does_lit _).bind fun _ hno => (Build.does_cond htest hyes hno).bind
      fun _ hinner => ?_
    exact (Build.does_lit _).bind fun _ hnumber => does_second hinner hnumber

def call (act : Build Expr) : Call := .of act {} 30

lemma formed_call {act : Build Expr} (h : Build.Does True act (Build.Fine True)) :
    (call act).Formed :=
  Call.formed_of h (Session.formed_new {}).store 30

/-- The method. -/
def point : Point := ⟨.method, ⟨0⟩⟩

/-- The method has a call of itself with such a type. -/
def CallsItself (P : Ty → Ty → Prop) (p : Program) : Prop :=
  ∃ f ∈ p.functions, f.point = point ∧
    ∃ site ∈ f.body.term.sites, site.1 = point ∧ P site.2 f.body.ty

instance (P : Ty → Ty → Prop) [∀ a b, Decidable (P a b)] : DecidablePred (CallsItself P) :=
  fun p => inferInstanceAs (Decidable (∃ f ∈ p.functions, f.point = point ∧
    ∃ site ∈ f.body.term.sites, site.1 = point ∧ P site.2 f.body.ty))

/-- A function of a program that a first compilation returns is done after it. -/
lemma body_of_run {c : Call} {p : Program} (h : (c.run {}).1 = .ok p) {f : FunctionDef}
    (hf : f ∈ p.functions) : (Session.after {} [c]).body? f.point = some f.body := by
  obtain ⟨value, w, hrun, rfl⟩ := Call.program_of_run h
  have hsession : Session.after {} [c] = w.session := by
    change (c.run {}).2 = _
    rw [c.session_run, hrun]
  rw [hsession]
  exact (Session.mem_functions.1 hf).2.2

/-- The run in which the type is guessed at most once comes to a result. -/
lemma run_once : ¬ (call once).GuessesAgain {} point := by
  have hok : (exec (evalOnceGuessed point (call once).fuel (call once).code)
      ((call once).world {})).1.toOption.isSome = true := by decide +kernel
  refine fun hagain => hagain ((lower_evalOnceGuessed point (call once).fuel).eq fun hfuel => ?_)
  rw [hfuel] at hok
  cases hok

end GuessedTwice

/-- A method that ends with a number calls itself for one. -/
theorem selfCalls_typed_once : ∃ body,
    (Session.after {} [GuessedTwice.call GuessedTwice.once]).body? GuessedTwice.point =
        some body ∧
      (∃ site ∈ body.term.sites, site.1 = GuessedTwice.point) ∧
      body.SelfTyped GuessedTwice.point := by
  have hrun : ∃ p, ((GuessedTwice.call GuessedTwice.once).run {}).1 = .ok p ∧
      GuessedTwice.CallsItself (fun _ _ => True) p := Call.exists_of_run (by decide +kernel)
  obtain ⟨p, hp, f, hf, hpoint, site, hsite, hself, -⟩ := hrun
  have hbody := hpoint ▸ GuessedTwice.body_of_run hp hf
  refine ⟨f.body, hbody, ⟨site, hsite, hself⟩, ?_⟩
  obtain ⟨-, htyped⟩ := selfCalls_typed {} [GuessedTwice.call GuessedTwice.once]
    (List.forall_mem_singleton.2 (GuessedTwice.formed_call GuessedTwice.does_once))
    GuessedTwice.point (by decide) f.body hbody
  refine htyped.resolve_right ?_
  rintro ⟨before, c, after, hsplit, hagain⟩
  obtain ⟨rfl, hrest⟩ | ⟨_, -, hrest⟩ := List.cons_eq_append_iff.1 hsplit
  · cases hrest
    exact GuessedTwice.run_once hagain
  · simp at hrest

/-- A method can call itself for a text when its result is a number. -/
theorem exists_selfCall_of_other_type : ∃ (calls : List Call) (p : Point) (body : Body),
    (∀ c ∈ calls, c.Formed) ∧ p.kind ≠ .type ∧
      (Session.after {} calls).body? p = some body ∧ ¬ body.SelfTyped p := by
  have hrun : ∃ p, ((GuessedTwice.call GuessedTwice.twice).run {}).1 = .ok p ∧
      GuessedTwice.CallsItself (fun callTy ty => ¬ (callTy == ty) = true) p :=
    Call.exists_of_run (by decide +kernel)
  obtain ⟨p, hp, f, hf, hpoint, site, hsite, hself, hother⟩ := hrun
  refine ⟨[GuessedTwice.call GuessedTwice.twice], GuessedTwice.point, f.body,
    List.forall_mem_singleton.2 (GuessedTwice.formed_call GuessedTwice.does_twice), by decide,
    hpoint ▸ GuessedTwice.body_of_run hp hf, fun htyped => ?_⟩
  obtain ⟨ty, hexpects, hty⟩ := htyped site hsite hself
  cases hexpects
  exact hother hty

end Residual
