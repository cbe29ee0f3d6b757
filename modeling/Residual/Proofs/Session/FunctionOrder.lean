import Residual.Proofs.Eval.Reached
import Residual.Proofs.Session.Programs

/-!
The order of the functions of a program.

A function is listed when its body is done. Main statement: a function calls itself, functions
that were done before it, and functions in whose evaluation its own body was evaluated. The last
ones come later. They call back, directly or through other functions, as long as no code with a
function in it is dropped. Where it is, the request that led to the body is dropped with it.

For this the compilation is compared with two that give up: one where it would evaluate the body of
the caller inside that of the called function, and one where it would drop code.
-/

namespace Residual

open Eval

/-! ### Evaluation that gives up -/

/-- Evaluation that gives up in the worlds to avoid. -/
def Eval.evalAvoiding (avoid : World → Prop) [DecidablePred avoid] : Nat → Expr → Eval Term
  | 0, _ => throw .outOfFuel
  | fuel + 1, e => do
    if avoid (← get) then throw .outOfFuel
    else step (evalAvoiding avoid fuel) e

namespace Discipline

variable {D : Discipline} {avoid : World → Prop} [DecidablePred avoid]

lemma exec_evalAvoiding (fuel : Nat) (e : Expr) (w : World) :
    exec (evalAvoiding avoid (fuel + 1) e) w =
      if avoid w then (.error .outOfFuel, w) else exec (step (evalAvoiding avoid fuel) e) w := by
  rw [evalAvoiding, exec_bind_of_ok (exec_get w)]
  split <;> rfl

lemma not_avoid_of_ok {fuel : Nat} {e : Expr} {w : World} {t : Term}
    (h : (exec (evalAvoiding avoid fuel e) w).1 = .ok t) : ¬ avoid w := by
  intro havoid
  cases fuel with
  | zero => cases h
  | succ fuel =>
    rw [exec_evalAvoiding, if_pos havoid] at h
    cases h

/-- A discipline may say that a body comes to no result if it is entered in a world to avoid. -/
lemma does_evalAvoiding (hends : ∀ i w, ¬ avoid w → D.Ends i w)
    (hguesses : ∀ i w p, D.Guesses i w p) (fuel : Nat) {i : D.Index} {e : Expr} {w : World}
    (he : D.strict → e.Sorted) :
    D.Does i w (evalAvoiding avoid fuel e) (evalAvoiding avoid fuel e) fun t _ => D.Value t := by
  induction fuel generalizing i e w with
  | zero => exact .throw _
  | succ fuel ih =>
    have hpair : ∀ i, D.Pair i (evalAvoiding avoid fuel) (evalAvoiding avoid fuel) := fun i =>
      ⟨fun e w he => ih he, fun p e w he => ih he,
        fun p e w t _ h => hends _ _ (not_avoid_of_ok h)⟩
    intro hw
    rw [exec_evalAvoiding]
    split
    · exact ⟨.refl _, hw, D.le_refl w, fun a ha => by cases ha⟩
    · exact does_step (hpair i) (fun _ _ _ => ⟨hpair _, fun _ _ => hguesses _ _ _⟩) he hw

end Discipline

/-! ### Bodies that only call what was done before -/

instance (s : Session) (p : Point) : Decidable (s.InEvaluation p) :=
  decidable_of_iff (∃ e ∈ s.find? p, e.progress.isPending = true) <| by
    constructor
    · rintro ⟨⟨progress, trace⟩, he, hpending⟩
      cases progress with
      | pending ty => exact ⟨ty, trace, he⟩
      | done body => cases hpending
    · rintro ⟨ty, trace, h⟩
      exact ⟨_, h, rfl⟩

namespace Session

variable {s s' : Session} {p q r : Point} {stack : List Point}

/-- If `q` is done and calls `r`, then `r` was done before it. -/
def CallsBack (s : Session) (q r : Point) : Prop :=
  ∀ before after, s.finished = before ++ q :: after → ∀ body, s.body? q = some body →
    (∃ c ∈ body.term.calls, c.1 = r) → r ∈ before

namespace CallsBack

lemma of_eq (h : s.CallsBack q r) (hfinished : s'.finished = s.finished)
    (hbodies : ∀ p, s'.body? p = s.body? p) : s'.CallsBack q r := by
  intro before after hsplit body hbody
  rw [hfinished] at hsplit
  rw [hbodies] at hbody
  exact h before after hsplit body hbody

lemma forgetSince (h : s.CallsBack q r) (mark : Nat) :
    (s.forgetSince mark).CallsBack q r := by
  intro before after hsplit body hbody
  change s.finished.take mark = _ at hsplit
  have hfinished : s.finished = before ++ q :: (after ++ s.finished.drop mark) := by
    rw [← List.cons_append, ← List.append_assoc, ← hsplit, List.take_append_drop]
  rw [body?_forgetSince] at hbody
  split at hbody
  · cases hbody
  · exact h before _ hfinished body hbody

/-- What is done last only has to be looked at itself. -/
theorem complete (h : s.CallsBack q r) (hcons : s.Consistent (p :: stack)) (body : Body)
    (hpoints : s'.points = s.points.setProgress p (.done body))
    (hfinished : s'.finished = s.finished ++ [p])
    (hcalls : p = q → (∃ c ∈ body.term.calls, c.1 = r) → r ∈ s.finished) : s'.CallsBack q r := by
  have hp : s.InEvaluation p := (hcons.inEvaluation p).1 (List.mem_cons_self ..)
  have hbodies := body?_setDone hp body hpoints
  intro before after hsplit body' hbody' hcall
  rw [hfinished] at hsplit
  rcases List.eq_nil_or_concat after with rfl | ⟨init, last, rfl⟩
  · obtain ⟨rfl, hq⟩ := List.append_inj' hsplit rfl
    cases hq
    rw [hbodies, if_pos rfl] at hbody'
    cases hbody'
    exact hcalls rfl hcall
  · rw [List.concat_eq_append, ← List.cons_append, ← List.append_assoc] at hsplit
    obtain ⟨hsplit, -⟩ := List.append_inj' hsplit rfl
    have hq : q ∈ s.finished := by simp [hsplit]
    have hne : q ≠ p := by
      rintro rfl
      exact hp.not_done ((hcons.done q).1 hq)
    rw [hbodies, if_neg hne] at hbody'
    exact h before init hsplit body' hbody' hcall

end CallsBack

end Session

/-- The body of `q` is evaluated while `r` is in evaluation. -/
def World.Inside (q r : Point) (w : World) : Prop :=
  w.scope.owner = some q ∧ w.session.InEvaluation r

instance (q r : Point) : DecidablePred (World.Inside q r) :=
  fun w => inferInstanceAs (Decidable (w.scope.owner = some q ∧ w.session.InEvaluation r))

/-- The body of `q` that was just done calls what was done before it, if it was not evaluated
inside `r`. -/
lemma World.Linked.mem_finished_of_call {w w' : World} {stack : List Point} {q r : Point}
    (h : w.Linked stack) (hqr : q ≠ r) {captured : Captured} {annot : Option Ty}
    (hends : ¬ (w.atBody q captured annot).Inside q r) (h' : w'.Linked (q :: stack)) {ty : Ty}
    (hcall : w'.session.Callable (q :: stack) r ty) : r ∈ w'.session.finished := by
  rcases hcall.2 with ⟨-, body, hbody, -⟩ | hmem
  · exact (h'.inStack.table.done r).2 (Session.done_iff.2 ⟨body, hbody⟩)
  · have hmem : r ∈ stack := (List.mem_cons.1 hmem).resolve_left (Ne.symm hqr)
    obtain ⟨promised, trace, hfind⟩ := (h.inStack.table.inEvaluation r).1 hmem
    refine absurd ⟨rfl, promised, trace, ?_⟩ hends
    change (w.session.points.insert q _).get? r = _
    rw [PointTable.get?_insert, if_neg (Ne.symm hqr)]
    exact hfind

/-- Bodies are linked, and `q` calls `r` only if it was done before. No body of `q` comes to a
result inside `r`. -/
def Discipline.apart (q r : Point) (hqr : q ≠ r) : Discipline where
  Index := List Point
  strict := True
  Inv stack w := w.Linked stack ∧ w.session.CallsBack q r
  Le := World.Continues
  Known stack s p ty := s.Callable stack p (p.kind.result ty)
  inner stack p := p :: stack
  within i _ := i
  Ends _ w := ¬ w.Inside q r
  le_refl := Discipline.links.le_refl
  le_trans := Discipline.links.le_trans
  le_grows := Discipline.links.le_grows
  le_owner := Discipline.links.le_owner
  known_le h := Discipline.links.known_le h.1
  known_pending h := Discipline.links.known_pending h.1
  known_done h := Discipline.links.known_done h.1
  known_stmts hs h := Discipline.links.known_stmts hs h.1
  quiet h hq := by
    obtain ⟨hinv, hle⟩ := Discipline.links.quiet h.1 hq
    refine ⟨⟨hinv, h.2.of_eq ?_ fun p => ?_⟩, hle⟩
    · dsimp only
      rw [hq.rest]
    · unfold Session.body? Session.find?
      dsimp only
      rw [hq.rest]
  tags h ht := ⟨⟨(Discipline.links.tags h.1 ht).1, h.2⟩, (Discipline.links.tags h.1 ht).2⟩
  push h hs := ⟨⟨(Discipline.links.push h.1 hs).1, h.2⟩, (Discipline.links.push h.1 hs).2⟩
  share h ha hpure hb := ⟨⟨(Discipline.links.share h.1 ha hpure hb).1, h.2⟩,
    (Discipline.links.share h.1 ha hpure hb).2⟩
  setEnv env h := ⟨Discipline.links.setEnv env h.1, h.2⟩
  resetEnv := Discipline.links.resetEnv
  setTrace trace h := ⟨Discipline.links.setTrace trace h.1, h.2⟩
  resetTrace := Discipline.links.resetTrace
  enterBranch h := ⟨Discipline.links.enterBranch h.1, h.2⟩
  leaveBranch h h' hle := ⟨⟨(Discipline.links.leaveBranch h.1 h'.1 hle).1, h'.2⟩,
    (Discipline.links.leaveBranch h.1 h'.1 hle).2⟩
  guess ty h hp _ := by
    obtain ⟨hinv, hle⟩ := Discipline.links.guess ty h.1 hp trivial
    have hin := (h.1.inStack.table.inEvaluation _).1 (h.1.inStack.mem_owner hp)
    exact ⟨⟨hinv, h.2.of_eq rfl (Session.body?_setPending hin _)⟩, hle⟩
  retract h hp _ h' hle hstmts := by
    obtain ⟨hinv, hle'⟩ := Discipline.links.retract h.1 hp trivial h'.1 hle hstmts
    have hmem := h'.1.inStack.mem_owner (hle.later.owner.trans hp)
    refine ⟨⟨hinv, (h'.2.forgetSince _).of_eq rfl (Session.body?_setPending ?_ none)⟩, hle'⟩
    exact ((h'.1.inStack.table.forgetSince _).inEvaluation _).1 hmem
  start h hnone hlimit hasked :=
    ⟨Discipline.links.start h.1 hnone hlimit hasked,
     h.2.of_eq rfl (Session.body?_start hnone _ _ _)⟩
  complete h hnone hasked h' hle hcalls hcheck hends := by
    obtain ⟨hinv, hle', hknown⟩ :=
      Discipline.links.complete h.1 hnone hasked h'.1 hle hcalls hcheck trivial
    refine ⟨⟨hinv, h'.2.complete h'.1.inStack.table _ rfl rfl ?_⟩, hle', hknown⟩
    rintro rfl ⟨c, hc, rfl⟩
    exact h.1.mem_finished_of_call hqr hends h'.1 (Term.forall_calls.2 (hcalls trivial) c hc)
  abandon h hnone h' hle := by
    obtain ⟨hinv, hle'⟩ := Discipline.links.abandon h.1 hnone h'.1 hle
    have hp := (h'.1.inStack.table.inEvaluation _).1 (List.mem_cons_self ..)
    exact ⟨⟨hinv, h'.2.of_eq rfl (Session.body?_abandon hp _)⟩, hle'⟩

/-! ### Programs -/

namespace Program

/-- The function `q` of the program has a call of `r`. -/
def Calls (p : Program) (q r : Point) : Prop :=
  ∃ f ∈ p.functions, f.point = q ∧ ∃ c ∈ f.body.term.calls, c.1 = r

/-- A function only calls functions that stand before it and those that call it back, directly or
through others. -/
def Ordered (p : Program) : Prop :=
  ∀ before f after, p.functions = before ++ f :: after → ∀ g ∈ p.functions,
    (∃ c ∈ f.body.term.calls, c.1 = g.point) →
    g ∈ before ∨ Relation.TransGen p.Calls g.point f.point

/-- The first function calls one that calls nothing. -/
def StartsAhead (p : Program) : Prop :=
  ∃ f ∈ p.functions.head?, ∃ c ∈ f.body.term.calls, (∃ g ∈ p.functions, g.point = c.1) ∧
    ∀ g ∈ p.functions, g.point = c.1 → g.body.term.calls.isEmpty = true

instance (p : Program) : Decidable p.StartsAhead :=
  inferInstanceAs (Decidable (∃ f ∈ p.functions.head?, ∃ c ∈ f.body.term.calls,
    (∃ g ∈ p.functions, g.point = c.1) ∧
      ∀ g ∈ p.functions, g.point = c.1 → g.body.term.calls.isEmpty = true))

/-- What calls nothing leads nowhere. -/
lemma not_leads {p : Program} {q r : Point}
    (hnone : ∀ g ∈ p.functions, g.point = q → g.body.term.calls.isEmpty = true) :
    ¬ Relation.TransGen p.Calls q r := by
  intro hleads
  obtain ⟨_, ⟨g, hg, hpoint, c, hc, -⟩, -⟩ := Relation.TransGen.head'_iff.1 hleads
  rw [List.isEmpty_iff.1 (hnone g hg hpoint)] at hc
  cases hc

lemma StartsAhead.not_ordered {p : Program} (h : p.StartsAhead) : ¬ p.Ordered := by
  obtain ⟨f, hf, c, hc, ⟨g, hg, hpoint⟩, hnone⟩ := h
  obtain ⟨rest, hsplit⟩ := List.head?_eq_some_iff.1 hf
  intro hordered
  rcases hordered [] f rest hsplit g hg ⟨c, hc, hpoint.symm⟩ with hmem | hleads
  · cases hmem
  · exact not_leads hnone (hpoint ▸ hleads)

end Program

/-- The compilation evaluates the body of `q` while `r` is in evaluation: to give up there makes a
difference to the run. -/
def Call.Nests (c : Call) (s : Session) (q r : Point) : Prop :=
  exec (evalAvoiding (World.Inside q r) c.fuel c.code) (c.world s) ≠
    exec (eval c.fuel c.code) (c.world s)

/-- The compilation may drop code: to give up where a function was finished in the body of a type
join point, or by a split that runs a branch again, makes a difference to the run. -/
def Call.Drops (c : Call) (s : Session) : Prop :=
  exec (evalKeeping c.fuel c.code) (c.world s) ≠ exec (eval c.fuel c.code) (c.world s)

/-- What stands before `q` without repetition. -/
lemma mem_of_sublist_split {l r : List Point} {p q : Point} (hnodup : (l ++ q :: r).Nodup)
    (h : [p, q].Sublist (l ++ q :: r)) : p ∈ l := by
  obtain ⟨l₁, l₂, hsplit, hp, hq⟩ := List.cons_sublist_iff.1 h
  have hq : q ∈ l₂ := List.singleton_sublist.1 hq
  rw [hsplit] at hnodup
  rcases List.append_eq_append_iff.1 hsplit with ⟨between, rfl, hrest⟩ | ⟨between, rfl, -⟩
  · cases between with
    | nil => simpa using hp
    | cons b between =>
      -- Else `q` would stand twice.
      cases hrest
      have hmem : q ∈ l ++ q :: between := by simp
      exact absurd rfl ((List.nodup_append.1 hnodup).2.2 q hmem q hq)
  · exact List.mem_append_left _ hp

lemma Session.Calls.program {s : Session} {q r : Point} (h : s.Calls q r) {p : Program}
    (hp : p.functions = s.functions) (hs : s.Consistent []) : p.Calls q r := by
  obtain ⟨hkind, body, hbody, hcall⟩ := h
  refine ⟨⟨q, body⟩, ?_, rfl, hcall⟩
  rw [hp]
  exact Session.mem_functions.2 ⟨(hs.done q).2 (Session.done_iff.2 ⟨body, hbody⟩), hkind, hbody⟩

/-- If no code is dropped, then a function only calls functions that were done before it, and such
that call it back. -/
lemma Call.before_or_leads {c : Call} (hc : c.Formed) {settings : Settings} {value : Term}
    {w : World} (hrun : exec (eval c.fuel c.code) (c.world { settings }) = (.ok value, w))
    (hkeeps : ¬ c.Drops { settings }) {q r : Point} (hcall : w.session.Calls q r) :
    w.session.Before r q ∨ Relation.ReflTransGen w.session.Calls r q := by
  have hgood : Discipline.still.Good [] (c.world { settings }) := hc.good (.new settings)
  rw [← Classical.not_not.1 hkeeps] at hrun
  obtain ⟨hend, hreaches, -⟩ :=
    (keeping_evalKeeping c.fuel).value [] c.code _ hc.filtered.1 hgood value w hrun
  have ⟨hkind, body, hbody, _⟩ := hcall
  have hdone : q ∈ w.session.finished :=
    (hend.1.inStack.table.done q).2 (Session.done_iff.2 ⟨body, hbody⟩)
  rcases hreaches.calls q r ⟨hdone, List.not_mem_nil, hkind⟩ hcall with hbefore | hmem | hleads
  · exact .inl hbefore
  · exact absurd hmem List.not_mem_nil
  · exact .inr hleads

/-- A function of a program only calls itself, functions that stand before it, and functions that
were in evaluation when its own body was evaluated. The last calls are recursive, directly or
through other functions, unless the compilation dropped code that it had evaluated. -/
theorem calls_before_or_nested (settings : Settings) (c : Call) (hc : c.Formed) (p : Program)
    (hp : (c.run { settings }).1 = .ok p) (before after : List FunctionDef) (f : FunctionDef)
    (hsplit : p.functions = before ++ f :: after) (call : Point × Ty)
    (hcall : call ∈ f.body.term.calls) :
    call.1 = f.point ∨ (∃ g ∈ before, g.point = call.1 ∧ g.body.ty == call.2) ∨
      c.Nests { settings } f.point call.1 ∧
        (Relation.TransGen p.Calls call.1 f.point ∨ c.Drops { settings }) := by
  by_cases hself : call.1 = f.point
  · exact .inl hself
  obtain ⟨value, w, hrun, rfl⟩ := Call.program_of_run hp
  have hready : Session.Ready { settings } := .new settings
  have hlinked : w.Linked [] := by
    obtain ⟨-, hend, -, -⟩ :=
      Discipline.does_eval c.fuel (fun _ => hc.filtered.1) (hc.good hready)
    rw [hrun] at hend
    exact hend.1
  obtain ⟨l, r, hfinished, hl⟩ := Session.split_functions hsplit
  have hf : f ∈ w.session.functions := by
    rw [show w.session.functions = before ++ f :: after from hsplit]
    simp
  obtain ⟨-, hkind, hbody⟩ := Session.mem_functions.1 hf
  refine .inr (Classical.or_iff_not_imp_left.2 fun hbefore => ?_)
  -- A function that was done before stands before, with its type.
  have hnot : call.1 ∉ l := by
    intro hdone
    obtain ⟨-, hdefines⟩ := hlinked.bodies l _ r hfinished _ hbody call hcall
    obtain ⟨hkind, body, hbody', hty⟩ := hdefines hdone
    exact hbefore ⟨⟨call.1, body⟩, (hl _).2 ⟨hdone, hkind, hbody'⟩, rfl, hty ▸ BEq.rfl⟩
  refine ⟨fun hsame => ?_, Classical.or_iff_not_imp_right.2 fun hkeeps => ?_⟩
  · let D := Discipline.apart f.point call.1 (Ne.symm hself)
    have hends : ∀ i w, ¬ World.Inside f.point call.1 w → D.Ends i w := fun _ _ h => h
    have hgood : D.Good [] (c.world { settings }) := by
      obtain ⟨hlinked, hformed⟩ := hc.good hready
      exact ⟨⟨hlinked, fun before after h => by simp [Call.world] at h⟩, hformed⟩
    obtain ⟨-, hend, -, -⟩ := Discipline.does_evalAvoiding hends (fun _ _ _ => trivial) c.fuel
      (fun _ => hc.filtered.1) hgood
    rw [hsame, hrun] at hend
    exact hnot (hend.1.2 l r hfinished _ hbody ⟨call, hcall, rfl⟩)
  · have hcalls : w.session.Calls f.point call.1 := ⟨hkind, f.body, hbody, call, hcall, rfl⟩
    rcases Call.before_or_leads hc hrun hkeeps hcalls with hbefore' | hleads
    · unfold Session.Before at hbefore'
      rw [hfinished] at hbefore'
      exact absurd (mem_of_sublist_split (hfinished ▸ hlinked.inStack.table.finished) hbefore') hnot
    · rcases Relation.reflTransGen_iff_eq_or_transGen.1 hleads with heq | hleads
      · exact absurd heq.symm hself
      · exact Relation.TransGen.mono (fun _ _ h => h.program rfl hlinked.inStack.table) _ _ hleads

/-! ### A call that was dropped

A method promises a Boolean. Inside a type join point it evaluates another method, which calls it,
and goes on without the type. -/

namespace DroppedCall

def program : Build Expr := do
  let f ← Build.name "f"
  let x ← Build.name "x"
  let y ← Build.name "y"
  let again ← Build.joinMethod (← Build.apply (← Build.var f) (← Build.var x))
  let truth ← Build.lit (.bool true)
  let body ← Build.joinMethodAt (← Build.letIn y (← Build.joinType again) truth) truth
  let loop ← Build.expr (.recFunction f x body)
  Build.apply loop (← Build.op .dynamize [truth])

lemma does_program : Build.Does True program (Build.Fine True) := by
  refine (Build.does_name "f").bind fun f _ => ?_
  refine (Build.does_name "x").bind fun x _ => ?_
  refine (Build.does_name "y").bind fun y _ => ?_
  refine (Build.does_var f).bind fun callee hcallee => ?_
  refine (Build.does_var x).bind fun arg harg => ?_
  refine (Build.does_op₂ hcallee harg).bind fun call hcall => ?_
  refine (Build.does_op₁ hcall).bind fun again hagain => ?_
  refine (Build.does_lit _).bind fun truth htruth => ?_
  refine (Build.does_op₁ hagain).bind fun type htype => ?_
  refine (Build.does_letIn htype htruth).bind fun rest hrest => ?_
  refine ((Build.does_op₁ hrest).bind fun _ hjoin => Build.does_op₂ hjoin htruth).bind
    fun body hbody => ?_
  refine (Build.does_expr (.recFunction f x body) hbody).bind fun loop hloop => ?_
  exact (Build.does_op₁ htruth).bind fun _ hdynamic => Build.does_op₂ hloop hdynamic

def call : Call := .of program {} 30

lemma formed_call : call.Formed :=
  Call.formed_of does_program (Session.formed_new {}).store 30

lemma run_call : ∃ p, (call.run {}).1 = .ok p ∧ p.StartsAhead :=
  Call.exists_of_run (by decide +kernel)

end DroppedCall

/-- A function of a program calls one that comes later and does not call it back. -/
theorem exists_not_ordered : ∃ (c : Call) (p : Program), c.Formed ∧ (c.run {}).1 = .ok p ∧
    ¬ p.Ordered := by
  obtain ⟨p, hp, hahead⟩ := DroppedCall.run_call
  exact ⟨DroppedCall.call, p, DroppedCall.formed_call, hp, hahead.not_ordered⟩

/-- The body of its first function was evaluated inside that of a function that it calls, and the
code was dropped. -/
theorem exists_nested_call : ∃ p, (DroppedCall.call.run {}).1 = .ok p ∧
    ∃ f ∈ p.functions, ∃ call ∈ f.body.term.calls,
      DroppedCall.call.Nests {} f.point call.1 ∧ DroppedCall.call.Drops {} := by
  obtain ⟨p, hp, f, hf, call, hcall, -, hnone⟩ := DroppedCall.run_call
  obtain ⟨rest, hsplit⟩ := List.head?_eq_some_iff.1 hf
  have hmem : f ∈ p.functions := by simp [hsplit]
  refine ⟨p, hp, f, hmem, call, hcall, ?_⟩
  rcases calls_before_or_nested {} DroppedCall.call DroppedCall.formed_call p hp [] rest f hsplit
    call hcall with hself | ⟨g, hg, -⟩ | ⟨hnests, hleads | hdrops⟩
  · rw [List.isEmpty_iff.1 (hnone f hmem hself.symm)] at hcall
    cases hcall
  · cases hg
  · exact absurd hleads (Program.not_leads hnone)
  · exact ⟨hnests, hdrops⟩

end Residual
