import Mathlib.Logic.Relation
import Residual.Proofs.Eval.Frame
import Residual.Proofs.Eval.Links
import Residual.Proofs.Eval.Splits

/-!
Functions that are reached from the code where they were done.

The body of a function is evaluated where the function is requested, and the request ends in a
call. So what is done while code is emitted is reached from this code by calls, as long as the code
is kept. Two kinds of steps drop code: those in the body of a type join point, of which the type
alone is kept, and splits that run a branch again. Main statement: if evaluation does not finish a
function in one of these, then all functions that it finishes are reached from the statements that
are there in the end, and the functions that they call were done before them, call back, or are in
evaluation from before.
-/

namespace Residual

open Relation

/-! ### Calls between functions -/

namespace Session

variable {s s' : Session} {q r : Point}

/-- The function `q` is done, and its body has a call of `r`. -/
def Calls (s : Session) (q r : Point) : Prop :=
  q.kind ≠ .type ∧ ∃ body, s.body? q = some body ∧ ∃ c ∈ body.term.calls, c.1 = r

/-- `r` was done before `q`. -/
def Before (s : Session) (r q : Point) : Prop := [r, q].Sublist s.finished

lemma Continues.calls (h : s.Continues s') (hc : s.Calls q r) : s'.Calls q r := by
  obtain ⟨hkind, body, hbody, hcall⟩ := hc
  exact ⟨hkind, body, h.bodies q body hbody, hcall⟩

lemma Continues.leads (h : s.Continues s') (hc : ReflTransGen s.Calls q r) :
    ReflTransGen s'.Calls q r :=
  ReflTransGen.mono (fun _ _ hcall => h.calls hcall) _ _ hc

lemma Continues.before (h : s.Continues s') (hb : s.Before r q) : s'.Before r q :=
  hb.trans h.finished.sublist

end Session

namespace World

variable {w w' w₁ w₂ w₃ : World} {stack : List Point} {held held' : List (Point × Ty)}

/-- The function `q` was done in between. -/
def Finishes (w w' : World) (q : Point) : Prop :=
  q ∈ w'.session.finished ∧ q ∉ w.session.finished ∧ q.kind ≠ .type

instance (w w' : World) (q : Point) : Decidable (w.Finishes w' q) :=
  inferInstanceAs (Decidable (_ ∧ _ ∧ _))

/-- What is done between the two worlds is reached from the statements or from the code in hand,
which has the calls `held`. What it calls was done before it, leads back to it, or is in the
stack. -/
structure Reaches (stack : List Point) (held : List (Point × Ty)) (w w' : World) : Prop where
  continues : w.Continues w'
  stmts : w.scope.stmts <+: w'.scope.stmts
  reached : ∀ q, w.Finishes w' q → ∃ c ∈ held ++ w'.scope.stmts.flatMap Stmt.calls,
    ReflTransGen w'.session.Calls c.1 q
  calls : ∀ q r, w.Finishes w' q → w'.session.Calls q r →
    w'.session.Before r q ∨ r ∈ stack ∨ ReflTransGen w'.session.Calls r q

namespace Reaches

/-- No function was done. -/
theorem of_none (hcontinues : w.Continues w') (hstmts : w.scope.stmts <+: w'.scope.stmts)
    (h : ∀ q, ¬ w.Finishes w' q) : w.Reaches stack held w' :=
  ⟨hcontinues, hstmts, fun q hq => absurd hq (h q), fun q _ hq => absurd hq (h q)⟩

lemma refl (w : World) : w.Reaches stack held w :=
  of_none ⟨.refl w, .refl _⟩ (List.prefix_refl _) fun _ h => h.2.1 h.1

/-- The code in hand is put where other code in hand or a statement has its calls. -/
theorem place (h : w.Reaches stack held w')
    (hheld : ∀ c ∈ held, ∃ d ∈ held' ++ w'.scope.stmts.flatMap Stmt.calls, d.1 = c.1) :
    w.Reaches stack held' w' := by
  refine ⟨h.continues, h.stmts, fun q hq => ?_, h.calls⟩
  obtain ⟨c, hc, hreach⟩ := h.reached q hq
  rcases List.mem_append.1 hc with hc | hc
  · obtain ⟨d, hd, hdc⟩ := hheld c hc
    exact ⟨d, hd, hdc ▸ hreach⟩
  · exact ⟨c, List.mem_append_right _ hc, hreach⟩

lemma trans (h : w₁.Reaches stack held w₂) (h₂ : w₂.Linked stack)
    (k : w₂.Reaches stack held' w₃) : w₁.Reaches stack (held ++ held') w₃ := by
  have hbodies := k.continues.bodies
  have hcases : ∀ q, w₁.Finishes w₃ q → w₁.Finishes w₂ q ∨ w₂.Finishes w₃ q := by
    intro q hq
    by_cases hmem : q ∈ w₂.session.finished
    · exact .inl ⟨hmem, hq.2⟩
    · exact .inr ⟨hq.1, hmem, hq.2.2⟩
  refine ⟨⟨h.continues.later.trans k.continues.later, h.continues.bodies.trans hbodies⟩,
    h.stmts.trans k.stmts, fun q hq => ?_, fun q r hq hcall => ?_⟩
  · rcases hcases q hq with hq | hq
    · obtain ⟨c, hc, hreach⟩ := h.reached q hq
      refine ⟨c, ?_, hbodies.leads hreach⟩
      rcases List.mem_append.1 hc with hc | hc
      · simp [hc]
      · obtain ⟨s, hs, hc⟩ := List.mem_flatMap.1 hc
        exact List.mem_append_right _ (List.mem_flatMap.2 ⟨s, k.stmts.subset hs, hc⟩)
    · obtain ⟨c, hc, hreach⟩ := k.reached q hq
      refine ⟨c, ?_, hreach⟩
      rw [List.append_assoc]
      exact List.mem_append_right _ hc
  · rcases hcases q hq with hq | hq
    · -- The body was there before the second step.
      have hcall' : w₂.session.Calls q r := by
        obtain ⟨body, hbody⟩ := Session.done_iff.1 ((h₂.inStack.table.done q).1 hq.1)
        obtain ⟨hkind, body', hbody', hc⟩ := hcall
        cases (hbodies.bodies q body hbody).symm.trans hbody'
        exact ⟨hkind, body, hbody, hc⟩
      exact (h.calls q r hq hcall').imp hbodies.before (Or.imp_right hbodies.leads)
    · exact k.calls q r hq hcall

/-- The body of `p` is done: it calls what was reached from its statements. -/
theorem complete {p : Point} {captured : Eval.Captured} {annot : Option Ty} {term : Term}
    (h : (w.atBody p captured annot).Reaches (p :: stack) [] w') (h' : w'.Linked (p :: stack))
    (hle : w.Continues ((w'.setScope w.scope).complete p term captured))
    (hstmts : p.kind ≠ .type → w'.scope.stmts.flatMap Stmt.calls ⊆ term.calls)
    (hcalls : ∀ c ∈ term.calls, w'.session.Callable (p :: stack) c.1 c.2)
    (htype : p.kind = .type → ∀ q, ¬ (w.atBody p captured annot).Finishes w' q) (ty : Ty) :
    w.Reaches stack (if p.kind = .type then [] else [(p, ty)])
      ((w'.setScope w.scope).complete p term captured) := by
  let w₂ := (w'.setScope w.scope).complete p term captured
  have hp : w'.session.InEvaluation p :=
    (h'.inStack.table.inEvaluation p).1 (List.mem_cons_self ..)
  have hbodies : ∀ q, w₂.session.body? q =
      if q = p then some ⟨term, p.bodyTy term, captured.params, captured.closureParam⟩
      else w'.session.body? q :=
    Session.body?_setDone hp _ rfl
  have hold : ∀ {q}, q ∈ w'.session.finished → q ≠ p := by
    rintro q hq rfl
    exact hp.not_done ((h'.inStack.table.done q).1 hq)
  have hcontinues : w'.session.Continues w₂.session := by
    refine ⟨List.prefix_append .., fun q body hq => ?_⟩
    rw [hbodies, if_neg, hq]
    rintro rfl
    rw [hp.body?_eq_none] at hq
    cases hq
  -- What was done in the body is reached from `p` itself.
  have hreached : ∀ q, w.Finishes w' q → p.kind ≠ .type ∧ ReflTransGen w₂.session.Calls p q := by
    intro q hq
    have hkind : p.kind ≠ .type := fun hkind => htype hkind q hq
    obtain ⟨c, hc, hreach⟩ := h.reached q hq
    refine ⟨hkind, .head ⟨hkind, _, (hbodies p).trans (if_pos rfl), c, ?_, rfl⟩
      (hcontinues.leads hreach)⟩
    exact hstmts hkind (by simpa using hc)
  have hcases : ∀ q, w.Finishes w₂ q → w.Finishes w' q ∨ q = p ∧ p.kind ≠ .type := by
    rintro q ⟨hq, hnew, hkind⟩
    rcases List.mem_append.1 hq with hq | hq
    · exact .inl ⟨hq, hnew, hkind⟩
    · obtain rfl := List.mem_singleton.1 hq
      exact .inr ⟨rfl, hkind⟩
  refine ⟨hle, List.prefix_refl _, fun q hq => ?_, fun q r hq hcall => ?_⟩
  · obtain ⟨hkind, hreach⟩ : p.kind ≠ .type ∧ ReflTransGen w₂.session.Calls p q := by
      rcases hcases q hq with hq | ⟨rfl, hkind⟩
      · exact hreached q hq
      · exact ⟨hkind, .refl⟩
    exact ⟨(p, ty), by simp [hkind], hreach⟩
  · obtain ⟨hkind, body, hbody, c, hc, rfl⟩ := hcall
    rw [hbodies] at hbody
    rcases hcases q hq with hq | ⟨rfl, -⟩
    · rw [if_neg (hold hq.1)] at hbody
      rcases h.calls q c.1 hq ⟨hkind, body, hbody, c, hc, rfl⟩ with hbefore | hmem | hreach
      · exact .inl (hcontinues.before hbefore)
      · rcases List.mem_cons.1 hmem with heq | hmem
        · rw [heq]
          exact .inr (.inr (hreached q hq).2)
        · exact .inr (.inl hmem)
      · exact .inr (.inr (hcontinues.leads hreach))
    · rw [if_pos rfl] at hbody
      cases hbody
      rcases (hcalls c hc).2 with ⟨-, body, hbody, -⟩ | hmem
      · have hdone := (h'.inStack.table.done c.1).2 (Session.done_iff.2 ⟨body, hbody⟩)
        refine .inl ?_
        exact (List.singleton_sublist.2 hdone).append (List.Sublist.refl [q])
      · rcases List.mem_cons.1 hmem with heq | hmem
        · exact .inr (.inr (heq ▸ .refl))
        · exact .inr (.inl hmem)

end Reaches

end World

/-! ### Steps that finish no body -/

/-- Statements are added, and no body is done. -/
structure World.Still (w w' : World) : Prop where
  continues : w.Continues w'
  finished : w'.session.finished = w.session.finished
  stmts : w.scope.stmts <+: w'.scope.stmts

namespace World.Still

variable {w w' w₁ w₂ w₃ : World}

lemma trans (h : w₁.Still w₂) (k : w₂.Still w₃) : w₁.Still w₃ :=
  ⟨⟨h.continues.later.trans k.continues.later, h.continues.bodies.trans k.continues.bodies⟩,
    k.finished.trans h.finished, h.stmts.trans k.stmts⟩

lemma reaches (h : w.Still w') (stack : List Point) (held : List (Point × Ty)) :
    w.Reaches stack held w' :=
  .of_none h.continues h.stmts fun _ hq => hq.2.1 (h.finished ▸ hq.1)

end World.Still

/-- Bodies are linked, and none comes to a result. -/
def Discipline.still : Discipline where
  Index := List Point
  strict := True
  Inv stack w := w.Linked stack
  Le := World.Still
  Known stack s p ty := s.Callable stack p (p.kind.result ty)
  inner stack p := p :: stack
  within i _ := i
  Ends _ _ := False
  Guesses _ _ _ := False
  le_refl w := ⟨⟨.refl w, .refl _⟩, rfl, List.prefix_refl _⟩
  le_trans := .trans
  le_grows h := h.continues.later.grows
  le_owner h := h.continues.later.owner
  known_le h hle := Discipline.links.known_le h hle.continues
  known_pending := Discipline.links.known_pending
  known_done := Discipline.links.known_done
  known_stmts := Discipline.links.known_stmts
  quiet h hq := ⟨(Discipline.links.quiet h hq).1, (Discipline.links.quiet h hq).2,
    by rw [hq.rest], List.prefix_refl _⟩
  tags h ht := ⟨(Discipline.links.tags h ht).1, (Discipline.links.tags h ht).2, rfl,
    List.prefix_refl _⟩
  push h hs := ⟨(Discipline.links.push h hs).1, (Discipline.links.push h hs).2, rfl,
    List.prefix_append ..⟩
  share h ha hpure hb := ⟨(Discipline.links.share h ha hpure hb).1,
    (Discipline.links.share h ha hpure hb).2, rfl, List.prefix_refl _⟩
  setEnv := Discipline.links.setEnv
  resetEnv env h := ⟨Discipline.links.resetEnv env h.continues, h.finished, h.stmts⟩
  setTrace := Discipline.links.setTrace
  resetTrace trace h := ⟨Discipline.links.resetTrace trace h.continues, h.finished, h.stmts⟩
  enterBranch := Discipline.links.enterBranch
  leaveBranch h h' hle := ⟨(Discipline.links.leaveBranch h h' hle.continues).1,
    (Discipline.links.leaveBranch h h' hle.continues).2, hle.finished, List.prefix_refl _⟩
  guess _ _ _ h := h.elim
  retract _ _ h := h.elim
  start := Discipline.links.start
  complete _ _ _ _ _ _ _ h := h.elim
  abandon h hnone h' hle := ⟨(Discipline.links.abandon h hnone h' hle.continues).1,
    (Discipline.links.abandon h hnone h' hle.continues).2, hle.finished, List.prefix_refl _⟩

namespace Eval

variable {α β : Type} {stack : List Point} {w : World}

/-- A step that succeeds keeps what it did: all functions that it finished are reached from the
statements, or from the code in its result. -/
def Reaching (stack : List Point) (w : World) (m : Eval α) (held : α → List (Point × Ty))
    (Q : α → World → Prop) : Prop :=
  Discipline.still.Good stack w → ∀ a w', exec m w = (.ok a, w') →
    Discipline.still.Good stack w' ∧ w.Reaches stack (held a) w' ∧ Q a w'

/-- A value calls nothing. -/
abbrev Reaching.Plain (stack : List Point) (w : World) (m : Eval α) (Q : α → World → Prop) : Prop :=
  Reaching stack w m (fun _ => []) Q

namespace Reaching

variable {m : Eval α} {f : α → Eval β} {held : α → List (Point × Ty)}
  {held' : β → List (Point × Ty)} {P : α → World → Prop} {Q : β → World → Prop}

lemma of_does (h : Discipline.still.Does stack w m m P) : Reaching stack w m held P := by
  intro hw a w' hrun
  obtain ⟨-, hgood, hle, hP⟩ := h hw
  rw [hrun] at hgood hle hP
  exact ⟨hgood, hle.reaches stack _, hP a rfl⟩

lemma imp {P' : α → World → Prop} (h : Reaching stack w m held P)
    (hP : ∀ a w', P a w' → P' a w') : Reaching stack w m held P' :=
  fun hw a w' hrun => (h hw a w' hrun).imp_right (And.imp_right (hP a w'))

lemma given (h : Discipline.still.Good stack w → Reaching stack w m held P) :
    Reaching stack w m held P := fun hw => h hw hw

lemma pure {a : α} (h : Discipline.still.Good stack w → P a w) :
    Reaching stack w (pure a) held P :=
  of_does (.pure h)

lemma fail (c : Cause) : Reaching stack w (Eval.fail c) held P := of_does (.fail c)

lemma getSession {k : Session → Eval α} (h : Reaching stack w (k w.session) held P) :
    Reaching stack w (Eval.getSession >>= k) held P := h

lemma ran (h : Reaching stack w m held P) :
    Reaching stack w m held fun a w' => P a w' ∧ exec m w = (.ok a, w') :=
  fun hw a w' hrun =>
    let ⟨hgood, hreaches, hP⟩ := h hw a w' hrun
    ⟨hgood, hreaches, hP, hrun⟩

lemma bind (hm : Reaching.Plain stack w m P)
    (hf : ∀ a w', P a w' → Reaching stack w' (f a) held' Q) :
    Reaching stack w (m >>= f) held' Q := by
  intro hw b w₂ hrun
  obtain ⟨a, w₁, hrun₁, hrun₂⟩ := exec_bind_eq_ok.1 hrun
  obtain ⟨hgood, hreaches, hP⟩ := hm hw a w₁ hrun₁
  obtain ⟨hgood', hreaches', hQ⟩ := hf a w₁ hP hgood b w₂ hrun₂
  exact ⟨hgood', hreaches.trans hgood.1 hreaches', hQ⟩

/-- The code in hand is put into a statement. -/
lemma bind_place (hm : Reaching stack w m held P)
    (hf : ∀ a w', P a w' → Reaching.Plain stack w' (f a) fun b w'' => Q b w'' ∧
      ∀ c ∈ held a, ∃ d ∈ w''.scope.stmts.flatMap Stmt.calls, d.1 = c.1) :
    Reaching.Plain stack w (m >>= f) Q := by
  intro hw b w₂ hrun
  obtain ⟨a, w₁, hrun₁, hrun₂⟩ := exec_bind_eq_ok.1 hrun
  obtain ⟨hgood, hreaches, hP⟩ := hm hw a w₁ hrun₁
  obtain ⟨hgood', hreaches', hQ, hplaced⟩ := hf a w₁ hP hgood b w₂ hrun₂
  refine ⟨hgood', (hreaches.trans hgood.1 hreaches').place fun c hc => ?_, hQ⟩
  rw [List.append_nil] at hc
  exact hplaced c hc

lemma mapM {g : α → Eval β} {P : β → Prop} {l : List α}
    (h : ∀ a ∈ l, ∀ w, Reaching.Plain stack w (g a) fun b _ => P b) :
    Reaching.Plain stack w (l.mapM g) fun bs _ => ∀ b ∈ bs, P b := by
  induction l generalizing w with
  | nil => exact .pure fun _ b hb => by cases hb
  | cons a l ih =>
    rw [List.mapM_cons]
    refine (h a (List.mem_cons_self ..) w).bind fun b w₁ hb => ?_
    refine (ih fun a ha => h a (List.mem_cons_of_mem _ ha)).bind fun bs w₂ hbs => ?_
    exact .pure fun _ => List.forall_mem_cons.2 ⟨hb, hbs⟩

end Reaching

/-- An evaluator that keeps what it does, and finishes no function for a type join point. -/
structure Keeping (ev : Expr → Eval Term) : Prop where
  value : ∀ stack e w, e.Sorted → Reaching.Plain stack w (ev e) fun t _ => Discipline.still.Value t
  type : ∀ e w w' t p q, w.scope.owner = some p → p.kind = .type →
    exec (ev e) w = (.ok t, w') → ¬ w.Finishes w' q

section Steps

variable {ev : Expr → Eval Term}

/-! ### Join points -/

lemma reaching_specializeNew (hev : Keeping ev) {p : Point} {body : Expr} (hbody : body.Sorted)
    {captured : Captured} (hcaptured : Fields.Formed captured.env) {annot : Option Ty}
    (hannot : ∀ ty ∈ annot, ty.Formed) (hnone : w.session.find? p = none)
    (hasked : w.session.Asked True p captured) :
    Reaching stack w (specializeNew ev p body captured annot)
      (fun ty => if p.kind = .type then [] else [(p, ty)]) fun ty w' =>
        Discipline.still.Shape ty ∧ (p.kind ≠ .type → ∀ callTy, p.kind.Expects callTy ty →
          Discipline.still.Known stack w'.session p callTy) := by
  intro hw ty w₂ hrun
  rw [exec_specializeNew] at hrun
  split at hrun
  · cases hrun
  · rename_i hdepth
    have hstart : Discipline.still.Good (p :: stack) (w.atBody p captured annot) :=
      ⟨Discipline.still.start hw.1 hnone (Nat.not_le.1 hdepth) hasked,
        fun hs => Discipline.formed_atBody (hw.2 hs) hcaptured hannot⟩
    rcases hbodyRun : exec (ev body) (w.atBody p captured annot) with ⟨_ | v, w₁⟩
    · rw [hbodyRun] at hrun
      cases hrun
    · -- The body has a value: its entry is done, and the calls of its statements are its own.
      rw [hbodyRun] at hrun
      dsimp only at hrun
      obtain ⟨hgood, hreaches, hv⟩ := hev.value _ _ _ hbody hstart v w₁ hbodyRun
      rcases hcheck : (exec (checkBody p (w₁.bodyTerm p v)) (w₁.setScope w.scope)).1 with s | ⟨⟩
      · rw [hcheck] at hrun
        cases hrun
      · rw [hcheck] at hrun
        cases hrun
        have hsites := Discipline.sites_bodyTerm (D := Discipline.still) hgood hv p
        obtain ⟨hinv, hle, hknown⟩ := Discipline.links.complete hw.1 hnone hasked hgood.1
          hreaches.continues hsites hcheck trivial
        have hty : (w₁.bodyTerm p v).ty.Formed := by
          rw [Discipline.bodyTerm_ty]
          exact (hv trivial).ty
        have hstmts : p.kind ≠ .type →
            w₁.scope.stmts.flatMap Stmt.calls ⊆ (w₁.bodyTerm p v).calls := by
          intro hkind
          rw [World.bodyTerm, if_neg hkind, Stmt.calls_close]
          exact List.subset_append_left ..
        refine ⟨⟨hinv, fun hs => ?_⟩, hreaches.complete hgood.1 hle hstmts
          (Term.forall_calls.2 (hsites trivial)) (fun hkind q => ?_) _,
          fun _ => Discipline.formed_bodyTy hty, hknown⟩
        · exact Discipline.formed_complete (hw.2 hs) (hgood.2 hs) hty captured
        · exact hev.type _ _ _ v p q rfl hkind hbodyRun

lemma reaching_specialize (hev : Keeping ev) {env : Env} (henv : env.Formed) {kind : PointKind}
    {body : Expr} (hbody : body.Sorted) {annot : Option Ty} (hannot : ∀ ty ∈ annot, ty.Formed)
    {arg : Option ClosureArg} (harg : ∀ a ∈ arg, a.dom.Formed)
    (hkind : kind = .closure ↔ arg.isSome) :
    Reaching stack w (specialize ev env kind body annot arg)
      (fun spec => if kind = .type then [] else [(⟨kind, spec.key⟩, spec.ty)]) fun spec w' =>
        Discipline.still.Shape spec.ty ∧
          (kind ≠ .type → ∀ callTy, kind.Expects callTy spec.ty →
            Discipline.still.Known stack w'.session ⟨kind, spec.key⟩ callTy) := by
  refine .given fun hw => ?_
  have hrequest : Discipline.still.Does stack w (request env body arg) (request env body arg) _ :=
    Discipline.does_request (fun _ => henv) (fun _ => hbody) fun a ha _ => harg a ha
  refine (Reaching.of_does hrequest).ran.bind fun r w₁ hr => .getSession ?_
  obtain ⟨⟨hc, -⟩, hrun⟩ := hr
  cases hfind : w₁.session.find? ⟨kind, r.1⟩ with
  | some entry =>
    dsimp only
    exact .of_does ((Discipline.does_reuse hfind).imp fun spec w' h =>
      ⟨h.2.1, fun hk => h.1 ▸ h.2.2 hk⟩)
  | none =>
    dsimp only
    have hasked : w₁.session.Asked True ⟨kind, r.1⟩ r.2 :=
      ⟨w, env, body, arg, w₁, fun hs => ⟨hw.2 hs, henv, hbody⟩, hkind, hrun, .refl _⟩
    intro hw₁ spec w₂ hspec
    obtain ⟨ty, w₃, hnew, hret⟩ := exec_bind_eq_ok.1 hspec
    cases hret
    exact reaching_specializeNew hev hbody (hc trivial) hannot hfind hasked hw₁ ty _ hnew

/-- The statement that binds a result has its calls. -/
lemma calls_bindResult {t v : Term} {ty : Ty} {w w' : World}
    (h : exec (bindResult t ty) w = (.ok v, w')) :
    ∃ s ∈ w'.scope.stmts, s.calls = t.calls := by
  unfold bindResult at h
  split at h
  · cases h
    exact ⟨.state t w.scope.trace, by simp, rfl⟩
  · obtain ⟨b, w₁, -, h⟩ := exec_bind_eq_ok.1 h
    cases h
    exact ⟨.letIn b t w₁.scope.trace, by simp, rfl⟩

/-- After a call is bound, the function that it calls is in hand no more. -/
lemma reaching_bindCall {kind : PointKind} {key : Key} {callTy : Ty} (hne : kind ≠ .type)
    (hknown : Discipline.still.Known stack w.session ⟨kind, key⟩ callTy)
    (hty : Discipline.still.Shape callTy) (args : List Var) (ty : Ty) :
    Reaching.Plain stack w (bindResult (.call key kind args callTy) callTy) fun v w' =>
      Discipline.still.Value v ∧ ∀ c ∈ if kind = .type then [] else [((⟨kind, key⟩ : Point), ty)],
        ∃ d ∈ w'.scope.stmts.flatMap Stmt.calls, d.1 = c.1 := by
  have hbind : Discipline.still.Does stack w (bindResult (.call key kind args callTy) callTy)
      (bindResult (.call key kind args callTy) callTy) fun v _ => Discipline.still.Value v :=
    Discipline.does_bindResult (fun _ c hc => List.mem_singleton.1 hc ▸ hknown) hty
  refine (Reaching.of_does hbind).ran.imp fun v w' ⟨hv, hrun⟩ => ⟨hv, fun c hc => ?_⟩
  obtain ⟨s, hs, hcalls⟩ := calls_bindResult hrun
  rw [if_neg hne] at hc
  refine ⟨(⟨kind, key⟩, kind.result callTy), List.mem_flatMap.2 ⟨s, hs, ?_⟩, ?_⟩
  · rw [hcalls]
    exact List.mem_singleton_self _
  · rw [List.mem_singleton.1 hc]

lemma reaching_enterPoint (hev : Keeping ev) (op : EntryOp) {body : Expr} (hbody : body.Sorted)
    {annot : Option Ty} (hannot : ∀ ty ∈ annot, ty.Formed) :
    Reaching.Plain stack w (enterPoint ev op body annot) fun v _ => Discipline.still.Value v := by
  refine .given fun hw => ?_
  change Reaching.Plain stack w (do
    let spec ← specialize ev w.scope.env op.kind body annot none
    if op = .type then return .type spec.ty
    else bindResult (.call spec.key op.kind spec.args spec.ty) spec.ty) _
  have hkind : op.kind = .closure ↔ (none : Option ClosureArg).isSome := by
    cases op <;> simp [EntryOp.kind]
  refine (reaching_specialize hev (hw.2 trivial).env hbody hannot (fun a ha => by cases ha)
    hkind).bind_place fun spec w' hspec => ?_
  split
  · rename_i hop
    subst hop
    exact .pure fun _ => ⟨hspec.1.type, fun c hc => absurd hc List.not_mem_nil⟩
  · rename_i hop
    have hne : op.kind ≠ .type := by cases op <;> simp_all [EntryOp.kind]
    exact reaching_bindCall hne (hspec.2 hne spec.ty (by cases op <;> rfl)) hspec.1 _ _

lemma reaching_closureOf (hev : Keeping ev) {f : Term} (hf : f.Formed) {dom : Ty}
    (hdom : dom.Formed) {range : Option Ty} (hrange : ∀ ty ∈ range, ty.Formed) :
    Reaching.Plain stack w (closureOf ev f dom range) fun v _ => Discipline.still.Value v := by
  have hmain : ∀ (env : Env) (param : Name) (body : Expr), env.Formed → body.Sorted →
      Reaching.Plain stack w
        (do
          let spec ← specialize ev env .closure body range (some ⟨param, dom⟩)
          bindResult (.call spec.key .closure spec.args (.closure dom spec.ty))
            (.closure dom spec.ty))
        fun v _ => Discipline.still.Value v := by
    intro env param body henv hbody
    refine (reaching_specialize hev henv hbody hrange (fun a ha => by cases ha; exact hdom)
      (by simp)).bind_place fun spec w' hspec => ?_
    exact reaching_bindCall (by decide) (hspec.2 (by decide) _ ⟨dom, rfl⟩)
      (fun hs => ⟨hdom, hspec.1 hs⟩) _ _
  unfold closureOf
  split
  · exact hmain _ _ _ hf.1 hf.2
  · exact hmain _ _ _ (hf.1.bind _ hf) hf.2
  · exact Reaching.bind (P := fun _ _ => False) (.fail _) fun _ _ h => h.elim

lemma reaching_closureOp (hev : Keeping ev) {args : List Term} (h : ∀ t ∈ args, t.Formed) :
    Reaching.Plain stack w (closureOp ev args) fun v _ => Discipline.still.Value v := by
  unfold closureOp
  split
  · exact reaching_closureOf hev (h _ (by simp)) (h _ (by simp)).ty fun ty hty => by cases hty
  · have hargs : ∀ t ∈ args, Discipline.still.Value t := fun t ht _ => h t ht
    refine (Reaching.of_does (Discipline.does_operands₃ .closure hargs)).bind fun r _ hr => ?_
    exact reaching_closureOf hev (hr.1 trivial) (hr.2.1 trivial).ty fun ty hty => by
      cases hty; exact (hr.2.2 trivial).ty

/-! ### Application -/

/-- An evaluator that comes to no result, for steps that evaluate nothing. -/
lemma pair_none (stack : List Point) :
    Discipline.still.Pair stack (fun _ => throw .outOfFuel) (fun _ => throw .outOfFuel) :=
  ⟨fun _ _ _ => .throw _, fun _ _ _ _ => .throw _, fun _ _ _ _ _ h => by cases h⟩

lemma reaching_withEnv {m : Eval Term} {env : Env} (henv : env.Formed)
    (h : ∀ w, Reaching.Plain stack w m fun t _ => Discipline.still.Value t) :
    Reaching.Plain stack w (withEnv env m) fun t _ => Discipline.still.Value t := by
  intro hw t w' hrun
  rw [exec_withEnv] at hrun
  rcases hm : exec m (w.setEnv env) with ⟨r, w₁⟩
  rw [hm] at hrun
  cases hrun
  obtain ⟨hgood, hreaches, ht⟩ := h _ (Discipline.good_setEnv hw fun _ => henv) t w₁ hm
  exact ⟨Discipline.good_setEnv hgood fun hs => (hw.2 hs).env,
    ⟨Discipline.links.resetEnv env hreaches.continues, hreaches.stmts, hreaches.reached,
      hreaches.calls⟩, ht⟩

lemma reaching_withSpan {m : Eval Term} (span : Span)
    (h : ∀ w, Reaching.Plain stack w m fun t _ => Discipline.still.Value t) :
    Reaching.Plain stack w (withSpan span m) fun t _ => Discipline.still.Value t := by
  intro hw t w' hrun
  rw [exec_withSpan] at hrun
  rcases hm : exec m (w.setTrace (w.scope.trace.push span)) with ⟨r, w₁⟩
  rw [hm] at hrun
  cases hrun
  obtain ⟨hgood, hreaches, ht⟩ := h _ (Discipline.good_setTrace hw _) t w₁ hm
  exact ⟨Discipline.good_setTrace hgood _,
    ⟨Discipline.links.resetTrace _ hreaches.continues, hreaches.stmts, hreaches.reached,
      hreaches.calls⟩, ht⟩

lemma reaching_apply (hev : Keeping ev) {f arg : Term} (hf : Discipline.still.Value f)
    (harg : Discipline.still.Value arg) :
    Reaching.Plain stack w (apply ev f arg) fun v _ => Discipline.still.Value v := by
  unfold apply
  split
  · rename_i tag dom range
    split
    · refine (Reaching.of_does (Discipline.does_toRuntime arg w harg)).bind fun v w' hv => ?_
      exact .of_does (Discipline.does_emit (by simpa using ⟨hf, hv⟩) fun hs => (hf hs).2)
    · exact .fail _
  · exact .of_does (Discipline.does_boxValue hf harg)
  · exact .of_does (Discipline.does_boxValue hf harg)
  · refine (Reaching.of_does (Discipline.does_mapValue? hf)).bind fun r w' hr => ?_
    cases r with
    | none => exact .fail _
    | some m =>
      obtain ⟨env, kind⟩ := m
      have hm := hr _ rfl trivial
      -- Only functions have a body to be evaluated.
      cases kind with
      | function param body =>
        exact reaching_withEnv (hm.1.bind param (harg trivial)) fun w =>
          hev.value stack body w hm.2
      | recFunction this param body =>
        refine reaching_withEnv ((hm.1.bind this ?_).bind param (harg trivial)) fun w =>
          hev.value stack body w hm.2
        exact hm
      | module =>
        exact .of_does (Discipline.does_applyMap (pair_none stack) (fun _ => hm) harg)

/-! ### Modules -/

lemma reaching_mapFields (hev : Keeping ev) {f : Term} (hf : Discipline.still.Value f)
    {m : Fields Term} (hm : ∀ e ∈ m, Discipline.still.Value e.2) :
    Reaching.Plain stack w (mapFields ev f m) fun n _ =>
      n.map Prod.fst = m.map Prod.fst ∧ ∀ e ∈ n, Discipline.still.Value e.2 := by
  induction m generalizing w with
  | nil => exact .pure fun _ => ⟨rfl, fun e he => by cases he⟩
  | cons e rest ih =>
    obtain ⟨x, value⟩ := e
    obtain ⟨hvalue, hrest⟩ := List.forall_mem_cons.1 hm
    refine (Reaching.of_does (Discipline.does_fieldKey x)).bind fun key _ hkey => ?_
    refine (reaching_apply hev hf hkey).bind fun partly _ hpartly => ?_
    refine (reaching_apply hev hpartly hvalue).bind fun new _ hnew => ?_
    refine (ih hrest).bind fun n _ hn => .pure fun _ => ⟨?_, List.forall_mem_cons.2 ⟨hnew, hn.2⟩⟩
    rw [List.map_cons, hn.1, List.map_cons]

lemma reaching_foldFields (hev : Keeping ev) {f acc : Term} (hf : Discipline.still.Value f)
    (hacc : Discipline.still.Value acc) {m : Fields Term}
    (hm : ∀ e ∈ m, Discipline.still.Value e.2) :
    Reaching.Plain stack w (foldFields ev f acc m) fun v _ => Discipline.still.Value v := by
  induction m generalizing w acc with
  | nil => exact .pure fun _ => hacc
  | cons e rest ih =>
    obtain ⟨x, value⟩ := e
    obtain ⟨hvalue, hrest⟩ := List.forall_mem_cons.1 hm
    refine (Reaching.of_does (Discipline.does_fieldKey x)).bind fun key _ hkey => ?_
    refine (reaching_apply hev hf hacc).bind fun withState _ hstate => ?_
    refine (reaching_apply hev hstate hkey).bind fun withKey _ hwithKey => ?_
    exact (reaching_apply hev hwithKey hvalue).bind fun acc _ hacc => ih hacc hrest

lemma reaching_moduleOp (hev : Keeping ev) (op : ModuleOp) {args : List Term}
    (h : ∀ t ∈ args, Discipline.still.Value t) :
    Reaching.Plain stack w (moduleOp ev op args) fun v _ => Discipline.still.Value v := by
  have hquiet : moduleOp ev op args = moduleOp (fun _ => throw .outOfFuel) op args →
      Reaching.Plain stack w (moduleOp ev op args) fun v _ => Discipline.still.Value v :=
    fun heq => heq ▸ .of_does (Discipline.does_moduleOp (pair_none stack) op h)
  -- Two operations apply a function to all fields; the others evaluate nothing.
  cases op with
  | map =>
    refine (Reaching.of_does (Discipline.does_operands₂ _ h)).bind fun r _ hr => ?_
    refine (Reaching.of_does (Discipline.does_mapValue _ hr.2)).bind fun m _ hm => ?_
    refine (reaching_mapFields hev hr.1 hm.values).bind fun n _ hn => .pure fun _ hs => ?_
    refine ⟨⟨Rename.ascending_of_names hn.1 (hm hs).1.visible.1, ?_⟩, trivial⟩
    exact Env.fieldsFormed_iff.2 fun e he => hn.2 e he hs
  | fold =>
    refine (Reaching.of_does (Discipline.does_operands₃ _ h)).bind fun r _ hr => ?_
    refine (Reaching.of_does (Discipline.does_mapValue _ hr.2.2)).bind fun m _ hm => ?_
    exact reaching_foldFields hev hr.1 hr.2.1 hm.values
  | create _ | extend _ | without _ | «open» _ | getField _ | hasMember _ => exact hquiet rfl

/-! ### Branches -/

lemma reaching_inBranch {m : Eval Term}
    (h : Reaching.Plain stack w.enterBranch m fun t _ => Discipline.still.Value t) :
    Reaching stack w (inBranch m) Term.calls fun t w' => Discipline.still.Code stack w' t := by
  intro hw t w' hrun
  rw [exec_inBranch] at hrun
  rcases hm : exec m w.enterBranch with ⟨_ | v, w₁⟩
  · rw [hm] at hrun
    cases hrun
  rw [hm] at hrun
  cases hrun
  obtain ⟨hgood, hreaches, hv⟩ := h (Discipline.good_enterBranch hw) v w₁ hm
  obtain ⟨hend, hle⟩ :=
    Discipline.good_leaveBranch (D := Discipline.links) hw hgood hreaches.continues
  have hcalls : (Stmt.close w₁.scope.stmts v).calls = w₁.scope.stmts.flatMap Stmt.calls := by
    rw [Stmt.calls_close, (hv trivial).calls_eq, List.append_nil]
  refine ⟨hend, ⟨hle, List.prefix_refl _, fun q hq => ?_, hreaches.calls⟩, fun hs => ⟨?_, ?_⟩⟩
  · obtain ⟨c, hc, hreach⟩ := hreaches.reached q hq
    exact ⟨c, List.mem_append_left _ (hcalls ▸ hc), hreach⟩
  · rw [Stmt.ty_close]
    exact (hv hs).ty
  · refine (Term.forall_calls (P := w₁.session.Callable stack)).1 fun c hc => ?_
    rw [hcalls] at hc
    obtain ⟨s, hs, hc⟩ := List.mem_flatMap.1 hc
    exact hgood.1.stmts s hs c hc

/-- A branch of the split recursed too early, so it is run again if the split goes on. -/
def runsAgain (acts : List (Eval Term)) (w : World) : Bool :=
  match exec (firstRun acts) w with
  | (.ok (_, some _), _) => true
  | _ => false

/-- A run in which no branch fails. -/
lemma reaches_firstRun {acts : List (Eval Term)}
    (h : ∀ act ∈ acts, ∀ w, Reaching.Plain stack w act fun t _ => Discipline.still.Value t)
    (hw : Discipline.still.Good stack w) {found : List (Option Term)} {w' : World}
    (hrun : exec (firstRun acts) w = (.ok (found, none), w')) :
    Discipline.still.Good stack w' ∧
      w.Reaches stack ((found.filterMap id).flatMap Term.calls) w' ∧
      ∀ t ∈ found.filterMap id, Discipline.still.Code stack w' t := by
  induction acts generalizing w found with
  | nil =>
    cases hrun
    exact ⟨hw, .refl _, fun t ht => absurd ht List.not_mem_nil⟩
  | cons act acts ih =>
    obtain ⟨hact, hacts⟩ := List.forall_mem_cons.1 h
    have hbody := reaching_inBranch (hact _) hw
    rw [firstRun] at hrun
    obtain ⟨r, w₁, hattempt, hrun⟩ := exec_bind_eq_ok.1 hrun
    cases r with
    | error fault =>
      -- A branch that fails ends the run or is run again.
      obtain ⟨p?, w₂, -, hrun⟩ := exec_bind_eq_ok.1 hrun
      cases p? with
      | none => cases hrun
      | some p =>
        obtain ⟨rest, w₃, -, hrun⟩ := exec_bind_eq_ok.1 hrun
        cases hrun
    | ok body =>
      obtain ⟨⟨rest, recursed⟩, w₂, hlater, hrun⟩ := exec_bind_eq_ok.1 hrun
      cases hrun
      have hbranch : exec (inBranch act) w = (.ok body, w₁) := by
        rw [exec_attempt] at hattempt
        rcases hin : exec (inBranch act) w with ⟨(f | _ | _) | b, w₀⟩ <;> rw [hin] at hattempt <;>
          cases hattempt
        rfl
      obtain ⟨hgood, hreaches, hcode⟩ := hbody body w₁ hbranch
      obtain ⟨hgood', hreaches', hcodes⟩ := ih hacts hgood hlater
      exact ⟨hgood', hreaches.trans hgood.1 hreaches', List.forall_mem_cons.2
        ⟨fun hs => ⟨(hcode hs).1, fun c hc => ((hcode hs).2 c hc).continues
          hreaches'.continues.bodies⟩, hcodes⟩⟩

lemma reaching_branches {acts : List (Eval Term)}
    (h : ∀ act ∈ acts, ∀ w, Reaching.Plain stack w act fun t _ => Discipline.still.Value t)
    (hagain : runsAgain acts w = false) :
    Reaching stack w (branches acts) (·.flatMap Term.calls) fun ts w' =>
      ts.length = acts.length ∧ ∀ t ∈ ts, Discipline.still.Code stack w' t := by
  intro hw ts w' hrun
  have hlength : ts.length = acts.length := (branches_eq_ok hrun).length_eq.symm
  rw [branches] at hrun
  obtain ⟨⟨found, recursed⟩, w₁, hfirst, hrun⟩ := exec_bind_eq_ok.1 hrun
  cases recursed with
  | none =>
    cases hrun
    obtain ⟨hgood, hreaches, hcodes⟩ := reaches_firstRun h hw hfirst
    exact ⟨hgood, hreaches, hlength, hcodes⟩
  | some r => simp [runsAgain, hfirst] at hagain

/-- The bodies keep their calls at their common type. -/
lemma calls_merge {op : Op} {bodies : List Term} {r : List Term × Option Ty} {w w' : World}
    (h : exec (merge op bodies) w = (.ok r, w')) :
    r.1.length = bodies.length ∧ r.1.flatMap Term.calls = bodies.flatMap Term.calls := by
  unfold merge at h
  split at h
  · cases h
    exact ⟨rfl, rfl⟩
  · split at h
    · cases h
    · cases h
      refine ⟨List.length_map .., ?_⟩
      rw [List.flatMap_map]
      refine List.flatMap_congr fun t _ => ?_
      split
      · rw [Term.calls_eq_sites, Term.sites_retypeMiss, ← Term.calls_eq_sites]
      · rfl

/-- The statement that holds a split has the calls of its bodies. -/
lemma reaching_finishSplit {op : Op} {arrange : List Term → List Term} {bodies : List Term}
    (h : ∀ t ∈ bodies, Discipline.still.Code stack w t)
    (harrange : ∀ bodies, ∀ t ∈ arrange bodies, t ∈ bodies ∨ Discipline.still.Value t)
    (hkept : ∀ ts : List Term, ts.length = bodies.length → ts ⊆ arrange ts) :
    Reaching.Plain stack w (finishSplit op arrange bodies) fun v w' =>
      Discipline.still.Value v ∧ ∀ c ∈ bodies.flatMap Term.calls,
        ∃ d ∈ w'.scope.stmts.flatMap Stmt.calls, d.1 = c.1 := by
  refine (Reaching.of_does (Discipline.does_finishSplit op h harrange)).ran.imp
    fun v w' ⟨hv, hrun⟩ => ⟨hv, fun c hc => ⟨c, ?_, rfl⟩⟩
  obtain ⟨r, w₁, hmerge, hrun⟩ := exec_bind_eq_ok.1 hrun
  obtain ⟨hlength, hcalls⟩ := calls_merge hmerge
  have hmem : ∀ ty, c ∈ (Term.op op (arrange r.1) ty).calls := by
    intro ty
    rw [← hcalls] at hc
    obtain ⟨t, ht, hc⟩ := List.mem_flatMap.1 hc
    rw [Term.calls_eq_sites] at hc ⊢
    obtain ⟨site, hsite, rfl⟩ := List.mem_map.1 hc
    exact List.mem_map_of_mem (Term.mem_sitesOfAll.2 ⟨t, hkept _ hlength ht, hsite⟩)
  obtain ⟨bodies', ty⟩ := r
  cases ty with
  | some ty =>
    obtain ⟨s, hs, hcalls⟩ := calls_bindResult hrun
    exact List.mem_flatMap.2 ⟨s, hs, hcalls ▸ hmem ty⟩
  | none =>
    obtain ⟨_, w₂, hpush, hrun⟩ := exec_bind_eq_ok.1 hrun
    cases hpush
    cases hrun
    have hpushed : (.state (.op op (arrange bodies') .unit) w₁.scope.trace : Stmt) ∈
        w₁.scope.stmts ++ [.state (.op op (arrange bodies') .unit) w₁.scope.trace] := by simp
    exact List.mem_flatMap.2 ⟨_, hpushed, hmem .unit⟩

/-! ### Operations -/

lemma reaching_cond (hev : Keeping ev) {symbol : Nat} {args : List Expr}
    (hsplit : ∀ acts w', Splits ev (.node symbol (.op .cond args)) w acts w' →
      runsAgain acts w' = false)
    (h : Expr.AllSorted args) :
    Reaching.Plain stack w (cond ev args) fun v _ => Discipline.still.Value v := by
  match args with
  | [test, yes, no] =>
    refine (hev.value stack test w h.1).ran.bind fun t w' ⟨ht, hrun⟩ => ?_
    cases htaken : t.bool? with
    | some taken =>
      dsimp only
      refine hev.value stack _ w' ?_
      cases taken
      · exact h.2.2.1
      · exact h.2.1
    | none =>
      dsimp only
      split
      · exact Reaching.bind (P := fun _ _ => False) (.fail _) fun _ _ h => h.elim
      · rename_i hty
        have hty' : (t.ty == .bool) = true := by simpa using hty
        refine (reaching_branches (fun act hact w => ?_)
          (hsplit _ _ (.cond hrun htaken hty'))).bind_place fun bodies w₁ hbodies => ?_
        · simp only [List.mem_cons, List.not_mem_nil, or_false] at hact
          rcases hact with rfl | rfl
          · exact hev.value stack yes w h.2.1
          · exact hev.value stack no w h.2.2.1
        · refine reaching_finishSplit hbodies.2 (fun bodies u hu => ?_)
            fun ts _ => List.subset_cons_self _ _
          rcases List.mem_cons.1 hu with rfl | hu
          · exact .inr ht
          · exact .inl hu
  | [] | [_] | [_, _] | _ :: _ :: _ :: _ :: _ => exact .fail _

lemma reaching_case (hev : Keeping ev) {value f : Term}
    (hsplit : ∀ {v members w₁ binders w₂}, value = .var v →
      (∃ ts, v.ty = .union ts) ∨ (∃ key, v.ty = .recur key) →
      exec (unionMembers v.ty) w = (.ok members, w₁) →
      exec (members.mapM freshVar) w₁ = (.ok binders, w₂) →
      runsAgain (binders.map fun b => apply ev f (if b.ty.isUnit then .ofUnit b.ty else .var b))
        w₂ = false)
    (hv : Discipline.still.Value value) (hf : Discipline.still.Value f) :
    Reaching.Plain stack w (case ev value f) fun v _ => Discipline.still.Value v := by
  -- A variable of a union or recursive type is told apart at run time.
  have hmembers : ∀ v, value = .var v → (∃ ts, v.ty = .union ts) ∨ (∃ key, v.ty = .recur key) →
      Discipline.still.Value (.var v) → Reaching.Plain stack w
      (do
        let members ← unionMembers v.ty
        let binders ← members.mapM freshVar
        let bodies ← branches (binders.map fun b =>
          apply ev f (if b.ty.isUnit then .ofUnit b.ty else .var b))
        finishSplit .case (caseArgs (.var v) binders) bodies)
      fun u _ => Discipline.still.Value u := by
    rintro v rfl hunion hv
    refine (Reaching.of_does (Discipline.does_unionMembers hv.var_ty)).ran.bind
      fun members _ ⟨hmembers, hrun⟩ => ?_
    refine (Reaching.mapM fun ty hty w => Reaching.of_does ((Discipline.does_freshVar
      (hmembers ty hty)).imp fun b _ hb => hb.2.1)).ran.bind fun binders _ ⟨hbinders, hrun'⟩ => ?_
    refine (reaching_branches (fun act hact w => ?_) (hsplit rfl hunion hrun hrun')).bind_place
      fun bodies _ hbodies => ?_
    · obtain ⟨b, hb, rfl⟩ := List.mem_map.1 hact
      refine reaching_apply hev hf ?_
      split
      · exact (hbinders b hb).var_ty.ofUnit
      · exact hbinders b hb
    · refine reaching_finishSplit hbodies.2 (fun bodies t ht => ?_) fun ts hts => ?_
      · rcases Discipline.mem_caseArgs ht with rfl | ⟨b, hb, rfl⟩ | ht
        · exact .inr hv
        · exact .inr (hbinders b hb)
        · exact .inl ht
      · exact subset_caseArgs (hts.trans (hbodies.1.trans (List.length_map ..)))
  -- Anything else is known to be of one member.
  unfold case
  split
  · exact reaching_apply hev hf fun hs => (hv hs).1
  · rename_i v
    split
    · rename_i ts hts
      exact hmembers v rfl (.inl ⟨ts, hts⟩) hv
    · rename_i key hkey
      exact hmembers v rfl (.inr ⟨key, hkey⟩) hv
    · exact reaching_apply hev hf hv
  · exact reaching_apply hev hf hv

lemma reaching_annotate (hev : Keeping ev) {args : List Expr} (h : Expr.AllSorted args) :
    Reaching.Plain stack w (annotate ev args) fun v _ => Discipline.still.Value v := by
  match args with
  | [value, annot] =>
    have hunwrap : value.unwrapPos.Sorted := h.1.unwrapPos
    unfold annotate
    dsimp only
    split
    · rename_i symbol inner heq
      split
      · rename_i body
        refine (hev.value stack annot w h.2.1).bind fun t _ ht => ?_
        rw [heq] at hunwrap
        exact reaching_enterPoint hev .method hunwrap.1 fun ty hty => by
          cases hty; exact (ht trivial).ty
      · exact .fail _
    · refine (hev.value stack value w h.1).bind fun v w₁ hv => ?_
      refine (hev.value stack annot w₁ h.2.1).bind fun t _ _ => ?_
      split
      · exact .pure fun _ => hv
      · exact .fail _
  | [] | [_] | _ :: _ :: _ :: _ => exact .fail _

lemma reaching_args (hev : Keeping ev) {args : List Expr} (h : Expr.AllSorted args) :
    Reaching.Plain stack w (args.mapM ev) fun ts _ => ∀ t ∈ ts, Discipline.still.Value t :=
  Reaching.mapM fun e he w => hev.value stack e w (Expr.allSorted_iff.1 h e he)

lemma reaching_evalOp (hev : Keeping ev) {symbol : Nat} (op : Op) {args : List Expr}
    (hsplit : ∀ acts w', Splits ev (.node symbol (.op op args)) w acts w' →
      runsAgain acts w' = false)
    (h : Expr.AllSorted args) :
    Reaching.Plain stack w (evalOp ev op args) fun v _ => Discipline.still.Value v := by
  cases op with
  -- Three operations decide themselves what is evaluated.
  | cond => exact reaching_cond hev hsplit h
  | annotate => exact reaching_annotate hev h
  | entry entry =>
    match args with
    | [body] => exact reaching_enterPoint hev entry h.1 fun ty hty => by cases hty
    | [] | _ :: _ :: _ => exact .fail _
  -- Operations that evaluate the bodies of functions.
  | apply =>
    refine (reaching_args hev h).bind fun ts _ hts => ?_
    exact (Reaching.of_does (Discipline.does_operands₂ _ hts)).bind
      fun r _ hr => reaching_apply hev hr.1 hr.2
  | case =>
    refine (reaching_args hev h).ran.bind fun ts _ ⟨hts, hargs⟩ => ?_
    match ts with
    | [value, f] =>
      refine reaching_case hev (fun hvar hunion hmembers hbinders => ?_) (hts _ (by simp))
        (hts _ (by simp))
      exact hsplit _ _ (.case (hvar ▸ hargs) hunion hmembers hbinders)
    | [] | [_] | _ :: _ :: _ :: _ => exact .fail _
  | closure =>
    exact (reaching_args hev h).bind fun ts _ hts =>
      reaching_closureOp hev fun t ht => hts t ht trivial
  | module op =>
    exact (reaching_args hev h).bind fun ts _ hts => reaching_moduleOp hev op hts
  -- The others go on with the values of their operands.
  | dynamize =>
    exact (reaching_args hev h).bind fun ts _ hts => .of_does
      ((Discipline.does_operand _ hts).bind fun t w' _ _ ht => Discipline.does_toRuntime t w' ht)
  | patternMiss =>
    exact (reaching_args hev h).bind fun ts _ hts => .of_does
      ((Discipline.does_operand _ hts).bind fun t _ _ _ ht => Discipline.does_patternMiss ht)
  | errorType =>
    exact (reaching_args hev h).bind fun ts _ hts => .of_does
      ((Discipline.does_operand _ hts).bind fun t _ _ _ _ => Discipline.does_raise t)
  | prim op =>
    exact (reaching_args hev h).bind fun ts _ hts => .of_does (Discipline.does_primOp op hts)
  | tuple op =>
    exact (reaching_args hev h).bind fun ts _ hts => .of_does (Discipline.does_tupleOp op hts)
  | layout op =>
    exact (reaching_args hev h).bind fun ts _ hts => .of_does (Discipline.does_layoutOp op hts)
  | array op =>
    exact (reaching_args hev h).bind fun ts _ hts => .of_does (Discipline.does_arrayOp op hts)
  | type op =>
    exact (reaching_args hev h).bind fun ts _ hts => .of_does (Discipline.does_typeOp op hts)
  | foreign target =>
    exact (reaching_args hev h).bind fun ts _ hts =>
      .of_does (Discipline.does_foreignOp target hts)

/-- A step that runs no branch again keeps what its parts do. -/
lemma reaching_step (hev : Keeping ev) {e : Expr}
    (hsplit : ∀ acts w', Splits ev e w acts w' → runsAgain acts w' = false) (he : e.Sorted) :
    Reaching.Plain stack w (step ev e) fun v _ => Discipline.still.Value v := by
  have hquiet : step ev e = step (fun _ => throw .outOfFuel) e →
      (∀ acts w', ¬ Splits (fun _ => throw .outOfFuel) e w acts w') →
      Reaching.Plain stack w (step ev e) fun v _ => Discipline.still.Value v := fun heq hnone =>
    heq ▸ .of_does (Discipline.does_step (pair_none stack)
      (fun acts w' h => absurd h (hnone acts w')) fun _ => he)
  obtain ⟨symbol, kind⟩ := e
  cases kind with
  | pattern p =>
    exact (Reaching.of_does (Discipline.does_build (Build.does_lowerPattern fun _ => he))).bind
      fun f w' hf => hev.value stack f w' (hf trivial)
  | tuple items =>
    exact (reaching_args hev he).bind fun ts _ hts => .pure fun _ => Discipline.value_tuple hts
  | op op args => exact reaching_evalOp hev op hsplit he
  | pos span e =>
    change Reaching.Plain stack w
      (if w.session.settings.traces then withSpan span (ev e) else ev e) _
    split
    · exact reaching_withSpan span fun w => hev.value stack e w he
    · exact hev.value stack e w he
  -- Names, literals and functions evaluate nothing.
  | var _ | lit _ | function _ _ | filtered _ _ _ | recFunction _ _ _ =>
    exact hquiet rfl fun _ _ h => nomatch h

end Steps

/-! ### Evaluation that keeps its code -/

/-- The step for `e` may drop code that was evaluated: it is one for a type join point, or it runs
a branch again. -/
def mayDrop (ev : Expr → Eval Term) (e : Expr) (w : World) : Bool :=
  w.scope.owner.any (fun p => decide (p.kind = .type)) ||
    (split? ev e w).any fun r => runsAgain r.1 r.2

/-- Evaluation that gives up where a step that may drop code has finished a function. -/
def evalKeeping : Nat → Expr → Eval Term
  | 0, _ => throw .outOfFuel
  | fuel + 1, e => do
    let w ← get
    let t ← step (evalKeeping fuel) e
    let w' ← get
    if mayDrop (evalKeeping fuel) e w = true ∧ ∃ q ∈ w'.session.finished, w.Finishes w' q then
      throw .outOfFuel
    else return t

lemma exec_evalKeeping_eq_ok {fuel : Nat} {e : Expr} {w w' : World} {t : Term} :
    exec (evalKeeping (fuel + 1) e) w = (.ok t, w') ↔
      exec (step (evalKeeping fuel) e) w = (.ok t, w') ∧
        (mayDrop (evalKeeping fuel) e w = true → ∀ q, ¬ w.Finishes w' q) := by
  rw [evalKeeping, exec_bind_of_ok (exec_get w)]
  constructor
  · intro h
    obtain ⟨u, w₁, hstep, h⟩ := exec_bind_eq_ok.1 h
    rw [exec_bind_of_ok (exec_get w₁)] at h
    split at h
    · cases h
    · rename_i hkeeps
      cases h
      exact ⟨hstep, fun hdrop q hq => hkeeps ⟨hdrop, q, hq.1, hq⟩⟩
  · rintro ⟨hstep, hkeeps⟩
    rw [exec_bind_of_ok hstep, exec_bind_of_ok (exec_get w'), if_neg]
    · rfl
    · rintro ⟨hdrop, q, -, hq⟩
      exact hkeeps hdrop q hq

end Eval

namespace Discipline

open Eval

lemma does_evalKeeping {D : Discipline} [D.Unguarded] (fuel : Nat) {i : D.Index} {e : Expr}
    {w : World} (he : D.strict → e.Sorted) :
    D.Does i w (evalKeeping fuel e) (evalKeeping fuel e) fun v _ => D.Value v := by
  induction fuel generalizing i e w with
  | zero => exact .throw _
  | succ fuel ih =>
    have hpair : ∀ i, D.Pair i (evalKeeping fuel) (evalKeeping fuel) := fun i =>
      ⟨fun e w he => ih he, fun p e w he => ih he, fun _ _ _ _ _ _ => Unguarded.ends _ _⟩
    refine Does.get ((does_step (hpair i) (fun _ _ _ => ⟨hpair _, fun _ _ =>
      Unguarded.guesses _ _ _⟩) he).bind fun t w₂ _ _ ht => Does.get ?_)
    split
    · exact .throw _
    · exact .pure fun _ => ht

end Discipline

namespace Eval

/-- Evaluation that does not give up keeps what it does. -/
theorem keeping_evalKeeping (fuel : Nat) : Keeping (evalKeeping fuel) := by
  induction fuel with
  | zero => exact ⟨fun _ _ _ _ _ _ _ h => (by cases h), fun _ _ _ _ _ _ _ _ h => (by cases h)⟩
  | succ fuel ih =>
    refine ⟨fun stack e w he hw t w' hrun => ?_, fun e w w' t p q howner hkind hrun => ?_⟩
    · obtain ⟨hstep, hkeeps⟩ := exec_evalKeeping_eq_ok.1 hrun
      cases hdrop : mayDrop (evalKeeping fuel) e w with
      | true =>
        -- No function was done, so there is nothing to be reached.
        obtain ⟨-, hgood, hle, hvalue⟩ := Discipline.does_evalKeeping (D := Discipline.links)
          (fuel + 1) (fun _ => he) hw
        have hframe : Discipline.frame.Good () w := ⟨trivial, fun h => h.elim⟩
        obtain ⟨-, -, hframed, -⟩ := Discipline.does_evalKeeping (D := Discipline.frame)
          (fuel + 1) (e := e) (fun h => h.elim) hframe
        rw [hrun] at hgood hle hvalue hframed
        exact ⟨hgood, .of_none hle hframed.stmts (hkeeps hdrop), hvalue t rfl⟩
      | false =>
        refine reaching_step ih (fun acts w₀ hsplit => ?_) he hw t w' hstep
        rw [mayDrop, hsplit.split?_eq, Bool.or_eq_false_iff] at hdrop
        exact hdrop.2
    · refine (exec_evalKeeping_eq_ok.1 hrun).2 ?_ q
      rw [mayDrop, howner]
      simp [hkind]

end Eval

end Residual
