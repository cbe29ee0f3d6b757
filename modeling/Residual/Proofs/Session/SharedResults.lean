import Residual.Proofs.Eval.Frame
import Residual.Proofs.Session.FailedRetries

/-!
Results that are used again.

An operation that was emitted before is not emitted again where its result is still in scope. The
table of such results belongs to one body and is kept through its branches by an undo log. Main
statement: at every moment of every compilation each entry of the table is a pure operation that a
statement binds to the variable of the entry, among the statements so far or among those that a
branch which is still open has put aside. A branch leaves the table as it was, whether it succeeds
or fails.
-/

namespace Residual

open Eval

/-! ### Statements that are put aside -/

/-- As `Visits`, with the statements that the open branches of the body have put aside, those of
the innermost branch first. A step asks inside a branch if it comes to a split, and then all its
branches have put aside the statements from before the split. -/
inductive VisitsWithin (fuel₀ : Nat) (e₀ : Expr) (w₀ : World) :
    List (List Stmt) → Nat → Expr → World → Prop where
  | start : VisitsWithin fuel₀ e₀ w₀ [] fuel₀ e₀ w₀
  | part {saved fuel e w e' w'} : VisitsWithin fuel₀ e₀ w₀ saved (fuel + 1) e w →
    Asks (fun ev => step ev e) (eval fuel) w e' w' → w'.scope.owner = w.scope.owner →
    w'.scope.dynamicDepth = w.scope.dynamicDepth → VisitsWithin fuel₀ e₀ w₀ saved fuel e' w'
  | branch {saved fuel e w e' w' acts w₁} : VisitsWithin fuel₀ e₀ w₀ saved (fuel + 1) e w →
    Asks (fun ev => step ev e) (eval fuel) w e' w' → w'.scope.owner = w.scope.owner →
    w'.scope.dynamicDepth = w.scope.dynamicDepth + 1 → Splits (eval fuel) e w acts w₁ →
    VisitsWithin fuel₀ e₀ w₀ (w₁.scope.stmts :: saved) fuel e' w'
  | body {saved fuel e w e' w'} : VisitsWithin fuel₀ e₀ w₀ saved (fuel + 1) e w →
    Asks (fun ev => step ev e) (eval fuel) w e' w' → w'.scope.owner ≠ w.scope.owner →
    VisitsWithin fuel₀ e₀ w₀ [] fuel e' w'

/-! ### The invariant -/

/-- Each entry of the table is a pure operation that is bound to its variable by the statements so
far or by those that were put aside. -/
def Scope.SharesFrom (s : Scope) (saved : List (List Stmt)) : Prop :=
  ∀ e ∈ s.sharing.entries, e.1.op.isPure = true ∧ ∃ stmts ∈ s.stmts :: saved, e.1.BoundIn e.2 stmts

namespace Scope.SharesFrom

variable {s s' : Scope} {saved : List (List Stmt)}

lemma of_eq (h : s.SharesFrom saved) (hsharing : s'.sharing = s.sharing)
    (hstmts : s'.stmts = s.stmts) : s'.SharesFrom saved := by
  unfold SharesFrom
  rw [hsharing, hstmts]
  exact h

lemma push (h : s.SharesFrom saved) (hsharing : s'.sharing = s.sharing)
    (hstmts : s.stmts <+: s'.stmts) : s'.SharesFrom saved := by
  intro e he
  rw [hsharing] at he
  obtain ⟨hpure, stmts, hmem, trace, hlet⟩ := h e he
  refine ⟨hpure, ?_⟩
  rcases List.mem_cons.1 hmem with rfl | hmem
  · exact ⟨_, List.mem_cons_self .., trace, hstmts.subset hlet⟩
  · exact ⟨stmts, List.mem_cons_of_mem _ hmem, trace, hlet⟩

lemma insert (h : s.SharesFrom saved) {a : Application} {v : Var} (hpure : a.op.isPure = true)
    (hbound : a.BoundIn v s.stmts) :
    { s with sharing := s.sharing.insert a v : Scope }.SharesFrom saved := by
  refine List.forall_mem_cons.2 ⟨⟨hpure, _, List.mem_cons_self .., hbound⟩, fun e he => ?_⟩
  exact h e (List.mem_filter.1 he).1

/-- At the start of a branch the statements are put aside. -/
theorem enterBranch (h : s.SharesFrom saved) : s.enterBranch.SharesFrom (s.stmts :: saved) := by
  intro e he
  obtain ⟨hpure, stmts, hmem, hbound⟩ := h e he
  exact ⟨hpure, stmts, List.mem_cons_of_mem _ hmem, hbound⟩

lemma nil (h : s.sharing.entries = []) (saved : List (List Stmt)) : s.SharesFrom saved := by
  intro e he
  rw [h] at he
  cases he

end Scope.SharesFrom

/-- The bodies of `stack` are being evaluated, and the innermost one is inside the branches that
have put aside `saved`. -/
structure World.SharesIn (w : World) (stack : List Point) (saved : List (List Stmt)) : Prop where
  inStack : w.InStack stack
  depth : w.scope.dynamicDepth = saved.length
  shares : w.scope.SharesFrom saved

/-- Evaluation keeps the table of shared results in step with the statements. -/
def Discipline.sharing : Discipline where
  Index := List Point × List (List Stmt)
  strict := False
  Inv i w := w.SharesIn i.1 i.2
  Le := World.Framed
  Known _ _ _ _ := True
  inner i p := (p :: i.1, [])
  within i stmts := (i.1, stmts :: i.2)
  le_refl := .refl
  le_trans := .trans
  le_grows := Discipline.frame.le_grows
  le_owner := Discipline.frame.le_owner
  known_le _ _ _ := trivial
  known_pending _ _ _ _ := trivial
  known_done _ _ _ _ := trivial
  known_stmts h := h.elim
  known_within _ := trivial
  quiet h hq := ⟨⟨(Discipline.table.quiet h.inStack hq).1, h.depth, h.shares⟩,
    (Discipline.frame.quiet (i := ()) trivial hq).2⟩
  tags h ht := ⟨⟨(Discipline.table.tags h.inStack ht).1, h.depth, h.shares.of_eq rfl rfl⟩,
    (Discipline.frame.tags (i := ()) trivial ht).2⟩
  push h hs := ⟨⟨(Discipline.table.push h.inStack hs).1, h.depth,
      h.shares.push rfl (List.prefix_append ..)⟩,
    (Discipline.frame.push (i := ()) trivial hs).2⟩
  share h hnone hpure hbound :=
    ⟨⟨(Discipline.table.share h.inStack hnone hpure hbound).1, h.depth,
      h.shares.insert hpure hbound⟩, .share hnone _⟩
  setEnv env h := ⟨Discipline.table.setEnv env h.inStack, h.depth, h.shares.of_eq rfl rfl⟩
  resetEnv := Discipline.frame.resetEnv
  setTrace trace h :=
    ⟨Discipline.table.setTrace trace h.inStack, h.depth, h.shares.of_eq rfl rfl⟩
  resetTrace := Discipline.frame.resetTrace
  enterBranch h := ⟨Discipline.table.enterBranch h.inStack, congrArg (· + 1) h.depth,
    h.shares.enterBranch⟩
  leaveBranch h h' hle :=
    ⟨⟨(Discipline.table.leaveBranch h.inStack h'.inStack hle.later).1, congrArg (· - 1) h'.depth,
      h.shares.of_eq hle.sharing_leaveBranch rfl⟩, hle.leaveBranch⟩
  guess ty h hp _ := ⟨⟨(Discipline.table.guess ty h.inStack hp trivial).1, h.depth, h.shares⟩,
    (Discipline.frame.guess (i := ()) ty trivial hp trivial).2⟩
  retract h hp _ h' hle hstmts :=
    ⟨⟨(Discipline.table.retract h.inStack hp trivial h'.inStack hle.later hstmts).1, h'.depth,
      h'.shares⟩, (Discipline.frame.retract (i := ()) trivial hp trivial trivial hle hstmts).2⟩
  start h hnone hlimit hasked :=
    ⟨Discipline.table.start h.inStack hnone hlimit hasked, rfl, .nil rfl _⟩
  complete h hnone hasked h' hle _ hcheck _ :=
    ⟨⟨h.inStack.complete h'.inStack _ _, h.depth, h.shares⟩,
      (Discipline.frame.complete (i := ()) trivial hnone hasked trivial hle (fun h => h.elim) hcheck
        trivial).2.1, fun _ _ _ => trivial⟩
  abandon h hnone h' hle := ⟨⟨h.inStack.abandon h'.inStack, h.depth, h.shares⟩,
    (Discipline.frame.abandon (i := ()) trivial hnone trivial hle).2⟩

instance : Discipline.sharing.Unguarded :=
  ⟨fun _ _ => trivial, fun _ _ _ => trivial, fun h => h⟩

/-- Every visit is inside known branches, and there the table is in step with the statements. -/
lemma Visits.sharesIn {fuel₀ : Nat} {e₀ : Expr} {w₀ : World} (h₀ : w₀.SharesIn [] [])
    {stack : List Point} {fuel : Nat} {e : Expr} {w : World}
    (h : Visits fuel₀ e₀ w₀ stack fuel e w) :
    ∃ saved, VisitsWithin fuel₀ e₀ w₀ saved fuel e w ∧ w.SharesIn stack saved := by
  induction h with
  | start => exact ⟨[], .start, h₀⟩
  | @part stack fuel e w e' w' _ hask ih =>
    obtain ⟨saved, hvisit, hw⟩ := ih
    -- A visit of the body of another join point starts with nothing saved.
    have hbody : ∀ p, w'.SharesIn (p :: stack) [] →
        ∃ saved', VisitsWithin fuel₀ e₀ w₀ saved' fuel e' w' ∧
          w'.SharesIn (w'.stackFrom w stack) saved' := by
      intro p hw'
      have howner : w'.scope.owner = some p := hw'.inStack.owner
      have hnew : p ∉ stack := (List.nodup_cons.1 hw'.inStack.table.nested).1
      have hne : w'.scope.owner ≠ w.scope.owner := fun heq =>
        hnew (hw.inStack.mem_owner (heq.symm.trans howner))
      refine ⟨[], .body hvisit hask hne, ?_⟩
      rw [World.stackFrom, if_neg hne, howner]
      exact hw'
    -- A visit of the same body.
    have hsame : ∀ saved', w'.SharesIn stack saved' → w'.scope.owner = w.scope.owner ∧
        w'.SharesIn (w'.stackFrom w stack) saved' := by
      intro saved' hw'
      have howner := hw'.inStack.owner.trans hw.inStack.owner.symm
      rw [World.stackFrom, if_pos howner]
      exact ⟨howner, hw'⟩
    have hgood : Discipline.sharing.Good (stack, saved) w := ⟨hw, fun h => h.elim⟩
    rcases (Discipline.good_of_asks (D := .sharing) (fun _ => Discipline.pair_eval fuel)
      (fun h => h.elim) hgood hask).2 with
      (⟨hw', -⟩ | ⟨p, hw', -⟩) | ⟨acts, w₁, hsplit, ⟨hw', -⟩ | ⟨p, hw', -⟩⟩
    · -- The four ways to come to a part: here, in a body, in a branch, in a body inside a branch.
      obtain ⟨howner, hin⟩ := hsame saved hw'
      exact ⟨saved, .part hvisit hask howner (hw'.depth.trans hw.depth.symm), hin⟩
    · exact hbody p hw'
    · obtain ⟨howner, hin⟩ := hsame (w₁.scope.stmts :: saved) hw'
      refine ⟨_, .branch hvisit hask howner ?_ hsplit, hin⟩
      rw [hw'.depth, hw.depth]
      rfl
    · exact hbody p hw'

lemma World.SharesIn.eval {w : World} {stack : List Point} {saved : List (List Stmt)}
    (h : w.SharesIn stack saved) (fuel : Nat) (e : Expr) :
    (exec (Eval.eval fuel e) w).2.SharesIn stack saved := by
  have hgood : Discipline.sharing.Good (stack, saved) w := ⟨h, fun h => h.elim⟩
  exact (Discipline.does_eval (D := .sharing) fuel (fun h => h.elim) hgood).2.1.1

/-! ### Leaving a branch -/

namespace Eval

variable {α : Type}

/-- A step that leaves the table of shared results as it was, also where it fails. -/
def KeepsSharing (m : Eval α) : Prop := ∀ w, (exec m w).2.scope.sharing = w.scope.sharing

namespace KeepsSharing

lemma inBranch {m : Eval Term} (h : ∀ w : World, w.Framed (exec m w).2) :
    KeepsSharing (inBranch m) := by
  intro w
  rw [exec_inBranch]
  exact (h w.enterBranch).sharing_leaveBranch

lemma bind {β : Type} {m : Eval α} {f : α → Eval β} (hm : KeepsSharing m)
    (hf : ∀ a, KeepsSharing (f a)) : KeepsSharing (m >>= f) := by
  intro w
  rcases hrun : exec m w with ⟨s | a, w'⟩
  · rw [exec_bind_of_error hrun]
    exact (congrArg (fun r => r.2.scope.sharing) hrun).symm.trans (hm w)
  · rw [exec_bind_of_ok hrun, hf a w']
    exact (congrArg (fun r => r.2.scope.sharing) hrun).symm.trans (hm w)

lemma attempt {m : Eval α} (h : KeepsSharing m) : KeepsSharing (attempt m) := by
  intro w
  rw [exec_attempt, ← h w]
  rcases (exec m w).1 with (_ | _ | _) | _ <;> rfl

lemma pendingRecursion (fault : Fault) : KeepsSharing (pendingRecursion fault) := by
  intro w
  unfold Eval.pendingRecursion
  split
  · rfl
  · rw [exec_bind_of_ok (exec_getScope w)]
    split
    · rfl
    · rw [exec_bind_of_ok (exec_getSession w)]
      split <;> rfl

variable {acts : List (Eval Term)}

lemma firstRun (h : ∀ act ∈ acts, KeepsSharing (Eval.inBranch act)) :
    KeepsSharing (firstRun acts) := by
  induction acts with
  | nil => exact fun w => rfl
  | cons act rest ih =>
    obtain ⟨hact, hrest⟩ := List.forall_mem_cons.1 h
    have hrest := ih hrest
    refine hact.attempt.bind fun r => ?_
    cases r with
    | ok body => exact hrest.bind fun r w => rfl
    | error fault =>
      refine (pendingRecursion fault).bind fun r => ?_
      cases r with
      | none => exact fun w => rfl
      | some p => exact hrest.bind fun r w => rfl

lemma secondRun (h : ∀ act ∈ acts, KeepsSharing (Eval.inBranch act))
    (bodies : List (Option Term)) : KeepsSharing (secondRun bodies acts) := by
  induction acts generalizing bodies with
  | nil => rcases bodies with _ | ⟨_ | _, _⟩ <;> exact fun w => rfl
  | cons act rest ih =>
    obtain ⟨hact, hrest⟩ := List.forall_mem_cons.1 h
    rcases bodies with _ | ⟨_ | body, bodies⟩
    · exact fun w => rfl
    · refine hact.attempt.bind fun r => ?_
      cases r with
      | error fault => exact fun w => rfl
      | ok body => exact (ih hrest bodies).bind fun r => by cases r <;> exact fun w => rfl
    · exact (ih hrest bodies).bind fun r => by cases r <;> exact fun w => rfl

lemma branches (h : ∀ act ∈ acts, KeepsSharing (Eval.inBranch act)) :
    KeepsSharing (branches acts) := by
  refine (firstRun h).bind fun r => ?_
  obtain ⟨bodies, _ | ⟨fault, p⟩⟩ := r
  · exact fun w => rfl
  · dsimp only
    split
    · exact fun w => rfl
    · refine .bind (fun w => rfl) fun _ => .bind (fun w => rfl) fun session => ?_
      refine (secondRun h bodies).bind fun r => ?_
      cases r <;> exact fun w => rfl

end KeepsSharing

end Eval

/-- The branches of a split that evaluation comes to keep to their frame. -/
theorem Splits.framed {fuel : Nat} {e : Expr} {w w₀ : World} {acts : List (Eval Term)}
    (h : Splits (eval fuel) e w acts w₀) : ∀ act ∈ acts, ∀ w : World, w.Framed (exec act w).2 := by
  have hstrict : ¬ Discipline.frame.strict := fun h => h
  have hgood : ∀ w, Discipline.frame.Good () w := fun w => ⟨trivial, fun h => h.elim⟩
  obtain ⟨-, α, l, g, rfl, hg⟩ := h.does hstrict (Discipline.pair_eval fuel) (hgood w)
  refine List.forall_mem_map.2 fun a ha w => ?_
  exact (hg a ha w (hgood w)).2.2.1

/-! ### Compilations -/

lemma Session.Consistent.sharesIn {s : Session} (h : s.Consistent []) (c : Call) :
    (c.world s).SharesIn [] [] :=
  ⟨h.inStack c, rfl, .nil rfl _⟩

/-- At the start and at the end of every step that a compilation of a session comes to, each shared
result is that of a pure operation, and a statement binds its variable to the operation: one of the
statements so far, or one of those that the branches which are still open have put aside, as many
as the scope counts. At every split each branch, each run through some of the branches and the
split as a whole leave the table of shared results as it was, also where they fail. -/
theorem sharedResults_inScope (store : Store) (settings : Settings) (calls : List Call)
    (c : Call) :
    let s := Session.after { store, settings } calls
    ∀ stack fuel e w, Visits c.fuel c.code (c.world s) stack fuel e w →
      (∃ saved, VisitsWithin c.fuel c.code (c.world s) saved fuel e w ∧
        saved.length = w.scope.dynamicDepth ∧
        ∀ w' ∈ [w, (exec (eval fuel e) w).2], ∀ entry ∈ w'.scope.sharing.entries,
          entry.1.op.isPure = true ∧
            ∃ stmts ∈ w'.scope.stmts :: saved, entry.1.BoundIn entry.2 stmts) ∧
      ∀ n, fuel = n + 1 → ∀ acts w₀, Splits (eval n) e w acts w₀ →
        (∀ act ∈ acts, KeepsSharing (inBranch act)) ∧
        (∀ run, (∀ act ∈ run, act ∈ acts) → KeepsSharing (firstRun run) ∧
          ∀ bodies, KeepsSharing (secondRun bodies run)) ∧
        KeepsSharing (branches acts) := by
  intro s stack fuel e w hvisit
  have hcons : s.Consistent [] := (Session.consistent_new store settings).after calls
  obtain ⟨saved, hwithin, hw⟩ := hvisit.sharesIn (hcons.sharesIn c)
  refine ⟨⟨saved, hwithin, hw.depth.symm, fun w' hw' => ?_⟩, fun n _ acts w₀ hsplit => ?_⟩
  · simp only [List.mem_cons, List.not_mem_nil, or_false] at hw'
    rcases hw' with rfl | rfl
    · exact hw.shares
    · exact (hw.eval fuel e).shares
  · have hacts : ∀ act ∈ acts, KeepsSharing (inBranch act) :=
      fun act hact => .inBranch (hsplit.framed act hact)
    refine ⟨hacts, fun run hrun => ?_, .branches hacts⟩
    have hsome : ∀ act ∈ run, KeepsSharing (inBranch act) := fun act hact =>
      hacts act (hrun act hact)
    exact ⟨.firstRun hsome, .secondRun hsome⟩

/-! ### A result from before a split -/

/-- The first branch of a conditional whose test is left for later is visited. -/
theorem Visits.yes {fuel₀ : Nat} {e₀ : Expr} {w₀ : World} {stack : List Point} {fuel : Nat}
    {symbol : Nat} {test yes no : Expr} {w w₁ : World} {t : Term}
    (h : Visits fuel₀ e₀ w₀ stack (fuel + 1) (.node symbol (.op .cond [test, yes, no])) w)
    (htest : exec (eval fuel test) w = (.ok t, w₁)) (hbool : t.bool? = none)
    (hty : (t.ty == .bool) = true) (hne : test ≠ yes)
    (hrun : (exec (eval (fuel + 1) (.node symbol (.op .cond [test, yes, no]))) w).1 ≠
      .error .outOfFuel) :
    ∃ stack', Visits fuel₀ e₀ w₀ stack' fuel yes w₁.enterBranch := by
  refine ⟨_, h.part (asks_of_outOfFuel hrun fun ev' hagree hev' => ?_)⟩
  have htest' : exec (ev' test) w = (.ok t, w₁) := by
    rw [hagree test w fun heq => hne heq.1, htest]
  have hsplit : Splits ev' (.node symbol (.op .cond [test, yes, no])) w [ev' yes, ev' no] w₁ :=
    .cond htest' hbool hty
  have hbranch : exec (attempt (inBranch (ev' yes))) w₁ =
      (.error .outOfFuel, w₁.leaveBranch w₁.enterBranch) := by
    rw [exec_attempt, exec_inBranch, hev']
    rfl
  have hacts : exec (branches [ev' yes, ev' no]) w₁ =
      (.error .outOfFuel, w₁.leaveBranch w₁.enterBranch) := by
    rw [branches, firstRun, exec_bind_of_error (exec_bind_of_error hbranch)]
  rw [hsplit.exec_step_of_error hacts]

namespace NegatedTest

/-- A conditional whose test is the negation of a variable. -/
def program : Build (Expr × Env) := do
  let x ← Build.name "x"
  let value ← Build.var x
  let test ← Build.op (.prim (.unary .not)) [value]
  return (← Build.cond test value value, Env.empty.bind x (.var ⟨0, .bool⟩))

def call : Call := ⟨(program.run {}).2, 5, (program.run {}).1.1, (program.run {}).1.2⟩

/-- The first branch of the conditional that a program is, and the world in which it starts. -/
def branch? (c : Call) : Option (Expr × World) :=
  match c.code, (exec (eval 5 c.code) (c.world {})).1 with
  | _, .error .outOfFuel => none
  | .node _ (.op .cond [test, yes, _]), _ =>
    match exec (eval 4 test) (c.world {}) with
    | (.ok t, w) =>
      if t.bool?.isNone ∧ t.ty == .bool ∧ test.symbol ≠ yes.symbol then some (yes, w.enterBranch)
      else none
    | _ => none
  | _, _ => none

lemma visits_of_branch {c : Call} (hfuel : c.fuel = 5) {e : Expr} {w : World}
    (h : branch? c = some (e, w)) : ∃ stack, Visits c.fuel c.code (c.world {}) stack 4 e w := by
  unfold branch? at h
  split at h
  · cases h
  · rename_i symbol test yes no hcode hrun
    split at h
    · rename_i t w₁ htest
      split at h
      · rename_i hsplit
        cases h
        have hvisit : Visits c.fuel c.code (c.world {}) [] (4 + 1)
            (.node symbol (.op .cond [test, e, no])) (c.world {}) := by
          rw [← hcode, show 4 + 1 = c.fuel from hfuel.symm]
          exact .start
        refine hvisit.yes htest (Option.isNone_iff_eq_none.1 hsplit.1) hsplit.2.1
          (fun heq => hsplit.2.2 (congrArg Expr.symbol heq)) ?_
        rw [← hcode]
        exact hrun
      · cases h
    · cases h
  · cases h

end NegatedTest

/-- In the first branch after a negation the result of the negation can be used again: the
statement that binds it was put aside by the branch. -/
theorem sharedResults_inScope_negatedTest : ∃ stack e w saved,
    Visits 5 NegatedTest.call.code (NegatedTest.call.world {}) stack 4 e w ∧
      VisitsWithin 5 NegatedTest.call.code (NegatedTest.call.world {}) saved 4 e w ∧
      w.scope.stmts = [] ∧ saved.length = 1 ∧ w.scope.sharing.entries.length = 1 ∧
      ∀ entry ∈ w.scope.sharing.entries, ∃ stmts ∈ saved, entry.1.BoundIn entry.2 stmts := by
  have hbranch : (NegatedTest.branch? NegatedTest.call).any (fun r =>
      r.2.scope.stmts.isEmpty && r.2.scope.dynamicDepth == 1 &&
        r.2.scope.sharing.entries.length == 1) = true := by
    decide +kernel
  obtain ⟨⟨e, w⟩, hr, hscope⟩ := (Option.any_eq_true ..).1 hbranch
  simp only [Bool.and_eq_true, List.isEmpty_iff, beq_iff_eq] at hscope
  obtain ⟨⟨hstmts, hdepth⟩, hentries⟩ := hscope
  obtain ⟨stack, hvisit⟩ := NegatedTest.visits_of_branch rfl hr
  obtain ⟨saved, hwithin, hlength, hshares⟩ :=
    (sharedResults_inScope {} {} [] NegatedTest.call stack 4 e w hvisit).1
  refine ⟨stack, e, w, saved, hvisit, hwithin, hstmts, hlength.trans hdepth, hentries,
    fun entry hentry => ?_⟩
  obtain ⟨-, stmts, hmem, hbound⟩ := hshares w (List.mem_cons_self ..) entry hentry
  rcases List.mem_cons.1 hmem with rfl | hmem
  · obtain ⟨trace, hlet⟩ := hbound
    rw [hstmts] at hlet
    cases hlet
  · exact ⟨stmts, hmem, hbound⟩

end Residual
