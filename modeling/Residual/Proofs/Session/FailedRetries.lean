import Residual.Proofs.Eval.Retries
import Residual.Proofs.Session.Calls

/-!
Second tries that fail.

A branch of a split can recurse before the type of its body is known. Once another branch has told
the type it is tried again under this guess. Main statement: if trying again fails, the table of
join points and the order in which they were done are as they were before the guess, but for the
type of the body, which is unknown, and the split fails as its branch did the first time. The type
was unknown before as well, unless a split inside another branch had guessed it already.
-/

namespace Residual

open Eval

/-! ### Splits that a step comes to -/

namespace Splits

variable {ev : Expr → Eval Term} {e : Expr} {w w₀ : World} {acts : List (Eval Term)}
variable {D : Discipline} {i : D.Index}

/-- The branches keep to every discipline that asks nothing of values, and so does what comes
before them. -/
theorem does (hstrict : ¬ D.strict) (hev : D.Pair i ev ev) (h : Splits ev e w acts w₀)
    (hw : D.Good i w) :
    D.Good i w₀ ∧ ∃ (α : Type) (l : List α) (g : α → Eval Term), acts = l.map g ∧
      ∀ a ∈ l, ∀ w, D.Does i w (g a) (g a) fun t _ => D.Value t := by
  have hvalue : ∀ t, D.Value t := fun t hs => absurd hs hstrict
  cases h with
  | @cond symbol test yes no _ t _ htest hbool hty =>
    have hgood := (hev.here test w (fun hs => absurd hs hstrict) hw).2.1
    rw [htest] at hgood
    exact ⟨hgood, Expr, [yes, no], ev, rfl,
      fun e _ w => hev.here e w fun hs => absurd hs hstrict⟩
  | @case symbol args _ v f w₁ members w₂ binders _ hargs hunion hmembers hbinders =>
    have hgood₁ := (Discipline.Does.mapM (l := args) (fun e _ w =>
      hev.here e w fun hs => absurd hs hstrict) hw).2.1
    rw [hargs] at hgood₁
    have hgood₂ := (Discipline.does_unionMembers (t := v.ty) (fun hs => absurd hs hstrict)
      hgood₁).2.1
    rw [hmembers] at hgood₂
    have hfresh : ∀ ty ∈ members, ∀ w, D.Does i w (freshVar ty) (freshVar ty)
        fun _ _ => True := fun ty _ w =>
      (Discipline.does_freshVar fun hs => absurd hs hstrict).imp fun _ _ _ => trivial
    have hgood₃ := (Discipline.Does.mapM hfresh hgood₂).2.1
    rw [hbinders] at hgood₃
    exact ⟨hgood₃, Var, binders, _, rfl, fun b _ w =>
      Discipline.does_apply hev (hvalue f) (hvalue _)⟩

end Splits

/-! ### The first run -/

namespace Eval

/-- A fault that leads to a second try is about the join point whose body is evaluated. -/
lemma pending_of_pendingRecursion {fault : Fault} {w w' : World} {p : Point}
    (h : exec (pendingRecursion fault) w = (.ok (some p), w')) : fault.pending = some p := by
  unfold pendingRecursion at h
  cases hpending : fault.pending with
  | none =>
    rw [hpending] at h
    cases h
  | some q =>
    rw [hpending] at h
    dsimp only at h
    rw [exec_bind_of_ok (exec_getScope w)] at h
    split at h
    · cases h
    · rw [exec_bind_of_ok (exec_getSession w)] at h
      split at h
      · cases h
        rfl
      · cases h

lemma inBranch_of_attempt {act : Eval Term} {w w' : World} {fault : Fault}
    (h : exec (attempt (inBranch act)) w = (.ok (.error fault), w')) :
    (exec (inBranch act) w).1 = .error (.failed fault) := by
  rw [exec_attempt] at h
  rcases hrun : (exec (inBranch act) w).1 with (_ | _ | _) | _ <;> rw [hrun] at h <;> cases h
  rfl

/-- The first branch that recurses too early tells the fault and the join point that a run of all
branches ends with. -/
lemma recursed_of_firstRun {acts : List (Eval Term)} {w w' : World}
    {bodies : List (Option Term)} {fault : Fault} {p : Point}
    (h : exec (firstRun acts) w = (.ok (bodies, some (fault, p)), w')) :
    fault.pending = some p ∧ ∃ before act after bodies₁ w₁, acts = before ++ act :: after ∧
      exec (firstRun before) w = (.ok (bodies₁, none), w₁) ∧
      (exec (inBranch act) w₁).1 = .error (.failed fault) := by
  induction acts generalizing w bodies with
  | nil => cases h
  | cons act rest ih =>
    rw [firstRun] at h
    obtain ⟨r, w₁, hattempt, h⟩ := exec_bind_eq_ok.1 h
    cases r with
    | ok body =>
      obtain ⟨⟨bodies₂, recursed⟩, w₂, hrest, h⟩ := exec_bind_eq_ok.1 h
      cases h
      obtain ⟨hpending, before, act', after, bodies₁, w₃, rfl, hbefore, hact⟩ := ih hrest
      refine ⟨hpending, act :: before, act', after, some body :: bodies₁, w₃, rfl, ?_, hact⟩
      rw [firstRun, exec_bind_of_ok hattempt, exec_bind_of_ok hbefore]
      rfl
    | error fault' =>
      obtain ⟨r, w₂, hpending, h⟩ := exec_bind_eq_ok.1 h
      cases r with
      | none => cases h
      | some q =>
        obtain ⟨_, w₃, -, h⟩ := exec_bind_eq_ok.1 h
        cases h
        exact ⟨pending_of_pendingRecursion hpending, [], act, rest, [], w, rfl, rfl,
          inBranch_of_attempt hattempt⟩

/-- The world in which a split guesses the type of the join point whose body is evaluated, with
that join point and the fault of the branch that recursed into it too early, if trying again under
the guess fails. -/
def wrongGuess? (acts : List (Eval Term)) (w : World) : Option (World × Fault × Point) :=
  match exec (firstRun acts) w with
  | (.ok (bodies, some (fault, p)), w₁) =>
    match firstType? (bodies.filterMap id) with
    | none => none
    | some ty =>
      match (exec (secondRun bodies acts) (w₁.setPending p (some ty))).1 with
      | .ok (.error _) => some (w₁, fault, p)
      | _ => none
  | _ => none

lemma wrongGuess?_eq_some_iff {acts : List (Eval Term)} {w w₁ : World} {fault : Fault}
    {p : Point} :
    wrongGuess? acts w = some (w₁, fault, p) ↔ ∃ bodies ty fault' w₂,
      exec (firstRun acts) w = (.ok (bodies, some (fault, p)), w₁) ∧
        firstType? (bodies.filterMap id) = some ty ∧
        exec (secondRun bodies acts) (w₁.setPending p (some ty)) = (.ok (.error fault'), w₂) := by
  constructor
  · intro h
    unfold wrongGuess? at h
    split at h
    · rename_i bodies fault' p' w' hfirst
      split at h
      · cases h
      · rename_i ty hty
        split at h
        · rename_i fault'' hsecond
          cases h
          exact ⟨bodies, ty, fault'', _, hfirst, hty, Prod.ext hsecond rfl⟩
        · cases h
    · cases h
  · rintro ⟨bodies, ty, fault', w₂, hfirst, hty, hsecond⟩
    simp only [wrongGuess?, hfirst, hty, hsecond]

/-- A split whose branches are tried again and fail takes back what was done under the guess. -/
lemma exec_branches_of_failed {acts : List (Eval Term)} {w₀ w₁ w₂ : World}
    {bodies : List (Option Term)} {fault fault' : Fault} {p : Point} {ty : Ty}
    (hfirst : exec (firstRun acts) w₀ = (.ok (bodies, some (fault, p)), w₁))
    (hty : firstType? (bodies.filterMap id) = some ty)
    (hsecond : exec (secondRun bodies acts) (w₁.setPending p (some ty)) =
      (.ok (.error fault'), w₂)) :
    exec (branches acts) w₀ =
      (.error (.failed fault), w₂.retract p w₁.session.finished.length) := by
  rw [branches, exec_bind_of_ok hfirst]
  dsimp only
  rw [hty]
  refine (exec_retry bodies acts fault p ty w₁).trans ?_
  rw [hsecond]

end Eval

/-! ### The table after a failed second run -/

/-- The table of join points and the order in which they were done are those of `w`, but for the
type of `p`, which is unknown. -/
structure World.Restores (w w' : World) (p : Point) : Prop where
  finished : w'.session.finished = w.session.finished
  others : ∀ q, q ≠ p → w'.session.find? q = w.session.find? q
  unknown : ∃ ty trace, w.session.find? p = some ⟨.pending ty, trace⟩ ∧
    w'.session.find? p = some ⟨.pending none, trace⟩

/-- Where the type was unknown before nothing has changed. -/
lemma World.Restores.find?_eq {w w' : World} {p : Point} (h : w.Restores w' p) {trace : Trace}
    (hp : w.session.find? p = some ⟨.pending none, trace⟩) (q : Point) :
    w'.session.find? q = w.session.find? q := by
  by_cases hq : q = p
  · subst hq
    obtain ⟨ty, trace', hty, hp'⟩ := h.unknown
    rw [hp] at hty
    cases hty
    exact hp'.trans hp.symm
  · exact h.others q hq

namespace Discipline

open Eval

/-- A second run that fails leaves the table behind as it was before the guess. -/
lemma restores_branches {stack : List Point} {w₀ w₁ : World} {α : Type} {l : List α}
    {g : α → Eval Term} (hw₀ : w₀.InStack stack)
    (hg : ∀ a ∈ l, ∀ w, Discipline.entries.Does stack w (g a) (g a) fun _ _ => True)
    {fault : Fault} {p : Point} (h : wrongGuess? (l.map g) w₀ = some (w₁, fault, p)) :
    w₀.scope.owner = some p ∧ ∃ w₃, exec (branches (l.map g)) w₀ = (.error (.failed fault), w₃) ∧
      w₁.Restores w₃ p := by
  obtain ⟨bodies, ty, fault', w₂, hfirst, hty, hsecond⟩ := wrongGuess?_eq_some_iff.1 h
  have hgood₀ : Discipline.entries.Good stack w₀ := ⟨hw₀, fun h => h.elim⟩
  have hvalue : ∀ t, Discipline.entries.Value t := fun _ h => h.elim
  have hg' : ∀ a ∈ l, ∀ w, Discipline.entries.Does stack w (g a) (g a)
      fun t _ => Discipline.entries.Value t :=
    fun a ha w => (hg a ha w).imp fun t _ _ => hvalue t
  obtain ⟨-, ⟨hw₁, -⟩, hle, hfound⟩ := does_firstRun (w := w₀) hg' rfl hgood₀
  rw [hfirst] at hw₁ hle hfound
  have howner : w₁.scope.owner = some p := (hfound _ rfl).2.1 fault p rfl
  have hguess := Discipline.entries.guess ty hw₁ howner trivial
  have hbodies : Discipline.entries.Bodies stack (w₁.setPending p (some ty)) bodies :=
    fun _ _ t _ => (hvalue t).code
  obtain ⟨-, ⟨hw₂, -⟩, hle', -⟩ := does_secondRun (w := w₁.setPending p (some ty))
    hg' rfl hbodies ⟨hguess.1, fun h => h.elim⟩
  rw [hsecond] at hw₂ hle'
  refine ⟨(World.Keeps.later hle).owner.symm.trans howner, _,
    exec_branches_of_failed hfirst hty hsecond, ?_⟩
  obtain ⟨hfinished, hfind⟩ := World.Keeps.restores hw₁ howner hw₂ hle'
  refine ⟨hfinished, fun q hq => ?_, ?_⟩
  · rw [hfind, if_neg hq]
  · obtain ⟨old, trace, hp⟩ := (World.InStack.table hw₁ |>.inEvaluation p).1
      (World.InStack.mem_owner hw₁ howner)
    refine ⟨old, trace, hp, ?_⟩
    rw [hfind, if_pos rfl, hp]
    rfl

end Discipline

/-- At every split that a compilation of a session comes to: if a branch recursed before the type
of the body was known, and trying again with the type of another branch fails, then the split and
the step that it belongs to fail with the first fault of the first such branch. The table of join
points and the order in which they were done are as they were before the guess, but for the type of
the body, which is unknown. -/
theorem failed_retry_restores (store : Store) (settings : Settings) (calls : List Call)
    (c : Call) :
    let s := Session.after { store, settings } calls
    ∀ stack fuel e w, Visits c.fuel c.code (c.world s) stack (fuel + 1) e w →
      ∀ acts w₀, Splits (eval fuel) e w acts w₀ →
        ∀ w₁ fault p, wrongGuess? acts w₀ = some (w₁, fault, p) →
          (w₀.scope.owner = some p ∧ fault.pending = some p ∧
            ∃ before act after bodies w₂, acts = before ++ act :: after ∧
              exec (firstRun before) w₀ = (.ok (bodies, none), w₂) ∧
              (exec (inBranch act) w₂).1 = .error (.failed fault)) ∧
          ∃ w₃, exec (branches acts) w₀ = (.error (.failed fault), w₃) ∧
            exec (eval (fuel + 1) e) w = (.error (.failed fault), w₃) ∧ w₁.Restores w₃ p ∧
            ∀ trace, w₁.session.find? p = some ⟨.pending none, trace⟩ →
              ∀ q, w₃.session.find? q = w₁.session.find? q := by
  intro s stack fuel e w hvisit acts w₀ hsplits w₁ fault p hfailed
  have hw : w.InStack stack :=
    hvisit.inStack (((Session.consistent_new store settings).after calls).inStack c)
  have hentries : ¬ Discipline.entries.strict := fun h => h
  obtain ⟨⟨hw₀, -⟩, α, l, g, rfl, hg⟩ :=
    hsplits.does hentries (Discipline.pair_eval fuel) ⟨hw, fun h => h.elim⟩
  obtain ⟨howner, w₃, hbranches, hrestores⟩ := Discipline.restores_branches hw₀
    (fun a ha w => (hg a ha w).imp fun _ _ _ => trivial) hfailed
  obtain ⟨bodies, ty, fault', w₂, hfirst, -, -⟩ := wrongGuess?_eq_some_iff.1 hfailed
  obtain ⟨hpending, hrecursed⟩ := recursed_of_firstRun hfirst
  exact ⟨⟨howner, hpending, hrecursed⟩, w₃, hbranches, hsplits.exec_step_of_error hbranches,
    hrestores, fun trace hp => hrestores.find?_eq hp⟩

/-! ### A wrong guess -/

namespace WrongGuess

/-- One of two values. Both are evaluated, the first one first. -/
def pick (i : Nat) (a b : Expr) : Build Expr := do
  Build.op (.tuple (.index i)) [← Build.tuple [a, b]]

/-- A call of the function that is being evaluated. -/
def again (f x : Name) : Build Expr := do
  Build.apply (← Build.var f) (← Build.var x)

/-- A method that is a split with the given sides, and the scope of the function it belongs to. -/
def method (sides : Name → Name → Build (Expr × Expr)) : Build (Expr × Env) := do
  let f ← Build.name "f"
  let x ← Build.name "x"
  let (yes, no) ← sides f x
  let entry ← Build.joinMethod (← Build.cond (← Build.var x) yes no)
  let loop : Term := .map .empty (.recFunction f x entry)
  return (entry, (Env.empty.bind f loop).bind x (.var ⟨0, .bool⟩))

/-- One side negates the result of the method itself, and enters another method before. The other
side is a text. -/
def negated : Build (Expr × Env) := method fun f x => do
  let other ← Build.joinMethod (← Build.var x)
  let result ← pick 0 (← again f x) other
  return (← Build.op (.prim (.unary .not)) [result], ← Build.lit (.string "text"))

/-- One side negates the result of the method itself. The other side is a character, after a split
that guesses the type of the method to be that of a text. -/
def guessed : Build (Expr × Env) := method fun f x => do
  let text ← Build.lit (.string "text")
  let guess ← Build.cond (← Build.var x) (← pick 1 (← again f x) text) text
  let result ← Build.op (.prim (.unary .not)) [← again f x]
  return (result, ← pick 1 guess (← Build.lit (.char 'c')))

def call (act : Build (Expr × Env)) : Call :=
  ⟨(act.run {}).2, 20, (act.run {}).1.1, (act.run {}).1.2⟩

/-- A second run that fails: the branches, the world they start from, the world in which the type
of the join point is guessed, and the join point. -/
structure Retry where
  acts : List (Eval Term)
  start : World
  before : World
  point : Point

/-- The second run of the split that is the method of a program. -/
def guess? (c : Call) : Option Retry := do
  let (body, w) ← c.entered? {}
  let (acts, w₀) ← split? (eval 18) body w
  let (w₁, _, p) ← wrongGuess? acts w₀
  return ⟨acts, w₀, w₁, p⟩

/-- A second run that is found is one that the compilation comes to. -/
lemma visits_of_guess {act : Build (Expr × Env)} {r : Retry}
    (h : guess? (call act) = some r) :
    ∃ stack e w, Visits (call act).fuel (call act).code ((call act).world {}) stack 19 e w ∧
      Splits (eval 18) e w r.acts r.start ∧
      ∃ fault, wrongGuess? r.acts r.start = some (r.before, fault, r.point) := by
  obtain ⟨⟨body, w⟩, hentered, h⟩ := Option.bind_eq_some_iff.1 h
  obtain ⟨⟨acts, w₀⟩, hsplit, h⟩ := Option.bind_eq_some_iff.1 h
  obtain ⟨⟨w₁, fault, p⟩, hfailed, h⟩ := Option.bind_eq_some_iff.1 h
  cases h
  have hfuel : (call act).fuel = 19 + 1 := rfl
  obtain ⟨p, -, hvisits⟩ := Call.visits_of_entered hfuel hentered
  exact ⟨[p], body, w, hvisits, .of_split? hsplit, fault, hfailed⟩

end WrongGuess

/-- A method calls itself before its type is known, and cannot have the type that is guessed. -/
theorem failed_retry_restores_negated : ∃ stack e w acts w₀ w₁ fault p w₃,
    Visits 20 (WrongGuess.call WrongGuess.negated).code
        ((WrongGuess.call WrongGuess.negated).world {}) stack 19 e w ∧
      Splits (eval 18) e w acts w₀ ∧ wrongGuess? acts w₀ = some (w₁, fault, p) ∧
      exec (eval 19 e) w = (.error (.failed fault), w₃) ∧ w₁.Restores w₃ p := by
  have hretry : (WrongGuess.guess? (WrongGuess.call WrongGuess.negated)).isSome = true := by
    decide +kernel
  obtain ⟨r, hr⟩ := Option.isSome_iff_exists.1 hretry
  obtain ⟨stack, e, w, hvisits, hsplits, fault, hfailed⟩ := WrongGuess.visits_of_guess hr
  obtain ⟨-, w₃, -, hstep, hrestores, -⟩ := failed_retry_restores {} {} []
    (WrongGuess.call WrongGuess.negated) stack 18 e w hvisits _ _ hsplits _ _ _ hfailed
  exact ⟨stack, e, w, _, _, _, fault, _, w₃, hvisits, hsplits, hfailed, hstep, hrestores⟩

/-- The promise of a join point stands in its entry. -/
lemma expectedType_congr {w w' : World} {p : Point}
    (h : w.session.find? p = w'.session.find? p) :
    (exec (expectedType p) w).1 = (exec (expectedType p) w').1 := by
  unfold expectedType
  rw [exec_bind_of_ok (exec_getSession w), exec_bind_of_ok (exec_getSession w'), h]
  split <;> rfl

/-- The type of a join point can be lost with a wrong guess: a split inside a branch had guessed
another type before. -/
theorem exists_lost_guess : ∃ (c : Call) (stack : List Point) (fuel : Nat) (e : Expr) (w : World)
    (acts : List (Eval Term)) (w₀ w₁ : World) (fault : Fault) (p : Point),
    Visits c.fuel c.code (c.world {}) stack (fuel + 1) e w ∧ Splits (eval fuel) e w acts w₀ ∧
      wrongGuess? acts w₀ = some (w₁, fault, p) ∧
      (exec (branches acts) w₀).2.session.find? p ≠ w₁.session.find? p := by
  -- The type is known before the guess and unknown when the split has failed.
  let promised (w : World) (p : Point) : Bool :=
    ((exec (expectedType p) w).1.toOption.bind id).isSome
  have hretry : (WrongGuess.guess? (WrongGuess.call WrongGuess.guessed)).any (fun r =>
      promised r.before r.point && !promised (exec (branches r.acts) r.start).2 r.point) =
      true := by
    decide +kernel
  obtain ⟨r, hr, hlost⟩ := (Option.any_eq_true ..).1 hretry
  obtain ⟨stack, e, w, hvisits, hsplits, fault, hfailed⟩ := WrongGuess.visits_of_guess hr
  refine ⟨_, stack, 18, e, w, _, _, _, fault, _, hvisits, hsplits, hfailed, fun heq => ?_⟩
  simp only [promised, expectedType_congr heq, Bool.and_not_self, Bool.false_eq_true] at hlost

end Residual
