import Residual.Proofs.Eval.Evaluation

/-!
The worlds that an evaluation goes through.

A step asks its evaluator of the parts for an expression in a world if its run depends on the
answer. The worlds that an evaluation visits are those in which it is asked, directly or by way
of its parts. On the way the scopes of join-point bodies are entered, each inside the one before:
their owners are the join points whose bodies are being evaluated.
-/

namespace Residual

open Eval

/-- Another answer of the evaluator for `e` in the world `w'` makes a difference to the run of
`act` from `w`. -/
def Asks (act : (Expr → Eval Term) → Eval Term) (ev : Expr → Eval Term) (w : World) (e : Expr)
    (w' : World) : Prop :=
  ∃ ev' : Expr → Eval Term,
    (∀ e₁ w₁, ¬(e₁ = e ∧ w₁ = w') → exec (ev' e₁) w₁ = exec (ev e₁) w₁) ∧
      exec (act ev') w ≠ exec (act ev) w

/-- The join points whose bodies are entered at `w'`, if those at `w` are in `stack`. -/
def World.stackFrom (w' w : World) (stack : List Point) : List Point :=
  if w'.scope.owner = w.scope.owner then stack else w'.scope.owner.toList ++ stack

/-- The evaluation of `e₀` from `w₀` comes to evaluate `e` from `w`, while the bodies of the join
points in `stack`, the innermost first, are being evaluated. -/
inductive Visits (fuel₀ : Nat) (e₀ : Expr) (w₀ : World) :
    List Point → Nat → Expr → World → Prop where
  | start : Visits fuel₀ e₀ w₀ [] fuel₀ e₀ w₀
  | part {stack fuel e w e' w'} : Visits fuel₀ e₀ w₀ stack (fuel + 1) e w →
    Asks (fun ev => step ev e) (eval fuel) w e' w' →
    Visits fuel₀ e₀ w₀ (w'.stackFrom w stack) fuel e' w'

namespace Discipline

variable {D : Discipline} {i : D.Index} {w w' : World} {ev : Expr → Eval Term} {e e' : Expr}

/-- The invariant holds here, or in the body of one more join point. -/
def Near (D : Discipline) (i : D.Index) (w : World) : Prop :=
  D.Good i w ∨ ∃ p, D.Good (D.inner i p) w

lemma Near.exists_good (h : D.Near i w) : ∃ j, D.Good j w := by
  rcases h with h | ⟨p, h⟩
  · exact ⟨i, h⟩
  · exact ⟨D.inner i p, h⟩

/-- A step that starts where the invariant holds asks only where it holds: near the start, or
inside the split that the step comes to. -/
theorem good_of_asks [D.Unguarded] (hev : ∀ i, D.Pair i ev ev)
    (he : D.strict → e.Sorted) (hw : D.Good i w)
    (hask : Asks (fun ev => step ev e) ev w e' w') :
    (D.strict → e'.Sorted) ∧ (D.Near i w' ∨
      ∃ acts w₀, Splits ev e w acts w₀ ∧ D.Near (D.within i w₀.scope.stmts) w') := by
  obtain ⟨ev', hagree, hne⟩ := hask
  refine Classical.byContradiction fun hcon => hne ?_
  -- Elsewhere the two evaluators agree, so the whole step does the same with either.
  have hdoes : ∀ j, (∀ (_ : D.strict → e'.Sorted), ¬ D.Good j w') → ∀ e₁ w₁,
      (D.strict → e₁.Sorted) → D.Does j w₁ (ev e₁) (ev' e₁) fun t _ => D.Value t := by
    intro j hj e₁ w₁ hsorted hgood
    obtain ⟨-, h2, h3, h4⟩ := (hev j).here e₁ w₁ hsorted hgood
    refine ⟨.inl (hagree e₁ w₁ ?_).symm, h2, h3, h4⟩
    rintro ⟨rfl, rfl⟩
    exact hj hsorted hgood
  have hpair : ∀ j, (∀ (_ : D.strict → e'.Sorted), ¬ D.Near j w') → D.Pair j ev ev' :=
    fun j hj => ⟨hdoes j fun hs h => hj hs (.inl h),
      fun p => hdoes _ fun hs h => hj hs (.inr ⟨p, h⟩), (hev j).ends⟩
  refine (does_step (hpair i fun hs h => hcon ⟨hs, .inl h⟩) (fun acts w₀ hsplit => ⟨?_, ?_⟩)
    he hw).1.eq.symm
  · exact hpair _ fun hs h => hcon ⟨hs, .inr ⟨acts, w₀, hsplit, h⟩⟩
  · exact fun _ _ => Unguarded.guesses _ _ _

lemma pair_eval [D.Unguarded] (fuel : Nat) : D.Pair i (eval fuel) (eval fuel) :=
  ⟨fun _ _ he => does_eval fuel he, fun _ _ _ he => does_eval fuel he,
    fun _ _ _ _ _ _ => Unguarded.ends _ _⟩

lemma branching_eval [D.Unguarded] (fuel : Nat) (acts : List (Eval Term)) :
    D.Branching i (eval fuel) (eval fuel) acts w :=
  ⟨pair_eval fuel, fun _ _ => Unguarded.guesses _ _ _⟩

/-- Where the index does not tell branches apart. -/
theorem near_of_asks [D.Unguarded] (hwithin : ∀ i stmts, D.within i stmts = i) {fuel : Nat}
    (he : D.strict → e.Sorted) (hw : D.Good i w)
    (hask : Asks (fun ev => step ev e) (eval fuel) w e' w') :
    (D.strict → e'.Sorted) ∧ D.Near i w' := by
  obtain ⟨he', hnear | ⟨acts, w₀, -, hnear⟩⟩ :=
    good_of_asks (fun _ => pair_eval fuel) he hw hask
  · exact ⟨he', hnear⟩
  · rw [hwithin] at hnear
    exact ⟨he', hnear⟩

end Discipline

/-- The invariant holds wherever an evaluation comes that starts where it holds. -/
theorem Visits.good {D : Discipline} [D.Unguarded] {i : D.Index} {fuel₀ : Nat} {e₀ : Expr}
    {w₀ : World} (hw₀ : D.Good i w₀) (he₀ : D.strict → e₀.Sorted) {stack : List Point}
    {fuel : Nat} {e : Expr} {w : World} (h : Visits fuel₀ e₀ w₀ stack fuel e w) :
    (∃ j, D.Good j w) ∧ (D.strict → e.Sorted) := by
  induction h with
  | start => exact ⟨⟨i, hw₀⟩, he₀⟩
  | part _ hask ih =>
    obtain ⟨⟨j, hj⟩, he⟩ := ih
    obtain ⟨he', hnear⟩ := Discipline.good_of_asks (fun _ => Discipline.pair_eval _) he hj hask
    rcases hnear with hnear | ⟨_, _, _, hnear⟩
    · exact ⟨hnear.exists_good, he'⟩
    · exact ⟨hnear.exists_good, he'⟩

/-! ### A visit of the body of a join point -/

/-- A step asks for the value of an expression where it runs out of fuel with it. -/
theorem asks_of_outOfFuel {act : (Expr → Eval Term) → Eval Term} {ev : Expr → Eval Term}
    {w w' : World} {e : Expr} (hrun : (exec (act ev) w).1 ≠ .error .outOfFuel)
    (h : ∀ ev' : Expr → Eval Term,
      (∀ e₁ w₁, ¬(e₁ = e ∧ w₁ = w') → exec (ev' e₁) w₁ = exec (ev e₁) w₁) →
      exec (ev' e) w' = (.error .outOfFuel, w') → (exec (act ev') w).1 = .error .outOfFuel) :
    Asks act ev w e w' := by
  classical
  let ev' : Expr → Eval Term := fun e₁ => ExceptT.mk fun w₁ =>
    if e₁ = e ∧ w₁ = w' then (.error .outOfFuel, w₁) else exec (ev e₁) w₁
  have hagree : ∀ e₁ w₁, ¬(e₁ = e ∧ w₁ = w') → exec (ev' e₁) w₁ = exec (ev e₁) w₁ :=
    fun e₁ w₁ hne => if_neg hne
  refine ⟨ev', hagree, fun heq => hrun ?_⟩
  rw [← heq]
  exact h ev' hagree (if_pos ⟨rfl, rfl⟩)

/-- A program that enters a join point which is not there yet visits its body. -/
theorem Visits.body {fuel₀ : Nat} {e₀ : Expr} {w₀ : World} {stack : List Point} {fuel : Nat}
    {symbol : Nat} {op : EntryOp} {body : Expr} {w w₁ : World} {key : Key} {captured : Captured}
    (h : Visits fuel₀ e₀ w₀ stack (fuel + 1) (.node symbol (.op (.entry op) [body])) w)
    (hrequest : exec (request w.scope.env body none) w = (.ok (key, captured), w₁))
    (hnew : w₁.session.find? ⟨op.kind, key⟩ = none)
    (hdepth : w₁.session.depth < w₁.session.settings.maxDepth)
    (hrun : (exec (eval (fuel + 1) (.node symbol (.op (.entry op) [body]))) w).1 ≠
      .error .outOfFuel) :
    Visits fuel₀ e₀ w₀ ((w₁.atBody ⟨op.kind, key⟩ captured none).stackFrom w stack) fuel body
      (w₁.atBody ⟨op.kind, key⟩ captured none) := by
  refine h.part (asks_of_outOfFuel hrun fun ev' _ hev' => ?_)
  have hnewBody : exec (specializeNew ev' ⟨op.kind, key⟩ body captured none) w₁ =
      (.error .outOfFuel, ((w₁.atBody ⟨op.kind, key⟩ captured none).setScope
        w₁.scope).abandon ⟨op.kind, key⟩) := by
    rw [exec_specializeNew, if_neg (Nat.not_le_of_lt hdepth), hev']
  have hspecialize : exec (specialize ev' w.scope.env op.kind body none none) w =
      (.error .outOfFuel, ((w₁.atBody ⟨op.kind, key⟩ captured none).setScope
        w₁.scope).abandon ⟨op.kind, key⟩) := by
    unfold specialize
    rw [exec_bind_of_ok hrequest, exec_bind_of_ok (exec_getSession w₁), hnew]
    exact exec_bind_of_error hnewBody
  change (exec (enterPoint ev' op body none) w).1 = _
  unfold enterPoint
  rw [exec_bind_of_ok (exec_getScope w), exec_bind_of_error hspecialize]

end Residual
