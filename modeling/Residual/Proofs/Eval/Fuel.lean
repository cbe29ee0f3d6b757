import Residual.Proofs.Eval.Frame

/-!
Evaluators that run out of fuel.

Fuel limits the nesting of steps and nothing else: a step never looks at whether its parts ran out
of fuel, it does so itself then. Main statement: a step with parts that do as those of another
evaluator, unless they run out of fuel, does as the step of that evaluator, unless it runs out of
fuel. So more fuel does not change an outcome.
-/

namespace Residual

/-- Evaluation keeps to its frame, and passes on that there is no fuel left. -/
def Discipline.fuel : Discipline := { Discipline.frame with lax := True }

namespace Eval

/-- The first evaluator keeps to its frame, and does as the second one unless it runs out of
fuel. -/
structure Lower (ev ev' : Expr → Eval Term) : Prop where
  framed : ∀ e (w : World), w.Framed (exec (ev e) w).2
  agree : ∀ e w, exec (ev e) w = exec (ev' e) w ∨ (exec (ev e) w).1 = .error .outOfFuel

namespace Lower

variable {ev ev' : Expr → Eval Term}

lemma does (h : Lower ev ev') (e : Expr) (w : World) :
    Discipline.fuel.Does () w (ev e) (ev' e) fun t _ => Discipline.fuel.Value t :=
  fun _ => ⟨(h.agree e w).imp_right fun h => ⟨trivial, h⟩, ⟨trivial, fun h => h.elim⟩,
    h.framed e w, fun _ _ h => h.elim⟩

lemma of_does (h : ∀ e w, Discipline.fuel.Does () w (ev e) (ev' e) fun t _ =>
    Discipline.fuel.Value t) : Lower ev ev' := by
  have hgood : ∀ w, Discipline.fuel.Good () w := fun w => ⟨trivial, fun h => h.elim⟩
  exact ⟨fun e w => (h e w (hgood w)).2.2.1, fun e w => (h e w (hgood w)).1.imp_right And.right⟩

lemma pair (h : Lower ev ev') : Discipline.fuel.Pair () ev ev' :=
  ⟨fun e w _ => h.does e w, fun _ e w _ => h.does e w, fun _ _ _ _ _ _ => trivial⟩

lemma step (h : Lower ev ev') : Lower (step ev) (step ev') :=
  .of_does fun _ _ => Discipline.does_step h.pair (fun _ _ _ => ⟨h.pair, fun _ _ => trivial⟩)
    fun h => h.elim

/-- An evaluator that has run out of fuel. -/
theorem outOfFuel (ev' : Expr → Eval Term) : Lower (fun _ => throw .outOfFuel) ev' :=
  ⟨fun _ w => .refl w, fun _ _ => .inr rfl⟩

/-- An outcome that does not tell of fuel is that of the other evaluator. -/
theorem eq (h : Lower ev ev') {e : Expr} {w : World}
    (hrun : (exec (ev e) w).1 ≠ .error .outOfFuel) : exec (ev e) w = exec (ev' e) w :=
  (h.agree e w).resolve_right hrun

end Lower

/-- More fuel does not change an outcome, unless there was no fuel left. -/
theorem lower_eval (n k : Nat) : Lower (eval n) (eval (n + k)) := by
  induction n with
  | zero => exact .outOfFuel _
  | succ n ih =>
    rw [Nat.succ_add]
    exact ih.step

end Eval

end Residual
