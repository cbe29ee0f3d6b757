import Residual.Proofs.Eval.RegionSteps
import Residual.Proofs.Eval.TwinWorlds
import Residual.Proofs.Surface.Prefiltered

/-!
Steps that do the same although they see different forms of environments.

Two worlds are alike if they differ at most in the forms of environments and in the bindings of the
scope, their functions are made of code of the store, and both are in order. `Matches` says of two
steps that from such worlds they go to twin worlds with related outcomes; `Together` adds that the
worlds are alike again, so that a next step can be taken.
-/

namespace Residual

/-- The body of the function is code of the store. -/
def MapKind.Backed (st : Store) : MapKind → Prop
  | .function _ body | .recFunction _ _ body => body.Held st.exprs
  | .module => True

lemma MapKind.Backed.mono {st st' : Store} (hst : st.Grows st') :
    ∀ kind : MapKind, kind.Backed st → kind.Backed st'
  | .function _ _, h | .recFunction _ _ _, h => Expr.Held.mono h hst.exprs
  | .module, _ => trivial

/-! ### Worlds with more kinds held -/

section Mono

variable {held held' : MapKind → Prop} (hheld : ∀ k, held k → held' k)
include hheld

lemma Fields.Twin.mono {m n : Fields Term} (h : Fields.Twin held m n) : Fields.Twin held' m n :=
  Residual.Twin.mono h hheld

lemma Sharing.Twin.mono {s s' : Sharing} (h : Sharing.Twin held s s') :
    Sharing.Twin held' s s' :=
  ⟨h.entries.imp fun _ _ h => ⟨h.1, h.2.mono hheld⟩, h.scopes⟩

end Mono

/-! ### Regions without demands -/

namespace Region

/-- The region of code of which nothing is asked but that its types are sound. -/
def lax : Region := ⟨⟨False, False, fun _ => True⟩, [], 0⟩

variable {i j : Region} {w : World}

/-- Where nothing is tracked, all regions are alike. -/
theorem Value.relax {t : Term} (hasks : i.asks = j.asks) (h : ¬ j.asks.tracked)
    (ht : i.Value w t) : j.Value w t :=
  ⟨ht.formed, by rw [ground, ← hasks]; exact ht.sound, fun htracked => absurd htracked h⟩

lemma Ready.relax (hasks : i.asks = j.asks) (h : ¬ j.asks.tracked) (hw : i.Ready w) :
    j.Ready w := by
  refine ⟨hw.session, hasks ▸ hw.sound, hw.env.relax hasks h, fun e he =>
    (hw.sharing e he).relax hasks h, ?_, fun htracked => absurd htracked h⟩
  rw [ground, ← hasks]
  exact hw.fits

end Region

namespace Eval

open Region (lax)

variable {α β : Type} {w w' v v' : World}

/-! ### Worlds -/

/-- The worlds differ at most in the forms of environments and in the bindings of the scope, and
their functions are made of code of the store. -/
structure Twinned (w w' : World) : Prop where
  coherent : w.session.store.Coherent
  twin : World.Twin (MapKind.Backed w.session.store) w w'

/-- Besides, both worlds are in order. -/
structure Alike (w w' : World) : Prop extends Twinned w w' where
  left : lax.Ready w
  right : lax.Ready w'

/-- Values that differ at most in the forms of environments. -/
structure Same (w w' : World) (a b : Term) : Prop where
  twin : a.Twin (MapKind.Backed w.session.store) b
  left : lax.Value w a
  right : lax.Value w' b

lemma Same.mono {a b : Term} (h : Same w w' a b) (hw : w.Framed v) (hw' : w'.Framed v') :
    Same v v' a b :=
  ⟨h.twin.mono (MapKind.Backed.mono hw.later.grows.store), h.left.mono hw, h.right.mono hw'⟩

/-! ### Judgements -/

/-- From worlds that are alike the two steps go to twin worlds and have related outcomes. -/
def Matches (w w' : World) (m m' : Eval α) (R : World → World → α → α → Prop) : Prop :=
  Alike w w' → Twinned (exec m w).2 (exec m' w').2 ∧
    Outcomes (R (exec m w).2 (exec m' w').2) (exec m w).1 (exec m' w').1

/-- From worlds that are alike the two steps go to worlds that are alike, have all that was there,
and have related outcomes. -/
def Together (w w' : World) (m m' : Eval α) (R : World → World → α → α → Prop) : Prop :=
  Alike w w' → Alike (exec m w).2 (exec m' w').2 ∧ w.Framed (exec m w).2 ∧
    w'.Framed (exec m' w').2 ∧ Outcomes (R (exec m w).2 (exec m' w').2) (exec m w).1 (exec m' w').1

/-- The outcome of a matching step is twin values. -/
abbrev TwinResults (w _w' : World) (a b : Term) : Prop :=
  a.Twin (MapKind.Backed w.session.store) b

variable {m m' : Eval α} {R R' : World → World → α → α → Prop}

namespace Together

lemma given (h : Alike w w' → Together w w' m m' R) : Together w w' m m' R :=
  fun hw => h hw hw

lemma imp (h : Together w w' m m' R) (hR : ∀ v v' a a', R v v' a a' → R' v v' a a') :
    Together w w' m m' R' := by
  intro hw
  obtain ⟨h₁, h₂, h₃, h₄⟩ := h hw
  exact ⟨h₁, h₂, h₃, h₄.imp fun a a' => hR _ _ a a'⟩

/-- Both steps are in order for themselves. -/
theorem of_matches {P P' : α → World → Prop} (h : Matches w w' m m' R) (hl : lax.Does w m P)
    (hr : lax.Does w' m' P') :
    Together w w' m m' fun v v' a a' => R v v' a a' ∧ P a v ∧ P' a' v' := by
  intro hw
  obtain ⟨htwin, hout⟩ := h hw
  obtain ⟨hready, hframed, hP⟩ := hl hw.left
  obtain ⟨hready', hframed', hP'⟩ := hr hw.right
  refine ⟨⟨htwin, hready, hready'⟩, hframed, hframed', ?_⟩
  generalize (exec m w).1 = r at hout hP
  generalize (exec m' w').1 = r' at hout hP'
  cases hout with
  | ok h => exact .ok ⟨h, hP _ rfl, hP' _ rfl⟩
  | error h => exact .error h

lemma of_matches_value {m m' : Eval Term}
    (h : Matches w w' m m' fun v _ a a' => a.Twin (MapKind.Backed v.session.store) a')
    (hl : lax.Does w m fun t v => lax.Value v t) (hr : lax.Does w' m' fun t v => lax.Value v t) :
    Together w w' m m' Same :=
  (of_matches h hl hr).imp fun _ _ _ _ ⟨h, hl, hr⟩ => ⟨h, hl, hr⟩

end Together

lemma alike_setEnv (hw : Alike w w') {d e : Env} {kind kind' : MapKind}
    (hd : lax.Value w (.map d kind)) (he : lax.Value w' (.map e kind')) :
    Alike (w.setEnv d) (w'.setEnv e) :=
  ⟨⟨hw.coherent, ⟨hw.twin.session, { hw.twin.scope with }⟩⟩,
    hw.left.of_stmts rfl rfl (Nat.le_refl _) (hd.kind trivial) hw.left.sharing,
    hw.right.of_stmts rfl rfl (Nat.le_refl _) (he.kind trivial) hw.right.sharing⟩

/-! ### Expressions and what they read -/

/-- The code may be evaluated in the two environments: they are twins, or the code is listed and
they agree on its free names. -/
structure ReadsAlike (st : Store) (d e : Env) (c : Expr) : Prop where
  held : c.Held st.exprs
  agree : d.Twin (MapKind.Backed st) e ∨ (c.Listed ∧ ∀ x, c.Free x →
    Option.Rel (Term.Twin (MapKind.Backed st)) (d.get? x) (e.get? x))

namespace ReadsAlike

variable {st : Store} {d e : Env} {c : Expr}

lemma sorted (h : ReadsAlike st d e c) (hst : st.Sorted) : c.Sorted := by
  obtain ⟨symbol, kind⟩ := c
  exact hst.exprs kind (List.mem_of_getElem? h.held.mem)

end ReadsAlike

/-- An evaluator that does the same in environments that agree on what it reads. -/
structure Uniform (ev : Expr → Eval Term) : Prop where
  good : Region.Evaluator lax.asks ev
  same : ∀ e w w', ReadsAlike w.session.store w.scope.env w'.scope.env e →
    Matches w w' (ev e) (ev e) fun v _ a a' => a.Twin (MapKind.Backed v.session.store) a'

lemma Uniform.together {ev : Expr → Eval Term} (hev : Uniform ev) {e : Expr}
    (he : ReadsAlike w.session.store w.scope.env w'.scope.env e) :
    Together w w' (ev e) (ev e) Same :=
  .given fun hw => by
    have hsorted := he.sorted hw.left.session.store
    exact .of_matches_value (hev.same e w w' he) (hev.good.good lax rfl e w hsorted)
      (hev.good.good lax rfl e w' hsorted)

end Eval

end Residual
