import Residual.Proofs.Session.FirstMatch

/-!
Where evaluation of lowered code ends.

`Ends` says that code has a value, and which world its evaluation leaves behind. Unlike `Goes` it
speaks of code that has effects: the values that are bound and the tests that are made in lowered
code come from expressions of the program. A run that ends is taken apart along the forms of lowered
code. A conditional or a split that is left to run time never ends in a literal, so a run that ends
in one has decided all its tests.
-/

namespace Residual

open Eval

variable {u : Store} {w v : World} {D D' : Meaning} {a : Env} {e f g k l : Expr} {s t : Term}
  {x : Name} {n : Nat}

namespace World

/-- What can be bound does not depend on the environment of the scope. -/
theorem value_setEnv : Region.lax.Value (w.setEnv a) t ↔ Region.lax.Value w t :=
  ⟨fun h => ⟨h.formed, h.sound, False.elim⟩, fun h => ⟨h.formed, h.sound, False.elim⟩⟩

lemma Whole.setEnv (h : w.Whole) (ha : w.Offers a) : (w.setEnv a).Whole :=
  ⟨h.session, ⟨value_setEnv.2 ha.value, ha.backed⟩, h.stmts,
    fun e he => ⟨value_setEnv.2 (h.sharing e he).1, (h.sharing e he).2⟩⟩

lemma Whole.of_setEnv (h : (w.setEnv a).Whole) (hw : w.Offers w.scope.env) : w.Whole :=
  ⟨h.session, hw, h.stmts,
    fun e he => ⟨value_setEnv.1 (h.sharing e he).1, (h.sharing e he).2⟩⟩

lemma eq_of_setEnv {b : Env} (h : v.setEnv a = w.setEnv b) (henv : v.scope.env = w.scope.env) :
    v = w :=
  calc v = (v.setEnv a).setEnv v.scope.env := rfl
    _ = (w.setEnv b).setEnv w.scope.env := by rw [h, henv]
    _ = w := rfl

lemma Framed.of_setEnv (h : (w.setEnv a).Framed (v.setEnv a)) (hv : v.scope.env = w.scope.env) :
    w.Framed v :=
  ⟨⟨h.later.grows, h.later.2⟩, h.settings, hv, h.trace, h.dynamicDepth, h.tags, h.stmts, h.sharing⟩

end World

/-! ### Runs that end -/

/-- Where names stand for `D`, evaluation of `e` ends with the value `t` in the world `v`. -/
def Ends (u : Store) (w : World) (D : Meaning) (e : Expr) (t : Term) (v : World) : Prop :=
  v.scope.env = w.scope.env ∧ ∃ (a : Env) (e' : Expr) (n : Nat), Position u w D e a e' ∧
    exec (eval n e') (w.setEnv a) = (.ok t, v.setEnv a)

/-- More fuel does not change a value. -/
theorem Eval.exec_more {v : World} (h : exec (eval n e) w = (.ok t, v)) (m : Nat) :
    exec (eval (n + m) e) w = (.ok t, v) := by
  rw [← (lower_eval n m).eq (by simp [h]), h]

namespace Ends

lemma of_exec {e' : Expr} {z : World} (hp : Position u w D e a e')
    (hrun : exec (eval n e') (w.setEnv a) = (.ok t, z)) :
    ∃ v, z = v.setEnv a ∧ Ends u w D e t v := by
  have henv : z.scope.env = a := by
    have hframed := framed_eval n e' (w.setEnv a)
    rw [hrun] at hframed
    exact hframed.env
  have hz : z = (z.setEnv w.scope.env).setEnv a := by
    subst henv
    rfl
  exact ⟨z.setEnv w.scope.env, hz, rfl, a, e', n, hp, hrun.trans (by rw [← hz])⟩

lemma framed (h : Ends u w D e t v) : w.Framed v := by
  obtain ⟨hv, a, e', n, hp, hrun⟩ := h
  have hframed := framed_eval n e' (w.setEnv a)
  rw [hrun] at hframed
  exact hframed.of_setEnv hv

lemma whole (h : Ends u w D e t v) (hw : w.Whole) : v.Whole := by
  have hframed := h.framed
  obtain ⟨hv, a, e', n, hp, hrun⟩ := h
  have hwhole := (hw.setEnv hp.offers).eval hp.held n
  rw [hrun] at hwhole
  exact hwhole.of_setEnv (hv ▸ hw.env.mono hframed)

lemma carries (h : Ends u w D e t v) (hw : w.Whole) : v.Carries t := by
  obtain ⟨-, a, e', n, hp, hrun⟩ := h
  have hcarries := (hw.setEnv hp.offers).carries_of_eval hp.held hrun
  exact ⟨World.value_setEnv.1 hcarries.value, hcarries.backed⟩

/-- The run of code that goes on elsewhere is the run there. -/
theorem goes (h : Ends u w D e t v) (hgoes : Goes u w e D f D') : Ends u w D' f t v := by
  obtain ⟨hv, a, e', n, hp, hrun⟩ := h
  obtain ⟨b, f', hq, i, j, hleads⟩ := hgoes a e' hp
  have hrun' := hleads n
  rw [exec_withEnv, exec_withEnv, exec_more hrun] at hrun'
  obtain ⟨hresult, hworld⟩ := Prod.mk.inj hrun'
  have hz : exec (eval (n + j) f') (w.setEnv b) =
      (.ok t, (exec (eval (n + j) f') (w.setEnv b)).2) := Prod.ext hresult.symm rfl
  generalize (exec (eval (n + j) f') (w.setEnv b)).2 = z at hz hworld
  obtain ⟨v', rfl, hends⟩ := of_exec hq hz
  have henv : v.scope.env = v'.scope.env := hv.trans hends.1.symm
  have hworld : v.setEnv w.scope.env = v'.setEnv w.scope.env := hworld
  exact World.eq_of_setEnv hworld henv ▸ hends

/-- Only what the free names stand for counts. -/
theorem congr (h : Ends u w D e t v) (hD : ∀ x, e.FreeIn u x → D x = D' x) : Ends u w D' e t v :=
  h.goes (.refl e hD)

lemma lit {l : Literal} (h : Ends u w D e t v) (he : e.kind = .lit l) : t = .lit l ∧ v = w := by
  obtain ⟨hv, a, e', n, hp, hrun⟩ := h
  obtain rfl := hp.becomes.of_lit he
  cases n with
  | zero => cases hrun
  | succ n =>
    rw [eval_succ, step, he] at hrun
    obtain ⟨ht, hworld⟩ := Prod.mk.inj hrun
    exact ⟨(Except.ok.inj ht).symm, World.eq_of_setEnv hworld.symm hv⟩

lemma var (h : Ends u w D e t v) (he : e.kind = .var x) : D x = some t ∧ v = w := by
  obtain ⟨hv, a, e', n, hp, hrun⟩ := h
  obtain rfl := hp.becomes.of_var he
  cases n with
  | zero => cases hrun
  | succ n =>
    rw [eval_succ, step, he] at hrun
    obtain ⟨sc, w₁, hscope, hrun⟩ := exec_bind_eq_ok.1 hrun
    cases hscope
    have hsees := hp.sees x ((Expr.freeIn_var he).2 rfl)
    cases hx : a.get? x with
    | none =>
      rw [show (w.setEnv a).scope.env.get? x = none from hx] at hrun
      cases hrun
    | some s =>
      rw [show (w.setEnv a).scope.env.get? x = some s from hx] at hrun
      obtain ⟨ht, hworld⟩ := Prod.mk.inj hrun
      exact ⟨by rw [← hsees, hx, Except.ok.inj ht], World.eq_of_setEnv hworld.symm hv⟩

/-- A function literal is its own value. -/
theorem function (h : Ends u w D e t v) (he : e.IsFunction x f) : v = w ∧
    ∃ (b : Env) (f' : Expr), t = .map b (.function x f') ∧ ∀ w', w.Framed w' →
      ∀ s, w'.Carries s → Position u w' (D.bind x s) f (b.bind x s) f' := by
  obtain ⟨hv, a, e', n, hp, hrun⟩ := h
  obtain ⟨used, f', he', -, -⟩ := hp.closed he
  have hbody : ∀ w', w.Framed w' → ∀ s, w'.Carries s →
      Position u w' (D.bind x s) f ((Env.restricted a.visible used).bind x s) f' := by
    intro w' hw' s hs
    obtain ⟨used', f'', he'', -, hlater⟩ := (hp.mono hw').closed he
    obtain ⟨rfl, -, rfl⟩ := ExprKind.filtered.inj (he'.symm.trans he'')
    exact hlater s hs
  cases n with
  | zero => cases hrun
  | succ n =>
    rw [eval_succ, step, he'] at hrun
    obtain ⟨ht, hworld⟩ := Prod.mk.inj hrun
    exact ⟨World.eq_of_setEnv hworld.symm hv, _, f', (Except.ok.inj ht).symm, hbody⟩

end Ends

/-! ### Operations -/

namespace Eval

lemma mapM₁_eq_ok {ev : Expr → Eval Term} {ts : List Term}
    (h : exec ([e].mapM ev) w = (.ok ts, v)) :
    ∃ s, exec (ev e) w = (.ok s, v) ∧ ts = [s] := by
  rw [List.mapM_cons] at h
  obtain ⟨s, w₁, he, h⟩ := exec_bind_eq_ok.1 h
  cases h
  exact ⟨s, he, rfl⟩

lemma mapM₂_eq_ok {ev : Expr → Eval Term} {ts : List Term}
    (h : exec ([e, f].mapM ev) w = (.ok ts, v)) :
    ∃ s w₁ t, exec (ev e) w = (.ok s, w₁) ∧ exec (ev f) w₁ = (.ok t, v) ∧ ts = [s, t] := by
  rw [List.mapM_cons] at h
  obtain ⟨s, w₁, he, h⟩ := exec_bind_eq_ok.1 h
  obtain ⟨ts', w₂, hf, h⟩ := exec_bind_eq_ok.1 h
  obtain ⟨t, ht, rfl⟩ := mapM₁_eq_ok hf
  cases h
  exact ⟨s, w₁, t, he, ht, rfl⟩

/-- What an operation does with the values of its operands. -/
structure Acts (o : Op) (act : (Expr → Eval Term) → List Term → Eval Term) : Prop where
  eq : ∀ ev args, evalOp ev o args = (do act ev (← args.mapM ev))

/-- Apply the first of two values to the second one. -/
def applyValues (ev : Expr → Eval Term) (ts : List Term) : Eval Term := do
  let (f, arg) ← operands₂ .apply ts
  apply ev f arg

/-- Split by the first of two values, with the second one as the function. -/
def caseValues (ev : Expr → Eval Term) (ts : List Term) : Eval Term := do
  let (value, f) ← operands₂ .case ts
  case ev value f

lemma acts_apply : Acts .apply applyValues := ⟨fun _ _ => rfl⟩

lemma acts_case : Acts .case caseValues := ⟨fun _ _ => rfl⟩

end Eval

namespace Ends

variable {o : Op} {act : (Expr → Eval Term) → List Term → Eval Term}

lemma op₁ (h : Ends u w D e t v) (he : e.kind = .op o [f]) (ho : Acts o act) :
    ∃ s w₁ a N, Ends u w D f s w₁ ∧ w₁.Offers a ∧
      ∀ m, exec (act (eval (N + m)) [s]) (w₁.setEnv a) = (.ok t, v.setEnv a) := by
  obtain ⟨hv, a, e', n, hp, hrun⟩ := h
  obtain ⟨f', he', hpf⟩ := hp.arg₁ he
  obtain _ | n := n
  · cases hrun
  have hpart : ∀ m, ∃ s z, exec (eval (n + m) f') (w.setEnv a) = (.ok s, z) ∧
      exec (act (eval (n + m)) [s]) z = (.ok t, v.setEnv a) := by
    intro m
    have hmore := exec_more hrun m
    rw [Nat.succ_add, eval_succ, step, he'] at hmore
    change exec (evalOp _ o [f']) _ = _ at hmore
    rw [ho.eq] at hmore
    obtain ⟨ts, z, hargs, hact⟩ := exec_bind_eq_ok.1 hmore
    obtain ⟨s, hs, rfl⟩ := mapM₁_eq_ok hargs
    exact ⟨s, z, hs, hact⟩
  obtain ⟨s, z, hs, -⟩ := hpart 0
  obtain ⟨w₁, rfl, hends⟩ := of_exec hpf hs
  refine ⟨s, w₁, a, n, hends, hp.offers.mono hends.framed, fun m => ?_⟩
  obtain ⟨s', z, hs', hact⟩ := hpart m
  rw [exec_more (n := n) hs m] at hs'
  cases hs'
  exact hact

lemma op₂ (h : Ends u w D e t v) (he : e.kind = .op o [f, g]) (ho : Acts o act) :
    ∃ s w₁ s' w₂ a N, Ends u w D f s w₁ ∧ Ends u w₁ D g s' w₂ ∧ w₂.Offers a ∧
      ∀ m, exec (act (eval (N + m)) [s, s']) (w₂.setEnv a) = (.ok t, v.setEnv a) := by
  obtain ⟨hv, a, e', n, hp, hrun⟩ := h
  obtain ⟨f', g', he', hpf, hpg⟩ := hp.arg₂ he
  obtain _ | n := n
  · cases hrun
  have hpart : ∀ m, ∃ s z s' z', exec (eval (n + m) f') (w.setEnv a) = (.ok s, z) ∧
      exec (eval (n + m) g') z = (.ok s', z') ∧
      exec (act (eval (n + m)) [s, s']) z' = (.ok t, v.setEnv a) := by
    intro m
    have hmore := exec_more hrun m
    rw [Nat.succ_add, eval_succ, step, he'] at hmore
    change exec (evalOp _ o [f', g']) _ = _ at hmore
    rw [ho.eq] at hmore
    obtain ⟨ts, z', hargs, hact⟩ := exec_bind_eq_ok.1 hmore
    obtain ⟨s, z, s', hs, hs', rfl⟩ := mapM₂_eq_ok hargs
    exact ⟨s, z, s', z', hs, hs', hact⟩
  obtain ⟨s, z, s', z', hs, hs', -⟩ := hpart 0
  obtain ⟨w₁, rfl, hends⟩ := of_exec hpf hs
  obtain ⟨w₂, rfl, hends'⟩ := of_exec (hpg.mono hends.framed) hs'
  refine ⟨s, w₁, s', w₂, a, n, hends, hends',
    hp.offers.mono (hends.framed.trans hends'.framed), fun m => ?_⟩
  obtain ⟨s₁, z, s₂, z', hs₁, hs₂, hact⟩ := hpart m
  rw [exec_more (n := n) hs m] at hs₁
  cases hs₁
  rw [exec_more (n := n) hs' m] at hs₂
  cases hs₂
  exact hact

/-- What the application of a function ends with is what its body does where the argument is
bound. -/
theorem of_apply {act : Eval Term} {b : Env} {f' : Expr} {s : Term}
    (hact : exec act (w.setEnv a) = (.ok t, v.setEnv a)) (hv : v.scope.env = w.scope.env)
    (heq : act = apply (eval n) (.map b (.function x f')) s)
    (hp : Position u w D g (b.bind x s) f') : Ends u w D g t v := by
  have hrun := exec_apply_function (eval n) b x f' s (w.setEnv a)
  rw [← heq, hact, exec_withEnv] at hrun
  obtain ⟨hresult, hworld⟩ := Prod.mk.inj hrun.symm
  have hz : exec (eval n f') (w.setEnv (b.bind x s)) =
      (.ok t, (exec (eval n f') (w.setEnv (b.bind x s))).2) := Prod.ext hresult rfl
  obtain ⟨v', hv', hends⟩ := of_exec hp hz
  have hworld : v'.setEnv a = v.setEnv a := by
    rw [← hworld]
    change _ = (exec (eval n f') (w.setEnv (b.bind x s))).2.setEnv a
    rw [hv']
    rfl
  exact World.eq_of_setEnv hworld (hends.1.trans hv.symm) ▸ hends

/-- A name is bound for the rest. -/
theorem letIn (h : Ends u w D e t v) (hw : w.Whole) (he : e.IsLet x f g) :
    ∃ s w₁, Ends u w D f s w₁ ∧ Ends u w₁ (D.bind x s) g t v := by
  obtain ⟨hfun⟩ := he
  obtain ⟨c, w₀, s, w₁, a, N, hc, hf, -, hact⟩ := h.op₂ rfl acts_apply
  obtain ⟨rfl, b, g', rfl, hbody⟩ := hc.function hfun
  have hv : v.scope.env = w₁.scope.env := h.1.trans hf.1.symm
  exact ⟨s, w₁, hf, of_apply (hact 0) hv rfl (hbody w₁ hf.framed s (hf.carries hw))⟩

/-- A thunk for `f` is bound for the rest. -/
theorem thunk (h : Ends u w D e t v) (hw : w.Whole) (he : e.IsLet x k g)
    (hk : k.IsThunk u.names n f) (hf : f.Below u n) :
    ∃ s, Delays u w f D s ∧ Ends u w (D.bind x s) g t v := by
  obtain ⟨z, i, hi, hz, hthunk⟩ := hk
  obtain ⟨s, w₁, hs, hends⟩ := h.letIn hw he
  obtain ⟨rfl, b, f', rfl, hlater⟩ := hs.function hthunk
  have hunit := hlater w₁ (.refl w₁) (.tuple []) (World.carries_tuple fun _ h =>
    absurd h List.not_mem_nil)
  refine ⟨_, ⟨b, z, f', rfl, { hunit with sees := fun y hy => (hunit.sees y hy).trans ?_ }⟩, hends⟩
  exact Meaning.bind_of_ne (hf.ne hz hi hy)

/-- The call of a thunk goes on with its code. -/
theorem force (h : Ends u w D e t v) (he : e.IsForce x) (hx : D x = some s)
    (hs : Delays u w f D' s) : Ends u w D' f t v :=
  h.goes (.force he hx hs)

end Ends

lemma Delays.mono {w' : World} (h : Delays u w f D s) (hw : w.Framed w') : Delays u w' f D s := by
  obtain ⟨b, z, f', hs, hp⟩ := h
  exact ⟨b, z, f', hs, hp.mono hw⟩

/-! ### Decided tests -/

/-- The result of code that is bound is no literal. -/
lemma Eval.bindResult_ne_lit {ty : Ty} {l : Literal}
    (h : exec (bindResult s ty) w = (.ok (.lit l), v)) : False := by
  unfold bindResult at h
  split at h
  · cases ty <;> cases h
  · obtain ⟨b, w₁, -, h⟩ := exec_bind_eq_ok.1 h
    obtain ⟨-, w₂, -, h⟩ := exec_bind_eq_ok.1 h
    cases h

/-- The result of a split that is left to run time is no literal. -/
lemma Eval.finishSplit_ne_lit {o : Op} {arrange : List Term → List Term} {bodies : List Term}
    {l : Literal} (h : exec (finishSplit o arrange bodies) w = (.ok (.lit l), v)) : False := by
  obtain ⟨⟨bodies', ty?⟩, w₁, -, h⟩ := exec_bind_eq_ok.1 h
  cases ty? with
  | none =>
    obtain ⟨-, w₂, -, h⟩ := exec_bind_eq_ok.1 h
    cases h
  | some ty => exact bindResult_ne_lit h

/-- What a split by union member hands on of a value whose member is known. -/
def Term.unboxed : Term → Term
  | .box t _ => t
  | t => t

lemma World.Carries.unboxed (h : w.Carries s) : w.Carries s.unboxed := by
  cases s with
  | box t ty =>
    refine ⟨h.value.unbox, fun k hk => h.backed k ?_⟩
    rw [Term.kinds]
    exact List.mem_append_left _ hk
  | _ => exact h

/-- A split by union member whose result is a literal is an application. -/
lemma Eval.case_eq_apply {ev : Expr → Eval Term} {l : Literal}
    (h : exec (Eval.case ev s t) w = (.ok (.lit l), v)) :
    exec (apply ev t s.unboxed) w = (.ok (.lit l), v) := by
  have hsplit : ∀ (value : Term) (ty : Ty), exec (do
      let members ← unionMembers ty
      let binders ← members.mapM freshVar
      let bodies ← branches (binders.map fun b =>
        apply ev t (if b.ty.isUnit then .ofUnit b.ty else .var b))
      finishSplit .case (caseArgs value binders) bodies) w ≠ (.ok (.lit l), v) := by
    intro value ty h
    obtain ⟨members, w₁, -, h⟩ := exec_bind_eq_ok.1 h
    obtain ⟨binders, w₂, -, h⟩ := exec_bind_eq_ok.1 h
    obtain ⟨bodies, w₃, -, h⟩ := exec_bind_eq_ok.1 h
    exact finishSplit_ne_lit h
  cases s with
  | var b =>
    obtain ⟨tag, ty⟩ := b
    cases ty with
    | union | recur => exact absurd h (hsplit _ _)
    | _ => exact h
  | _ => exact h

namespace Ends

variable {lit : Literal}

/-- A conditional that ends in a literal has a test that is known, and goes on with one of its
sides. -/
theorem cond (h : Ends u w D e (.lit lit) v) (he : e.kind = .op .cond [k, f, g]) :
    ∃ s w₁ d, Ends u w D k s w₁ ∧ s.bool? = some d ∧
      Ends u w₁ D (if d then f else g) (.lit lit) v := by
  obtain ⟨hv, a, e', n, hp, hrun⟩ := h
  obtain ⟨k', f', g', he', hpk, hpf, hpg⟩ := hp.arg₃ he
  obtain _ | n := n
  · cases hrun
  have hstep : exec (Eval.cond (eval n) [k', f', g']) (w.setEnv a) =
    (.ok (.lit lit), v.setEnv a) := by
    rw [eval_succ, step, he'] at hrun
    exact hrun
  rw [Eval.cond] at hstep
  obtain ⟨s, z, hs, hrest⟩ := exec_bind_eq_ok.1 hstep
  obtain ⟨w₁, rfl, hends⟩ := of_exec hpk hs
  cases hd : s.bool? with
  | some d =>
    rw [hd] at hrest
    refine ⟨s, w₁, d, hends, hd, hv.trans hends.1.symm, a, if d then f' else g', n, ?_, hrest⟩
    cases d
    · exact hpg.mono hends.framed
    · exact hpf.mono hends.framed
  | none =>
    rw [hd] at hrest
    dsimp only at hrest
    split at hrest
    · cases hrest
    · obtain ⟨bodies, z, -, hrest⟩ := exec_bind_eq_ok.1 hrest
      exact (finishSplit_ne_lit hrest).elim

/-- A split by union member that ends in a literal binds its value, or what is boxed in it. -/
theorem case (h : Ends u w D e (.lit lit) v) (hw : w.Whole) (he : e.kind = .op .case [k, l])
    (hl : l.IsFunction x g) :
    ∃ s w₁, Ends u w D k s w₁ ∧ Ends u w₁ (D.bind x s.unboxed) g (.lit lit) v := by
  obtain ⟨s, w₁, c, w₂, a, N, hk, hc, -, hact⟩ := h.op₂ he acts_case
  obtain ⟨rfl, b, g', rfl, hbody⟩ := hc.function hl
  have hv : v.scope.env = w₂.scope.env := h.1.trans hk.1.symm
  exact ⟨s, w₂, hk, of_apply (case_eq_apply (hact 0)) hv rfl
    (hbody w₂ (.refl w₂) s.unboxed (hk.carries hw).unboxed)⟩

end Ends

end Residual
