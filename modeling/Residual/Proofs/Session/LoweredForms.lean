import Residual.Proofs.Session.FreeVariables
import Residual.Proofs.Surface.RecordedNames

/-!
How the forms of lowered code are evaluated.

A binding, a conditional with a known test and the call of a thunk do nothing themselves: evaluation
goes on elsewhere, in another environment and the same world. What an environment shows of the free
names of the code counts, so `Goes` speaks of what names stand for, not of environments.
-/

namespace Residual

open Eval

/-! ### Terms that can be bound -/

/-- The term can be bound in an environment of the world. -/
structure World.Carries (w : World) (t : Term) : Prop where
  value : Region.lax.Value w t
  backed : ∀ k ∈ t.kinds, k.Backed w.session.store

namespace World

variable {w : World} {a : Env} {t : Term}

lemma Offers.carries (h : w.Offers a) {kind : MapKind} (hsorted : kind.Sorted)
    (hbacked : kind.Backed w.session.store) : w.Carries (.map a kind) :=
  ⟨h.value.kind hsorted, List.forall_mem_cons.2 ⟨hbacked, h.backed⟩⟩

lemma Carries.offers {kind : MapKind} (h : w.Carries (.map a kind)) : w.Offers a :=
  ⟨h.value.kind trivial, (List.forall_mem_cons.1 h.backed).2⟩

lemma carries_lit (l : Literal) : w.Carries (.lit l) :=
  ⟨Region.value_lit l, fun _ h => absurd h List.not_mem_nil⟩

lemma carries_tuple {ts : List Term} (h : ∀ t ∈ ts, w.Carries t) : w.Carries (.tuple ts) := by
  refine ⟨Region.value_tuple fun t ht => (h t ht).value, fun k hk => ?_⟩
  rw [Term.kinds, Term.kindsOfAll_eq] at hk
  obtain ⟨t, ht, hk⟩ := List.mem_flatMap.1 hk
  exact (h t ht).backed k hk

lemma Carries.item {ts : List Term} (h : w.Carries (.tuple ts)) (ht : t ∈ ts) :
    w.Carries t := by
  refine ⟨h.value.item ht, fun k hk => h.backed k ?_⟩
  rw [Term.kinds, Term.kindsOfAll_eq]
  exact List.mem_flatMap_of_mem ht hk

lemma Offers.ascending (h : w.Offers a) : a.Ascending := h.value.formed.1.ascending

lemma Offers.get? (h : w.Offers a) {x : Name} (ht : a.get? x = some t) : w.Carries t := by
  refine ⟨h.value.get? ht, fun k hk => h.backed k ?_⟩
  rw [h.ascending.get?_eq] at ht
  rw [Env.kinds_eq]
  exact Fields.mem_kinds.2 ⟨_, Fields.mem_of_get? ht, hk⟩

lemma Carries.get? {kind : MapKind} (h : w.Carries (.map a kind)) {x : Name}
    (ht : a.get? x = some t) : w.Carries t :=
  h.offers.get? ht

lemma Offers.bind (h : w.Offers a) (x : Name) (ht : w.Carries t) : w.Offers (a.bind x t) := by
  refine ⟨h.value.bind x ht.value, fun k hk => ?_⟩
  rw [Env.kinds_eq, Env.visible_bind] at hk
  obtain ⟨e, he, hk⟩ := Fields.mem_kinds.1 hk
  rcases Fields.mem_insert he with rfl | he
  · exact ht.backed k hk
  · exact h.backed k (a.kinds_eq ▸ Fields.mem_kinds.2 ⟨e, he, hk⟩)

lemma Offers.restrict (h : w.Offers a) {used : Captures} (hused : used.Ascending) :
    w.Offers (.restricted a.visible used) := by
  refine ⟨h.value.restrict hused trivial, fun k hk => ?_⟩
  rw [Env.kinds_eq, Env.visible] at hk
  obtain ⟨e, he, hk⟩ := Fields.mem_kinds.1 hk
  exact h.backed k (a.kinds_eq ▸ Fields.mem_kinds.2 ⟨e, (List.mem_filter.1 he).1, hk⟩)

/-- Of captured names an environment shows what it showed before. -/
lemma Offers.get?_restricted (h : w.Offers a) {used : Captures} (hused : used.Ascending)
    {x : Name} (hx : x ∈ used) : (Env.restricted a.visible used).get? x = a.get? x := by
  rw [(h.restrict hused).ascending.get?_eq, h.ascending.get?_eq]
  exact (Captures.get?_filter used a.visible x).trans (by simp [hx])

lemma Offers.get?_bind (h : w.Offers a) (x y : Name) :
    (a.bind x t).get? y = if y = x then some t else a.get? y := by
  rw [Env.get?_bind, h.ascending.get?_eq]

end World

/-! ### Evaluation that goes on elsewhere -/

namespace Eval

variable {w : World} {a b c : Env} {e f g : Expr} {s s' t : Term}

/-- In the environment `a` the expression has the value, without any effect. -/
def Yields (w : World) (a : Env) (e : Expr) (t : Term) : Prop :=
  ∃ k, ∀ fuel, exec (eval (fuel + k) e) (w.setEnv a) = (.ok t, w.setEnv a)

/-- Evaluation of `e` in `a` is that of `f` in `b`. -/
def Leads (w : World) (a : Env) (e : Expr) (b : Env) (f : Expr) : Prop :=
  ∃ k j, ∀ fuel, exec (withEnv a (eval (fuel + k) e)) w = exec (withEnv b (eval (fuel + j) f)) w

lemma Leads.refl (w : World) (a : Env) (e : Expr) : Leads w a e a e := ⟨0, 0, fun _ => rfl⟩

lemma Leads.trans (h : Leads w a e b f) (h' : Leads w b f c g) : Leads w a e c g := by
  obtain ⟨k, j, h⟩ := h
  obtain ⟨k', j', h'⟩ := h'
  refine ⟨k' + k, j + j', fun fuel => ?_⟩
  rw [← Nat.add_assoc, h, ← Nat.add_assoc, Nat.add_right_comm, h']

lemma Yields.mono (h : Yields w a e t) : ∃ k, ∀ m fuel,
    exec (eval (fuel + (m + k)) e) (w.setEnv a) = (.ok t, w.setEnv a) := by
  obtain ⟨k, h⟩ := h
  exact ⟨k, fun m fuel => by rw [← Nat.add_assoc, h]⟩

lemma eval_succ (fuel : Nat) (e : Expr) : eval (fuel + 1) e = step (eval fuel) e := rfl

lemma yields_var {x : Name} (he : e.kind = .var x) (h : a.get? x = some t) :
    Yields w a e t := by
  refine ⟨1, fun fuel => ?_⟩
  rw [eval_succ, step, he]
  change exec (getScope >>= _) (w.setEnv a) = _
  rw [exec_bind_of_ok (exec_getScope _), show (w.setEnv a).scope.env.get? x = some t from h]
  rfl

lemma exec_mapM₁ {ev : Expr → Eval Term} {v v' : World} (he : exec (ev e) v = (.ok s, v')) :
    exec ([e].mapM ev) v = (.ok [s], v') := by
  rw [List.mapM_cons, exec_bind_of_ok he]
  rfl

lemma exec_mapM₂ {ev : Expr → Eval Term} {v v' v'' : World} (he : exec (ev e) v = (.ok s, v'))
    (hf : exec (ev f) v' = (.ok t, v'')) : exec ([e, f].mapM ev) v = (.ok [s, t], v'') := by
  rw [List.mapM_cons, exec_bind_of_ok he, exec_bind_of_ok (exec_mapM₁ hf)]
  rfl

/-- The operands of an operation have their values with the same fuel. -/
lemma yields_operands (he : Yields w a e s) (hf : Yields w a f t) : ∃ k, ∀ fuel,
    exec ([e, f].mapM (eval (fuel + k))) (w.setEnv a) = (.ok [s, t], w.setEnv a) := by
  obtain ⟨k, hk⟩ := he.mono
  obtain ⟨j, hj⟩ := hf.mono
  refine ⟨k + j, fun fuel => exec_mapM₂ ?_ (hj k fuel)⟩
  rw [Nat.add_comm k j]
  exact hk j fuel

lemma yields_lit {l : Literal} (he : e.kind = .lit l) : Yields w a e (.lit l) := by
  refine ⟨1, fun fuel => ?_⟩
  rw [eval_succ, step, he]
  rfl

/-- A function that lists its captures keeps them. -/
theorem yields_filtered {used : Captures} {x : Name} (he : e.kind = .filtered used x f) :
    Yields w a e (.map (.restricted a.visible used) (.function x f)) := by
  refine ⟨1, fun fuel => ?_⟩
  rw [eval_succ, step, he]
  rfl

lemma yields_unit (he : e.kind = .tuple []) : Yields w a e (.tuple []) := by
  refine ⟨1, fun fuel => ?_⟩
  rw [eval_succ, step, he]
  rfl

/-- An operation with one operand that does nothing but compute. -/
lemma yields_op₁ {o : Op} (he : e.kind = .op o [f]) (hf : Yields w a f s)
    (act : (Expr → Eval Term) → List Term → Eval Term)
    (hstep : ∀ ev : Expr → Eval Term, evalOp ev o [f] = (do act ev (← [f].mapM ev)))
    (hact : ∀ ev : Expr → Eval Term, exec (act ev [s]) (w.setEnv a) = (.ok t, w.setEnv a)) :
    Yields w a e t := by
  obtain ⟨k, hk⟩ := hf
  refine ⟨k + 1, fun fuel => ?_⟩
  rw [← Nat.add_assoc, eval_succ, step, he]
  change exec (evalOp _ o [f]) _ = _
  rw [hstep, exec_bind_of_ok (exec_mapM₁ (hk fuel))]
  exact hact _

lemma yields_op₂ {o : Op} (he : e.kind = .op o [f, g]) (hf : Yields w a f s)
    (hg : Yields w a g s')
    (act : (Expr → Eval Term) → List Term → Eval Term)
    (hstep : ∀ ev : Expr → Eval Term, evalOp ev o [f, g] = (do act ev (← [f, g].mapM ev)))
    (hact : ∀ ev : Expr → Eval Term, exec (act ev [s, s']) (w.setEnv a) = (.ok t, w.setEnv a)) :
    Yields w a e t := by
  obtain ⟨k, hk⟩ := yields_operands hf hg
  refine ⟨k + 1, fun fuel => ?_⟩
  rw [← Nat.add_assoc, eval_succ, step, he]
  change exec (evalOp _ o [f, g]) _ = _
  rw [hstep, exec_bind_of_ok (hk fuel)]
  exact hact _

/-- A step that goes on in another environment. -/
lemma leads_of_step {k : Nat} (h : ∀ fuel, exec (step (eval (fuel + k)) e) (w.setEnv a) =
    exec (withEnv b (eval (fuel + k) f)) (w.setEnv a)) : Leads w a e b f := by
  refine ⟨k + 1, k, fun fuel => ?_⟩
  rw [← Nat.add_assoc, exec_withEnv, exec_withEnv, eval_succ, h, exec_withEnv]
  rfl

/-- The application of a function is evaluation of its body where its argument is bound. -/
theorem leads_apply {x : Name} {body : Expr} (he : e.kind = .op .apply [f, g])
    (hf : Yields w a f (.map b (.function x body))) (hg : Yields w a g t) :
    Leads w a e (b.bind x t) body := by
  obtain ⟨k, hk⟩ := yields_operands hf hg
  refine leads_of_step (k := k) fun fuel => ?_
  rw [step, he]
  change exec (evalOp _ .apply [f, g]) _ = _
  rw [evalOp, exec_bind_of_ok (hk fuel)]
  exact exec_apply_function ..

/-- A conditional is evaluation of one of its sides, if the test is known. -/
lemma leads_cond {yes no : Expr} {d : Bool} (he : e.kind = .op .cond [f, yes, no])
    (hf : Yields w a f (.lit (.bool d))) : Leads w a e a (if d then yes else no) := by
  obtain ⟨k, hk⟩ := hf
  refine ⟨k + 1, k, fun fuel => ?_⟩
  have hstep : exec (eval (fuel + k + 1) e) (w.setEnv a) =
      exec (eval (fuel + k) (if d then yes else no)) (w.setEnv a) := by
    rw [eval_succ, step, he]
    change exec (Eval.cond _ [f, yes, no]) _ = _
    rw [Eval.cond, exec_bind_of_ok (hk fuel)]
    rfl
  rw [← Nat.add_assoc, exec_withEnv, hstep, exec_withEnv]

/-- A split by union member is the application of its function, if the value is known now. -/
lemma leads_case {x : Name} {body : Expr} (he : e.kind = .op .case [g, f])
    (hf : Yields w a f (.map b (.function x body))) (hg : Yields w a g t) (ht : t.isStatic = true) :
    Leads w a e (b.bind x t) body := by
  obtain ⟨k, hk⟩ := yields_operands hg hf
  refine leads_of_step (k := k) fun fuel => ?_
  rw [step, he]
  change exec (evalOp _ .case [g, f]) _ = _
  rw [evalOp, exec_bind_of_ok (hk fuel)]
  change exec (case _ t (.map b (.function x body))) _ = _
  cases t with
  | var | box => cases ht
  | _ => exact exec_apply_function ..

end Eval

/-! ### Names and what they stand for -/

/-- What names stand for. -/
abbrev Meaning := Name → Option Term

namespace Meaning

def bind (D : Meaning) (x : Name) (t : Term) : Meaning := fun y => if y = x then some t else D y

/-- Bind names one after another; of several bindings of a name the last counts. -/
def extend (D : Meaning) (bs : List (Name × Term)) : Meaning :=
  bs.foldl (fun D b => D.bind b.1 b.2) D

variable {D D' : Meaning} {x y : Name} {t : Term} {bs bs' : List (Name × Term)}

lemma bind_self : D.bind x t x = some t := if_pos rfl

lemma bind_of_ne (h : y ≠ x) : D.bind x t y = D y := if_neg h

lemma extend_append : D.extend (bs ++ bs') = (D.extend bs).extend bs' := List.foldl_append

lemma extend_congr (h : D y = D' y) : D.extend bs y = D'.extend bs y := by
  induction bs generalizing D D' with
  | nil => exact h
  | cons b rest ih =>
    refine ih ?_
    change (if y = b.1 then some b.2 else D y) = if y = b.1 then some b.2 else D' y
    rw [h]

lemma extend_of_not_mem (h : ∀ b ∈ bs, b.1 ≠ y) : D.extend bs y = D y := by
  induction bs generalizing D with
  | nil => rfl
  | cons b rest ih =>
    obtain ⟨hb, hrest⟩ := List.forall_mem_cons.1 h
    exact (ih hrest).trans (bind_of_ne hb.symm)

end Meaning

/-! ### Free names of code -/

namespace Expr

variable {u : Store} {e f : Expr} {x y : Name}

lemma freeIn_var (h : e.kind = .var y) : e.FreeIn u x ↔ x = y :=
  freeIn_iff.trans (takes_var h)

lemma freeIn_of_mem {o : Op} {args : List Expr} (h : e.kind = .op o args) (hf : f ∈ args)
    (hx : f.FreeIn u x) : e.FreeIn u x := by
  rw [freeIn_iff, takes_op h, anyTakes_iff]
  exact ⟨f, hf, freeIn_iff.1 hx⟩

lemma IsFunction.freeIn (h : e.IsFunction y f) : e.FreeIn u x ↔ x ≠ y ∧ f.FreeIn u x := by
  rw [freeIn_iff, h.takes, freeIn_iff]

/-- All names made for lowered code that the expression takes have smaller numbers. -/
def Below (u : Store) (n : Nat) (e : Expr) : Prop :=
  ∀ x i, e.FreeIn u x → u.names.Made x i → i < n

lemma Below.mono {m n : Nat} (h : e.Below u m) (hmn : m ≤ n) : e.Below u n :=
  fun x i hx hi => Nat.lt_of_lt_of_le (h x i hx hi) hmn

lemma Below.ne {n i : Nat} (h : e.Below u n) (hy : u.names.Made y i) (hi : n ≤ i)
    (hx : e.FreeIn u x) : x ≠ y := by
  rintro rfl
  exact absurd (h x i hx hy) (Nat.not_lt.2 hi)

end Expr

lemma Expr.Issued.held {u : Store} {e : Expr} (h : e.Issued u) : e.Held u.exprs := by
  induction h with
  | intro hmem _ _ ih => exact .intro hmem ih

/-! ### Going on -/

/-- The code `e'` that `e` has become can be evaluated in the environment `a`, which shows what the
free names stand for. -/
structure Position (u : Store) (w : World) (D : Meaning) (e : Expr) (a : Env) (e' : Expr) :
    Prop where
  becomes : e.Becomes u e'
  issued : e'.Issued u
  grows : u.Grows w.session.store
  offers : w.Offers a
  sees : ∀ x, e.FreeIn u x → a.get? x = D x

/-- Wherever `e` is evaluated, evaluation goes on with `f`. -/
def Goes (u : Store) (w : World) (e : Expr) (D : Meaning) (f : Expr) (D' : Meaning) : Prop :=
  ∀ a e', Position u w D e a e' → ∃ b f', Position u w D' f b f' ∧ Leads w a e' b f'

/-- Wherever `e` is evaluated, it has the value and no effect. -/
def Gives (u : Store) (w : World) (e : Expr) (D : Meaning) (t : Term) : Prop :=
  ∀ a e', Position u w D e a e' → Yields w a e' t ∧ w.Carries t

/-- The term is a thunk for the code. -/
def Delays (u : Store) (w : World) (e : Expr) (D : Meaning) (t : Term) : Prop :=
  ∃ (a : Env) (x : Name) (e' : Expr), t = .map a (.function x e') ∧
    Position u w D e (a.bind x (.tuple [])) e'

variable {u : Store} {w : World} {D D' D'' : Meaning} {e f g k l : Expr} {s s' t : Term}
  {x : Name}

namespace Position

variable {a : Env} {e' : Expr}

lemma mono {w' : World} (h : Position u w D e a e') (hw : w.Framed w') :
    Position u w' D e a e' :=
  { h with
    grows := h.grows.trans hw.later.grows.store
    offers := ⟨h.offers.value.mono hw, fun k hk =>
      MapKind.Backed.mono hw.later.grows.store k (h.offers.backed k hk)⟩ }

lemma held (h : Position u w D e a e') : e'.Held w.session.store.exprs :=
  h.issued.held.mono h.grows.exprs

/-- The operands of an operation are evaluated where it is. -/
theorem args {o : Op} {args : List Expr} (h : Position u w D e a e') (he : e.kind = .op o args) :
    ∃ args', e'.kind = .op o args' ∧ args.length = args'.length ∧
      ∀ (i : Nat) c c', args[i]? = some c → args'[i]? = some c' → Position u w D c a c' := by
  obtain ⟨args', he', hlength, hparts⟩ := h.becomes.of_op he
  refine ⟨args', he', hlength, fun i c c' hc hc' => ⟨hparts i c c' hc hc', ?_, h.grows, h.offers,
    fun x hx => h.sees x (Expr.freeIn_of_mem he (List.mem_of_getElem? hc) hx)⟩⟩
  refine h.issued.kind.codes c' ?_
  rw [he']
  exact List.mem_of_getElem? hc'

lemma arg₁ {o : Op} (h : Position u w D e a e') (he : e.kind = .op o [f]) :
    ∃ f', e'.kind = .op o [f'] ∧ Position u w D f a f' := by
  obtain ⟨args', he', hlength, hparts⟩ := h.args he
  obtain ⟨f', rfl⟩ := List.length_eq_one_iff.1 hlength.symm
  exact ⟨f', he', hparts 0 f f' rfl rfl⟩

lemma arg₂ {o : Op} (h : Position u w D e a e') (he : e.kind = .op o [f, g]) :
    ∃ f' g', e'.kind = .op o [f', g'] ∧ Position u w D f a f' ∧ Position u w D g a g' := by
  obtain ⟨args', he', hlength, hparts⟩ := h.args he
  obtain ⟨f', g', rfl⟩ := List.length_eq_two.1 hlength.symm
  exact ⟨f', g', he', hparts 0 f f' rfl rfl, hparts 1 g g' rfl rfl⟩

lemma arg₃ {o : Op} (h : Position u w D e a e') (he : e.kind = .op o [f, g, k]) :
    ∃ f' g' k', e'.kind = .op o [f', g', k'] ∧ Position u w D f a f' ∧ Position u w D g a g' ∧
      Position u w D k a k' := by
  obtain ⟨args', he', hlength, hparts⟩ := h.args he
  obtain ⟨f', g', k', rfl⟩ := List.length_eq_three.1 hlength.symm
  exact ⟨f', g', k', he', hparts 0 f f' rfl rfl, hparts 1 g g' rfl rfl, hparts 2 k k' rfl rfl⟩

/-- A function keeps what its body takes, and its body is evaluated where the argument is bound. -/
theorem closed (h : Position u w D e a e') (he : e.IsFunction x f) :
    ∃ (used : Captures) (f' : Expr), e'.kind = .filtered used x f' ∧
      w.Carries (.map (.restricted a.visible used) (.function x f')) ∧
      ∀ t, w.Carries t →
        Position u w (D.bind x t) f ((Env.restricted a.visible used).bind x t) f' := by
  obtain ⟨used, f', he', hasc, hused, hbecomes⟩ := h.becomes.of_function he
  have hissued : f'.Issued u := h.issued.kind.codes f' (he' ▸ List.mem_singleton_self f')
  have hoffers := h.offers.restrict hasc
  refine ⟨used, f', he', hoffers.carries hbecomes.readies.2.1 (hissued.held.mono h.grows.exprs),
    fun t ht => ⟨hbecomes, hissued, h.grows, hoffers.bind x ht, fun y hy => ?_⟩⟩
  rw [hoffers.get?_bind]
  by_cases hyx : y = x
  · rw [if_pos hyx, hyx, Meaning.bind_self]
  · have hfree : e.FreeIn u y := he.freeIn.2 ⟨hyx, hy⟩
    rw [if_neg hyx, Meaning.bind_of_ne hyx, h.offers.get?_restricted hasc ((hused y).2 hfree),
      h.sees y hfree]

end Position

namespace Gives

lemma var (he : e.kind = .var x) (h : D x = some t) : Gives u w e D t := by
  intro a e' hp
  obtain rfl := hp.becomes.of_var he
  have hget := (hp.sees x ((Expr.freeIn_var he).2 rfl)).trans h
  exact ⟨yields_var he hget, hp.offers.get? hget⟩

lemma lit {l : Literal} (he : e.kind = .lit l) : Gives u w e D (.lit l) := by
  intro a e' hp
  obtain rfl := hp.becomes.of_lit he
  exact ⟨yields_lit he, World.carries_lit l⟩

/-- An operation with one operand that does nothing but compute. -/
theorem op₁ {o : Op} (he : e.kind = .op o [f]) (hf : Gives u w f D s)
    (act : (Expr → Eval Term) → List Term → Eval Term)
    (hstep : ∀ (ev : Expr → Eval Term) f, evalOp ev o [f] = (do act ev (← [f].mapM ev)))
    (hact : ∀ (ev : Expr → Eval Term) a, exec (act ev [s]) (w.setEnv a) = (.ok t, w.setEnv a))
    (ht : w.Carries s → w.Carries t) : Gives u w e D t := by
  intro a e' hp
  obtain ⟨f', he', hpf⟩ := hp.arg₁ he
  obtain ⟨hyields, hs⟩ := hf a f' hpf
  exact ⟨yields_op₁ he' hyields act (fun ev => hstep ev f') fun ev => hact ev a, ht hs⟩

lemma op₂ {o : Op} (he : e.kind = .op o [f, g]) (hf : Gives u w f D s) (hg : Gives u w g D s')
    (act : (Expr → Eval Term) → List Term → Eval Term)
    (hstep : ∀ (ev : Expr → Eval Term) f g, evalOp ev o [f, g] = (do act ev (← [f, g].mapM ev)))
    (hact : ∀ (ev : Expr → Eval Term) a, exec (act ev [s, s']) (w.setEnv a) = (.ok t, w.setEnv a))
    (ht : w.Carries t) : Gives u w e D t := by
  intro a e' hp
  obtain ⟨f', g', he', hpf, hpg⟩ := hp.arg₂ he
  exact ⟨yields_op₂ he' (hf a f' hpf).1 (hg a g' hpg).1 act (fun ev => hstep ev f' g')
    fun ev => hact ev a, ht⟩

end Gives

namespace Goes

lemma refl (e : Expr) (h : ∀ x, e.FreeIn u x → D x = D' x) : Goes u w e D e D' :=
  fun a e' hp => ⟨a, e', ⟨hp.becomes, hp.issued, hp.grows, hp.offers,
    fun x hx => (hp.sees x hx).trans (h x hx)⟩, .refl w a e'⟩

lemma trans (h : Goes u w e D f D') (h' : Goes u w f D' g D'') : Goes u w e D g D'' := by
  intro a e' hp
  obtain ⟨b, f', hq, hleads⟩ := h a e' hp
  obtain ⟨c, g', hr, hleads'⟩ := h' b f' hq
  exact ⟨c, g', hr, hleads.trans hleads'⟩

/-- Only what the free names stand for counts. -/
theorem congr (h : Goes u w e D f D') (hD : ∀ x, f.FreeIn u x → D' x = D'' x) :
    Goes u w e D f D'' :=
  h.trans (.refl f hD)

/-- A name is bound for the rest. -/
theorem letIn (h : e.IsLet x f g) (hf : Gives u w f D t) : Goes u w e D g (D.bind x t) := by
  obtain ⟨hfun⟩ := h
  intro a e' hp
  obtain ⟨k, f', he', hk, hpf⟩ := hp.arg₂ rfl
  obtain ⟨used, g', hk', -, hbody⟩ := hk.closed hfun
  obtain ⟨hyields, hcarries⟩ := hf a f' hpf
  exact ⟨_, g', hbody t hcarries, leads_apply he' (yields_filtered hk') hyields⟩

/-- A split by union member binds the value, if it is known now. -/
theorem case (he : e.kind = .op .case [f, k]) (hk : k.IsFunction x g)
    (hf : Gives u w f D t) (ht : t.isStatic = true) : Goes u w e D g (D.bind x t) := by
  intro a e' hp
  obtain ⟨f', k', he', hpf, hpk⟩ := hp.arg₂ he
  obtain ⟨used, g', hk', -, hbody⟩ := hpk.closed hk
  obtain ⟨hyields, hcarries⟩ := hf a f' hpf
  exact ⟨_, g', hbody t hcarries, leads_case he' (yields_filtered hk') hyields ht⟩

/-- A conditional goes on with one of its sides. -/
theorem cond {d : Bool} (he : e.kind = .op .cond [k, f, g])
    (hk : Gives u w k D (.lit (.bool d))) : Goes u w e D (if d then f else g) D := by
  intro a e' hp
  obtain ⟨k', f', g', he', hpk, hpf, hpg⟩ := hp.arg₃ he
  refine ⟨a, if d then f' else g', ?_, leads_cond he' (hk a k' hpk).1⟩
  split <;> assumption

/-- A thunk for `f` is bound for the rest. -/
theorem thunk {n : Nat} (h : e.IsLet x k g) (hk : k.IsThunk u.names n f) (hf : f.Below u n)
    (hrest : ∀ t, Delays u w f D t → Goes u w g (D.bind x t) l D') : Goes u w e D l D' := by
  obtain ⟨hfun⟩ := h
  obtain ⟨z, i, hi, hz, hthunk⟩ := hk
  intro a e' hp
  obtain ⟨m, k', he', hm, hpk⟩ := hp.arg₂ rfl
  obtain ⟨used, f', hk', hcarries, hlater⟩ := hpk.closed hthunk
  obtain ⟨used', g', hm', -, hbody⟩ := hm.closed hfun
  have hunit := hlater (.tuple []) (World.carries_tuple fun _ h => absurd h List.not_mem_nil)
  have hdelays : Delays u w f D (.map (.restricted a.visible used) (.function z f')) := by
    refine ⟨_, z, f', rfl, { hunit with sees := fun y hy => (hunit.sees y hy).trans ?_ }⟩
    exact Meaning.bind_of_ne (hf.ne hz hi hy)
  obtain ⟨b, c, hq, hleads⟩ := hrest _ hdelays _ g' (hbody _ hcarries)
  exact ⟨b, c, hq, (leads_apply he' (yields_filtered hm') (yields_filtered hk')).trans hleads⟩

/-- The call of a thunk goes on with its code. -/
theorem force (he : e.IsForce x) (hx : D x = some t) (ht : Delays u w f D' t) :
    Goes u w e D f D' := by
  obtain ⟨k, unit, hk, hunit, he⟩ := he
  obtain ⟨b, z, f', rfl, hlater⟩ := ht
  intro a e' hp
  obtain ⟨k', unit', he', hpk, hpunit⟩ := hp.arg₂ he
  obtain rfl := hpk.becomes.of_var hk
  obtain ⟨items, hunit', hlength, -⟩ := hpunit.becomes.of_tuple hunit
  obtain rfl := List.eq_nil_of_length_eq_zero hlength.symm
  have hget := (hpk.sees x ((Expr.freeIn_var hk).2 rfl)).trans hx
  exact ⟨_, f', hlater, leads_apply he' (yields_var hk hget) (yields_unit hunit')⟩

end Goes

end Residual
