import Residual.Proofs.Session.JudgedAlike

/-!
Tests of a variable by a module pattern.

A test applies a module pattern to the value of a variable, with a boolean as its result. Main
statement: where the code of the pattern is decided, so is the test, and it does nothing besides.
For simple patterns the answer is that of the matcher. A guard that reads a flag, and an exclusive
match whose second side is decided by what the first one binds, are decided, too.
-/

namespace Residual

open Eval

variable {u : Store} {w v : World} {D : Meaning} {e f l succ fail : Expr} {m a b : ModulePattern}
  {x y : Name} {s t : Term} {r : Bool} {n : Nat}

/-! ### Patterns as functions -/

/-- The expression applies the module pattern to the value of the variable. -/
def Expr.IsTest (e : Expr) (m : ModulePattern) (x : Name) : Prop :=
  ∃ (f g : Expr) (p : Pattern), e.kind = .op .apply [f, g] ∧ f.kind = .pattern p ∧
    p.kind = .module m ∧ g.kind = .var x

/-- In the world `w`, code that tests the value of `x` by the pattern ends with the answer `r`, and
it leaves the world `v` behind. -/
def ModulePattern.Answers (u : Store) (m : ModulePattern) (x : Name) (w : World) (r : Bool)
    (v : World) : Prop :=
  ∃ (e code : Expr) (fuel : Nat), e.IsTest m x ∧ e.Issued u ∧ e.Becomes u code ∧ code.Issued u ∧
    exec (eval fuel code) w = (.ok (.lit (.bool r)), v)

/-- A pattern is evaluated like the function that the store records for it. -/
theorem Position.pattern {p : Pattern} {c : Env} {e' : Expr} (h : Position u w D e c e')
    (he : e.kind = .pattern p) :
    ∃ l, u.lowered.lookup p.symbol = some l ∧ Position u w D l c e' := by
  obtain ⟨l, hlookup, hl⟩ := h.becomes.of_pattern he
  refine ⟨l, hlookup, { h with becomes := hl, sees := fun y hy => h.sees y ?_ }⟩
  rw [Expr.freeIn_iff, Expr.takes_iff, he]
  exact ⟨l, hlookup, hy⟩

/-- The pattern that is applied was issued with the test. -/
theorem Expr.Issued.pattern_of_apply {f g : Expr} {p : Pattern} (h : e.Issued u)
    (he : e.kind = .op .apply [f, g]) (hf : f.kind = .pattern p) : p.Issued u := by
  have hissued := (h.kind.codes f (he ▸ List.mem_cons_self ..)).kind
  rw [hf] at hissued
  exact ⟨hissued.codes, hissued.nested⟩

/-- What a store records for a pattern has the shape of the function that it denotes. -/
lemma Store.Reaches.functionShape (hu : Store.Reaches {} u) {p : Pattern} (hp : p.Issued u)
    (hl : u.lowered.lookup p.symbol = some l) : ∃ n, p.FunctionShape u.names Eq n l := by
  obtain ⟨q, hq, hsymbol, hlowers⟩ :=
    (hu.traced (Store.recordedIn_self _)).lowered _ (mem_of_lookup hl)
  obtain rfl : q = p := hq.eq hp.mem hsymbol
  exact hlowers.shape

/-- The function that a module pattern denotes: a clause that answers yes, and then one that takes
everything and answers no. -/
structure ModulePattern.TestShape (u : Store) (m : ModulePattern) (l : Expr) (arg y : Name)
    (i j : Nat) (code body later yes no miss : Expr) : Prop where
  function : l.IsFunction arg code
  made_arg : u.names.Made arg i
  made_subject : u.names.Made y j
  split : ∃ value inner : Expr, code.kind = .op .case [value, inner] ∧ value.kind = .var arg ∧
    inner.IsFunction y body
  first : body.FailingShape u.names (j + 1) later fun n next b => m.Shape u.names Eq n y yes next b
  kind_yes : yes.kind = .lit (.bool true)
  kind_no : no.kind = .lit (.bool false)
  last : ∃ any : Pattern, any.kind = .wildcard ∧
    Clause.MatchShape u.names Eq (j + 1) y miss later [.mk any no]
  missFree : ∀ z, miss.FreeIn u z → z = y

lemma Store.Reaches.testShape (hu : Store.Reaches {} u) {symbol : Nat}
    (hp : (Pattern.node symbol (.module m)).Issued u) (hl : u.lowered.lookup symbol = some l) :
    ∃ arg y i j code body later yes no miss,
      m.TestShape u l arg y i j code body later yes no miss := by
  obtain ⟨n, arms, arg, i, y, j, missed, miss, body, inner, value, split, harms, -, harg, -, hy,
    hmissed, hmiss, hbody, hinner, hvalue, hsplit, hfun⟩ := hu.functionShape hp hl
  rcases harms with harms | ⟨-, yes, no, any, hyes, hno, hany, rfl⟩
  · cases harms
  · obtain ⟨later, hlater, k, q, thunk, next, first, hq, hk, hthunk, hnext,
      ⟨_, rfl, hfirst⟩, hlet⟩ :=
      hbody
    exact ⟨arg, y, i, j, split, body, later, yes, no, miss, hfun, harg, hy,
      ⟨value, inner, hsplit, hvalue, hinner⟩,
        ⟨k, q, thunk, next, first, hq, hk, hthunk, hnext, hfirst,
      hlet⟩, hyes, hno, ⟨any, hany, hlater⟩, fun z hz => (Expr.takes_var hmissed).1
      ((Expr.takes_op₁ hmiss).1 (Expr.freeIn_iff.1 hz))⟩

namespace ModulePattern.TestShape

variable {arg : Name} {i j : Nat} {code body later yes no miss : Expr}

lemma missBelow (h : m.TestShape u l arg y i j code body later yes no miss) :
    miss.Below u (j + 1) :=
  fun z _ hz hq => (h.missFree z hz ▸ hq).unique h.made_subject ▸ Nat.lt_succ_self j

lemma yesBelow (h : m.TestShape u l arg y i j code body later yes no miss) (n : Nat) :
    yes.Below u n :=
  fun _ _ hz => absurd (Expr.freeIn_iff.1 hz) (Expr.takes_lit h.kind_yes)

/-- The last clause takes no name but that of the value, for a miss. -/
theorem laterBelow (h : m.TestShape u l arg y i j code body later yes no miss) :
    later.Below u (j + 1) := by
  obtain ⟨⟨_, _⟩, rfl, hlater⟩ := h.last
  intro z q hz hq
  have hbetween := Clause.MatchShape.between (P := Pattern.FreeIn u z) (x := z)
    (fun hm => h.missFree z (Expr.freeIn_iff.2 hm)) _ hlater
  rcases hbetween.upper (Expr.freeIn_iff.1 hz) with ⟨arm, harm, htakes⟩ | rfl
  · obtain rfl := List.mem_singleton.1 harm
    exact absurd htakes (Expr.takes_lit h.kind_no)
  · rw [hq.unique h.made_subject]
    exact Nat.lt_succ_self j

/-- The last clause is taken. -/
theorem goes_no (h : m.TestShape u l arg y i j code body later yes no miss) :
    Goes u w later D no D := by
  obtain ⟨⟨_, _⟩, rfl, _, rfl, k, _, thunk, next, inner, _, hk, hthunk, -,
    ⟨_, rfl, hshape⟩, hlet⟩ :=
    h.last
  obtain rfl : inner = no := hshape
  exact .thunk hlet hthunk h.missBelow fun _ _ => .refl inner fun z hz =>
    absurd (Expr.freeIn_iff.1 hz) (Expr.takes_lit h.kind_no)

end ModulePattern.TestShape

/-! ### Tests that are decided -/

/-- Code that goes on with a literal has it as its value, and does nothing. -/
lemma Goes.exec_lit {D' : Meaning} {code : Expr} {lit : Literal} (h : Goes u w e D l D')
    (hl : l.kind = .lit lit) (hp : Position u w D e w.scope.env code) :
    ∃ fuel, exec (eval fuel code) w = (.ok (.lit lit), w) := by
  obtain ⟨c, code', hq, k, j, hleads⟩ := h _ code hp
  have hlit : exec (withEnv c (eval (1 + j) code')) w = (.ok (.lit lit), w) := by
    rw [hq.becomes.of_lit hl, Nat.add_comm, exec_withEnv, eval_succ, step, hl]
    rfl
  rw [← hleads, exec_withEnv] at hlit
  obtain ⟨hresult, hworld⟩ := Prod.mk.inj hlit
  have hframed := framed_eval (1 + k) code w
  exact ⟨1 + k, Prod.ext hresult (World.eq_of_setEnv (b := w.scope.env) hworld hframed.env)⟩

/-- The application of a pattern binds the argument of the function that it denotes. -/
theorem Goes.pattern {g : Expr} {p : Pattern} {code : Expr} (he : e.kind = .op .apply [f, g])
    (hf : f.kind = .pattern p) (hl : u.lowered.lookup p.symbol = some l)
    (hfun : l.IsFunction x code) (hg : Gives u w g D s) : Goes u w e D code (D.bind x s) := by
  intro c e' hp
  obtain ⟨f', g', he', hpf, hpg⟩ := hp.arg₂ he
  obtain ⟨l', hl', hpl⟩ := hpf.pattern hf
  obtain rfl : l = l' := Option.some.inj (hl.symm.trans hl')
  obtain ⟨used, code', hl', -, hbody⟩ := hpl.closed hfun
  obtain ⟨hyields, hcarries⟩ := hg c g' hpg
  exact ⟨_, code', hbody s hcarries, leads_apply he' (yields_filtered hl') hyields⟩

/-- A test whose pattern is decided in all code for it answers so, and does nothing. -/
theorem Expr.IsTest.answers (hu : Store.Reaches {} u) (he : e.IsTest m x) (hi : e.Issued u)
    {code : Expr} (hbecomes : e.Becomes u code) (hissued : code.Issued u) (hw : w.Whole)
    (hstore : u.Grows w.session.store) (hs : w.scope.env.get? x = some s) (hstatic : s.Static)
    {r : Option Found}
    (hm : ∀ n y D succ fail e, (∀ z, ¬ u.names.Generated z → D z = w.scope.env.get? z) →
      Subject u w n y D s → Exits u n succ fail → m.Shape u.names Eq n y succ fail e →
      Decides u w e D succ fail r) : m.Answers u x w r.isSome w := by
  obtain ⟨f, g, ⟨symbol, _⟩, hkind, hf, rfl, hg⟩ := id he
  have hp : Position u w w.scope.env.get? e w.scope.env code :=
    ⟨hbecomes, hissued, hstore, hw.env, fun _ _ => rfl⟩
  obtain ⟨f', g', -, hpf, -⟩ := hp.arg₂ hkind
  -- The code of the test: the value is bound, and the pattern runs with its two exits.
  obtain ⟨l, hl, -⟩ := hpf.pattern hf
  obtain ⟨arg, y, i, j, split, body, later, yes, no, miss, h⟩ :=
    hu.testShape (hi.pattern_of_apply hkind hf) hl
  obtain ⟨value, inner, hsplit, hvalue, hinner⟩ := h.split
  have hgoes := (Goes.pattern (w := w) hkind hf hl h.function (.var hg hs)).trans
    (.case hsplit hinner (.var hvalue Meaning.bind_self) hstatic.isStatic)
  have hsubject : Subject u w (j + 1) y ((Meaning.bind w.scope.env.get? arg s).bind y s) s :=
    .new h.made_subject hstatic (hw.env.get? hs)
  have hdecides := h.first.decides h.laterBelow (h.yesBelow _) fun k q next c b hq hk hnext hb =>
    hm (q + 1) y (((Meaning.bind w.scope.env.get? arg s).bind y s).bind k c) yes next b
      (fun z hz => by
        rw [Meaning.bind_of_ne (hk.ne hz), Meaning.bind_of_ne (h.made_subject.ne hz),
          Meaning.bind_of_ne (h.made_arg.ne hz)])
      ((hsubject.bind hk hq).mono (by omega)) (.force (h.yesBelow _) hq hk hnext) hb
  -- The exit that is taken gives the answer.
  cases r with
  | none =>
    obtain ⟨fuel, hrun⟩ :=
      ((hgoes.trans (hdecides.missed rfl)).trans h.goes_no).exec_lit h.kind_no hp
    exact ⟨e, code, fuel, he, hi, hbecomes, hissued, hrun⟩
  | some bs =>
    obtain ⟨fuel, hrun⟩ := (hgoes.trans (hdecides.found bs rfl)).exec_lit h.kind_yes hp
    exact ⟨e, code, fuel, he, hi, hbecomes, hissued, hrun⟩

/-! ### What decides a pattern -/

/-- A guard that is a flag decides. -/
theorem Pattern.SplitShape.decides_flag {symbol symbol' : Nat} {guard : Expr} {d : Bool}
    (h : (Pattern.node symbol (.guarded (.node symbol' .wildcard) guard)).SplitShape u.names n y
      (fun n y b => (Pattern.node symbol (.guarded (.node symbol' .wildcard) guard)).Shape
      u.names Eq n y succ fail b) e)
    (hv : Subject u w n y D s) (hex : Exits u n succ fail) (hguard : guard.kind = .var x)
    (hx : ¬ u.names.Generated x) (hd : D x = some (.lit (.bool d))) :
    Decides u w e D succ fail (if d then some [] else none) := by
  obtain ⟨part, i, value, f, body, hi, hpart, hlowers, hvalue, hf, he⟩ := h
  obtain ⟨_, guarded, rfl, hguarded, hbody⟩ := hlowers
  obtain rfl : body = guarded := hbody
  refine .bound (.case he hf (.var hvalue hv.value) hv.static.isStatic) hpart hi hex ?_
  refine .cond hguarded (.var hguard ((Meaning.bind_of_ne (hpart.ne hx)).trans hd)) ?_ ?_
  · rintro rfl
    exact .succeed
  · rintro rfl
    rfl

namespace ModulePattern

/-- A flag decides whether the member of a module is matched. -/
theorem Shape.decides_flag {symbol symbol' : Nat} {field : Name} {guard : Expr} {d : Bool}
    (h : (inner field (.node symbol (.guarded (.node symbol' .wildcard) guard))).Shape
      u.names Eq n y succ fail e)
    (hv : Subject u w n y D s) (hex : Exits u n succ fail) (ht : s.member? field = some t)
    (hguard : guard.kind = .var x) (hx : ¬ u.names.Generated x) (hd : D x = some (.lit (.bool d))) :
    Decides u w e D succ fail (if d then some [] else none) := by
  obtain ⟨inner, i, matched, value, has, opened, bound, hi, hinner, hmatched, hvalue, hhas, hopened,
    hbound, he⟩ := h
  refine .cond he (.hasMember (hv.gives hvalue) hv.static hhas) (fun _ => ?_) fun hnone => ?_
  · have hopen := Gives.open (hv.gives hvalue) hopened ht fun h => h.member ht
    refine .bound (.letIn hbound hopen) hinner hi hex ?_
    exact hmatched.decides_flag (.new hinner (hv.static.member ht) (hv.carries.member ht))
      (hex.mono (by omega)) hguard hx ((Meaning.bind_of_ne (hinner.ne hx)).trans hd)
  · rw [ht] at hnone
    cases hnone

/-- If the first side matches and then the second one, where the names of the first one are bound,
then the exclusive match fails. -/
theorem Shape.decides_both (h : (xor a b).Shape u.names Eq n y succ fail e) (bs bs' : Found)
    (hv : Subject u w n y D s) (hex : Exits u n succ fail) (hc : ∀ c ∈ b.codes, c.Given u)
    (ha : ∀ m f g c D', D.Beside u n D' → Subject u w m y D' s → Exits u m f g →
      a.Shape u.names Eq m y f g c → Decides u w c D' f g (some bs))
    (hb : ∀ m f g c D', (D.extend bs).Beside u n D' → Subject u w m y D' s → Exits u m f g →
      b.Shape u.names Eq m y f g c → Decides u w c D' f g (some bs')) :
    Decides u w e D succ fail none := by
  obtain ⟨z, i, failThunk, callFail, onlyB, body, hi, hz, hfailThunk,
    hcallFail, honlyB, ⟨k, j, thunk,
    tryB, first, hj, hk, hthunk, htryB, hfirst, hbody⟩, he⟩ := h
  obtain ⟨o, q, okThunk, callOk, callFail', bMustFail, afterA, hq, ho,
    hokThunk, hcallOk, hcallFail',
    hmust, hafter, hfirst⟩ := hfirst
  -- No piece of code uses a name that is bound further in.
  have hbelow : onlyB.Below u (i + 1) := Expr.Between.below
    (fun _ => ModulePattern.Shape.between b honlyB) (fun _ => ModulePattern.counts b) hc
    (hv.made.imp fun j hj => ⟨by omega, hj.2⟩) (hex.found.mono (by omega))
    (hcallFail.below hz (Nat.lt_succ_self i))
  have hmustExits : Exits u (q + 1) callFail' callOk :=
    ⟨hcallFail'.below hz (by omega), hcallOk.below ho (Nat.lt_succ_self q),
      fun x hx => hcallOk.freeIn.1 hx ▸ ho.generated⟩
  have hafterBelow : afterA.Below u (q + 1) := hafter.below_thunk hokThunk
    (Expr.Between.below (fun _ => ModulePattern.Shape.between b hmust)
      (fun _ => ModulePattern.counts b) hc (hv.made.imp fun j hj => ⟨by omega, hj.2⟩)
        hmustExits.found
      hmustExits.missed) (hex.found.mono (by omega))
  refine .of_none (.thunk he hfailThunk hex.missed fun c hfail => .thunk hbody hthunk hbelow
    fun d _ => ?_)
  have hD : D.Beside u n ((D.bind z c).bind k d) :=
    (Meaning.Beside.bind hz hi).trans (.bind hk (by omega))
  -- The first side matches, so the second one is tried with the outer exits swapped.
  have hfirst := ha (q + 1) afterA tryB first _ hD
    (((hv.bind hz hi).bind hk (by omega)).mono (by omega))
    ⟨hafterBelow, htryB.below hk (by omega), fun x hx => htryB.freeIn.1 hx ▸ hk.generated⟩ hfirst
  have hclean := hfirst.clean bs rfl
  refine (hfirst.found bs rfl).trans (.thunk hafter hokThunk (hex.found.mono (by omega))
    fun o' _ => ?_)
  -- The second side matches too: the thunk of the failure is forced, which still is what it was.
  have hsecond := hb (q + 1) callFail' callOk bMustFail
    ((((D.bind z c).bind k d).extend bs).bind o o') ((hD.extend bs).trans (.bind ho (by omega)))
    (((((hv.bind hz hi).bind hk (by omega)).extend hclean).bind ho (by omega)).mono (by omega))
    hmustExits hmust
  refine (hsecond.found bs' rfl).trans (.force hcallFail' ?_ hfail)
  rw [Meaning.extend_of_generated (hsecond.clean bs' rfl) hz.generated, Meaning.bind_of_ne,
    Meaning.extend_of_generated hclean hz.generated, Meaning.bind_of_ne, Meaning.bind_self]
  · rintro rfl
    have := hz.unique hk
    omega
  · rintro rfl
    have := hz.unique ho
    omega

end ModulePattern

end Residual
