import Residual.Proofs.Session.RunsAbreast

/-!
Patterns judge a value alike wherever they are lowered.

The expressions inside a pattern are evaluated, with all effects that this has, where the names that
the pattern has bound so far stand for what was found. Main statement: two runs of code of one
pattern, in worlds that differ at most in the forms of environments, with the same value to judge
and the same values for the names that the pattern takes, agree on whether there is a match.
-/

namespace Residual

open Eval

/-! ### Names of the program -/

mutual

/-- The names that stand for something new after a match. -/
def Pattern.binders : Pattern → List Name
  | .node _ kind => kind.binders

def PatternKind.binders : PatternKind → List Name
  | .wildcard | .lit _ => []
  | .var x => [x]
  | .tuple ps | .or ps | .and ps => Pattern.bindersOfAll ps
  | .cons ps rest => Pattern.bindersOfAll ps ++ rest.binders
  | .typeEq p _ | .active _ p | .partialActive _ p | .extension _ p | .guarded p _ => p.binders
  | .module m => m.binders
  | .clauses arms => Clause.bindersOfAll arms

def Pattern.bindersOfAll : List Pattern → List Name
  | [] => []
  | p :: rest => p.binders ++ Pattern.bindersOfAll rest

def Clause.bindersOfAll : List Clause → List Name
  | [] => []
  | .mk p _ :: rest => p.binders ++ Clause.bindersOfAll rest

def ModulePattern.binders : ModulePattern → List Name
  | .member _ bind => [bind]
  | .inner _ p => p.binders
  | .and ms | .or ms => ModulePattern.bindersOfAll ms
  | .xor a b => a.binders ++ b.binders
  | .not _ => []

def ModulePattern.bindersOfAll : List ModulePattern → List Name
  | [] => []
  | m :: rest => m.binders ++ ModulePattern.bindersOfAll rest

end

mutual

/-- The variables of the pattern are names of the program. -/
def Pattern.Named (t : Names) : Pattern → Prop
  | .node _ kind => kind.Named t

def PatternKind.Named (t : Names) : PatternKind → Prop
  | .wildcard | .lit _ => True
  | .var x => ¬ t.Generated x
  | .tuple ps | .or ps | .and ps => Pattern.AllNamed t ps
  | .cons ps rest => Pattern.AllNamed t ps ∧ rest.Named t
  | .typeEq p _ | .active _ p | .partialActive _ p | .extension _ p | .guarded p _ => p.Named t
  | .module m => m.Named t
  | .clauses arms => Clause.AllNamed t arms

def Pattern.AllNamed (t : Names) : List Pattern → Prop
  | [] => True
  | p :: rest => p.Named t ∧ Pattern.AllNamed t rest

def Clause.AllNamed (t : Names) : List Clause → Prop
  | [] => True
  | .mk p _ :: rest => p.Named t ∧ Clause.AllNamed t rest

def ModulePattern.Named (t : Names) : ModulePattern → Prop
  | .member _ bind => ¬ t.Generated bind
  | .inner _ p => p.Named t
  | .and ms | .or ms => ModulePattern.AllNamed t ms
  | .xor a b => a.Named t ∧ b.Named t
  | .not m => m.Named t

def ModulePattern.AllNamed (t : Names) : List ModulePattern → Prop
  | [] => True
  | m :: rest => m.Named t ∧ ModulePattern.AllNamed t rest

end

/-- The free names of the expression are names of the program. -/
def Expr.Given (u : Store) (c : Expr) : Prop := ∀ a, c.FreeIn u a → ¬ u.names.Generated a

/-- Of the names made for lowered code, a match takes those of the code around the expressions of
its pattern. -/
theorem Expr.Between.below {u : Store} {e succ fail : Expr} {y : Name} {n : Nat} {codes : List Expr}
    {T : Name → (Expr → Prop) → Prop → Prop}
    (h : ∀ a, e.Between u.names (Pattern.FreeIn u a) a (fail.Takes (Pattern.FreeIn u a) a ∨ a = y)
      (T a (fun c => c.Takes (Pattern.FreeIn u a) a) (succ.Takes (Pattern.FreeIn u a) a)))
    (hT : ∀ a, Counts codes (T a)) (hc : ∀ c ∈ codes, c.Given u)
    (hy : ∃ j, j < n ∧ u.names.Made y j) (hsucc : succ.Below u n) (hfail : fail.Below u n) :
    e.Below u n := by
  intro a i ha hi
  rcases (h a).upper (freeIn_iff.1 ha) with htakes | hf | rfl
  · rcases (hT a).codes_or htakes with ⟨c, hcodes, hca⟩ | hs
    · exact absurd hi.generated (hc c hcodes a (freeIn_iff.2 hca))
    · exact hsucc a i (freeIn_iff.2 hs) hi
  · exact hfail a i (freeIn_iff.2 hf) hi
  · obtain ⟨j, hj, hmade⟩ := hy
    rwa [hi.unique hmade]

/-- Where a thunk is bound for what follows, the names of both are taken. -/
theorem Expr.IsLet.below_thunk {u : Store} {e thunk f body : Expr} {z : Name} {m n : Nat}
    (h : e.IsLet z thunk body) (hthunk : thunk.IsThunk u.names m f) (hbody : body.Below u n)
    (hf : f.Below u n) : e.Below u n := by
  intro a i ha hi
  rw [Expr.freeIn_iff, h.takes] at ha
  rcases ha with ⟨-, ha⟩ | ha
  · exact hbody a i (Expr.freeIn_iff.2 ha) hi
  · exact hf a i (Expr.freeIn_iff.2 (hthunk.takes_body ha)) hi

/-! ### Judgements -/

/-- Where names stand for `D`, a run from `w` to `v` with the result `t` judges the value of `y` by
the pattern. If there is a match, then `F` holds of the world in which the run goes on and of what
names stand for there, and otherwise `G` holds of the world. -/
def JudgesBy (u : Store) (m : ModulePattern) (n : Nat) (y : Name) (w : World) (D : Meaning)
    (t : Term) (v : World) (F : World → Meaning → Prop) (G : World → Prop) : Prop :=
  ∃ (N : Nat) (D' : Meaning) (e succ fail : Expr), n ≤ N ∧ D.Beside u n D' ∧
    m.Shape u.names Eq N y succ fail e ∧ Exits u N succ fail ∧ Ends u w D' e t v ∧
    (∀ x E, w.Framed x → x.Whole → (∀ a j, u.names.Made a j → j < N → E a = D' a) →
      Ends u x E succ t v → F x E) ∧
    ∀ x, w.Framed x → x.Whole → Ends u x D' fail t v → G x

/-- An exclusive match judges by its first pattern, and then by the second one: where the names of
the first one are bound, if that one matches. -/
theorem JudgesBy.xor {u : Store} {a b : ModulePattern} {n : Nat} {y : Name} {w v : World}
    {D : Meaning} {t : Term} {F : World → Meaning → Prop} {G : World → Prop} (hw : w.Whole)
    (hy : ∃ j, j < n ∧ u.names.Made y j) (hb : ∀ c ∈ b.codes, c.Given u)
    (h : JudgesBy u (.xor a b) n y w D t v F G) :
    JudgesBy u a n y w D t v
      (fun x E => JudgesBy u b n y x E t v (fun x' _ => G x') fun x' => F x' E)
      fun x => JudgesBy u b n y x D t v F G := by
  obtain ⟨N, D', e, succ, fail, hN, hD, ⟨f, j, failThunk, callFail, onlyB, body, hj, hf, hfailThunk,
    hcallFail, honlyB, ⟨k, m, thunk, tryB, first, hm, hk, hthunk, htryB, hfirst, hbody⟩, he⟩, hex,
    hends, hF, hG⟩ := h
  obtain ⟨s, q, okThunk, callOk, callFail', bMustFail, afterA, hq, hs,
    hokThunk, hcallOk, hcallFail',
    hmust, hafter, hfirst⟩ := hfirst
  have hbelow : onlyB.Below u (j + 1) := Expr.Between.below
    (fun _ => ModulePattern.Shape.between b honlyB) (fun _ => ModulePattern.counts b) hb
    (hy.imp fun i hi => ⟨by omega, hi.2⟩) (hex.found.mono (by omega))
    (hcallFail.below hf (Nat.lt_succ_self j))
  obtain ⟨c, hc, hends⟩ := hends.thunk hw he hfailThunk hex.missed
  obtain ⟨d, hd, hends⟩ := hends.thunk hw hbody hthunk hbelow
  have hD₁ : D'.Beside u N (D'.bind f c) := .bind hf hj
  have hD₂ : D'.Beside u N ((D'.bind f c).bind k d) := hD₁.trans (.bind hk (by omega))
  have hfailed : ((D'.bind f c).bind k d) f = some c := by
    rw [Meaning.bind_of_ne, Meaning.bind_self]
    rintro rfl
    have := hk.unique hf
    omega
  have hmustExits : Exits u (q + 1) callFail' callOk :=
    ⟨hcallFail'.below hf (by omega), hcallOk.below hs (Nat.lt_succ_self q),
      fun a ha => hcallOk.freeIn.1 ha ▸ hs.generated⟩
  have hafterBelow : afterA.Below u (q + 1) := by
    have hbody : bMustFail.Below u (q + 1) := Expr.Between.below
      (fun _ => ModulePattern.Shape.between b hmust) (fun _ => ModulePattern.counts b) hb
      (hy.imp fun i hi => ⟨by omega, hi.2⟩) hmustExits.found hmustExits.missed
    exact hafter.below_thunk hokThunk hbody (hex.found.mono (by omega))
  refine ⟨q + 1, _, first, afterA, tryB, by omega, hD.trans (hD₂.mono hN), hfirst,
    ⟨hafterBelow, htryB.below hk (by omega), fun a ha => htryB.freeIn.1 ha ▸ hk.generated⟩, hends,
    fun x E hwx hx hE hends => ?_, fun x hwx hx hends => ?_⟩
  · -- The second pattern is judged where the first one has matched, and must not match.
    obtain ⟨o, ho, hends⟩ := hends.thunk hx hafter hokThunk (hex.found.mono (by omega))
    refine ⟨q + 1, _, bMustFail, callFail', callOk, by omega, .bind hs (by omega),
      hmust, hmustExits,
      hends, fun x' E' hxx' hx' hE' hends => ?_, fun x' hxx' hx' hends => ?_⟩
    · have hE'f : E' f = some c := by
        rw [hE' f j hf (by omega), Meaning.bind_of_ne, hE f j hf (by omega), hfailed]
        rintro rfl
        have := hs.unique hf
        omega
      exact hG x' (hwx.trans hxx') hx' (hends.force hcallFail' hE'f (hc.mono (hwx.trans hxx')))
    · refine hF x' E (hwx.trans hxx') hx' (fun a i ha hi => ?_)
        (hends.force hcallOk Meaning.bind_self (ho.mono hxx'))
      exact (hE a i ha (by omega)).trans (hD₂.of_made ha hi)
  · -- The first pattern does not match, so the second one has to.
    have hends := hends.force htryB Meaning.bind_self (hd.mono hwx)
    refine ⟨j + 1, _, onlyB, succ, callFail, by omega, hD.trans (hD₁.mono hN), honlyB,
      .force hex.found hj hf hcallFail, hends, fun x' E' hxx' hx' hE' hends => ?_,
      fun x' hxx' hx' hends => ?_⟩
    · refine hF x' E' (hwx.trans hxx') hx' (fun a i ha hi => ?_) hends
      exact (hE' a i ha (by omega)).trans (hD₁.of_made ha hi)
    · exact hG x' (hwx.trans hxx') hx' (hends.force hcallFail Meaning.bind_self
        (hc.mono (hwx.trans hxx')))

variable {u : Store}

/-- Two runs of code with the shape `L` always concur. Of the names that what follows a match takes,
such code takes those that `T` says. -/
def Concurring (u : Store) (L : Nat → Name → Expr → Expr → Expr → Prop)
    (T : Name → (Expr → Prop) → Prop → Prop) (B : List Name) : Prop :=
  ∀ ⦃w : Side → World⦄ ⦃D : Side → Meaning⦄ ⦃e succ fail : Side → Expr⦄ ⦃s : Side → Term⦄
    ⦃y : Side → Name⦄ ⦃n : Side → Nat⦄ ⦃S : Name → Prop⦄, Abreast w →
    (∀ i, L (n i) (y i) (succ i) (fail i) (e i)) → Subjects u w n y D s →
    (∀ i, Exits u (n i) (succ i) (fail i)) →
    SameNames u w (fun a => T a (Expr.FreeIn u a) (S a)) D → Concurs u n w D e succ fail S (· ∈ B)

/-- Of the names made as number `n` or later, code with the shape `L` takes none. -/
def Confined (u : Store) (L : Nat → Name → Expr → Expr → Expr → Prop) : Prop :=
  ∀ ⦃n : Nat⦄ ⦃y : Name⦄ ⦃succ fail e : Expr⦄, L n y succ fail e →
    (∃ j, j < n ∧ u.names.Made y j) → succ.Below u n → fail.Below u n → e.Below u n

def Pattern.Concurring (u : Store) (p : Pattern) : Prop :=
  Residual.Concurring u (fun n y succ fail e => p.Shape u.names Eq n y succ fail e)
    (fun a F S => p.Takes a F S) p.binders

def PatternKind.Concurring (u : Store) (kind : PatternKind) : Prop :=
  Residual.Concurring u (fun n y succ fail e => kind.Shape u.names Eq n y succ fail e)
    (fun a F S => kind.Takes a F S) kind.binders

def ModulePattern.Concurring (u : Store) (m : ModulePattern) : Prop :=
  Residual.Concurring u (fun n y succ fail e => m.Shape u.names Eq n y succ fail e)
    (fun a F S => m.Takes a F S) m.binders

/-- Of a tuple, the elements from the position `index` on are judged. -/
def Pattern.ElementsConcurring (u : Store) (index : Nat) (ps : List Pattern) : Prop :=
  Residual.Concurring u
    (fun n y succ fail e => Pattern.ElementsShape u.names Eq n y index succ fail e ps)
    (fun a F S => Pattern.AllTake a F S ps) (Pattern.bindersOfAll ps)

/-- Two judgements by one pattern are alike. -/
theorem JudgesBy.alike {m : ModulePattern} (hm : m.Concurring u) {w v : Side → World}
    {D : Side → Meaning} {s : Side → Term} {y : Side → Name} {n : Side → Nat} {S : Name → Prop}
    {l : Side → Literal} {F : Side → World → Meaning → Prop} {G : Side → World → Prop}
    (hw : Abreast w) (hv : Subjects u w n y D s)
    (hD : SameNames u w (fun a => m.Takes a (Expr.FreeIn u a) (S a)) D)
    (h : ∀ i, JudgesBy u m (n i) (y i) (w i) (D i) (.lit (l i)) (v i) (F i) (G i)) :
    (∃ x E, Matched u n w D x E S (· ∈ m.binders) ∧ ∀ i, F i (x i) (E i)) ∨
      ∃ x, Abreast x ∧ Onward w x ∧ ∀ i, G i (x i) := by
  choose N D' e succ fail hN hbeside hshape hex hends hF hG using h
  have hD' : SameNames u w (fun a => m.Takes a (Expr.FreeIn u a) (S a)) D' := by
    intro a ha hgiven
    rw [(hbeside .left).of_given hgiven, (hbeside .right).of_given hgiven]
    exact hD a ha hgiven
  rcases hm hw hshape ((hv.aside hbeside).mono hN) hex hD' l v hends with
    ⟨x, E, hmatched, hends⟩ | ⟨x, hx, hon, hends⟩
  · refine .inl ⟨x, E, (hmatched.mono hN fun _ => id).aside hbeside, fun i => hF i (x i) (E i)
      (hmatched.onward i) (hmatched.abreast.whole i) (fun a j hj hlt => ?_) (hends i)⟩
    exact hmatched.keeps i a (.inr hj.generated) fun j' hj' => hj'.unique hj ▸ hlt
  · exact .inr ⟨x, hx, hon, fun i => hG i (x i) (hon i) (hx.whole i) (hends i)⟩

/-! ### Forms of patterns -/

namespace Concurring

variable {L L' : Nat → Name → Expr → Expr → Expr → Prop} {T T' : Name → (Expr → Prop) → Prop → Prop}
  {B B' : List Name}

/-- What always matches binds nothing. -/
theorem always : Concurring u (fun _ _ succ _ e => e = succ) (fun _ _ S => S) B := by
  intro w D e succ fail s y n S hw he hv hex hD
  obtain rfl : e = succ := funext he
  exact .succeed hw hD

lemma never : Concurring u (fun _ _ _ fail e => e = fail) T B := by
  intro w D e succ fail s y n S hw he hv hex hD
  obtain rfl : e = fail := funext he
  exact .failing hw

/-- What has to match after a first pattern sees what that one binds. -/
theorem both (h : Concurring u L T B) (h' : Concurring u L' T' B') (hL' : Confined u L') :
    Concurring u (fun n y succ fail e => ∃ later, L' n y succ fail later ∧ L n y later fail e)
      (fun a F S => T a F (T' a F S)) (B ++ B') := by
  intro w D e succ fail s y n S hw he hv hex hD
  choose later hlater he using he
  have hbelow := fun i => hL' (hlater i) (hv.made i) (hex i).found (hex i).missed
  refine .imp (.both (h hw he hv (fun i => (hex i).replace (hbelow i)) hD) (fun x E hm => ?_) hex)
    fun _ => List.mem_append.2
  exact h' hm.abreast hlater (hv.matched hm) hex hm.same

/-- What counts if a first pattern fails sees nothing of it. -/
theorem or (h : Concurring u L T B) (h' : Concurring u L' T' B') (hL' : Confined u L') :
    Concurring u (fun n y succ fail e => ∃ later, L' n y succ fail later ∧
      e.FailingShape u.names n later fun n next b => L n y succ next b)
      (fun a F S => T a F S ∨ T' a F S) (B ++ B') := by
  intro w D e succ fail s y n S hw he hv hex hD
  choose later hlater he using he
  have hbelow := fun i => hL' (hlater i) (hv.made i) (hex i).found (hex i).missed
  refine .imp (.or (.fallThrough hw he hbelow fun z t m next body hm hz hnext hb => ?_)
    fun x hx hon =>
    h' hx hlater (hv.onward hon) hex ((hD.mono fun _ => .inr).onward hon)) fun _ =>
      List.mem_append.2
  exact h hw hb ((hv.bind hz hm).mono fun i => Nat.le_succ_of_le (hm i))
    (fun i => .force (hex i).found (hm i) (hz i) (hnext i))
    ((hD.mono fun _ => .inl).bind fun i => (hz i).generated)

end Concurring

namespace Pattern.Concurring

variable {p : Pattern}

/-- A part of a pattern judges the value, or what a split by union member hands on of it. -/
theorem split (h : p.Concurring u) : Residual.Concurring u (fun n y succ fail e =>
    p.SplitShape u.names n y (fun n x b => p.Shape u.names Eq n x succ fail b) e)
    (fun a F S => p.Takes a F S) p.binders :=
  fun _ _ _ _ _ _ _ _ _ hw he hv hex hD => .split hw he hv hD (fun i => (hex i).missed)
    fun _ _ _ _ _ _ hx _ hle hD' hv' hb => h hx hb hv' (fun i => (hex i).mono (hle i)) hD'

/-- A value that is found first is judged as a part of its own. -/
theorem part {k : Side → Expr} (h : p.Concurring u) {w : Side → World} {D : Side → Meaning}
    {e body succ fail : Side → Expr} {z : Side → Name} {n m : Side → Nat} {S : Name → Prop}
    (hw : Abreast w) (he : ∀ i, (e i).IsLet (z i) (k i) (body i)) (hk : Agrees u w D k)
    (hz : ∀ i, u.names.Made (z i) (m i)) (hm : ∀ i, n i ≤ m i)
    (hbody : ∀ i, p.SplitShape u.names (m i + 1) (z i)
      (fun n x b => p.Shape u.names Eq n x (succ i) (fail i) b) (body i))
    (hex : ∀ i, Exits u (n i) (succ i) (fail i))
    (hD : SameNames u w (fun a => p.Takes a (Expr.FreeIn u a) (S a)) D) :
    Concurs u n w D e succ fail S (· ∈ p.binders) :=
  .bound hw he hz hm (fun i => (hex i).missed) hk fun _ _ hx hon ht =>
    h.split hx hbody (.new hz ht) (fun i => (hex i).mono (Nat.le_succ_of_le (hm i)))
      ((hD.onward hon).bind fun i => (hz i).generated)

lemma elements {rest : List Pattern} {index : Nat} (h : p.Concurring u)
    (h' : ElementsConcurring u (index + 1) rest) (hc : ∀ c ∈ Pattern.codesOfAll rest, c.Given u) :
    ElementsConcurring u index (p :: rest) := by
  intro w D e succ fail s y n S hw he hv hex hD
  simp only [Pattern.ElementsShape] at he
  choose later element m matched value item hlater hm helement hmatched hvalue hitem he using he
  have hbelow : ∀ i, (later i).Below u (n i) := fun i =>
    Expr.Between.below (fun a => Pattern.ElementsShape.between rest (hlater i))
      (fun a => Pattern.counts_all rest) hc (hv.made i) (hex i).found (hex i).missed
  refine .imp (.both (h.part hw he (.op₁ (actsAlike_tuple _) hw hitem (hv.agrees hw hvalue))
    helement hm hmatched (fun i => (hex i).replace (hbelow i)) hD) (fun x E hm => ?_) hex)
    fun _ => List.mem_append.2
  exact h' hm.abreast hlater (hv.matched hm) hex hm.same

end Pattern.Concurring

namespace PatternKind.Concurring

variable {p : Pattern} {c : Expr}

lemma wildcard : PatternKind.wildcard.Concurring u := Residual.Concurring.always

lemma var {x : Name} (hx : ¬ u.names.Generated x) : (var x).Concurring u := by
  intro w D e succ fail s y n S hw he hv hex hD
  simp only [PatternKind.Shape] at he
  choose value hvalue he using he
  exact (Concurs.named hw he hx (hv.agrees hw hvalue) hD).imp fun _ => List.mem_singleton.2

lemma lit {l : Literal} : (lit l).Concurring u := by
  intro w D e succ fail s y n S hw he hv hex hD
  simp only [PatternKind.Shape] at he
  choose value expected sameType sameValue inner hvalue hexpected htype hequal hinner he using he
  refine .cond he (.op₂ (actsAlike_type .equal) hw htype (hv.agrees hw hvalue)
    fun x hx _ => .lit hx hexpected) fun x hx hon => ?_
  refine .cond hinner (.op₂ (actsAlike_prim _) hx hequal ((hv.onward hon).agrees hx hvalue)
    fun x hx _ => .lit hx hexpected) fun x' hx' hon' => ?_
  exact .succeed hx' (hD.onward (hon.trans hon'))

lemma tuple {items : List Pattern} (h : Pattern.ElementsConcurring u 0 items) :
    (tuple items).Concurring u := by
  intro w D e succ fail s y n S hw he hv hex hD
  simp only [PatternKind.Shape] at he
  choose value check matched hvalue hm hcheck he using he
  exact .cond he (.op₁ (actsAlike_tuple _) hw hcheck (hv.agrees hw hvalue)) fun x hx hon =>
    h hx hm (hv.onward hon) hex (hD.onward hon)

lemma cons {items : List Pattern} {rest : Pattern} (h : Pattern.ElementsConcurring u 0 items)
    (h' : rest.Concurring u) (hc : ∀ c ∈ rest.codes, c.Given u) :
    (cons items rest).Concurring u := by
  intro w D e succ fail s y n S hw he hv hex hD
  simp only [PatternKind.Shape] at he
  choose others m restMatch value slice withRest matched check hm hothers hr hvalue hslice hwith
    hmatched hcheck he using he
  have hm' : ∀ i, n i ≤ m i + 1 := fun i => Nat.le_succ_of_le (hm i)
  have hex' := fun i => (hex i).mono (hm' i)
  have hbetween : ∀ i a, (withRest i).Between u.names (Pattern.FreeIn u a) a
      ((fail i).Takes (Pattern.FreeIn u a) a ∨ a = y i)
      (rest.Takes a (fun c => c.Takes (Pattern.FreeIn u a) a)
        ((succ i).Takes (Pattern.FreeIn u a) a)) := fun i a => by
    have hbetween := (hr i).between (P := Pattern.FreeIn u a) (x := a)
      fun m z b => Pattern.Shape.between rest
    exact ((hbetween.weaken (Or.imp .inl id)).bind (hothers i) (.look (hvalue i) (hslice i))
      (hwith i)).drop
  have hbelow : ∀ i, (withRest i).Below u (m i + 1) := fun i =>
    Expr.Between.below (hbetween i) (fun a => Pattern.counts rest) hc ((hv.mono hm').made i)
      (hex' i).found (hex' i).missed
  refine .cond he (.op₁ (actsAlike_tuple _) hw hcheck (hv.agrees hw hvalue)) fun x hx hon => ?_
  have hfirst := (h (S := fun a => rest.Takes a (Expr.FreeIn u a) (S a)) hx hmatched
    ((hv.onward hon).mono hm') (fun i => (hex' i).replace (hbelow i)) (hD.onward hon)).mono hm'
    fun _ => id
  refine .imp (.both hfirst (fun x' E hmatch => ?_) hex) fun _ => List.mem_append.2
  exact h'.part hmatch.abreast hwith (.op₁ (actsAlike_tuple _) hmatch.abreast hslice
    (((hv.onward hon).matched hmatch).agrees hmatch.abreast hvalue)) hothers hm hr hex hmatch.same

variable (hu : u.Canonical) (hgiven : c.Given u) (h : p.Concurring u)
include hu hgiven h

lemma typeEq : (typeEq p c).Concurring u := by
  intro w D e succ fail s y n S hw he hv hex hD
  simp only [PatternKind.Shape] at he
  choose matched value type check hm hvalue htype hcheck he using he
  obtain rfl : type = fun _ => c := funext fun i => (htype i).symm
  exact .cond he (.op₂ (actsAlike_type .equal) hw hcheck (hv.agrees hw hvalue) fun x hx hon =>
    .code hu hx hgiven ((hD.mono fun _ => .inl).onward hon)) fun x hx hon =>
      h.split hx hm (hv.onward hon) hex ((hD.mono fun _ => .inr).onward hon)

lemma active : (active c p).Concurring u := by
  intro w D e succ fail s y n S hw he hv hex hD
  simp only [PatternKind.Shape] at he
  choose result m matched value f call hm hresult hmatched hvalue hf hcall he using he
  obtain rfl : f = fun _ => c := funext fun i => (hf i).symm
  exact h.part hw he (.op₂ actsAlike_apply hw hcall (.code hu hw hgiven (hD.mono fun _ => .inl))
    fun x hx hon => (hv.onward hon).agrees hx hvalue) hresult hm hmatched
      hex (hD.mono fun _ => .inr)

lemma partialActive : (partialActive c p).Concurring u := by
  intro w D e succ fail s y n S hw he hv hex hD
  simp only [PatternKind.Shape] at he
  choose result m payload m' matched answer second bound flag branch value f call hm hresult hm'
    hpayload hmatched hanswer hsecond hbound hflag hbranch hvalue hf hcall he using he
  obtain rfl : f = fun _ => c := funext fun i => (hf i).symm
  have hex' := fun i => (hex i).mono (Nat.le_succ_of_le (hm i))
  refine .bound hw he hresult hm (fun i => (hex i).missed) (.op₂ actsAlike_apply hw hcall
    (.code hu hw hgiven (hD.mono fun _ => .inl)) fun x hx hon => (hv.onward hon).agrees hx hvalue)
    fun x t hx hon ht => ?_
  have hanswers : Subjects u x _ result _ t := .new (D := D) hresult ht
  refine .cond hbranch (.op₁ (actsAlike_tuple _) hx hflag (hanswers.agrees hx hanswer))
    fun x' hx' hon' => ?_
  exact h.part hx' hbound (.op₁ (actsAlike_tuple _) hx' hsecond
    ((hanswers.onward hon').agrees hx' hanswer)) hpayload hm' hmatched hex'
    (((hD.mono fun _ => .inr).onward (hon.trans hon')).bind fun i => (hresult i).generated)

lemma extension : (extension c p).Concurring u := by
  intro w D e succ fail s y n S hw he hv hex hD
  simp only [PatternKind.Shape] at he
  choose matched value f check hm hvalue hf hcheck he using he
  obtain rfl : f = fun _ => c := funext fun i => (hf i).symm
  exact .cond he (.op₂ actsAlike_apply hw hcheck (.code hu hw hgiven (hD.mono fun _ => .inl))
    fun x hx hon => (hv.onward hon).agrees hx hvalue) fun x hx hon =>
      h.split hx hm (hv.onward hon) hex ((hD.mono fun _ => .inr).onward hon)

lemma guarded : (guarded p c).Concurring u := by
  intro w D e succ fail s y n S hw he hv hex hD
  simp only [PatternKind.Shape] at he
  choose guard guarded hguard hguarded hsplit using he
  obtain rfl : guard = fun _ => c := funext fun i => (hguard i).symm
  have hbelow : ∀ i, (guarded i).Below u (n i) := by
    intro i a j ha hj
    rw [Expr.freeIn_iff, Expr.takes_op₃ (hguarded i), ← Expr.freeIn_iff, ← Expr.freeIn_iff,
      ← Expr.freeIn_iff] at ha
    rcases ha with ha | ha | ha
    · exact absurd hj.generated (hgiven a ha)
    · exact (hex i).found a j ha hj
    · exact (hex i).missed a j ha hj
  refine .imp (.both (h.split hw hsplit hv (fun i => (hex i).replace (hbelow i)) hD)
    (fun x E hm => .cond hguarded (.code hu hm.abreast hgiven (hm.same.mono fun _ => .inl))
      fun x hx hon => .succeed hx ((hm.same.mono fun _ => .inr).onward hon)) hex)
    fun _ ha => ha.elim id False.elim

end PatternKind.Concurring

namespace ModulePattern.Concurring

lemma member {field : Name} {bind : Name} (hbind : ¬ u.names.Generated bind) :
    (member field bind).Concurring u := by
  intro w D e succ fail s y n S hw he hv hex hD
  simp only [ModulePattern.Shape] at he
  choose value has opened bound hvalue hhas hopened hbound he using he
  refine .cond he (.op₁ (actsAlike_module _) hw hhas (hv.agrees hw hvalue)) fun x hx hon => ?_
  exact (Concurs.named hx hbound hbind (.op₁ (actsAlike_module _) hx hopened
    ((hv.onward hon).agrees hx hvalue)) (hD.onward hon)).imp fun _ => List.mem_singleton.2

lemma inner {field : Name} {p : Pattern} (h : p.Concurring u) : (inner field p).Concurring u := by
  intro w D e succ fail s y n S hw he hv hex hD
  simp only [ModulePattern.Shape] at he
  choose inner m matched value has opened bound hm hinner hmatched hvalue hhas hopened hbound he
    using he
  exact .cond he (.op₁ (actsAlike_module _) hw hhas (hv.agrees hw hvalue)) fun x hx hon =>
    h.part hx hbound (.op₁ (actsAlike_module _) hx hopened
      ((hv.onward hon).agrees hx hvalue)) hinner
      hm hmatched hex (hD.onward hon)

lemma not {m : ModulePattern} (h : m.Concurring u) : (not m).Concurring u := by
  intro w D e succ fail s y n S hw he hv hex hD l v hends
  simp only [ModulePattern.Shape] at he
  choose z j thunk call body hj hz hthunk hcall hbody he using he
  choose t ht hrest using fun i => (hends i).thunk (hw.whole i) (he i) (hthunk i) (hex i).found
  have hinner := h (S := fun _ => False) hw hbody
    ((hv.bind (t := t) hz hj).mono fun i => Nat.le_succ_of_le (hj i))
    (fun i => .force (hex i).missed (hj i) (hz i) (hcall i))
    ((hD.mono fun _ => .inl).bind fun i => (hz i).generated)
  rcases hinner l v hrest with ⟨x, E, hm, hends⟩ | ⟨x, hx, hon, hends⟩
  · refine .inr ⟨x, hm.abreast, hm.onward, fun i => (hends i).congr fun a ha => ?_⟩
    have hmade : ∀ q, u.names.Made a q → q < n i := fun q hq => (hex i).missed a q ha hq
    have hkeeps := hm.keeps i a (.inr ((hex i).inner a ha)) fun q hq =>
      Nat.lt_succ_of_lt (Nat.lt_of_lt_of_le (hmade q hq) (hj i))
    exact hkeeps.trans (Meaning.Beside.bind (hz i) (hj i) a hmade)
  · refine .inl ⟨x, D, ⟨hx, hon, (hD.mono fun _ => .inr).onward hon, fun _ _ _ _ => rfl⟩,
      fun i => ?_⟩
    exact (hends i).force (hcall i) Meaning.bind_self ((ht i).mono (hon i))

/-- Two runs of code for an exclusive match concur, if those for its parts do. -/
theorem xor {a b : ModulePattern} (ha : a.Concurring u) (hb : b.Concurring u)
    (hc : ∀ c ∈ b.codes, c.Given u) : (xor a b).Concurring u := by
  intro w D e succ fail s y n S hw he hv hex hD l v hends
  have hjudges : ∀ i, JudgesBy u (.xor a b) (n i) (y i) (w i) (D i) (.lit (l i)) (v i)
      (fun x E => Ends u x E (succ i) (.lit (l i)) (v i))
      fun x => Ends u x (D i) (fail i) (.lit (l i)) (v i) := fun i =>
    ⟨n i, D i, e i, succ i, fail i, Nat.le_refl _, .refl _, he i, hex i, hends i,
      fun _ _ _ _ _ => id, fun _ _ _ => id⟩
  -- What the first pattern binds counts for what follows and for the second pattern.
  have hDa : SameNames u w (fun x => a.Takes x (Expr.FreeIn u x)
      (S x ∨ b.Takes x (Expr.FreeIn u x) False)) D := hD.mono fun x hx =>
    ((ModulePattern.counts a).or hx).imp id fun hx => (ModulePattern.counts b).mono False.elim hx
  have hfirst := JudgesBy.alike ha hw hv hDa fun i =>
    (hjudges i).xor (hw.whole i) (hv.made i) hc
  rcases hfirst with ⟨x, E, hm, hjudges⟩ | ⟨x, hx, hon, hjudges⟩
  · have hsecond := JudgesBy.alike (S := fun _ => False) hb hm.abreast (hv.matched hm)
      (hm.same.mono fun _ => .inr) hjudges
    rcases hsecond with ⟨x', E', hm', hends⟩ | ⟨x', hx', hon', hends⟩
    · exact .inr ⟨x', hm'.abreast, hm.onward.trans hm'.onward, hends⟩
    · refine .inl ⟨x', E, Matched.mono (B := (· ∈ a.binders)) ⟨hx', hm.onward.trans hon',
        (hm.same.mono fun _ => .inl).onward hon', hm.keeps⟩ (fun _ => Nat.le_refl _)
        (fun _ => List.mem_append_left _), hends⟩
  · have hsecond := JudgesBy.alike hb hx (hv.onward hon)
      ((hD.mono fun _ => .inr).onward hon) hjudges
    rcases hsecond with ⟨x', E', hm', hends⟩ | ⟨x', hx', hon', hends⟩
    · exact .inl ⟨x', E', (hm'.onward_trans hon).mono (fun _ => Nat.le_refl _)
        fun _ => List.mem_append_right _, hends⟩
    · exact .inr ⟨x', hx', hon.trans hon', hends⟩

end ModulePattern.Concurring

/-! ### Patterns of the program -/

mutual

/-- Two runs of code for a pattern of the program always concur. -/
theorem Pattern.concurring (hu : u.Canonical) (p : Pattern) (hp : p.Named u.names)
    (hc : ∀ c ∈ p.codes, c.Given u) :
    p.Concurring u := by
  match p with
  | .node _ kind => exact PatternKind.concurring hu kind hp hc
termination_by structural p

lemma PatternKind.concurring (hu : u.Canonical) (kind : PatternKind) (hp : kind.Named u.names)
    (hc : ∀ c ∈ kind.codes, c.Given u) : kind.Concurring u := by
  match kind with
  | .wildcard => exact .wildcard
  | .var x => exact .var hp
  | .lit l => exact .lit
  | .tuple items => exact .tuple (Pattern.concurring_elements hu items 0 hp hc)
  | .cons items rest =>
    obtain ⟨hitems, hrest⟩ := List.forall_mem_append.1 hc
    exact .cons (Pattern.concurring_elements hu items 0 hp.1 hitems)
      (Pattern.concurring hu rest hp.2 hrest) hrest
  | .typeEq p type =>
    obtain ⟨hgiven, hcodes⟩ := List.forall_mem_cons.1 hc
    exact .typeEq hu hgiven (Pattern.concurring hu p hp hcodes)
  | .active f p =>
    obtain ⟨hgiven, hcodes⟩ := List.forall_mem_cons.1 hc
    exact .active hu hgiven (Pattern.concurring hu p hp hcodes)
  | .partialActive f p =>
    obtain ⟨hgiven, hcodes⟩ := List.forall_mem_cons.1 hc
    exact .partialActive hu hgiven (Pattern.concurring hu p hp hcodes)
  | .extension f p =>
    obtain ⟨hgiven, hcodes⟩ := List.forall_mem_cons.1 hc
    exact .extension hu hgiven (Pattern.concurring hu p hp hcodes)
  | .or alternatives => exact Pattern.concurring_alternatives hu alternatives hp hc
  | .and parts => exact Pattern.concurring_parts hu parts hp hc
  | .guarded p guard =>
    obtain ⟨hgiven, hcodes⟩ := List.forall_mem_cons.1 hc
    exact .guarded hu hgiven (Pattern.concurring hu p hp hcodes)
  | .module m => exact ModulePattern.concurring hu m hp hc
  | .clauses arms => exact Clause.concurring_arms hu arms hp hc
termination_by structural kind

lemma Pattern.concurring_alternatives (hu : u.Canonical) (ps : List Pattern)
    (hp : Pattern.AllNamed u.names ps) (hc : ∀ c ∈ Pattern.codesOfAll ps, c.Given u) :
    (PatternKind.or ps).Concurring u := by
  match ps with
  | [] => exact Concurring.never
  | p :: rest =>
    obtain ⟨hfirst, hrest⟩ := List.forall_mem_append.1 hc
    exact Concurring.or (Pattern.concurring hu p hp.1 hfirst).split
      (Pattern.concurring_alternatives hu rest hp.2 hrest) fun _ _ _ _ _ h =>
        Expr.Between.below (fun a => Pattern.AlternativesShape.between rest h)
          (fun a => Pattern.counts_any rest) hrest
termination_by structural ps

lemma Clause.concurring_arms (hu : u.Canonical) (arms : List Clause)
    (hp : Clause.AllNamed u.names arms) (hc : ∀ c ∈ Clause.codesOfAll arms, c.Given u) :
    (PatternKind.clauses arms).Concurring u := by
  match arms with
  | [] => exact Concurring.never
  | .mk p _ :: rest =>
    obtain ⟨harm, hrest⟩ := List.forall_mem_append.1 hc
    obtain ⟨-, hfirst⟩ := List.forall_mem_cons.1 harm
    exact Concurring.or (Pattern.concurring hu p hp.1 hfirst).split
      (Clause.concurring_arms hu rest hp.2 hrest) fun _ _ _ _ _ h =>
        Expr.Between.below (fun a => Clause.ArmsShape.between rest h)
          (fun a => Clause.counts_any rest) hrest
termination_by structural arms

lemma Pattern.concurring_parts (hu : u.Canonical) (ps : List Pattern)
    (hp : Pattern.AllNamed u.names ps) (hc : ∀ c ∈ Pattern.codesOfAll ps, c.Given u) :
    (PatternKind.and ps).Concurring u := by
  match ps with
  | [] => exact Concurring.always
  | p :: rest =>
    obtain ⟨hfirst, hrest⟩ := List.forall_mem_append.1 hc
    exact Concurring.both (Pattern.concurring hu p hp.1 hfirst).split
      (Pattern.concurring_parts hu rest hp.2 hrest) fun _ _ _ _ _ h =>
        Expr.Between.below (fun a => Pattern.PartsShape.between rest h)
          (fun a => Pattern.counts_all rest) hrest
termination_by structural ps

lemma Pattern.concurring_elements (hu : u.Canonical) (ps : List Pattern) (index : Nat)
    (hp : Pattern.AllNamed u.names ps) (hc : ∀ c ∈ Pattern.codesOfAll ps, c.Given u) :
    Pattern.ElementsConcurring u index ps := by
  match ps with
  | [] => exact Concurring.always
  | p :: rest =>
    obtain ⟨hfirst, hrest⟩ := List.forall_mem_append.1 hc
    exact Pattern.Concurring.elements (Pattern.concurring hu p hp.1 hfirst)
      (Pattern.concurring_elements hu rest (index + 1) hp.2 hrest) hrest
termination_by structural ps

/-- Two runs of code for a module pattern of the program always concur. -/
theorem ModulePattern.concurring (hu : u.Canonical) (m : ModulePattern) (hp : m.Named u.names)
    (hc : ∀ c ∈ m.codes, c.Given u) : m.Concurring u := by
  match m with
  | .member field bind => exact .member hp
  | .inner field p => exact .inner (Pattern.concurring hu p hp hc)
  | .and parts => exact ModulePattern.concurring_parts hu parts hp hc
  | .or alternatives => exact ModulePattern.concurring_alternatives hu alternatives hp hc
  | .not m => exact .not (ModulePattern.concurring hu m hp hc)
  | .xor a b =>
    obtain ⟨hcodes, hcodes'⟩ := List.forall_mem_append.1 hc
    exact .xor (ModulePattern.concurring hu a hp.1 hcodes)
      (ModulePattern.concurring hu b hp.2 hcodes')
      hcodes'
termination_by structural m

lemma ModulePattern.concurring_parts (hu : u.Canonical) (ms : List ModulePattern)
    (hp : ModulePattern.AllNamed u.names ms) (hc : ∀ c ∈ ModulePattern.codesOfAll ms, c.Given u) :
    (ModulePattern.and ms).Concurring u := by
  match ms with
  | [] => exact Concurring.always
  | m :: rest =>
    obtain ⟨hfirst, hrest⟩ := List.forall_mem_append.1 hc
    exact Concurring.both (ModulePattern.concurring hu m hp.1 hfirst)
      (ModulePattern.concurring_parts hu rest hp.2 hrest) fun _ _ _ _ _ h =>
        Expr.Between.below (fun a => ModulePattern.PartsShape.between rest h)
          (fun a => ModulePattern.counts_all rest) hrest
termination_by structural ms

lemma ModulePattern.concurring_alternatives (hu : u.Canonical) (ms : List ModulePattern)
    (hp : ModulePattern.AllNamed u.names ms) (hc : ∀ c ∈ ModulePattern.codesOfAll ms, c.Given u) :
    (ModulePattern.or ms).Concurring u := by
  match ms with
  | [] => exact Concurring.never
  | m :: rest =>
    obtain ⟨hfirst, hrest⟩ := List.forall_mem_append.1 hc
    exact Concurring.or (ModulePattern.concurring hu m hp.1 hfirst)
      (ModulePattern.concurring_alternatives hu rest hp.2 hrest) fun _ _ _ _ _ h =>
        Expr.Between.below (fun a => ModulePattern.AlternativesShape.between rest h)
          (fun a => ModulePattern.counts_any rest) hrest
termination_by structural ms

end

end Residual
