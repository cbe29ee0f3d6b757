import Residual.Proofs.Session.DecidedTests

/-!
An exclusive match succeeds if exactly one of its sides does.

A test of `xor a b` judges by `b` where the names of `a` are bound, if `a` matches. Main statement:
if `b` takes no name that `a` binds, then the test has the result that the tests of `a` and of `b`
call for. A program whose `a` binds a name that a guard in `b` reads shows that this is needed.
-/

namespace Residual

open Eval

variable {u : Store} {w v : World} {D : Meaning} {e : Expr} {m a b : ModulePattern} {x : Name}
  {s t : Term} {r : Bool}

/-! ### Tests that end -/

lemma Ends.pattern {p : Pattern} (h : Ends u w D e t v) (he : e.kind = .pattern p) :
    ∃ l, u.lowered.lookup p.symbol = some l ∧ Ends u w D l t v := by
  obtain ⟨hv, a, e', n, hp, hrun⟩ := h
  obtain ⟨l, hlookup, hl⟩ := hp.pattern he
  exact ⟨l, hlookup, hv, a, e', n, hl, hrun⟩

/-- A test that ends in a boolean judges by its pattern. -/
theorem Expr.IsTest.judges (hu : Store.Reaches {} u) (he : e.IsTest m x) (hi : e.Issued u)
    (hw : w.Whole) (h : Ends u w D e (.lit (.bool r)) v) :
    ∃ (n : Nat) (y : Name) (D' : Meaning) (s : Term), (∃ j, j < n ∧ u.names.Made y j) ∧
      D x = some s ∧ D' y = some s.unboxed ∧ (∀ z, ¬ u.names.Generated z → D' z = D z) ∧
      JudgesBy u m n y w D' (.lit (.bool r)) v (fun w' _ => r = true ∧ v = w')
        fun w' => r = false ∧ v = w' := by
  obtain ⟨f, g, ⟨symbol, _⟩, hkind, hf, rfl, hg⟩ := he
  obtain ⟨c, w₀, s, w₁, env, N, hc, hs, -, hact⟩ := h.op₂ hkind acts_apply
  obtain ⟨l, hl, hc⟩ := hc.pattern hf
  obtain ⟨arg, y, i, j, split, body, later, yes, no, miss, h'⟩ :=
    hu.testShape (hi.pattern_of_apply hkind hf) hl
  obtain ⟨value, inner, hsplit, hvalue, hinner⟩ := h'.split
  obtain ⟨k, q, thunk, next, first, hq, hk, hthunk, hnext, hshape, hlet⟩ := h'.first
  obtain ⟨rfl, b, split', rfl, hbound⟩ := hc.function h'.function
  obtain ⟨hx, rfl⟩ := hs.var hg
  -- The function binds its argument, and then what a split by union member hands on of it.
  have hends : Ends u w₁ (D.bind arg s) split (.lit (.bool r)) v :=
    .of_apply (hact 0) h.1 rfl (hbound w₁ (.refl w₁) s (hs.carries hw))
  obtain ⟨s', w₂, hs', hends⟩ := hends.case hw hsplit hinner
  obtain ⟨hsame, rfl⟩ := hs'.var hvalue
  obtain rfl : s = s' := Option.some.inj (Meaning.bind_self.symm.trans hsame)
  obtain ⟨d, hd, hends⟩ := hends.thunk hw hlet hthunk h'.laterBelow
  refine ⟨q + 1, y, _, s, ⟨j, by omega, h'.made_subject⟩, hx, ?_, fun z hz => ?_, q + 1,
    _, first, yes,
    next, Nat.le_refl _, .refl _, hshape, .force (h'.yesBelow (j + 1)) hq hk hnext, hends,
    fun w' E hww' hw' _ hends => ?_, fun w' hww' hw' hends => ?_⟩
  · rw [Meaning.bind_of_ne, Meaning.bind_self]
    rintro rfl
    have := h'.made_subject.unique hk
    omega
  · rw [Meaning.bind_of_ne (hk.ne hz), Meaning.bind_of_ne (h'.made_subject.ne hz),
      Meaning.bind_of_ne (h'.made_arg.ne hz)]
  · obtain ⟨hr, rfl⟩ := hends.lit h'.kind_yes
    exact ⟨Literal.bool.inj (Term.lit.inj hr), rfl⟩
  · have hends := (hends.force hnext Meaning.bind_self (hd.mono hww')).goes h'.goes_no
    obtain ⟨hr, rfl⟩ := hends.lit h'.kind_no
    exact ⟨Literal.bool.inj (Term.lit.inj hr), rfl⟩

/-! ### Two tests -/

/-- One thing for each side. -/
def Side.pick {α : Type} (a b : α) : Side → α
  | .left => a
  | .right => b

/-- A value that can be bound in a world is the same in all later ones. -/
theorem World.Carries.same {x : Side → World} (h : w.Carries t) (hx : Onward (fun _ => w) x) :
    SameValue x fun _ => t :=
  SameValue.mono (w := fun _ => w) ⟨.refl h.backed, h.value, h.value⟩ hx

/-- Names that stand for the same in both do so in later worlds. -/
lemma World.Whole.sameNames {x : Side → World} {D D' : Meaning} {S : Name → Prop} (hw : w.Whole)
    (hx : Onward (fun _ => w) x) (hD : ∀ z, S z → ¬ u.names.Generated z → D z = w.scope.env.get? z)
    (hD' : ∀ z, S z → ¬ u.names.Generated z → D' z = w.scope.env.get? z) :
    SameNames u x S (Side.pick D D') := by
  intro z hz hgiven
  change Option.Rel _ (D z) (D' z)
  rw [hD z hz hgiven, hD' z hz hgiven]
  cases hget : w.scope.env.get? z with
  | none => exact .none
  | some t => exact .some ((hw.env.get? hget).same hx)

/-- Where names stand for `D`, a run from `w` to `v` judges the value `s` of `y` by the pattern,
with the answer `r`. -/
structure Judged (u : Store) (m : ModulePattern) (n : Nat) (y : Name) (w : World) (D : Meaning)
    (s : Term) (r : Bool) (v : World) : Prop where
  made : ∃ j, j < n ∧ u.names.Made y j
  value : D y = some s
  judges : JudgesBy u m n y w D (.lit (.bool r)) v (fun w' _ => r = true ∧ v = w')
    fun w' => r = false ∧ v = w'

/-- A test and a judgement within another one are decided alike. -/
theorem Judged.agree (hm : m.Concurring u) {x : Side → World} {n n' : Nat} {y y' : Name}
    {D D' : Meaning} {l : Literal} {v' : World} {F : World → Meaning → Prop} {G : World → Prop}
    (hx : Abreast x) (hs : SameValue x fun _ => s)
    (hD : SameNames u x (fun z => m.Takes z (Expr.FreeIn u z) False) (Side.pick D D'))
    (h : Judged u m n y (x .left) D s r v) (hy' : ∃ j, j < n' ∧ u.names.Made y' j)
    (hs' : D' y' = some s) (h' : JudgesBy u m n' y' (x .right) D' (.lit l) v' F G) :
    ∃ x', Abreast x' ∧ Onward x x' ∧ x' .left = v ∧
      ((r = true ∧ ∃ E : Meaning, (∀ z, z ∉ m.binders ∨ u.names.Generated z →
          (∀ j, u.names.Made z j → j < n') → E z = D' z) ∧ F (x' .right) E) ∨
        (r = false ∧ G (x' .right))) := by
  have hsubjects : Subjects u x (Side.pick n n') (Side.pick y y') (Side.pick D D') fun _ => s := by
    refine ⟨fun i => ?_, fun i => ?_, hs⟩ <;> cases i
    exacts [h.made, hy', h.value, hs']
  have hjudges : ∀ i, JudgesBy u m (Side.pick n n' i) (Side.pick y y' i) (x i) (Side.pick D D' i)
      (.lit (Side.pick (.bool r) l i)) (Side.pick v v' i)
      (Side.pick (fun w' _ => r = true ∧ v = w') F i)
        (Side.pick (fun w' => r = false ∧ v = w') G i) := by
    intro i
    cases i
    exacts [h.judges, h']
  rcases JudgesBy.alike (S := fun _ => False) hm hx hsubjects hD hjudges with
    ⟨x', E, hmatched, hF⟩ | ⟨x', hx', hon, hG⟩
  · obtain ⟨hr, hv⟩ := hF .left
    exact ⟨x', hmatched.abreast, hmatched.onward, hv.symm,
      .inl ⟨hr, E .right, hmatched.keeps .right, hF .right⟩⟩
  · obtain ⟨hr, hv⟩ := hG .left
    exact ⟨x', hx', hon, hv.symm, .inr ⟨hr, hG .right⟩⟩

/-! ### Exclusive matches -/

namespace ModulePattern

lemma Answers.judged (hu : Store.Reaches {} u) (hw : w.Whole)
    (hstore : u.Grows w.session.store) (h : m.Answers u x w r v) :
    w.Framed v ∧ v.Whole ∧ ∃ (n : Nat) (y : Name) (D : Meaning) (s : Term),
      w.scope.env.get? x = some s ∧ (∀ z, ¬ u.names.Generated z → D z = w.scope.env.get? z) ∧
        Judged u m n y w D s.unboxed r v := by
  obtain ⟨e, code, fuel, he, hi, hbecomes, hissued, hrun⟩ := h
  have hp : Position u w w.scope.env.get? e w.scope.env code :=
    ⟨hbecomes, hissued, hstore, hw.env, fun _ _ => rfl⟩
  have henv : v.scope.env = w.scope.env := by
    have hframed := framed_eval fuel code w
    rw [hrun] at hframed
    exact hframed.env
  have hends : Ends u w w.scope.env.get? e (.lit (.bool r)) v :=
    ⟨henv, w.scope.env, code, fuel, hp, hrun.trans (by rw [← henv]; rfl)⟩
  obtain ⟨n, y, D, s, hy, hs, hvalue, hD, hjudges⟩ := he.judges hu hi hw hends
  exact ⟨hends.framed, hends.whole hw, n, y, D, s, hs, hD, hy, hvalue, hjudges⟩

/-- A test by `xor a b` answers yes if exactly one of the tests by `a` and by `b` does, unless `a`
matches and binds a name that `b` takes. The test by `b` is made where the one by `a` leaves off. -/
theorem answers_xor (hu : Store.Reaches {} u) (hw : w.Whole) (hstore : u.Grows w.session.store)
    (hnamed : (xor a b).Named u.names) (hgiven : ∀ c ∈ (xor a b).codes, c.Given u)
    {ra rb rx : Bool} {wa wb : World} (ha : a.Answers u x w ra wa) (hb : b.Answers u x wa rb wb)
    (hx : (xor a b).Answers u x w rx v)
    (hapart : ra = true → ∀ z ∈ a.binders, ¬ b.Takes z (Expr.FreeIn u z) False) :
    rx = (ra ^^ rb) := by
  have hcanonical := Store.Reaches.canonical hu Store.canonical_new
  obtain ⟨hgiven, hgiven'⟩ := List.forall_mem_append.1 hgiven
  have hma := ModulePattern.concurring hcanonical a hnamed.1 hgiven
  have hmb := ModulePattern.concurring hcanonical b hnamed.2 hgiven'
  obtain ⟨hframed, hwa, n, y, D, s, hs, hD, hja⟩ := ha.judged hu hw hstore
  obtain ⟨-, -, n', y', D', s', hs', hD', hjb⟩ :=
    hb.judged hu hwa (hstore.trans hframed.later.grows.store)
  obtain ⟨-, -, nx, yx, Dx, sx, hsx, hDx, hjx⟩ := hx.judged hu hw hstore
  rw [hframed.env] at hs' hD'
  obtain rfl : s = s' := Option.some.inj (hs.symm.trans hs')
  obtain rfl : s = sx := Option.some.inj (hs.symm.trans hsx)
  have hcarries := (hw.env.get? hs).unboxed
  obtain ⟨x₁, hx₁, hon₁, rfl, hfirst⟩ := Judged.agree hma (x := fun _ => w) ⟨hw.alike, fun _ => hw⟩
    (hcarries.same (.refl _)) (hw.sameNames (.refl _) (fun z _ => hD z) fun z _ =>
      hDx z) hja hjx.made
    hjx.value (hjx.judges.xor hw hjx.made hgiven')
  rcases hfirst with ⟨rfl, E, hE, hjudges⟩ | ⟨rfl, hjudges⟩
  · -- The second pattern sees what the first one binds, but takes none of it.
    have hEx : ∀ z, b.Takes z (Expr.FreeIn u z) False → ¬ u.names.Generated z →
        E z = w.scope.env.get? z := fun z hz hgiven =>
      (hE z (.inl fun hz' => hapart rfl z hz' hz) fun j hj => absurd hj.generated hgiven).trans
        (hDx z hgiven)
    obtain ⟨j, hj, hmade⟩ := hjx.made
    have hvalue : E yx = some s.unboxed :=
      (hE yx (.inr hmade.generated) fun i hi => hi.unique hmade ▸ hj).trans hjx.value
    obtain ⟨x₂, -, -, -, hsecond⟩ := Judged.agree hmb hx₁ (hcarries.same hon₁)
      (hw.sameNames hon₁ (fun z _ => hD' z) hEx) hjb hjx.made hvalue hjudges
    rcases hsecond with ⟨rfl, -, -, rfl, -⟩ | ⟨rfl, rfl, -⟩ <;> rfl
  · obtain ⟨x₂, -, -, -, hsecond⟩ := Judged.agree hmb hx₁ (hcarries.same hon₁)
      (hw.sameNames hon₁ (fun z _ => hD' z) fun z _ => hDx z) hjb hjx.made hjx.value hjudges
    rcases hsecond with ⟨rfl, -, -, rfl, -⟩ | ⟨rfl, rfl, -⟩ <;> rfl

end ModulePattern

/-! ### A guard that reads a name which the other side binds -/

namespace FlagTests

/-- A store with the names `x` and `y`. -/
def named : Store := ((Build.name "y").run ((Build.name "x").run {}).2).2

/-- The test of `x` by a module pattern, with the symbols that its nodes have in the store. -/
def test (i j k : Nat) (m : ModulePattern) : Expr :=
  .node i (.op .apply [.node j (.pattern (.node k (.module m))), .node 1 (.var ⟨1⟩)])

/-- There is a member `x`, and `y` is bound to it. -/
def first : ModulePattern := .member ⟨1⟩ ⟨2⟩

/-- There is a member `x`, and `y` is true. -/
def second : ModulePattern :=
  .inner ⟨1⟩ (.node 2 (.guarded (.node 1 .wildcard) (.node 3 (.var ⟨2⟩))))

/-- Tests whose sides have a name in common. -/
def clashing : List Expr := [test 2 0 0 first, test 5 4 3 second, test 7 6 4 (.xor first second)]

/-- There is a member `x`. -/
def hasX : ModulePattern := .member ⟨1⟩ ⟨1⟩

/-- There is a member `y`. -/
def hasY : ModulePattern := .member ⟨2⟩ ⟨2⟩

/-- Tests whose sides have no name in common. -/
def members : List Expr := [test 2 0 0 hasX, test 4 3 1 hasY, test 6 5 2 (.xor hasX hasY)]

/-- A module whose member `x` is true. -/
def value : Term := .map ((Env.plain []).bind ⟨1⟩ (.lit (.bool true))) .module

/-- What `x` and `y` stand for. -/
def env : Env := ((Env.plain []).bind ⟨2⟩ (.lit (.bool false))).bind ⟨1⟩ value

/-- The store that a tree was entered into. -/
def entered (tree : Expr) : Store := (tree.enter.run named).2

/-- The store when the tree is ready for evaluation. -/
def ready (tree : Expr) : Store := ((Build.filter tree).run (entered tree)).2

def world (tree : Expr) : World :=
  (Call.world ⟨entered tree, 0, tree, .plain []⟩ {}).setEnv env

/-- The tree is a tuple of tests, with the symbols that its nodes have in the store. -/
structure Entered (tree : Expr) (tests : List Expr) : Prop where
  kind : tree.kind = .tuple tests
  enter : (tree.enter.run named).1 = tree
  sorted : tree.Sorted

lemma sorted_test {i j k : Nat} {m : ModulePattern} (hm : m.Sorted) : (test i j k m).Sorted :=
  ⟨hm, trivial, trivial⟩

lemma entered_clashing : Entered (.node 8 (.tuple clashing)) clashing where
  kind := rfl
  enter := by
    simp only [clashing, test, first, second, Expr.enter, ExprKind.enter, Expr.enterAll,
      Pattern.enter, PatternKind.enter, ModulePattern.enter]
    rfl
  sorted :=
    have hsecond : second.Sorted := ⟨trivial, trivial⟩
    ⟨sorted_test trivial, sorted_test hsecond, sorted_test ⟨trivial, hsecond⟩, trivial⟩

lemma entered_members : Entered (.node 7 (.tuple members)) members where
  kind := rfl
  enter := by
    simp only [members, test, hasX, hasY, Expr.enter, ExprKind.enter, Expr.enterAll,
      Pattern.enter, PatternKind.enter, ModulePattern.enter]
    rfl
  sorted := ⟨sorted_test trivial, sorted_test trivial, sorted_test ⟨trivial, trivial⟩, trivial⟩

lemma reaches_named : Store.Reaches {} named := .tail (.single (.name "x")) (.name "y")

lemma sorted_named : named.Sorted := by
  have hname (s : String) (st : Store) (h : st.Sorted) : ((Build.name s).run st).2.Sorted :=
    ((Build.does_name s : Build.Does True (Build.name s) _) st fun _ => h).2.1 trivial
  exact hname _ _ (hname _ _ (Session.formed_new {}).store)

/-- No name of the tests was made for lowered code. -/
theorem given (tree : Expr) {x : Name} (hx : x = ⟨1⟩ ∨ x = ⟨2⟩) :
    ¬ (ready tree).names.Generated x := by
  have hgrows : named.Grows (ready tree) :=
    (Build.calls_enter tree named (reaches_named.canonical Store.canonical_new)).1.grows.trans
      (Build.Adds.grows _)
  have hnames : ∀ i s, named.names.table.entries[i]? = some s → s.toList.head? ≠ some ' ' →
      ¬ (ready tree).names.Generated ⟨i⟩ := by
    rintro i s hs hspace ⟨s', hs', hspace'⟩
    rw [hgrows.names.getElem? hs, Option.some.injEq] at hs'
    exact hspace (hs' ▸ hspace')
  rcases hx with rfl | rfl
  · exact hnames 1 "x" rfl (by decide)
  · exact hnames 2 "y" rfl (by decide)

lemma static_value : value.Static := by
  refine .module fun x t ht => ?_
  change List.lookup x [((⟨1⟩ : Name), Term.lit (.bool true))] = some t at ht
  obtain ⟨before, after, hentries, -⟩ := List.lookup_eq_some_iff.1 ht
  have hmem : (x, t) ∈ [((⟨1⟩ : Name), Term.lit (.bool true))] := hentries ▸ by simp
  obtain ⟨-, rfl⟩ := Prod.mk.inj (List.mem_singleton.1 hmem)
  exact .lit _

namespace Entered

variable {tree e : Expr} {tests : List Expr}

lemma reaches (h : Entered tree tests) :
    Store.Reaches {} (entered tree) ∧ tree.Issued (entered tree) :=
  reaches_named.enter h.enter

lemma reaches_ready (h : Entered tree tests) : Store.Reaches {} (ready tree) :=
  h.reaches.1.tail (.filter h.reaches.2)

lemma whole (h : Entered tree tests) : (world tree).Whole := by
  have hdoes : Build.Does True tree.enter (Build.Fine True) :=
    Build.does_enter tree fun _ => h.sorted
  have hw : (Call.world ⟨entered tree, 0, tree, .plain []⟩ {}).Whole :=
    h.reaches.1.whole ((hdoes named fun _ => sorted_named).2.1 trivial) h.reaches.2 h.sorted
  refine hw.setEnv ((hw.env.bind _ (World.carries_lit _)).bind _ ?_)
  exact (hw.env.bind _ (World.carries_lit _)).carries trivial trivial

lemma grows (tree : Expr) : (ready tree).Grows (world tree).session.store := .refl (ready tree)

/-- The code of a test is made of nodes that the store has. -/
lemma exists_code (h : Entered tree tests) (he : e ∈ tests) : e.Issued (ready tree) ∧
    ∃ code, e.Becomes (ready tree) code ∧ code.Issued (ready tree) := by
  obtain ⟨hreaches, hissued⟩ := h.reaches
  obtain ⟨hissued', hbecomes⟩ := hreaches.becomes_code hissued
  obtain ⟨codes, hcodes, hlength, hparts⟩ := hbecomes.of_tuple h.kind
  have hgrows : (entered tree).Grows (ready tree) := Build.Adds.grows _
  obtain ⟨i, hi⟩ := List.getElem?_of_mem he
  obtain ⟨code, hcode⟩ := exists_getElem? hlength.symm hi
  refine ⟨(hissued.mono hgrows.nodesIn).kind.codes e ?_, code, hparts i e code hi hcode,
    hissued'.kind.codes code ?_⟩
  · rw [h.kind]
    exact he
  · rw [hcodes]
    exact List.mem_of_getElem? hcode

/-- A test that is decided answers so. -/
theorem answers (h : Entered tree tests) {i j k : Nat} (he : test i j k m ∈ tests)
    (found : Option Found) (hm : ∀ n y D succ fail e,
      (∀ z, ¬ (ready tree).names.Generated z → D z = env.get? z) →
      Subject (ready tree) (world tree) n y D value → Exits (ready tree) n succ fail →
      m.Shape (ready tree).names Eq n y succ fail e →
      Decides (ready tree) (world tree) e D succ fail found) :
    m.Answers (ready tree) ⟨1⟩ (world tree) found.isSome (world tree) := by
  obtain ⟨hissued, code, hbecomes, hissued'⟩ := h.exists_code he
  have htest : (test i j k m).IsTest m ⟨1⟩ := ⟨_, _, _, rfl, rfl, rfl, rfl⟩
  exact htest.answers h.reaches_ready hissued hbecomes hissued' h.whole
    (grows tree) rfl static_value hm

lemma answers_simple (h : Entered tree tests) {i j k : Nat} (he : test i j k m ∈ tests)
    (hm : m.Simple (ready tree).names) :
    m.Answers (ready tree) ⟨1⟩ (world tree) (m.match? value).isSome (world tree) :=
  h.answers he _ fun _ _ _ _ _ _ _ hv hex hshape => hshape.decides rfl m hm hv hex

end Entered

end FlagTests

open FlagTests in
/-- A test whether exactly one of two members is there. -/
theorem ModulePattern.answers_xor_members : ∃ wa wb v,
    hasX.Answers (ready (.node 7 (.tuple members))) ⟨1⟩ (world (.node 7 (.tuple members))) true wa ∧
    hasY.Answers (ready (.node 7 (.tuple members))) ⟨1⟩ wa false wb ∧
    (xor hasX hasY).Answers (ready (.node 7 (.tuple members))) ⟨1⟩
      (world (.node 7 (.tuple members))) true v ∧ true = (true ^^ false) := by
  have hnamed : (xor hasX hasY).Named (ready (.node 7 (.tuple members))).names :=
    ⟨given _ (.inl rfl), given _ (.inr rfl)⟩
  have hx := entered_members.answers_simple (m := hasX) (.head _) hnamed.1
  have hy := entered_members.answers_simple (m := hasY) (.tail _ (.head _)) hnamed.2
  have hxor := entered_members.answers_simple (m := xor hasX hasY)
    (.tail _ (.tail _ (.head _))) hnamed
  have hapart : ∀ z ∈ hasX.binders, ¬ hasY.Takes z
      (Expr.FreeIn (ready (.node 7 (.tuple members))) z) False := fun _ _ htakes => htakes.2
  exact ⟨_, _, _, hx, hy, hxor, answers_xor entered_members.reaches_ready entered_members.whole
    (Entered.grows _) hnamed (fun _ h => absurd h List.not_mem_nil) hx hy hxor fun _ => hapart⟩

open FlagTests in
/-- If the first side binds a flag that a guard of the second one reads, then the test judges by
what is bound there: neither side counts, although the second one does not match on its own. -/
theorem ModulePattern.answers_xor_clash : ∃ wa wb v,
    first.Answers (ready (.node 8 (.tuple clashing))) ⟨1⟩
      (world (.node 8 (.tuple clashing))) true wa ∧
    second.Answers (ready (.node 8 (.tuple clashing))) ⟨1⟩ wa false wb ∧
    (xor first second).Answers (ready (.node 8 (.tuple clashing))) ⟨1⟩
      (world (.node 8 (.tuple clashing))) false v ∧
    false ≠ (true ^^ false) := by
  have hflag := given (.node 8 (.tuple clashing)) (x := ⟨2⟩) (.inr rfl)
  have hfirst := entered_clashing.answers_simple (m := first) (.head _) hflag
  have hsecond := entered_clashing.answers (m := second) (.tail _ (.head _)) none
    fun n y D succ fail e hD hv hex h =>
      h.decides_flag (d := false) hv hex rfl rfl hflag (hD _ hflag)
  have hxor := entered_clashing.answers (m := xor first second) (.tail _ (.tail _ (.head _))) none
    fun n y D succ fail e hD hv hex h => by
      have hgiven : ∀ c ∈ second.codes, c.Given (ready (.node 8 (.tuple clashing))) := by
        intro c hc
        obtain rfl := List.mem_singleton.1 hc
        intro z hz
        exact (Expr.freeIn_var rfl).1 hz ▸ hflag
      refine h.decides_both [(⟨2⟩, .lit (.bool true))] [] hv hex hgiven
        (fun m f g c D' _ hv hex h => h.decides rfl first hflag hv hex)
        fun m f g c D' hD' hv hex h => h.decides_flag (d := true) hv hex rfl rfl hflag ?_
      exact hD'.of_given hflag
  exact ⟨_, _, _, hfirst, hsecond, hxor, by decide⟩

end Residual
