import Residual.Proofs.Session.EndedRuns

/-!
Two runs of lowered code that judge a value alike.

The same pattern can be lowered twice, with other names made for it, other code to go on with and in
other surroundings. Two runs of such code start in worlds that differ at most in the forms of
environments. If both end in a literal, then both go on with success or both with failure, in worlds
that differ as little, with the same values bound to the names that the rest of the pattern takes.
-/

namespace Residual

open Eval

/-- The two runs that are compared. -/
inductive Side where
  | left
  | right

variable {u : Store} {w x : Side → World} {D E : Side → Meaning}
  {e f g k succ fail later : Side → Expr} {s t : Side → Term} {y z : Side → Name} {n : Side → Nat}
  {S S' B B' : Name → Prop}

/-! ### Names made for lowered code -/

namespace Meaning

/-- Names stand for the same in both, but for such as were made with the number `n` or later. -/
def Beside (u : Store) (n : Nat) (D D' : Meaning) : Prop :=
  ∀ a, (∀ j, u.names.Made a j → j < n) → D' a = D a

namespace Beside

variable {D D' D'' : Meaning} {m n j : Nat} {a z : Name} {t : Term} {c : Expr}

lemma refl (D : Meaning) : Beside u n D D := fun _ _ => rfl

lemma trans (h : Beside u n D D') (h' : Beside u n D' D'') : Beside u n D D'' :=
  fun a ha => (h' a ha).trans (h a ha)

lemma mono (h : Beside u m D D') (hm : n ≤ m) : Beside u n D D' :=
  fun a ha => h a fun j hj => Nat.lt_of_lt_of_le (ha j hj) hm

lemma bind (hz : u.names.Made z j) (hj : n ≤ j) : Beside u n D (D.bind z t) := by
  refine fun a ha => Meaning.bind_of_ne ?_
  rintro rfl
  exact absurd (ha j hz) (Nat.not_lt.2 hj)

lemma extend (h : Beside u n D D') (bs : Found) : Beside u n (D.extend bs) (D'.extend bs) :=
  fun a ha => Meaning.extend_congr (h a ha)

lemma of_made (h : Beside u n D D') (ha : u.names.Made a j) (hj : j < n) : D' a = D a :=
  h a fun _ hi => hi.unique ha ▸ hj

lemma of_given (h : Beside u n D D') (ha : ¬ u.names.Generated a) : D' a = D a :=
  h a fun _ hi => absurd hi.generated ha

/-- Code that takes no such names does not see the difference. -/
lemma of_free (h : Beside u n D D') (hc : c.Below u n) (ha : c.FreeIn u a) : D' a = D a :=
  h a fun j hj => hc a j ha hj

end Beside

end Meaning

/-! ### Worlds and values side by side -/

/-- The worlds are whole and differ at most in the forms of environments. -/
structure Abreast (w : Side → World) : Prop where
  alike : Alike (w .left) (w .right)
  whole : ∀ i, (w i).Whole

/-- The values differ at most in the forms of environments. -/
def SameValue (w : Side → World) (s : Side → Term) : Prop :=
  Same (w .left) (w .right) (s .left) (s .right)

/-- Each of the second worlds comes after the first one of its side. -/
def Onward (w x : Side → World) : Prop := ∀ i, (w i).Framed (x i)

/-- The names of the program with the property stand for the same. -/
def SameNames (u : Store) (w : Side → World) (S : Name → Prop) (D : Side → Meaning) : Prop :=
  ∀ a, S a → ¬ u.names.Generated a → Option.Rel (Same (w .left) (w .right)) (D .left a) (D .right a)

lemma Onward.refl (w : Side → World) : Onward w w := fun i => .refl (w i)

lemma Onward.trans {x' : Side → World} (h : Onward w x) (h' : Onward x x') : Onward w x' :=
  fun i => (h i).trans (h' i)

lemma SameValue.mono (h : SameValue w s) (hw : Onward w x) : SameValue x s :=
  Same.mono h (hw .left) (hw .right)

namespace SameNames

lemma mono (h : SameNames u w S D) (hS : ∀ a, S' a → S a) : SameNames u w S' D :=
  fun a ha hgiven => h a (hS a ha) hgiven

lemma onward (h : SameNames u w S D) (hw : Onward w x) : SameNames u x S D := by
  intro a ha hgiven
  have hrel := h a ha hgiven
  generalize D .left a = o at hrel
  generalize D .right a = o' at hrel
  cases hrel with
  | none => exact .none
  | some h => exact .some (h.mono (hw .left) (hw .right))

/-- Names made for lowered code do not count. -/
theorem bind (h : SameNames u w S D) (hz : ∀ i, u.names.Generated (z i)) :
    SameNames u w S fun i => (D i).bind (z i) (t i) := by
  intro a ha hgiven
  have hne : ∀ i, a ≠ z i := fun i heq => hgiven (heq ▸ hz i)
  simp only [Meaning.bind_of_ne (hne _)]
  exact h a ha hgiven

end SameNames

/-- Worlds of runs that end are whole, so that they need only be twins to be abreast. -/
lemma Abreast.of_twinned {v : Side → World} {a b : Env} (hv : ∀ i, (v i).Whole)
    (h : Twinned ((v .left).setEnv a) ((v .right).setEnv b)) : Abreast v :=
  ⟨⟨⟨h.coherent, ⟨h.twin.session, { h.twin.scope with }⟩⟩, (hv .left).alike.left,
    (hv .right).alike.left⟩, hv⟩

/-! ### Values that agree -/

/-- If evaluation ends on both sides, then it ends abreast, with the same value. -/
def Agrees (u : Store) (w : Side → World) (D : Side → Meaning) (e : Side → Expr) : Prop :=
  ∀ s v, (∀ i, Ends u (w i) (D i) (e i) (s i) (v i)) → Abreast v ∧ SameValue v s

/-- What an operation does to values depends on the forms of environments in them as little as
evaluation does. -/
structure ActsAlike (o : Op) (act : (Expr → Eval Term) → List Term → Eval Term) : Prop
    extends Acts o act where
  same : ∀ fuel w w' as bs, List.Forall₂ (Same w w') as bs →
    Matches w w' (act (eval fuel) as) (act (eval fuel) bs) TwinResults

section ActsAlike

open Coupling Coupling.Forms

lemma ActsAlike.of_coupled {o : Op} {act : (Expr → Eval Term) → List Term → Eval Term}
    (hact : Acts o act) (h : ∀ fuel (p : Runs) as bs, List.Forall₂ p.Same as bs →
      forms.Matches [] p (act (eval fuel) as) (act (eval fuel) bs) Runs.Kin) : ActsAlike o act :=
  ⟨hact, fun fuel _ _ _ _ hab => .of_coupled (h fuel _ _ _ (hab.imp fun _ _ h => h.coupled))⟩

lemma actsAlike_tuple (o : TupleOp) : ActsAlike (.tuple o) fun _ => tupleOp o :=
  .of_coupled ⟨fun _ _ => rfl⟩ fun _ _ _ _ h =>
    .of_paired (paired_tupleOp laws o (Runs.Same.kins h) fun t ht =>
      (Runs.Same.lefts h t ht).formed)

lemma actsAlike_prim (o : PrimOp) : ActsAlike (.prim o) fun _ => primOp o :=
  .of_coupled ⟨fun _ _ => rfl⟩ fun _ _ _ _ h => .of_paired (paired_primOp laws o (Runs.Same.kins h))

lemma actsAlike_type (o : TypeOp) : ActsAlike (.type o) fun _ => typeOp o :=
  .of_coupled ⟨fun _ _ => rfl⟩ fun _ _ _ _ h => .of_paired (paired_typeOp o (operands_of_same h))

lemma actsAlike_module (o : ModuleOp) : ActsAlike (.module o) fun ev => moduleOp ev o :=
  .of_coupled ⟨fun _ _ => rfl⟩ fun fuel _ _ _ h => matches_moduleOp laws (coupled_eval fuel _) o h

lemma actsAlike_apply : ActsAlike .apply applyValues :=
  .of_coupled acts_apply fun fuel _ _ _ h => (together_operands₂ h _).bind_matches
    fun _ _ _ _ hr => matches_apply laws (coupled_eval fuel _) hr.1 hr.2

end ActsAlike

namespace Agrees

variable {o : Op} {act : (Expr → Eval Term) → List Term → Eval Term}

lemma var (hw : Abreast w) (he : ∀ i, (e i).kind = .var (y i)) (hs : ∀ i, D i (y i) = some (s i))
    (hsame : SameValue w s) : Agrees u w D e := by
  intro t v h
  have hends := fun i => (h i).var (he i)
  have hv : v = w := funext fun i => (hends i).2
  have ht : t = s := funext fun i => Option.some.inj ((hends i).1.symm.trans (hs i))
  rw [hv, ht]
  exact ⟨hw, hsame⟩

lemma lit {l : Literal} (hw : Abreast w) (he : ∀ i, (e i).kind = .lit l) : Agrees u w D e := by
  intro t v h
  have hends := fun i => (h i).lit (he i)
  have hv : v = w := funext fun i => (hends i).2
  have ht : t = fun _ => .lit l := funext fun i => (hends i).1
  rw [hv, ht]
  exact ⟨hw, Term.twin_lit l, Region.value_lit l, Region.value_lit l⟩

/-- The values of one expression, if its free names stand for the same. -/
theorem code (hu : u.Canonical) (hw : Abreast w) {c : Expr}
    (hgiven : ∀ a, c.FreeIn u a → ¬ u.names.Generated a)
    (hsame : SameNames u w (Expr.FreeIn u · c) D) : Agrees u w D fun _ => c := by
  intro s v h
  have hwhole := fun i => (h i).whole (hw.whole i)
  have hcarries := fun i => (h i).carries (hw.whole i)
  obtain ⟨-, a, c₁, m, hp, hrun⟩ := h .left
  obtain ⟨-, b, c₂, m', hq, hrun'⟩ := h .right
  obtain rfl := hp.becomes.eq hu hq.becomes hp.issued hq.issued
  obtain ⟨hprefiltered, -, hfree⟩ := hp.becomes.readies
  have hreads : ReadsAlike ((w .left).setEnv a).session.store ((w .left).setEnv a).scope.env
      ((w .right).setEnv b).scope.env c₁ := by
    refine ⟨hp.held, .inr ⟨hprefiltered.listed, fun y hy => ?_⟩⟩
    have hy' := (hfree y).1 hy
    change Option.Rel _ (a.get? y) (b.get? y)
    rw [hp.sees y hy', hq.sees y hy']
    have hrel := hsame y hy' (hgiven y hy')
    generalize D .left y = o at hrel
    generalize D .right y = o' at hrel
    cases hrel with
    | none => exact .none
    | some h => exact .some h.twin
  have halike := alike_setEnv hw.alike hp.offers.value hq.offers.value
  obtain ⟨hworlds, -, -, hout⟩ := (uniform_eval (m + m')).together hreads halike
  rw [exec_more hrun, Nat.add_comm m m', exec_more hrun'] at hworlds hout
  cases hout with
  | ok hsame => exact ⟨.of_twinned hwhole hworlds.toTwinned, hsame.twin, (hcarries .left).value,
      (hcarries .right).value⟩

/-- What the two operations do to the same values. -/
theorem acts (ho : ActsAlike o act) (ts : Side → List Term) {a : Side → Env} {N : Side → Nat}
    {v : Side → World} (hw : Abreast w)
    (hts : List.Forall₂ (Same (w .left) (w .right)) (ts .left) (ts .right))
    (ha : ∀ i, (w i).Offers (a i)) (hv : ∀ i, (v i).Whole) (hs : ∀ i, (v i).Carries (s i))
    (h : ∀ i m, exec (act (eval (N i + m)) (ts i)) ((w i).setEnv (a i)) =
      (.ok (s i), (v i).setEnv (a i))) : Abreast v ∧ SameValue v s := by
  have halike := alike_setEnv hw.alike (ha .left).value (ha .right).value
  have hts' : List.Forall₂ (Same ((w .left).setEnv (a .left)) ((w .right).setEnv (a .right)))
      (ts .left) (ts .right) :=
    hts.imp fun _ _ h => ⟨h.twin, World.value_setEnv.2 h.left, World.value_setEnv.2 h.right⟩
  obtain ⟨hworlds, hout⟩ := ho.same (N .left + N .right) _ _ _ _ hts' halike
  rw [h .left, Nat.add_comm, h .right] at hworlds hout
  cases hout with
  | ok htwin => exact ⟨.of_twinned hv hworlds, htwin, (hs .left).value, (hs .right).value⟩

lemma op₁ (ho : ActsAlike o act) (hw : Abreast w) (he : ∀ i, (e i).kind = .op o [f i])
    (hf : Agrees u w D f) : Agrees u w D e := by
  intro s v h
  choose t x a N hends hoffers hact using fun i => (h i).op₁ (he i) ho.toActs
  obtain ⟨hx, hsame⟩ := hf t x hends
  exact acts ho (fun i => [t i]) hx (.cons hsame .nil) hoffers
    (fun i => (h i).whole (hw.whole i)) (fun i => (h i).carries (hw.whole i)) hact

lemma op₂ (ho : ActsAlike o act) (hw : Abreast w) (he : ∀ i, (e i).kind = .op o [f i, g i])
    (hf : Agrees u w D f) (hg : ∀ x, Abreast x → Onward w x → Agrees u x D g) :
    Agrees u w D e := by
  intro s v h
  choose t x t' x' a N hends hends' hoffers hact using fun i => (h i).op₂ (he i) ho.toActs
  obtain ⟨hx, hsame⟩ := hf t x hends
  obtain ⟨hx', hsame'⟩ := hg x hx (fun i => (hends i).framed) t' x' hends'
  exact acts ho (fun i => [t i, t' i]) hx'
    (.cons (SameValue.mono hsame fun i => (hends' i).framed) (.cons hsame' .nil)) hoffers
    (fun i => (h i).whole (hw.whole i)) (fun i => (h i).carries (hw.whole i)) hact

end Agrees

/-! ### Going on alike -/

/-- What a match leaves behind: names of the program with the property `S` stand for the same. No
others than those with the property `B` are bound anew, but for names made as number `n` or
later. -/
structure Matched (u : Store) (n : Side → Nat) (w : Side → World) (D : Side → Meaning)
    (x : Side → World) (E : Side → Meaning) (S B : Name → Prop) : Prop where
  abreast : Abreast x
  onward : Onward w x
  same : SameNames u x S E
  keeps : ∀ i a, ¬ B a ∨ u.names.Generated a → (∀ j, u.names.Made a j → j < n i) → E i a = D i a

/-- Runs that end in the literals `l` go on with success on both sides, or with failure on both. -/
def Decided (u : Store) (n : Side → Nat) (w : Side → World) (D : Side → Meaning)
    (succ fail : Side → Expr) (S B : Name → Prop) (l : Side → Literal) (v : Side → World) : Prop :=
  (∃ x E, Matched u n w D x E S B ∧ ∀ i, Ends u (x i) (E i) (succ i) (.lit (l i)) (v i)) ∨
    ∃ x, Abreast x ∧ Onward w x ∧ ∀ i, Ends u (x i) (D i) (fail i) (.lit (l i)) (v i)

/-- All runs of the code that end in literals are decided alike. -/
def Concurs (u : Store) (n : Side → Nat) (w : Side → World) (D : Side → Meaning)
    (e succ fail : Side → Expr) (S B : Name → Prop) : Prop :=
  ∀ l v, (∀ i, Ends u (w i) (D i) (e i) (.lit (l i)) (v i)) → Decided u n w D succ fail S B l v

namespace Matched

variable {x' : Side → World} {E' D' : Side → Meaning} {m : Side → Nat}

lemma refl (hw : Abreast w) (hD : SameNames u w S D) : Matched u n w D w D S B :=
  ⟨hw, .refl w, hD, fun _ _ _ _ => rfl⟩

lemma onward_trans (h : Matched u n x D x' E S B) (hw : Onward w x) : Matched u n w D x' E S B :=
  { h with onward := hw.trans h.onward }

lemma mono (h : Matched u m w D x E S B) (hm : ∀ i, n i ≤ m i) (hB : ∀ a, B a → B' a) :
    Matched u n w D x E S B' :=
  { h with
    keeps := fun i a ha hmade => h.keeps i a (ha.imp_left fun hn hb => hn (hB a hb))
      (fun j hj => Nat.lt_of_lt_of_le (hmade j hj) (hm i)) }

lemma trans (h : Matched u n w D x E S B) (h' : Matched u n x E x' E' S' B') :
    Matched u n w D x' E' S' fun a => B a ∨ B' a :=
  ⟨h'.abreast, h.onward.trans h'.onward, h'.same, fun i a ha hmade =>
    (h'.keeps i a (ha.imp_left fun hn hb => hn (.inr hb)) hmade).trans
      (h.keeps i a (ha.imp_left fun hn hb => hn (.inl hb)) hmade)⟩

/-- Names that were made for the match do not count after it. -/
theorem aside (h : Matched u n w D' x E S B) (hD : ∀ i, (D i).Beside u (n i) (D' i)) :
    Matched u n w D x E S B :=
  { h with keeps := fun i a ha hmade => (h.keeps i a ha hmade).trans (hD i a hmade) }

end Matched

namespace Decided

variable {D' : Side → Meaning} {m : Side → Nat} {l : Side → Literal} {v : Side → World}

lemma onward (h : Decided u n x D succ fail S B l v) (hw : Onward w x) :
    Decided u n w D succ fail S B l v :=
  h.imp (fun ⟨x', E, hm, hends⟩ => ⟨x', E, hm.onward_trans hw, hends⟩)
    fun ⟨x', hx', hon, hends⟩ => ⟨x', hx', hw.trans hon, hends⟩

lemma mono (h : Decided u m w D succ fail S B l v) (hm : ∀ i, n i ≤ m i)
    (hB : ∀ a, B a → B' a) : Decided u n w D succ fail S B' l v :=
  h.imp_left fun ⟨x, E, hmatched, hends⟩ => ⟨x, E, hmatched.mono hm hB, hends⟩

lemma aside (h : Decided u n w D' succ fail S B l v) (hD : ∀ i, (D i).Beside u (n i) (D' i))
    (hfail : ∀ i, (fail i).Below u (n i)) : Decided u n w D succ fail S B l v :=
  h.imp (fun ⟨x, E, hm, hends⟩ => ⟨x, E, hm.aside hD, hends⟩) fun ⟨x, hx, hon, hends⟩ =>
    ⟨x, hx, hon, fun i => (hends i).congr fun _ ha => (hD i).of_free (hfail i) ha⟩

end Decided

namespace Concurs

variable {m : Side → Nat}

lemma mono (h : Concurs u m w D e succ fail S B) (hm : ∀ i, n i ≤ m i) (hB : ∀ a, B a → B' a) :
    Concurs u n w D e succ fail S B' := fun l v hends => (h l v hends).mono hm hB

lemma imp (h : Concurs u n w D e succ fail S B) (hB : ∀ a, B a → B' a) :
    Concurs u n w D e succ fail S B' := h.mono (fun _ => Nat.le_refl _) hB

lemma succeed (hw : Abreast w) (hD : SameNames u w S D) : Concurs u n w D succ succ fail S B :=
  fun _ _ hends => .inl ⟨w, D, .refl hw hD, hends⟩

lemma failing (hw : Abreast w) : Concurs u n w D fail succ fail S B :=
  fun _ _ hends => .inr ⟨w, hw, .refl w, hends⟩

/-- A test of the same value decides on both sides. -/
theorem cond (he : ∀ i, (e i).kind = .op .cond [k i, f i, fail i]) (hk : Agrees u w D k)
    (hf : ∀ x, Abreast x → Onward w x → Concurs u n x D f succ fail S B) :
    Concurs u n w D e succ fail S B := by
  intro l v h
  choose s x d hends hd hrest using fun i => (h i).cond (he i)
  obtain ⟨hx, hsame⟩ := hk s x hends
  have hon : Onward w x := fun i => (hends i).framed
  have hd' : d .left = d .right := by
    rw [← Option.some_inj, ← hd, ← hd]
    exact hsame.twin.bool?
  cases hside : d .left with
  | true =>
    refine (hf x hx hon l v fun i => ?_).onward hon
    have hi : d i = true := by cases i <;> [exact hside; exact hd' ▸ hside]
    have hends' := hrest i
    rw [hi] at hends'
    exact hends'
  | false =>
    refine .inr ⟨x, hx, hon, fun i => ?_⟩
    have hi : d i = false := by cases i <;> [exact hside; exact hd' ▸ hside]
    have hends' := hrest i
    rw [hi] at hends'
    exact hends'

/-- A name of the program is bound. -/
theorem named {a : Name} (hw : Abreast w) (he : ∀ i, (e i).IsLet a (k i) (succ i))
    (ha : ¬ u.names.Generated a) (hk : Agrees u w D k)
    (hD : SameNames u w (fun b => b ≠ a ∧ S b) D) :
    Concurs u n w D e succ fail S (· = a) := by
  intro l v h
  choose s x hends hrest using fun i => (h i).letIn (hw.whole i) (he i)
  obtain ⟨hx, hsame⟩ := hk s x hends
  have hon : Onward w x := fun i => (hends i).framed
  refine .inl ⟨x, _, ⟨hx, hon, fun b hb hgiven => ?_, fun i b hb _ => Meaning.bind_of_ne ?_⟩, hrest⟩
  · by_cases hba : b = a
    · subst hba
      simp only [Meaning.bind_self]
      exact .some hsame
    · simp only [Meaning.bind_of_ne hba]
      exact hD.onward hon b ⟨hba, hb⟩ hgiven
  · rintro rfl
    exact hb.elim (fun hn => hn rfl) ha

/-- A name is bound first that was made for the match. -/
theorem bound (hw : Abreast w) (he : ∀ i, (e i).IsLet (z i) (k i) (f i))
    (hz : ∀ i, u.names.Made (z i) (m i)) (hm : ∀ i, n i ≤ m i)
    (hfail : ∀ i, (fail i).Below u (n i)) (hk : Agrees u w D k)
    (hf : ∀ x t, Abreast x → Onward w x → SameValue x t →
      Concurs u (m · + 1) x (fun i => (D i).bind (z i) (t i)) f succ fail S B) :
    Concurs u n w D e succ fail S B := by
  intro l v h
  choose s x hends hrest using fun i => (h i).letIn (hw.whole i) (he i)
  obtain ⟨hx, hsame⟩ := hk s x hends
  have hon : Onward w x := fun i => (hends i).framed
  have hdecided := (hf x s hx hon hsame l v hrest).mono (fun i => Nat.le_succ_of_le (hm i))
    fun _ => id
  exact (hdecided.aside (fun i => .bind (hz i) (hm i)) hfail).onward hon

/-- One match comes after another, where the names of the first are bound. -/
theorem both (h : Concurs u n w D e later fail S B)
    (hlater : ∀ x E, Matched u n w D x E S B → Concurs u n x E later succ fail S' B')
    (hex : ∀ i, Exits u (n i) (succ i) (fail i)) :
    Concurs u n w D e succ fail S' fun a => B a ∨ B' a := by
  intro l v hends
  rcases h l v hends with ⟨x, E, hm, hends⟩ | ⟨x, hx, hon, hends⟩
  · rcases hlater x E hm l v hends with ⟨x', E', hm', hends⟩ | ⟨x', hx', hon, hends⟩
    · exact .inl ⟨x', E', hm.trans hm', hends⟩
    · exact .inr ⟨x', hx', hm.onward.trans hon, fun i => (hends i).congr fun a ha =>
        hm.keeps i a (.inr ((hex i).inner a ha)) fun j hj => (hex i).missed a j ha hj⟩
  · exact .inr ⟨x, hx, hon, hends⟩

/-- If the first match fails, another one counts. -/
theorem or (h : Concurs u n w D e succ later S B)
    (hlater : ∀ x, Abreast x → Onward w x → Concurs u n x D later succ fail S B') :
    Concurs u n w D e succ fail S fun a => B a ∨ B' a := by
  intro l v hends
  rcases h l v hends with ⟨x, E, hm, hends⟩ | ⟨x, hx, hon, hends⟩
  · exact .inl ⟨x, E, hm.mono (fun _ => Nat.le_refl _) fun _ => .inl, hends⟩
  · exact ((hlater x hx hon l v hends).onward hon).mono (fun _ => Nat.le_refl _) fun _ => .inr

end Concurs

/-! ### Forms of lowered patterns -/

/-- The names were made with numbers less than `n`, and stand for the same values. -/
structure Subjects (u : Store) (w : Side → World) (n : Side → Nat) (y : Side → Name)
    (D : Side → Meaning) (s : Side → Term) : Prop where
  made : ∀ i, ∃ j, j < n i ∧ u.names.Made (y i) j
  value : ∀ i, D i (y i) = some (s i)
  same : SameValue w s

namespace Subjects

variable {m : Side → Nat}

lemma mono (h : Subjects u w n y D s) (hm : ∀ i, n i ≤ m i) : Subjects u w m y D s := by
  refine { h with made := fun i => ?_ }
  obtain ⟨j, hj, hy⟩ := h.made i
  exact ⟨j, Nat.lt_of_lt_of_le hj (hm i), hy⟩

lemma onward (h : Subjects u w n y D s) (hw : Onward w x) : Subjects u x n y D s :=
  { h with same := h.same.mono hw }

lemma matched (h : Subjects u w n y D s) (hm : Matched u n w D x E S B) :
    Subjects u x n y E s := by
  refine ⟨h.made, fun i => ?_, h.same.mono hm.onward⟩
  obtain ⟨j, hj, hy⟩ := h.made i
  exact (hm.keeps i _ (.inr hy.generated) fun _ hi => hi.unique hy ▸ hj).trans (h.value i)

lemma aside {D' : Side → Meaning} (h : Subjects u w n y D s)
    (hD : ∀ i, (D i).Beside u (n i) (D' i)) : Subjects u w n y D' s := by
  refine { h with value := fun i => ?_ }
  obtain ⟨j, hj, hy⟩ := h.made i
  exact ((hD i).of_made hy hj).trans (h.value i)

lemma bind (h : Subjects u w n y D s) (hz : ∀ i, u.names.Made (z i) (m i))
    (hm : ∀ i, n i ≤ m i) : Subjects u w n y (fun i => (D i).bind (z i) (t i)) s := by
  refine { h with value := fun i => (Meaning.bind_of_ne ?_).trans (h.value i) }
  obtain ⟨j, hj, hy⟩ := h.made i
  intro heq
  have := (heq ▸ hy).unique (hz i)
  have := hm i
  omega

lemma new (hz : ∀ i, u.names.Made (z i) (m i)) (ht : SameValue w t) :
    Subjects u w (fun i => m i + 1) z (fun i => (D i).bind (z i) (t i)) t :=
  ⟨fun i => ⟨m i, Nat.lt_succ_self _, hz i⟩, fun _ => Meaning.bind_self, ht⟩

lemma agrees (h : Subjects u w n y D s) (hw : Abreast w) (he : ∀ i, (e i).kind = .var (y i)) :
    Agrees u w D e := .var hw he h.value h.same

end Subjects

lemma SameValue.unboxed (h : SameValue w s) : SameValue w fun i => (s i).unboxed := by
  have h : Same (w .left) (w .right) (s .left) (s .right) := h
  change Same (w .left) (w .right) (s .left).unboxed (s .right).unboxed
  generalize s .left = a at h
  generalize s .right = b at h
  cases h.twin.heads with
  | box hinner => exact ⟨hinner, h.left.unbox, h.right.unbox⟩
  | _ => exact h

/-- A part of a pattern judges the value, or what a split by union member hands on of it. -/
theorem Concurs.split {p : Pattern} {L : Side → Nat → Name → Expr → Prop} (hw : Abreast w)
    (h : ∀ i, p.SplitShape u.names (n i) (y i) (L i) (e i)) (hv : Subjects u w n y D s)
    (hD : SameNames u w S' D) (hfail : ∀ i, (fail i).Below u (n i))
    (hL : ∀ x D' s' m z body, Abreast x → Onward w x → (∀ i, n i ≤ m i) → SameNames u x S' D' →
      Subjects u x m z D' s' → (∀ i, L i (m i) (z i) (body i)) →
      Concurs u m x D' body succ fail S B) : Concurs u n w D e succ fail S B := by
  simp only [Pattern.SplitShape] at h
  by_cases hp : p.inspects = true
  · simp only [hp, if_true] at h
    choose part m value c body hm hpart hbody hvalue hc he using h
    intro l v hends
    choose t x hk hrest using fun i => (hends i).case (hw.whole i) (he i) (hc i)
    obtain ⟨hx, hsame⟩ := hv.agrees hw hvalue t x hk
    have hon : Onward w x := fun i => (hk i).framed
    have hm' : ∀ i, n i ≤ m i + 1 := fun i => Nat.le_succ_of_le (hm i)
    have hdecided := hL x _ _ (fun i => m i + 1) part body hx hon hm'
      ((hD.onward hon).bind fun i => (hpart i).generated) (.new hpart hsame.unboxed) hbody l v hrest
    exact ((hdecided.mono hm' fun _ => id).aside (fun i => .bind (hpart i) (hm i)) hfail).onward hon
  · simp only [hp] at h
    exact hL w D s n y e hw (.refl w) (fun _ => Nat.le_refl _) hD hv h

/-- Code that can fall through to what is bound as a thunk. -/
theorem Concurs.fallThrough {L : Side → Nat → Expr → Expr → Prop} (hw : Abreast w)
    (h : ∀ i, (e i).FailingShape u.names (n i) (later i) (L i))
    (hlater : ∀ i, (later i).Below u (n i))
    (hL : ∀ (z : Side → Name) (t : Side → Term) (m : Side → Nat) (next body : Side → Expr),
      (∀ i, n i ≤ m i) → (∀ i, u.names.Made (z i) (m i)) → (∀ i, (next i).IsForce (z i)) →
      (∀ i, L i (m i + 1) (next i) (body i)) →
      Concurs u (m · + 1) w (fun i => (D i).bind (z i) (t i)) body succ next S B) :
    Concurs u n w D e succ later S B := by
  choose z m thunk next body hm hz hthunk hnext hbody he using h
  intro l v hends
  choose t ht hrest using fun i => (hends i).thunk (hw.whole i) (he i) (hthunk i) (hlater i)
  rcases hL z t m next body hm hz hnext hbody l v hrest with ⟨x, E, hm', hends⟩ |
    ⟨x, hx, hon, hends⟩
  · exact .inl ⟨x, E, (hm'.mono (fun i => Nat.le_succ_of_le (hm i)) fun _ => id).aside
      fun i => .bind (hz i) (hm i), hends⟩
  · refine .inr ⟨x, hx, hon, fun i => ?_⟩
    exact (hends i).force (hnext i) Meaning.bind_self ((ht i).mono (hon i))

end Residual
