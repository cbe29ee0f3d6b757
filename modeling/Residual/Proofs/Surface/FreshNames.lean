import Mathlib.Data.List.Forall2
import Residual.Proofs.Surface.Shapes

/-!
Names that a store makes.

A made name ends in its number, whatever its hint is, and starts with a space, which no text of a
program does. Main statement: among all names that a store gives out in a row, a made one is given
out once. Numbers and indices have no bound here, so the store never runs out of them.
-/

namespace Residual

/-- What a store is asked for: a name of its own, or the name of a text. -/
inductive NameCall where
  | fresh (hint : String)
  | name (s : String)
deriving DecidableEq

namespace NameCall

def run : NameCall → Build Name
  | .fresh hint => Build.fresh hint
  | .name s => Build.name s

/-- The names that are given out for calls in a row, and the store after them. -/
def runAll (calls : List NameCall) (st : Store) : List Name × Store := (calls.mapM run).run st

/-- A text that is asked for does not start with a space. -/
def Spelled : NameCall → Prop
  | .fresh _ => True
  | .name s => s.toList.head? ≠ some ' '

instance : DecidablePred Spelled
  | .fresh _ => .isTrue trivial
  | .name s => inferInstanceAs (Decidable (s.toList.head? ≠ some ' '))

/-- The name is what the call asks for; one that was made has the number `n` or a later one. -/
def Answered (t : Names) (n : Nat) (x : Name) : NameCall → Prop
  | .fresh _ => ∃ i, n ≤ i ∧ t.Made x i
  | .name s => t.table.entries[x.index]? = some s

variable {t u : Names} {n m : Nat} {x y : Name} {c d : NameCall}

/-- Names keep their texts while the table grows. -/
theorem Answered.mono (h : c.Answered t n x) (ht : t.table.Extends u.table) (hm : m ≤ n) :
    c.Answered u m x := by
  cases c with
  | fresh hint =>
    obtain ⟨i, hi, text, hx⟩ := h
    exact ⟨i, Nat.le_trans hm hi, text, ht.getElem? hx⟩
  | name s => exact ht.getElem? h

lemma Answered.not_generated {s : String} (h : (NameCall.name s).Answered t n x)
    (hs : (NameCall.name s).Spelled) : ¬ t.Generated x := by
  rintro ⟨text, htext, hspace⟩
  cases Option.some.inj (h.symm.trans htext)
  exact hs hspace

/-- A made name differs from all that are given out later. -/
lemma Answered.ne_later {i : Nat} (hx : t.Made x i) (hy : d.Answered t n y) (hi : i < n)
    (hd : d.Spelled) : x ≠ y := by
  rintro rfl
  cases d with
  | fresh =>
    obtain ⟨j, hj, hmade⟩ := hy
    exact absurd (hx.unique hmade) (by omega)
  | name => exact hy.not_generated hd hx.generated

/-- One call: the table grows, and the number of a made name is used up. -/
lemma run_answered (c : NameCall) (st : Store) {x : Name} {st' : Store}
    (h : c.run.run st = (x, st')) : st.names.table.Extends st'.names.table ∧
      st.nextFresh ≤ st'.nextFresh ∧ c.Answered st'.names st.nextFresh x ∧
      ∀ hint, c = .fresh hint → st'.names.Made x st.nextFresh ∧ st.nextFresh < st'.nextFresh := by
  cases c with
  | fresh hint =>
    have hst' : st' = ((Build.fresh hint).run st).2 := (congrArg (·.2) h).symm
    have hx : x = ((Build.fresh hint).run st).1 := (congrArg (·.1) h).symm
    have hmade : st'.names.Made x st.nextFresh := by
      rw [hst', hx]
      exact ⟨hint, Store.getElem?_name { st with nextFresh := st.nextFresh + 1 } _⟩
    have hnext : st'.nextFresh = st.nextFresh + 1 := by rw [hst']; rfl
    refine ⟨?_, by omega, ⟨_, Nat.le_refl _, hmade⟩, fun _ _ => ⟨hmade, by omega⟩⟩
    rw [hst']
    exact Interner.extends_intern ..
  | name s =>
    have hst' : st' = ((Build.name s).run st).2 := (congrArg (·.2) h).symm
    have hx : x = ((Build.name s).run st).1 := (congrArg (·.1) h).symm
    have hnext : st'.nextFresh = st.nextFresh := by rw [hst']; rfl
    refine ⟨?_, by omega, ?_, fun _ hc => NameCall.noConfusion hc⟩
    · rw [hst']
      exact Interner.extends_intern ..
    · rw [hst', hx]
      exact Store.getElem?_name st s

lemma runAll_cons (c : NameCall) (calls : List NameCall) (st : Store) :
    runAll (c :: calls) st = ((c.run.run st).1 :: (runAll calls (c.run.run st).2).1,
      (runAll calls (c.run.run st).2).2) := by
  simp only [runAll, List.mapM_cons]
  rfl

/-- Calls in a row: what is given out answers the calls in the store after all of them. -/
lemma runAll_answered (calls : List NameCall) (st : Store) :
    st.names.table.Extends (runAll calls st).2.names.table ∧
      List.Forall₂ (fun c x => c.Answered (runAll calls st).2.names st.nextFresh x) calls
        (runAll calls st).1 := by
  induction calls generalizing st with
  | nil => exact ⟨.refl _, .nil⟩
  | cons c calls ih =>
    obtain ⟨hgrows, hnext, hanswered, -⟩ := run_answered c st rfl
    obtain ⟨hrest, hanswers⟩ := ih (c.run.run st).2
    rw [runAll_cons]
    exact ⟨hgrows.trans hrest, .cons (hanswered.mono hrest (Nat.le_refl _))
      (hanswers.imp fun _ _ h => h.mono (.refl _) hnext)⟩

lemma length_runAll (calls : List NameCall) (st : Store) :
    (runAll calls st).1.length = calls.length :=
  (runAll_answered calls st).2.length_eq.symm

/-- Of two calls in a row, one of which makes its name. -/
lemma pairwise_runAll (calls : List NameCall) (st : Store) (h : ∀ c ∈ calls, c.Spelled) :
    (calls.zip (runAll calls st).1).Pairwise fun a b =>
      (∃ hint, a.1 = .fresh hint) ∨ (∃ hint, b.1 = .fresh hint) → a.2 ≠ b.2 := by
  induction calls generalizing st with
  | nil => exact .nil
  | cons c calls ih =>
    obtain ⟨hc, hcalls⟩ := List.forall_mem_cons.1 h
    obtain ⟨-, -, hanswered, hfresh⟩ := run_answered c st rfl
    obtain ⟨hgrows, hanswers⟩ := runAll_answered calls (c.run.run st).2
    rw [runAll_cons]
    refine .cons (fun (d, y) hd hone => ?_) (ih _ hcalls)
    have hy := List.forall₂_iff_zip.1 hanswers |>.2 hd
    cases c with
    | fresh hint =>
      obtain ⟨⟨text, hmade⟩, hlt⟩ := hfresh hint rfl
      exact Answered.ne_later ⟨text, hgrows.getElem? hmade⟩ hy hlt
        (hcalls d (List.of_mem_zip hd).1)
    | name s =>
      rcases hone with ⟨_, hmake⟩ | ⟨hint, hmake⟩
      · cases hmake
      · -- the other name is made, so it starts with a space
        cases hmake
        obtain ⟨_, -, hmade⟩ := hy
        rintro rfl
        exact (hanswered.mono hgrows (Nat.le_refl _)).not_generated hc hmade.generated

/-- Whatever a store is asked for, each call gives out a name, and one that is made for a call is
given out for no other. The hints may be any texts, and the store may have been used before. -/
theorem fresh_ne (calls : List NameCall) (st : Store) (h : ∀ c ∈ calls, c.Spelled) :
    (runAll calls st).1.length = calls.length ∧
      ∀ (i j : Nat) (hint : String) (x y : Name), i ≠ j → calls[i]? = some (.fresh hint) →
        (runAll calls st).1[i]? = some x → (runAll calls st).1[j]? = some y → x ≠ y := by
  have hlength := length_runAll calls st
  refine ⟨hlength, fun i j hint x y hij hcall hx hy => ?_⟩
  have hpairs := List.pairwise_iff_getElem.1 (pairwise_runAll calls st h)
  obtain ⟨hi, hcall⟩ := List.getElem?_eq_some_iff.1 hcall
  obtain ⟨hi', hx⟩ := List.getElem?_eq_some_iff.1 hx
  obtain ⟨hj, hy⟩ := List.getElem?_eq_some_iff.1 hy
  rcases Nat.lt_or_gt_of_ne hij with hlt | hlt
  · have hne := hpairs i j (by simp; omega) (by simp; omega) hlt
    simp only [List.getElem_zip, hcall, hx, hy] at hne
    exact hne (.inl ⟨hint, rfl⟩)
  · have hne := hpairs j i (by simp; omega) (by simp; omega) hlt
    simp only [List.getElem_zip, hcall, hx, hy] at hne
    exact (hne (.inr ⟨hint, rfl⟩)).symm

/-- Hints and texts that look like made names, asked for more than once. -/
def lookalikes : List NameCall :=
  [.fresh "x", .name "x_0", .fresh " x_0", .name "_ x_0_1", .fresh "x_1", .name "x_0", .fresh "x"]

theorem fresh_ne_lookalikes :
    (∀ c ∈ lookalikes, c.Spelled) ∧ (runAll lookalikes {}).1.length = 7 ∧
      ∀ (i j : Nat) (hint : String) (x y : Name), i ≠ j → lookalikes[i]? = some (.fresh hint) →
        (runAll lookalikes {}).1[i]? = some x → (runAll lookalikes {}).1[j]? = some y → x ≠ y := by
  have hspelled : ∀ c ∈ lookalikes, c.Spelled := by decide
  exact ⟨hspelled, fresh_ne lookalikes {} hspelled⟩

end NameCall

end Residual
