import Residual.Proofs.Typed.Content
import Residual.Proofs.Typed.RenameGrowth

/-!
What the symbols of a table tell apart.

A value that was entered is found under its symbol, perhaps in the form it was first entered in.
Later entries do not change this. So two values get one symbol exactly if they are equal, and for
environments that is to have the same content.
-/

namespace Residual

namespace Interner

variable {α : Type} [BEq α] [EquivBEq α]

lemma symbol?_intern (t : Interner α) (a : α) :
    (t.intern a).2.symbol? a = some (t.intern a).1.symbol := by
  cases hs : t.symbol? a with
  | some s =>
    obtain ⟨h₁, h₂⟩ := intern_of_symbol?_eq_some hs
    rw [h₁, hs, (get?_eq_some_iff.1 h₂).1]
  | none =>
    have hnone : t.entries.findIdx? (· == a) = none := hs
    rw [intern_of_symbol?_eq_none hs, symbol?, List.findIdx?_append, hnone]
    simp [size]

omit [EquivBEq α] in
lemma Extends.symbol? {t u : Interner α} (h : t.Extends u) {a : α} {n : Nat}
    (hn : t.symbol? a = some n) : u.symbol? a = some n := by
  obtain ⟨rest, hrest⟩ := h
  have hn' : t.entries.findIdx? (· == a) = some n := hn
  rw [Interner.symbol?, ← hrest, List.findIdx?_append, hn']
  rfl

/-- A value is entered under its symbol, perhaps in another form. -/
theorem getElem?_intern (t : Interner α) (a : α) :
    ∃ x, (t.intern a).2.entries[(t.intern a).1.symbol]? = some x ∧ x == a := by
  obtain ⟨hlt, hx, -⟩ := List.findIdx?_eq_some_iff_getElem.1 (t.symbol?_intern a)
  exact ⟨_, List.getElem?_eq_getElem hlt, hx⟩

lemma symbol?_congr (t : Interner α) {a b : α} (h : a == b) : t.symbol? a = t.symbol? b := by
  unfold Interner.symbol?
  congr 1
  funext x
  exact BEq.congr_right h

/-- Entering two values, the second one later, gives the same symbol exactly if they are equal. -/
theorem symbol_eq_iff {t u : Interner α} {a b : α} (h : (t.intern a).2.Extends u) :
    (t.intern a).1.symbol = (u.intern b).1.symbol ↔ a == b := by
  have ha := h.symbol? (t.symbol?_intern a)
  have hb := u.symbol?_intern b
  constructor
  · intro heq
    have ha' := (u.extends_intern b).symbol? ha
    rw [heq] at ha'
    obtain ⟨hlt, hx, -⟩ := List.findIdx?_eq_some_iff_getElem.1 ha'
    obtain ⟨_, hy, -⟩ := List.findIdx?_eq_some_iff_getElem.1 hb
    exact BEq.trans (BEq.symm hx) hy
  · intro hab
    have hb' := (u.extends_intern b).symbol? ((u.symbol?_congr hab).symm.trans ha)
    rw [hb] at hb'
    exact (Option.some.inj hb').symm

/-- Among entries of which no two are equal, equal ones have one place. -/
theorem Distinct.eq_iff {t : Interner α} (h : t.Distinct) {m n : Nat} {a b : α}
    (ha : t.entries[m]? = some a) (hb : t.entries[n]? = some b) : m = n ↔ a == b := by
  constructor
  · rintro rfl
    cases ha.symm.trans hb
    exact BEq.rfl
  · intro hab
    obtain ⟨hm, rfl⟩ := List.getElem?_eq_some_iff.1 ha
    obtain ⟨hn, rfl⟩ := List.getElem?_eq_some_iff.1 hb
    rcases Nat.lt_trichotomy m n with hlt | heq | hlt
    · exact absurd hab (List.pairwise_iff_getElem.1 h m n hm hn hlt)
    · exact heq
    · exact absurd (BEq.symm hab) (List.pairwise_iff_getElem.1 h n m hn hm hlt)

end Interner

section Content

/-- Environments are told apart by content. -/
local instance : BEq (Fields Term) := ⟨Fields.sameContent⟩

local instance : EquivBEq (Fields Term) where
  rfl := Fields.sameContent_iff.2 rfl
  symm h := Fields.sameContent_iff.2 (Fields.sameContent_iff.1 h).symm
  trans h k := Fields.sameContent_iff.2
    ((Fields.sameContent_iff.1 h).trans (Fields.sameContent_iff.1 k))

lemma EnvTable.symbol_eq_iff {t u : EnvTable} {m n : Fields Term}
    (h : (t.enter m).2.Extends u) :
    (t.enter m).1.symbol = (u.enter n).1.symbol ↔ Fields.code m = Fields.code n :=
  (Interner.symbol_eq_iff h).trans Fields.sameContent_iff

lemma EnvTable.getElem?_enter (t : EnvTable) (m : Fields Term) :
    ∃ x, (t.enter m).2.entries[(t.enter m).1.symbol]? = some x ∧ Fields.code x = Fields.code m := by
  obtain ⟨x, hx, hsame⟩ := Interner.getElem?_intern t m
  exact ⟨x, hx, Fields.sameContent_iff.1 hsame⟩

/-- No content stands in the table twice. -/
def EnvTable.Distinct (t : EnvTable) : Prop := Interner.Distinct t

lemma EnvTable.Distinct.enter {t : EnvTable} (h : t.Distinct) (m : Fields Term) :
    (t.enter m).2.Distinct :=
  Interner.Distinct.intern h m

lemma EnvTable.Distinct.eq_iff {t : EnvTable} (h : t.Distinct) {i j : Nat} {m n : Fields Term}
    (hm : t.entries[i]? = some m) (hn : t.entries[j]? = some n) :
    i = j ↔ Fields.code m = Fields.code n :=
  (Interner.Distinct.eq_iff h hm hn).trans Fields.sameContent_iff

end Content

end Residual
