import Mathlib.Algebra.Order.Ring.Int
import Mathlib.Data.Int.Bitwise
import Residual.Proofs.Eval.Exec

/-!
What the exact result of an operation on integers is.

`Exact` says so without the operation: a quotient by its remainder, the result of a bit operation
bit by bit. Folding gives the literal of the result, if it is in the range of the type.
-/

namespace Residual

open Number

/-! ### Bits of integers -/

/-- The bits of the word of an integer are the lowest ones of the integer. -/
theorem getLsbD_ofInt (w : Nat) (x : Int) (i : Nat) :
    (BitVec.ofInt w x).getLsbD i = (decide (i < w) && x.testBit i) := by
  cases x with
  | ofNat m => exact BitVec.getLsbD_ofNat w m i
  | negSucc m =>
    rw [BitVec.ofInt_negSucc_eq_not_ofNat, BitVec.getLsbD_not, BitVec.getLsbD_ofNat]
    by_cases h : i < w <;> simp [h, Int.testBit]

/-- The bits of an integer beyond its size are all like its sign. -/
lemma testBit_of_size_le {x : Int} {k i : Nat} (hmin : -2 ^ k ≤ x) (hmax : x < 2 ^ k)
    (hi : k ≤ i) : x.testBit i = decide (x < 0) := by
  have hpow : 2 ^ k ≤ 2 ^ i := Nat.pow_le_pow_right (by decide) hi
  cases x with
  | ofNat m =>
    have hm : m < 2 ^ k := Int.ofNat_lt.1 (by simpa using hmax)
    simp [Int.testBit, Nat.testBit_lt_two_pow (hm.trans_le hpow)]
  | negSucc m =>
    have hm : m < 2 ^ k := by
      have : (m : Int) + 1 ≤ 2 ^ k := by
        rw [Int.negSucc_eq] at hmin
        omega
      exact_mod_cast this
    simp [Int.testBit, Nat.testBit_lt_two_pow (hm.trans_le hpow), Int.negSucc_lt_zero]

namespace IntTy

variable {t : IntTy} {v x y : Int}

lemma width_pos (t : IntTy) : 0 < t.width := by cases t <;> decide

lemma fits_iff_of_signed (h : t.signed = true) :
    t.Fits v ↔ -2 ^ (t.width - 1) ≤ v ∧ v < 2 ^ (t.width - 1) := by
  have htwo : (twoPow (t.width - 1) : Int) = 2 ^ (t.width - 1) := by simp [twoPow]
  rw [Fits, IntTy.min, IntTy.max, if_pos h, if_pos h, htwo, Int.le_sub_one_iff]

lemma fits_iff_of_unsigned (h : t.signed = false) : t.Fits v ↔ 0 ≤ v ∧ v < 2 ^ t.width := by
  have htwo : (twoPow t.width : Int) = 2 ^ t.width := by simp [twoPow]
  rw [Fits, IntTy.min, IntTy.max, h, if_neg Bool.false_ne_true, if_neg Bool.false_ne_true, htwo,
    Int.le_sub_one_iff]

lemma ofInt_ofBits (t : IntTy) (b : BitVec t.width) : BitVec.ofInt t.width (t.ofBits b) = b := by
  rw [ofBits]
  split
  · exact BitVec.ofInt_toInt
  · simp

lemma fits_ofBits (t : IntTy) (b : BitVec t.width) : t.Fits (t.ofBits b) := by
  cases h : t.signed with
  | true =>
    rw [fits_iff_of_signed h, ofBits, if_pos h]
    exact ⟨b.le_toInt, b.toInt_lt⟩
  | false =>
    rw [fits_iff_of_unsigned h, ofBits, if_neg (by simp [h])]
    exact ⟨Int.natCast_nonneg _, by exact_mod_cast b.isLt⟩

lemma ofBits_ofInt (h : t.Fits v) : t.ofBits (BitVec.ofInt t.width v) = v := by
  cases hs : t.signed with
  | true =>
    obtain ⟨hmin, hmax⟩ := (fits_iff_of_signed hs).1 h
    rw [ofBits, if_pos hs]
    exact BitVec.toInt_ofInt_eq_self t.width_pos hmin hmax
  | false =>
    obtain ⟨hmin, hmax⟩ := (fits_iff_of_unsigned hs).1 h
    rw [ofBits, if_neg (by simp [hs]), BitVec.toNat_ofInt]
    rw [Int.toNat_of_nonneg (Int.emod_nonneg _ (by exact_mod_cast (Nat.two_pow_pos _).ne'))]
    exact Int.emod_eq_of_lt hmin (by exact_mod_cast hmax)

/-- A value of a type is known by its lowest bits. -/
theorem eq_ofBits_iff (hv : t.Fits v) (b : BitVec t.width) :
    v = t.ofBits b ↔ ∀ i < t.width, v.testBit i = b.getLsbD i := by
  constructor
  · intro h i hi
    rw [← t.ofInt_ofBits b, ← h, getLsbD_ofInt, decide_eq_true hi, Bool.true_and]
  · intro h
    rw [← ofBits_ofInt hv]
    refine congrArg _ (BitVec.eq_of_getLsbD_eq fun i hi => ?_)
    rw [getLsbD_ofInt, decide_eq_true hi, Bool.true_and, h i hi]

/-- The bits of a value above its type are all like its sign. -/
theorem Fits.testBit_of_le (hv : t.Fits v) {i : Nat} (hi : t.width ≤ i) :
    v.testBit i = (t.signed && v.testBit (t.width - 1)) := by
  cases hs : t.signed with
  | true =>
    obtain ⟨hmin, hmax⟩ := (fits_iff_of_signed hs).1 hv
    rw [Bool.true_and, testBit_of_size_le hmin hmax (Nat.sub_le_of_le_add (by omega)),
      testBit_of_size_le hmin hmax (le_refl _)]
  | false =>
    obtain ⟨hmin, hmax⟩ := (fits_iff_of_unsigned hs).1 hv
    have hmin' : -2 ^ t.width ≤ v :=
      le_trans (Int.neg_nonpos_of_nonneg (pow_nonneg (by decide) _)) hmin
    rw [testBit_of_size_le hmin' hmax hi, Bool.false_and]
    simpa using hmin

end IntTy

/-! ### Exact results -/

/-- What stands between integers in a comparison. -/
def CompareOp.Rel : CompareOp → Int → Int → Prop
  | .lt, x, y => x < y
  | .le, x, y => x ≤ y
  | .eq, x, y => x = y
  | .ne, x, y => x ≠ y
  | .gt, x, y => x > y
  | .ge, x, y => x ≥ y

instance (op : CompareOp) (x y : Int) : Decidable (op.Rel x y) :=
  match op with
  | .lt => inferInstanceAs (Decidable (x < y))
  | .le => inferInstanceAs (Decidable (x ≤ y))
  | .eq => inferInstanceAs (Decidable (x = y))
  | .ne => inferInstanceAs (Decidable (x ≠ y))
  | .gt => inferInstanceAs (Decidable (x > y))
  | .ge => inferInstanceAs (Decidable (x ≥ y))

namespace Fold

variable {t : IntTy} {op : PrimOp} {args : List Term} {xs : List Int} {v x y : Int}

/-- The operands are integers; the type that a conversion is given comes before them. -/
inductive Integers : List Term → List Int → Prop
  | one {x : Int} (t : IntTy) (hx : t.Fits x) : Integers [.lit (.int t x hx)] [x]
  | two {x y : Int} (t t' : IntTy) (hx : t.Fits x) (hy : t'.Fits y) :
    Integers [.lit (.int t x hx), .lit (.int t' y hy)] [x, y]
  | convert {x : Int} (ty : Ty) (t : IntTy) (hx : t.Fits x) :
    Integers [.type ty, .lit (.int t x hx)] [x]

/-- The operation on integers is defined in a type, and `v` is its result. Division goes toward
zero, so the remainder has the sign of the dividend; it is smaller than the divisor, which
therefore is not zero. Of bits those of the type count. -/
def Exact (t : IntTy) : PrimOp → List Int → Int → Prop
  | .arith .add, [x, y], v => v = x + y
  | .arith .sub, [x, y], v => v = x - y
  | .arith .mul, [x, y], v => v = x * y
  | .arith .div, [x, y], v => (x - y * v).natAbs < y.natAbs ∧ 0 ≤ x * (x - y * v)
  | .arith .mod, [x, y], v => v.natAbs < y.natAbs ∧ 0 ≤ x * v ∧ y ∣ x - v
  | .bit .and, [x, y], v => ∀ i < t.width, v.testBit i = (x.testBit i && y.testBit i)
  | .bit .or, [x, y], v => ∀ i < t.width, v.testBit i = (x.testBit i || y.testBit i)
  | .bit .xor, [x, y], v => ∀ i < t.width, v.testBit i = (x.testBit i ^^ y.testBit i)
  | .bit .shiftLeft, [x, s], v => 0 ≤ s ∧ s < t.width ∧ v = x * 2 ^ s.toNat
  | .bit .shiftRight, [x, s], v =>
    0 ≤ s ∧ s < t.width ∧ v * 2 ^ s.toNat ≤ x ∧ x < (v + 1) * 2 ^ s.toNat
  | .unary .neg, [x], v => v = -x
  | .unary .bitNot, [x], v => ∀ i < t.width, v.testBit i = !x.testBit i
  | .convert, [x], v => v = x
  | _, _, _ => False

/-- A remainder is known by its size, its sign and what it is a remainder of. -/
lemma eq_tmod_iff : v = x.tmod y ∧ y ≠ 0 ↔ v.natAbs < y.natAbs ∧ 0 ≤ x * v ∧ y ∣ x - v := by
  have hsize (hy : y ≠ 0) : (x.tmod y).natAbs < y.natAbs := by
    rw [Int.natAbs_tmod]
    exact Nat.mod_lt _ (Int.natAbs_pos.2 hy)
  have hdvd : y ∣ x - x.tmod y := ⟨x.tdiv y, by rw [Int.tmod_def]; omega⟩
  constructor
  · rintro ⟨rfl, hy⟩
    refine ⟨hsize hy, ?_, hdvd⟩
    rcases Int.le_total 0 x with hx | hx
    · exact Int.mul_nonneg hx (Int.tmod_nonneg y hx)
    · have hneg := Int.tmod_nonneg y (Int.neg_nonneg_of_nonpos hx)
      rw [Int.neg_tmod] at hneg
      exact Int.mul_nonneg_of_nonpos_of_nonpos hx (Int.nonpos_of_neg_nonneg hneg)
  · -- Two remainders of one sign are less than `y` apart, and `y` divides their difference.
    rintro ⟨hv, hsign, hvdvd⟩
    have hy : y ≠ 0 := fun h => by simp [h] at hv
    refine ⟨?_, hy⟩
    have hclose : (v - x.tmod y).natAbs < y.natAbs := by
      have hsmall := hsize hy
      rcases Int.lt_trichotomy x 0 with hx | rfl | hx
      · have hneg := Int.tmod_nonneg y (Int.neg_nonneg_of_nonpos (Int.le_of_lt hx))
        rw [Int.neg_tmod] at hneg
        have hv0 : v ≤ 0 := Int.not_lt.1 fun h => by
          have := Int.mul_neg_of_neg_of_pos hx h
          omega
        omega
      · rw [Int.zero_tmod, Int.sub_zero]
        exact hv
      · have hpos := Int.tmod_nonneg y (Int.le_of_lt hx)
        have hv0 : 0 ≤ v := Int.not_lt.1 fun h => by
          have := Int.mul_neg_of_pos_of_neg hx h
          omega
        omega
    have hdiff : y ∣ v - x.tmod y := by
      have h := Int.dvd_sub hdvd hvdvd
      rwa [show x - x.tmod y - (x - v) = v - x.tmod y by omega] at h
    have hzero := Int.eq_zero_of_dvd_of_natAbs_lt_natAbs hdiff hclose
    omega

/-- A quotient is known by its remainder. -/
lemma eq_tdiv_iff :
    v = x.tdiv y ∧ y ≠ 0 ↔ (x - y * v).natAbs < y.natAbs ∧ 0 ≤ x * (x - y * v) := by
  have hiff := eq_tmod_iff (v := x - y * v) (x := x) (y := y)
  have hdvd : y ∣ x - (x - y * v) := ⟨v, by omega⟩
  simp only [hdvd, and_true] at hiff
  rw [← hiff, Int.tmod_def]
  refine and_congr_left fun hy => ?_
  constructor
  · rintro rfl
    rfl
  · intro h
    exact Int.eq_of_mul_eq_mul_left hy (by omega)

/-- A result goes bit by bit, and is in the range of its type for that. -/
def bitwise : PrimOp → Bool
  | .bit .and | .bit .or | .bit .xor | .unary .bitNot => true
  | _ => false

/-- The result of an operation on integers in a type. -/
def result? (t : IntTy) : PrimOp → List Int → Option Int
  | .arith op, [x, y] => exactArith op x y
  | .bit op, [x, y] => exactBit t op x y
  | .unary .neg, [x] => some (-x)
  | .unary .bitNot, [x] => some (t.ofBits (~~~BitVec.ofInt t.width x))
  | .convert, [x] => some x
  | _, _ => none

lemma exactArith_eq_some_iff {op : ArithOp} :
    exactArith op x y = some v ↔ Exact t (.arith op) [x, y] v := by
  cases op with
  | add | sub | mul => exact Option.some_inj.trans eq_comm
  | div =>
    refine Iff.trans ?_ eq_tdiv_iff
    rw [exactArith]
    split <;> simp [*, eq_comm]
  | mod =>
    refine Iff.trans ?_ eq_tmod_iff
    rw [exactArith]
    split <;> simp [*, eq_comm]

lemma map_shiftAmount?_eq_some_iff {f : Nat → Int} :
    (shiftAmount? t y).map f = some v ↔ 0 ≤ y ∧ y < t.width ∧ f y.toNat = v := by
  rw [shiftAmount?]
  split <;> rename_i h
  · simp [h.1, h.2]
  · exact ⟨nofun, fun h' => absurd ⟨h'.1, h'.2.1⟩ h⟩

lemma twoPow_eq (n : Nat) : (twoPow n : Int) = 2 ^ n := by simp [twoPow]

lemma fdiv_twoPow_eq_iff {n : Nat} :
    x.fdiv (twoPow n) = v ↔ v * 2 ^ n ≤ x ∧ x < (v + 1) * 2 ^ n := by
  have hpos : (0 : Int) < 2 ^ n := pow_pos (by decide) n
  rw [twoPow_eq, Int.fdiv_eq_ediv_of_nonneg x hpos.le, ← Int.le_ediv_iff_mul_le hpos,
    ← Int.ediv_lt_iff_lt_mul hpos]
  omega

/-- An integer made of bits is the one in the range that has these bits. -/
lemma some_ofBits_eq_some_iff (b : BitVec t.width) {f : Nat → Bool}
    (hf : ∀ i < t.width, b.getLsbD i = f i) :
    some (t.ofBits b) = some v ↔ (∀ i < t.width, v.testBit i = f i) ∧ t.Fits v := by
  rw [Option.some_inj, eq_comm]
  constructor
  · rintro rfl
    have hv := t.fits_ofBits b
    exact ⟨fun i hi => ((IntTy.eq_ofBits_iff hv b).1 rfl i hi).trans (hf i hi), hv⟩
  · rintro ⟨h, hv⟩
    exact (IntTy.eq_ofBits_iff hv b).2 fun i hi => (h i hi).trans (hf i hi).symm

lemma getLsbD_ofInt_of_lt {i : Nat} (hi : i < t.width) :
    (BitVec.ofInt t.width x).getLsbD i = x.testBit i := by
  rw [getLsbD_ofInt, decide_eq_true hi, Bool.true_and]

lemma exactBit_eq_some_iff {op : BitOp} : exactBit t op x y = some v ↔
    Exact t (.bit op) [x, y] v ∧ (bitwise (.bit op) = true → t.Fits v) := by
  cases op with
  | and =>
    refine (some_ofBits_eq_some_iff _ (f := fun i => x.testBit i && y.testBit i)
      fun i hi => ?_).trans (by simp [Exact, bitwise])
    rw [BitVec.getLsbD_and, getLsbD_ofInt_of_lt hi, getLsbD_ofInt_of_lt hi]
  | or =>
    refine (some_ofBits_eq_some_iff _ (f := fun i => x.testBit i || y.testBit i)
      fun i hi => ?_).trans (by simp [Exact, bitwise])
    rw [BitVec.getLsbD_or, getLsbD_ofInt_of_lt hi, getLsbD_ofInt_of_lt hi]
  | xor =>
    refine (some_ofBits_eq_some_iff _ (f := fun i => x.testBit i ^^ y.testBit i)
      fun i hi => ?_).trans (by simp [Exact, bitwise])
    rw [BitVec.getLsbD_xor, getLsbD_ofInt_of_lt hi, getLsbD_ofInt_of_lt hi]
  | shiftLeft =>
    refine map_shiftAmount?_eq_some_iff.trans ?_
    simp only [Exact, bitwise, twoPow_eq, eq_comm, reduceCtorEq, false_imp_iff, and_true]
  | shiftRight =>
    refine map_shiftAmount?_eq_some_iff.trans ?_
    simp only [Exact, bitwise, fdiv_twoPow_eq_iff, reduceCtorEq, false_imp_iff, and_true]

/-- Operations give their exact results. -/
theorem result?_eq_some_iff :
    result? t op xs = some v ↔ Exact t op xs v ∧ (bitwise op = true → t.Fits v) := by
  unfold result?
  split
  next op x y => exact (exactArith_eq_some_iff (t := t)).trans (by simp [bitwise])
  next op x y => exact exactBit_eq_some_iff
  next x => simp [Exact, bitwise, eq_comm]
  next x =>
    refine (some_ofBits_eq_some_iff _ (f := fun i => !x.testBit i)
      fun i hi => ?_).trans (by simp [Exact, bitwise])
    rw [BitVec.getLsbD_not, decide_eq_true hi, getLsbD_ofInt_of_lt hi, Bool.true_and]
  next x => simp [Exact, bitwise, eq_comm]
  next h₁ h₂ h₃ h₄ h₅ =>
    have hnone : ¬ Exact t op xs v := by
      unfold Exact
      split <;> simp_all
    simp [hnone]

lemma int?_eq_some_iff {l : Literal} :
    Literal.int? t v = some l ↔ ∃ fits : t.Fits v, l = .int t v fits := by
  rw [Literal.int?]
  split
  next h => simp [h, eq_comm]
  next h => simp [h]

/-- The type of a result is that of the first operand, if it is neither compared nor converted. -/
theorem eq_of_resultType {op : PrimOp} {a r : Prim} {rest : List (Option Prim)}
    (h : resultType op (some a :: rest) = some r) (hcompare : ∀ o, op ≠ .compare o)
    (hconvert : op ≠ .convert) : a = r := by
  unfold resultType at h
  split at h <;> grind

/-- An operation on integers is done in the type of its result. -/
theorem fold_eq_result? (hxs : Integers args xs) (hcount : args.length = op.operandCount)
    (hr : resultType op (args.map fun a => a.ty.prim?) = some (.int t)) :
    fold op args (.int t) = (result? t op xs).bind (Literal.int? t) := by
  have hcompare : ∀ o, op ≠ .compare o := by
    rintro o rfl
    unfold resultType at hr
    split at hr <;> simp_all
  cases hxs with
  | one t₁ hx =>
    cases op with
    | unary op =>
      cases eq_of_resultType hr hcompare nofun
      cases op <;> rfl
    | _ => cases hcount
  | two t₁ t₂ hx hy =>
    cases op with
    | arith op | bit op =>
      cases eq_of_resultType hr hcompare nofun
      rfl
    | compare op => exact absurd rfl (hcompare op)
    | convert => rfl
    | unary op => cases hcount
  | convert ty t₁ hx =>
    cases op with
    | unary op => cases hcount
    | _ => rfl

/-! ### Comparisons -/

lemma cmp_int (hx : t.Fits x) (hy : t.Fits y) :
    (Literal.int t x hx).cmp (.int t y hy) = Ord.compare x y := by
  simp only [Literal.cmp, Literal.code, Code.cmp, lt_irrefl, if_false]
  rcases Int.lt_trichotomy x y with h | rfl | h
  · rw [if_pos h, compare_lt_iff_lt.2 h]
  · simp
  · rw [if_neg (by omega), if_pos h, compare_gt_iff_gt.2 h]

lemma holds_compare {op : CompareOp} : op.holds (Ord.compare x y) = decide (op.Rel x y) := by
  rw [Bool.eq_iff_iff, decide_eq_true_iff]
  rcases Int.lt_trichotomy x y with h | rfl | h
  · rw [compare_lt_iff_lt.2 h]
    cases op <;> simp [CompareOp.holds, CompareOp.Rel] <;> omega
  · rw [compare_eq_iff_eq.2 rfl]
    cases op <;> simp [CompareOp.holds, CompareOp.Rel]
  · rw [compare_gt_iff_gt.2 h]
    cases op <;> simp [CompareOp.holds, CompareOp.Rel] <;> omega

/-- A comparison of integers folds to its truth. -/
theorem fold_compare {op : CompareOp} (hx : t.Fits x) (hy : t.Fits y) {r : Prim} :
    fold (.compare op) [.lit (.int t x hx), .lit (.int t y hy)] r =
      some (.bool (decide (op.Rel x y))) := by
  change (some ((Literal.int t x hx).cmp (.int t y hy))).map
    (fun o => Literal.bool (op.holds o)) = _
  rw [cmp_int, Option.map_some, holds_compare]

/-! ### Types of results -/

lemma type_of_int? {l : Literal} (h : Literal.int? t v = some l) : l.type = .int t := by
  obtain ⟨-, rfl⟩ := int?_eq_some_iff.1 h
  rfl

lemma type_of_ofReal? {p : Prim} {a : Word64} {l : Literal} (h : Literal.ofReal? p a = some l) :
    l.type = p := by
  unfold Literal.ofReal? at h
  split at h <;> cases h <;> rfl

lemma type_of_arith {op : ArithOp} {a b l : Literal} (h : arith op a b = some l) :
    l.type = a.type := by
  unfold arith at h
  split at h
  · obtain ⟨_, -, h⟩ := Option.bind_eq_some_iff.1 h
    exact type_of_int? h
  · obtain ⟨_, -, h⟩ := Option.bind_eq_some_iff.1 h
    obtain ⟨_, -, h⟩ := Option.bind_eq_some_iff.1 h
    obtain ⟨_, -, h⟩ := Option.bind_eq_some_iff.1 h
    exact type_of_ofReal? h

lemma type_of_bit {op : BitOp} {a b l : Literal} (h : bit op a b = some l) :
    l.type = a.type := by
  unfold bit at h
  split at h
  · obtain ⟨_, -, h⟩ := Option.bind_eq_some_iff.1 h
    exact type_of_int? h
  · split at h <;> cases h <;> rfl
  · cases h

lemma type_of_unary {op : UnaryOp} {a l : Literal} (h : unary op a = some l) :
    l.type = a.type := by
  unfold unary at h
  split at h
  · split at h
    · exact type_of_int? h
    · exact type_of_int? h
    · cases h
  · split at h <;> cases h
    rfl
  · obtain ⟨x, -, h⟩ := Option.bind_eq_some_iff.1 h
    cases op with
    | not | bitNot => cases h
    | _ => exact type_of_ofReal? h

lemma type_of_convert {target : Prim} {a l : Literal} (h : convert target a = some l) :
    l.type = target := by
  unfold convert at h
  split at h
  · exact type_of_int? h
  · obtain ⟨_, -, h⟩ := Option.bind_eq_some_iff.1 h
    obtain ⟨_, -, h⟩ := Option.bind_eq_some_iff.1 h
    exact type_of_int? h
  · exact type_of_ofReal? h
  · obtain ⟨_, -, h⟩ := Option.bind_eq_some_iff.1 h
    exact type_of_ofReal? h

/-- What folding gives has the type of the operation. -/
theorem type_of_fold {r : Prim} {l : Literal}
    (hr : resultType op (args.map fun a => a.ty.prim?) = some r) (h : fold op args r = some l) :
    l.type = r := by
  unfold fold at h
  split at h
  next op a b => exact (type_of_arith h).trans (eq_of_resultType hr nofun nofun)
  next op a b =>
    obtain ⟨o, -, rfl⟩ := Option.map_eq_some_iff.1 h
    change (if a.type == b.type then some Prim.bool else none) = some r at hr
    exact Option.some.inj (Option.ite_none_right_eq_some.1 hr).2
  next op a b => exact (type_of_bit h).trans (eq_of_resultType hr nofun nofun)
  next op a => exact (type_of_unary h).trans (eq_of_resultType hr nofun nofun)
  next a => exact type_of_convert h
  · cases h

end Fold

end Residual
