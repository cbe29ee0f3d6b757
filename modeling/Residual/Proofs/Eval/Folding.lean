import Residual.Proofs.Eval.ExactResults

/-!
Folding is exact.

What it gives has the type of the operation, and on integers it gives the exact result exactly where
there is one in the range of the type. A computation in words of 128 bits (`Wide`) leads to the same
literals: none of its steps wraps.
-/

namespace Residual

open Number

/-! ### Words of 128 bits -/

/-- A word that is wide enough for what becomes of operands of all types. -/
abbrev Wide := BitVec 128

namespace Wide

open Fold

variable {t : IntTy} {op : PrimOp} {xs : List Int} {v x y : Int}

def ofInt (x : Int) : Wide := BitVec.ofInt 128 x

/-- Arithmetic on words has no result where it would wrap. -/
def arith? : ArithOp → Wide → Wide → Option Wide
  | .add, a, b => if a.saddOverflow b then none else some (a + b)
  | .sub, a, b => if a.ssubOverflow b then none else some (a - b)
  | .mul, a, b => if a.smulOverflow b then none else some (a * b)
  | .div, a, b => if b = 0 ∨ a = .intMin 128 ∧ b = -1 then none else some (a.sdiv b)
  | .mod, a, b => if b = 0 ∨ a = .intMin 128 ∧ b = -1 then none else some (a.srem b)

/-- The bits of a type. -/
def mask (t : IntTy) : Wide := (1#128 <<< t.width) - 1#128

/-- The result of an operation, where shifts and operations on bits are not checked. -/
def result? (t : IntTy) : PrimOp → List Wide → Option Wide
  | .arith op, [a, b] => arith? op a b
  | .bit .and, [a, b] => some (a &&& b)
  | .bit .or, [a, b] => some (a ||| b)
  | .bit .xor, [a, b] => some (a ^^^ b)
  | .bit .shiftLeft, [a, b] => (shiftAmount? t b.toInt).map (a <<< ·)
  | .bit .shiftRight, [a, b] => (shiftAmount? t b.toInt).map a.sshiftRight
  | .unary .neg, [a] => if a.negOverflow then none else some (-a)
  | .unary .bitNot, [a] => some (if t.signed then ~~~a else mask t ^^^ a)
  | .convert, [a] => some a
  | _, _ => none

/-- The integer is that of a word. -/
def Holds (x : Int) : Prop := -2 ^ 127 ≤ x ∧ x < 2 ^ 127

instance : Decidable (Holds x) := inferInstanceAs (Decidable (_ ∧ _))

lemma toInt_ofInt (h : Holds x) : (ofInt x).toInt = x :=
  BitVec.toInt_ofInt_eq_self (by decide) h.1 h.2

/-- The word of an integer, if it has one. -/
def ofInt? (x : Int) : Option Wide := if Holds x then some (ofInt x) else none

lemma ofInt?_of_holds (h : Holds x) : ofInt? x = some (ofInt x) := if_pos h

/-- The integer is in the range of some type. -/
def Small (x : Int) : Prop := -2 ^ 63 ≤ x ∧ x < 2 ^ 64

lemma Small.holds (h : Small x) : Holds x := by
  obtain ⟨hmin, hmax⟩ := h
  exact ⟨by omega, by omega⟩

lemma small_of_fits (h : t.Fits x) : Small x := by
  have hmin : -2 ^ 63 ≤ t.min := by cases t <;> decide
  have hmax : t.max < 2 ^ 64 := by cases t <;> decide
  exact ⟨hmin.trans h.1, h.2.trans_lt hmax⟩

/-- A literal is in the range of a type, so its value has a word. -/
lemma bind_ofInt? {z : Int} :
    (ofInt? z).bind (fun a => Literal.int? t a.toInt) = Literal.int? t z := by
  rw [ofInt?]
  split
  next h => rw [Option.bind_some, toInt_ofInt h]
  next h =>
    rw [Literal.int?, dif_neg fun hz => h (small_of_fits hz).holds]
    rfl

lemma small_of_integers {args : List Term} (h : Integers args xs) : ∀ x ∈ xs, Small x := by
  cases h with
  | one t hx | convert ty t hx => simpa using small_of_fits hx
  | two t t' hx hy => simpa using ⟨small_of_fits hx, small_of_fits hy⟩

lemma eq_zero_iff (h : Holds y) : ofInt y = 0 ↔ y = 0 := by
  rw [← BitVec.toInt_inj, toInt_ofInt h]
  rfl

/-- Where the word would wrap, the integer has no word. -/
lemma ite_wraps {wraps : Bool} {b : Wide} {z : Int} (hwraps : wraps = true ↔ ¬ Holds z)
    (hb : wraps = false → b = ofInt z) : (if wraps then none else some b) = ofInt? z := by
  cases wraps with
  | true => exact (if_neg (hwraps.1 rfl)).symm
  | false => exact (congrArg some (hb rfl)).trans (ofInt?_of_holds (by simpa using hwraps)).symm

/-- Arithmetic on words is that of integers, up to results that have no word. -/
lemma arith?_ofInt (op : ArithOp) (hx : Small x) (hy : Small y) :
    arith? op (ofInt x) (ofInt y) = (exactArith op x y).bind ofInt? := by
  have hxi := toInt_ofInt hx.holds
  have hyi := toInt_ofInt hy.holds
  -- The one quotient that does not fit needs the least word, and small integers are above it.
  have hmin : ¬ (ofInt x = .intMin 128 ∧ ofInt y = -1) := fun h => by
    have := hx.1
    rw [← hxi, h.1] at this
    exact absurd this (by decide)
  cases op with
  -- Sums, differences and products overflow if the exact result does not fit.
  | add =>
    refine ite_wraps ?_ fun _ => (BitVec.ofInt_add x y).symm
    simp only [BitVec.saddOverflow, hxi, hyi, Holds, Bool.or_eq_true, decide_eq_true_iff]
    omega
  | sub =>
    refine ite_wraps ?_ fun _ => ?_
    · simp only [BitVec.ssubOverflow, hxi, hyi, Holds, Bool.or_eq_true, decide_eq_true_iff]
      omega
    · rw [BitVec.sub_eq_add_neg, ofInt, ofInt, ← BitVec.ofInt_neg, ← BitVec.ofInt_add]
      rfl
  | mul =>
    refine ite_wraps ?_ fun _ => (BitVec.ofInt_mul x y).symm
    simp only [BitVec.smulOverflow, hxi, hyi, Holds, Bool.or_eq_true, decide_eq_true_iff]
    omega
  -- Quotients and remainders of small integers fit.
  | div =>
    simp only [arith?, exactArith, hmin, or_false, eq_zero_iff hy.holds]
    split
    · rfl
    · have hq : Holds (x.tdiv y) := by
        have := Int.natAbs_tdiv_le_natAbs x y
        have := hx.1
        have := hx.2
        exact ⟨by omega, by omega⟩
      refine .trans (congrArg some (BitVec.eq_of_toInt_eq ?_)) (ofInt?_of_holds hq).symm
      rw [BitVec.toInt_sdiv, hxi, hyi, ofInt, BitVec.toInt_ofInt]
  | mod =>
    simp only [arith?, exactArith, hmin, or_false, eq_zero_iff hy.holds]
    split
    · rfl
    · have hr : Holds (x.tmod y) := by
        have := (Int.natAbs_tmod x y).trans_le (Nat.mod_le _ _)
        have := hx.1
        have := hx.2
        exact ⟨by omega, by omega⟩
      refine .trans (congrArg some (BitVec.eq_of_toInt_eq ?_)) (ofInt?_of_holds hr).symm
      rw [BitVec.toInt_srem, hxi, hyi, toInt_ofInt hr]

/-- What goes bit by bit in a type goes so beyond it, too. -/
lemma testBit_of_fits {z : Int} (f : Bool → Bool → Bool)
    (hf : t.signed = false → f false false = false) (hx : t.Fits x) (hy : t.Fits y) (hz : t.Fits z)
    (h : ∀ i < t.width, z.testBit i = f (x.testBit i) (y.testBit i)) (i : Nat) :
    z.testBit i = f (x.testBit i) (y.testBit i) := by
  rcases Nat.lt_or_ge i t.width with hi | hi
  · exact h i hi
  · rw [hx.testBit_of_le hi, hy.testBit_of_le hi, hz.testBit_of_le hi]
    cases hs : t.signed with
    | true => simpa using h (t.width - 1) (Nat.sub_lt t.width_pos Nat.one_pos)
    | false => simpa using (hf hs).symm

/-- A word made bit by bit is that of the integer made so. -/
lemma eq_ofInt {z : Int} {a : Wide} (h : ∀ i < 128, a.getLsbD i = z.testBit i) : a = ofInt z :=
  BitVec.eq_of_getLsbD_eq fun i hi => by
    rw [h i hi, ofInt, getLsbD_ofInt, decide_eq_true hi, Bool.true_and]

lemma getLsbD_wide {i : Nat} (hi : i < 128) : (ofInt x).getLsbD i = x.testBit i := by
  rw [ofInt, getLsbD_ofInt, decide_eq_true hi, Bool.true_and]

lemma getLsbD_mask {i : Nat} (hi : i < 128) : (mask t).getLsbD i = decide (i < t.width) := by
  have hmask : mask t = BitVec.ofNat 128 (2 ^ t.width - 1) := by cases t <;> decide
  rw [hmask, BitVec.getLsbD_ofNat, decide_eq_true hi, Bool.true_and, Nat.testBit_two_pow_sub_one]

lemma holds_shift {n : Nat} (hx : Small x) (hn : n < 64) : Holds (x * 2 ^ n) := by
  have hpow : (2 : Int) ^ n ≤ 2 ^ 63 := pow_le_pow_right₀ (by decide) (by omega)
  have hpos : (0 : Int) < 2 ^ n := pow_pos (by decide) n
  obtain ⟨hmin, hmax⟩ := hx
  rcases Int.le_total 0 x with h | h
  · have hle : x * 2 ^ n ≤ x * 2 ^ 63 := Int.mul_le_mul_of_nonneg_left hpow h
    have hge : 0 ≤ x * 2 ^ n := Int.mul_nonneg h hpos.le
    exact ⟨by omega, by omega⟩
  · have hle : x * 2 ^ 63 ≤ x * 2 ^ n := Int.mul_le_mul_of_nonpos_left h hpow
    have hge : x * 2 ^ n ≤ 0 := Int.mul_nonpos_of_nonpos_of_nonneg h hpos.le
    exact ⟨by omega, by omega⟩

/-- A shift to the left loses nothing. -/
lemma ofInt_shiftLeft (x : Int) (n : Nat) : ofInt x <<< n = ofInt (x * 2 ^ n) := by
  have htwo : BitVec.twoPow 128 n = BitVec.ofInt 128 (2 ^ n) := by
    rw [show (2 : Int) ^ n = ((2 ^ n : Nat) : Int) by simp, BitVec.ofInt_natCast]
    exact BitVec.eq_of_toNat_eq (by rw [BitVec.toNat_twoPow, BitVec.toNat_ofNat])
  rw [BitVec.shiftLeft_eq_mul_twoPow, htwo, ofInt, ofInt, BitVec.ofInt_mul]

lemma holds_div {n : Nat} (hx : Small x) : Holds (x / 2 ^ n) := by
  have hpos : (0 : Int) < 2 ^ n := pow_pos (by decide) n
  obtain ⟨hmin, hmax⟩ := hx
  have hge : -2 ^ 63 ≤ x / 2 ^ n := (Int.le_ediv_iff_mul_le hpos).2 (by omega)
  have hlt : x / 2 ^ n < 2 ^ 64 := (Int.ediv_lt_iff_lt_mul hpos).2 (by omega)
  exact ⟨by omega, by omega⟩

/-- Operations on bits are those of integers. -/
lemma result?_bit (hx : t.Fits x) (hy : Small y) {op : BitOp}
    (hsame : op = .and ∨ op = .or ∨ op = .xor → t.Fits y) :
    result? t (.bit op) [ofInt x, ofInt y] = (exactBit t op x y).bind ofInt? := by
  -- Bit by bit the word is the bits of the exact result, and above its width a copy of the sign.
  have hbits (f : Bool → Bool → Bool) (hf : f false false = false) (hy : t.Fits y)
      (b : BitVec t.width) (hb : ∀ i < t.width, b.getLsbD i = f (x.testBit i) (y.testBit i))
      (a : Wide) (ha : ∀ i < 128, a.getLsbD i = f (x.testBit i) (y.testBit i)) :
      some a = ofInt? (t.ofBits b) := by
    have hz := t.fits_ofBits b
    rw [ofInt?_of_holds (small_of_fits hz).holds]
    refine congrArg some (eq_ofInt fun i hi => (ha i hi).trans ?_)
    exact (testBit_of_fits f (fun _ => hf) hx hy hz
      (fun i hi => ((IntTy.eq_ofBits_iff hz b).1 rfl i hi).trans (hb i hi)) i).symm
  cases op with
  | and =>
    refine hbits (· && ·) rfl (hsame (by simp)) _ (fun i hi => ?_) _ fun i hi => ?_
    · rw [BitVec.getLsbD_and, getLsbD_ofInt_of_lt hi, getLsbD_ofInt_of_lt hi]
    · rw [BitVec.getLsbD_and, getLsbD_wide hi, getLsbD_wide hi]
  | or =>
    refine hbits (· || ·) rfl (hsame (by simp)) _ (fun i hi => ?_) _ fun i hi => ?_
    · rw [BitVec.getLsbD_or, getLsbD_ofInt_of_lt hi, getLsbD_ofInt_of_lt hi]
    · rw [BitVec.getLsbD_or, getLsbD_wide hi, getLsbD_wide hi]
  | xor =>
    refine hbits (· ^^ ·) rfl (hsame (by simp)) _ (fun i hi => ?_) _ fun i hi => ?_
    · rw [BitVec.getLsbD_xor, getLsbD_ofInt_of_lt hi, getLsbD_ofInt_of_lt hi]
    · rw [BitVec.getLsbD_xor, getLsbD_wide hi, getLsbD_wide hi]
  -- A shift amount is below the width, so the shifted word still fits.
  | shiftLeft =>
    change (shiftAmount? t (ofInt y).toInt).map (ofInt x <<< ·) = _
    rw [toInt_ofInt hy.holds, exactBit, shiftAmount?]
    split
    next h =>
      have hn : y.toNat < 64 := by cases t <;> simp [IntTy.width] at h <;> omega
      simp only [Option.map_some, Option.bind_some, twoPow_eq]
      rw [ofInt?_of_holds (holds_shift (small_of_fits hx) hn), ofInt_shiftLeft]
    · rfl
  | shiftRight =>
    change (shiftAmount? t (ofInt y).toInt).map (ofInt x).sshiftRight = _
    rw [toInt_ofInt hy.holds, exactBit, shiftAmount?]
    split
    · simp only [Option.map_some, Option.bind_some, twoPow_eq]
      rw [Int.fdiv_eq_ediv_of_nonneg x (pow_nonneg (by decide) _),
        ofInt?_of_holds (holds_div (small_of_fits hx))]
      refine congrArg some (BitVec.eq_of_toInt_eq ?_)
      rw [BitVec.toInt_sshiftRight, toInt_ofInt (small_of_fits hx).holds,
        toInt_ofInt (holds_div (small_of_fits hx)), Int.shiftRight_eq_div_pow]
      simp
    · rfl

/-- So are operations on one integer. -/
lemma result?_one (hx : Small x) (hfits : ∀ o, op = .unary o → t.Fits x) :
    result? t op [ofInt x] = (Fold.result? t op [x]).bind ofInt? := by
  have hxi := toInt_ofInt hx.holds
  cases op with
  | arith | compare => rfl
  | bit op => cases op <;> rfl
  | convert => exact (ofInt?_of_holds hx.holds).symm
  | unary op =>
    have hx' := hfits op rfl
    cases op with
    | not | sqrt | log | exp => rfl
    -- Only the least word has no negation.
    | neg =>
      refine ite_wraps ?_ fun _ => BitVec.ofInt_neg.symm
      obtain ⟨hmin, hmax⟩ := hx
      simp only [BitVec.negOverflow, hxi, Holds, beq_iff_eq]
      omega
    -- The complement of an unsigned word is masked to its width.
    | bitNot =>
      have hz := t.fits_ofBits (~~~BitVec.ofInt t.width x)
      refine .trans (congrArg some (eq_ofInt fun i hi => ?_))
        (ofInt?_of_holds (small_of_fits hz).holds).symm
      have hlow (i : Nat) (hi : i < t.width) :
          (t.ofBits (~~~BitVec.ofInt t.width x)).testBit i = !x.testBit i := by
        rw [(IntTy.eq_ofBits_iff hz _).1 rfl i hi, BitVec.getLsbD_not, decide_eq_true hi,
          getLsbD_ofInt_of_lt hi, Bool.true_and]
      cases hs : t.signed with
      | true =>
        rw [if_pos rfl, BitVec.getLsbD_not, decide_eq_true hi, getLsbD_wide hi, Bool.true_and]
        exact (testBit_of_fits (fun a _ => !a) (by simp [hs]) hx' hx' hz hlow i).symm
      | false =>
        rw [if_neg Bool.false_ne_true, BitVec.getLsbD_xor, getLsbD_mask hi, getLsbD_wide hi]
        rcases Nat.lt_or_ge i t.width with hlt | hge
        · rw [hlow i hlt, decide_eq_true hlt, Bool.true_xor]
        · rw [hz.testBit_of_le hge, hx'.testBit_of_le hge, hs]
          simpa using hge

/-- In words of 128 bits operations give the results that they have, up to those that are far from
the range of any type. -/
lemma result?_ofInt {args : List Term} (hxs : Integers args xs)
    (hcount : args.length = op.operandCount)
    (hr : resultType op (args.map fun a => a.ty.prim?) = some (.int t)) :
    result? t op (xs.map ofInt) = (Fold.result? t op xs).bind ofInt? := by
  cases hxs with
  | one t₁ hx =>
    refine result?_one (small_of_fits hx) fun o ho => ?_
    cases eq_of_resultType hr (by simp [ho]) (by simp [ho])
    exact hx
  | convert ty t₁ hx =>
    refine result?_one (small_of_fits hx) ?_
    rintro o rfl
    cases hcount
  | two t₁ t₂ hx hy =>
    cases op with
    | arith op => exact arith?_ofInt op (small_of_fits hx) (small_of_fits hy)
    | compare | convert => rfl
    | unary op => cases hcount
    | bit op =>
      cases eq_of_resultType hr nofun nofun
      refine result?_bit hx (small_of_fits hy) fun hop => ?_
      have hsame : (Prim.int t == Prim.int t₂) = true := by
        rcases hop with rfl | rfl | rfl <;>
          exact (Bool.and_eq_true_iff.1 (Option.ite_none_right_eq_some.1 hr).1).1
      cases eq_of_beq hsame
      exact hy

end Wide

/-! ### Exactness -/

namespace Eval

open Fold

/-- The type of an operation. -/
lemma primType_eq_ok {op : PrimOp} {args : List Term} {r : Prim} {w w' : World}
    (h : exec (primType op args) w = (.ok r, w')) :
    args.length = op.operandCount ∧ resultType op (args.map fun a => a.ty.prim?) = some r := by
  rw [primType] at h
  split at h
  · cases h
  next hcount =>
    split at h
    next p hp =>
      obtain ⟨rfl⟩ := h
      exact ⟨not_not.1 hcount, hp⟩
    · cases h

/-- Folding is exact. What it gives has the type of the operation. In an integer type it gives a
literal exactly where the operation is defined and its exact result is in the range of the type,
and then that result. Words of 128 bits lead to the same literal and none of their steps wraps. Two
integers are compared as such. -/
theorem fold_exact {op : PrimOp} {args : List Term} {r : Prim} {w w' : World}
    (h : exec (primType op args) w = (.ok r, w')) :
    (∀ l, fold op args r = some l → l.type = r) ∧
    ∀ xs, Integers args xs →
      (∀ t, r = .int t →
        (∀ l, fold op args r = some l ↔
          ∃ (v : Int) (fits : t.Fits v), Exact t op xs v ∧ l = .int t v fits) ∧
        fold op args r =
          (Wide.result? t op (xs.map .ofInt)).bind (fun a => Literal.int? t a.toInt) ∧
        (∀ a, Wide.result? t op (xs.map .ofInt) = some a → Exact t op xs a.toInt) ∧
        (∀ x ∈ xs, (Wide.ofInt x).toInt = x) ∧
        (1#128 <<< t.width).toInt = 2 ^ t.width ∧ (Wide.mask t).toInt = 2 ^ t.width - 1) ∧
      ∀ c x y, op = .compare c → xs = [x, y] →
        fold op args r = some (.bool (decide (c.Rel x y))) := by
  obtain ⟨hcount, hr⟩ := primType_eq_ok h
  refine ⟨fun l => type_of_fold hr, fun xs hxs => ⟨?_, ?_⟩⟩
  · -- Integer results: the words compute the exact result as long as it fits.
    rintro t rfl
    have hfold := fold_eq_result? hxs hcount hr
    have hwide := Wide.result?_ofInt hxs hcount hr
    refine ⟨fun l => ?_, ?_, fun a ha => ?_, fun x hx => ?_, ?_, ?_⟩
    · rw [hfold, Option.bind_eq_some_iff]
      constructor
      · rintro ⟨v, hv, hl⟩
        obtain ⟨fits, rfl⟩ := int?_eq_some_iff.1 hl
        exact ⟨v, fits, (result?_eq_some_iff.1 hv).1, rfl⟩
      · rintro ⟨v, fits, hv, rfl⟩
        exact ⟨v, result?_eq_some_iff.2 ⟨hv, fun _ => fits⟩, int?_eq_some_iff.2 ⟨fits, rfl⟩⟩
    · rw [hfold, hwide, Option.bind_assoc]
      refine Option.bind_congr fun v _ => ?_
      rw [Wide.bind_ofInt?]
    · rw [hwide] at ha
      obtain ⟨v, hv, ha⟩ := Option.bind_eq_some_iff.1 ha
      obtain ⟨hholds, ha⟩ := Option.ite_none_right_eq_some.1 ha
      cases ha
      rw [Wide.toInt_ofInt hholds]
      exact (result?_eq_some_iff.1 hv).1
    · exact Wide.toInt_ofInt (Wide.small_of_integers hxs x hx).holds
    · cases t <;> decide
    · cases t <;> decide
  · -- Comparisons of integers of one type.
    rintro c x y rfl rfl
    cases hxs with
    | two t t' hx hy =>
      obtain ⟨hsame, -⟩ := Option.ite_none_right_eq_some.1 hr
      cases eq_of_beq hsame
      exact fold_compare hx hy

/-- A shift of a small unsigned number that just fits. -/
theorem fold_exact_shiftLeft :
    Fold.fold (.bit .shiftLeft) [.lit (.int .u8 3 (by decide)), .lit (.int .i32 6 (by decide))]
      (.int .u8) = some (.int .u8 192 (by decide)) :=
  ((((fold_exact (w := ⟨{}, { env := .plain [], tags := {} }⟩) (by rfl)).2 [3, 6]
    (.two .u8 .i32 (by decide) (by decide))).1 .u8 rfl).1 _).2
      ⟨192, by decide, ⟨by decide, by decide, by decide⟩, rfl⟩

end Eval

end Residual
