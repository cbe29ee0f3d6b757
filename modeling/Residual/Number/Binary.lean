import Residual.Number.Power

/-!
Binary floating-point words, read as exact numbers.
-/

namespace Residual.Number

/-- A binary format: bits of the stored fraction and of the exponent. -/
structure Binary where
  fractionBits : Nat
  exponentBits : Nat

def binary32 : Binary := ⟨23, 8⟩

def binary64 : Binary := ⟨52, 11⟩

/-- What a word stands for. A finite word is `mantissa * 2 ^ exponent`, with its sign apart. -/
inductive Real where
  | nan
  | infinite (negative : Bool)
  | finite (negative : Bool) (mantissa : Nat) (exponent : Int)

namespace Binary

/-- The exponent of the least positive number. -/
def minExponent (f : Binary) : Int := 2 - twoPow (f.exponentBits - 1) - f.fractionBits

/-- The least mantissa of a normal number. -/
def normal (f : Binary) : Nat := twoPow f.fractionBits

def decode (f : Binary) (word : Nat) : Real :=
  let fraction := word % f.normal
  let biased := word / f.normal % twoPow f.exponentBits
  let negative := word / f.normal / twoPow f.exponentBits % 2 == 1
  if biased = twoPow f.exponentBits - 1 then
    if fraction = 0 then .infinite negative else .nan
  else if biased = 0 then .finite negative fraction f.minExponent
  else .finite negative (fraction + f.normal) (f.minExponent + (biased - 1))

/-- The word of `n * 2 ^ e`, for a positive number that the format holds exactly. -/
def encode (f : Binary) (negative : Bool) (n : Nat) (e : Int) : Nat :=
  let sign := if negative then twoPow (f.fractionBits + f.exponentBits) else 0
  let exponent := max (e + n.log2 - f.fractionBits) f.minExponent
  let mantissa :=
    if exponent ≤ e then n * twoPow (e - exponent).toNat else n / twoPow (exponent - e).toNat
  if mantissa < f.normal then sign + mantissa
  else sign + ((exponent - f.minExponent).toNat + 1) * f.normal + (mantissa - f.normal)

end Binary

end Residual.Number
