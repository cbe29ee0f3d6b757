import Residual.Number.Binary

/-!
The shortest decimal that reads back as a given binary number.

A decimal reads back if it lies in the interval of reals that round to the number; the ends
belong to the interval exactly when the mantissa is even. Of the decimals with the fewest
digits the nearest is taken, the upper one on a tie.
-/

namespace Residual.Number.Shortest

/-- `digits * 10 ^ exponent`. -/
structure Decimal where
  digits : Nat
  exponent : Int

/-- The reals that round to a number, as multiples of `num / den`. -/
structure Interval where
  low : Nat
  value : Nat
  high : Nat
  closed : Bool
  num : Nat
  den : Nat

/-- The gap below the least normal mantissa of a binade is half the gap above it. -/
def interval (f : Binary) (mantissa : Nat) (exponent : Int) : Interval :=
  { low := 4 * mantissa - (if mantissa = f.normal then 1 else 2)
    value := 4 * mantissa
    high := 4 * mantissa + 2
    closed := mantissa % 2 == 0
    num := twoPow (exponent - 2).toNat
    den := twoPow (2 - exponent).toNat }

namespace Interval

/-- Whether `n / d` lies in the interval. -/
def holds (i : Interval) (n d : Nat) : Bool :=
  let x := n * i.den
  let unit := i.num * d
  if i.closed then i.low * unit ≤ x && x ≤ i.high * unit
  else i.low * unit < x && x < i.high * unit

/-- The point to take on the grid `10 ^ s`, if one of the two around the value reads back. -/
def onGrid (i : Interval) (s : Int) : Option Nat :=
  let up := tenPow s.toNat
  let down := tenPow (-s).toNat
  let n := i.value * i.num * down
  let d := i.den * up
  let below := n / d
  let above := below + 1
  match i.holds (below * up) down, i.holds (above * up) down with
  | true, true => if 2 * (n % d) < d then some below else some above
  | true, false => some below
  | false, true => some above
  | false, false => none

end Interval

/-- From the coarsest grid on which the value can have a digit to ever finer ones. -/
def decimal (f : Binary) (mantissa : Nat) (exponent : Int) : Decimal :=
  let i := interval f mantissa exponent
  let top := (mantissa.log2 + exponent) * 30103 / 100000 + 2
  let hit := (List.range 24).findSome? fun (k : Nat) =>
    (i.onGrid (top - k)).map fun digits => Decimal.mk digits (top - k)
  hit.getD ⟨0, 0⟩

/-- Digits with a point where it falls and no exponent. -/
def Decimal.positional (d : Decimal) : String :=
  let ds := Nat.toDigits 10 d.digits
  let zeros (n : Nat) := List.replicate n '0'
  let places := (-d.exponent).toNat
  String.ofList <|
    if 0 ≤ d.exponent then ds ++ zeros d.exponent.toNat
    else if places < ds.length then
      ds.take (ds.length - places) ++ '.' :: ds.drop (ds.length - places)
    else '0' :: '.' :: (zeros (places - ds.length) ++ ds)

/-- The text of a word of the format. -/
def text (f : Binary) (word : Nat) : String :=
  let sign (negative : Bool) := if negative then "-" else ""
  match f.decode word with
  | .nan => "NaN"
  | .infinite negative => sign negative ++ "inf"
  | .finite negative 0 _ => sign negative ++ "0"
  | .finite negative mantissa exponent =>
    sign negative ++ (decimal f mantissa exponent).positional

end Residual.Number.Shortest
