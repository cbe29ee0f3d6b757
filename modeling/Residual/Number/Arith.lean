import Residual.Number.Binary

/-!
Arithmetic on words of `binary64`.

A word that is not a number passes through every operation, made quiet; of two the first does.
An operation without a result gives `invalid`.
-/

namespace Residual.Number

/-- A floating-point number of 64 bits, by its word. -/
abbrev Word64 := UInt64

namespace Word64

def decode (a : Word64) : Real := binary64.decode a.toNat

def isNan (a : Word64) : Bool := match decode a with | .nan => true | _ => false

def invalid : Word64 := 0xfff8000000000000

def quiet (a : Word64) : Word64 := a ||| 0x0008000000000000

def ofFloat (x : Float) : Word64 := if x.isNaN then invalid else x.toBits

def lift₁ (f : Float → Float) (a : Word64) : Word64 :=
  if isNan a then quiet a else ofFloat (f (Float.ofBits a))

def lift₂ (f : Float → Float → Float) (a b : Word64) : Word64 :=
  if isNan a then quiet a
  else if isNan b then quiet b
  else ofFloat (f (Float.ofBits a) (Float.ofBits b))

def add : Word64 → Word64 → Word64 := lift₂ (· + ·)

def sub : Word64 → Word64 → Word64 := lift₂ (· - ·)

def mul : Word64 → Word64 → Word64 := lift₂ (· * ·)

def div : Word64 → Word64 → Word64 := lift₂ (· / ·)

def sqrt : Word64 → Word64 := lift₁ Float.sqrt

def log : Word64 → Word64 := lift₁ Float.log

def exp : Word64 → Word64 := lift₁ Float.exp

def neg (a : Word64) : Word64 := a ^^^ 0x8000000000000000

def isZero (a : Word64) : Bool := match decode a with | .finite _ 0 _ => true | _ => false

/-- The exact remainder of truncating division; it has the sign of the dividend. -/
def rem (a b : Word64) : Word64 :=
  match decode a, decode b with
  | .nan, _ => quiet a
  | _, .nan => quiet b
  | .infinite _, _ => invalid
  | .finite .., .infinite _ => a
  | .finite negative m e, .finite _ n d =>
    if n = 0 then invalid else
    let low := min e d
    let r := m * twoPow (e - low).toNat % (n * twoPow (d - low).toNat)
    if r = 0 then (if negative then 0x8000000000000000 else 0)
    else UInt64.ofNat (binary64.encode negative r low)

/-- The order of two numbers; none with a word that is not a number. -/
def compare? (a b : Word64) : Option Ordering :=
  let x := Float.ofBits a
  let y := Float.ofBits b
  if x < y then some .lt else if x == y then some .eq else if y < x then some .gt else none

/-- The nearest number to an integer of 64 bits, signed or not. -/
def ofInt (v : Int) : Word64 :=
  if v < 0 then (Int64.ofInt v).toFloat.toBits else (UInt64.ofNat v.toNat).toFloat.toBits

/-- The integer part, of finite numbers only. -/
def truncate? (a : Word64) : Option Int :=
  match decode a with
  | .finite negative m e =>
    let n : Int := (m * twoPow e.toNat / twoPow (-e).toNat : Nat)
    some (if negative then -n else n)
  | _ => none

/-- Widen a word of `binary32`. -/
def ofWord32 (a : UInt32) : Word64 :=
  match binary32.decode a.toNat with
  | .nan =>
    ((a.toUInt64 >>> 31) <<< 63) ||| (0x7ff8000000000000 : UInt64) |||
      ((a.toUInt64 &&& 0x7fffff) <<< 29)
  | _ => (Float32.ofBits a).toFloat.toBits

/-- Round to a word of `binary32`. -/
def toWord32 (a : Word64) : UInt32 :=
  match decode a with
  | .nan =>
    (((a >>> 63) <<< 31) ||| (0x7fc00000 : UInt64) ||| ((a >>> 29) &&& 0x7fffff)).toUInt32
  | _ => (Float.ofBits a).toFloat32.toBits

end Word64

end Residual.Number
