import Residual.Number.Power

/-!
Primitive types.
-/

namespace Residual

open Number

inductive IntTy where
  | i8 | i16 | i32 | i64 | u8 | u16 | u32 | u64
deriving DecidableEq, Inhabited

namespace IntTy

def all : List IntTy := [.i8, .i16, .i32, .i64, .u8, .u16, .u32, .u64]

def signed : IntTy → Bool
  | .i8 | .i16 | .i32 | .i64 => true
  | _ => false

def width : IntTy → Nat
  | .i8 | .u8 => 8
  | .i16 | .u16 => 16
  | .i32 | .u32 => 32
  | .i64 | .u64 => 64

def min (t : IntTy) : Int := if t.signed then -twoPow (t.width - 1) else 0

def max (t : IntTy) : Int := if t.signed then twoPow (t.width - 1) - 1 else twoPow t.width - 1

/-- `v` is a value of the type. -/
def Fits (t : IntTy) (v : Int) : Prop := t.min ≤ v ∧ v ≤ t.max

instance (t : IntTy) (v : Int) : Decidable (t.Fits v) :=
  inferInstanceAs (Decidable (t.min ≤ v ∧ v ≤ t.max))

def name : IntTy → String
  | .i8 => "i8"
  | .i16 => "i16"
  | .i32 => "i32"
  | .i64 => "i64"
  | .u8 => "u8"
  | .u16 => "u16"
  | .u32 => "u32"
  | .u64 => "u64"

/-- Place in the order of primitive types. -/
def rank : IntTy → Nat
  | .i8 => 0
  | .i16 => 1
  | .i32 => 2
  | .i64 => 3
  | .u8 => 4
  | .u16 => 5
  | .u32 => 6
  | .u64 => 7

end IntTy

inductive FloatTy where
  | f32 | f64
deriving DecidableEq, Inhabited

inductive Prim where
  | int (t : IntTy)
  | float (t : FloatTy)
  | bool
  | string
  | char
deriving DecidableEq, Inhabited

namespace Prim

def all : List Prim :=
  IntTy.all.map .int ++ [.float .f32, .float .f64, .bool, .string, .char]

def isSigned : Prim → Bool
  | .int t => t.signed
  | _ => false

def isUnsigned : Prim → Bool
  | .int t => !t.signed
  | _ => false

def isInt : Prim → Bool
  | .int _ => true
  | _ => false

def isFloat : Prim → Bool
  | .float _ => true
  | _ => false

def isNumeric (p : Prim) : Bool := p.isInt || p.isFloat

def name : Prim → String
  | .int t => t.name
  | .float .f32 => "f32"
  | .float .f64 => "f64"
  | .bool => "bool"
  | .string => "string"
  | .char => "char"

/-- Place in the order of primitive types. -/
def rank : Prim → Nat
  | .int t => t.rank
  | .float .f32 => 8
  | .float .f64 => 9
  | .bool => 10
  | .string => 11
  | .char => 12

end Prim

end Residual
