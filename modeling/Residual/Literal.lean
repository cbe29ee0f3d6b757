import Residual.Code
import Residual.Number.Arith
import Residual.Number.Shortest
import Residual.Prim
import Residual.Text.Quoted

/-!
Literal constants. An integer lies in the range of its type; a floating-point number is its
word, so two of them are equal exactly when their bits are.
-/

namespace Residual

open Number

inductive Literal where
  | int (type : IntTy) (value : Int) (fits : type.Fits value)
  | float32 (word : UInt32)
  | float64 (word : UInt64)
  | bool (value : Bool)
  | string (value : String)
  | char (value : Char)
deriving DecidableEq

namespace Literal

instance : Inhabited Literal := ⟨.bool false⟩

/-- The integer literal of a type, if the value is in its range. -/
def int? (t : IntTy) (v : Int) : Option Literal :=
  if h : t.Fits v then some (.int t v h) else none

/-- The integer literal of a primitive type. -/
def ofInt? : Prim → Int → Option Literal
  | .int t, v => int? t v
  | _, _ => none

/-- The floating-point literal of a primitive type nearest to a number. -/
def ofReal? : Prim → Word64 → Option Literal
  | .float .f32, a => some (.float32 a.toWord32)
  | .float .f64, a => some (.float64 a)
  | _, _ => none

def type : Literal → Prim
  | .int t .. => .int t
  | .float32 _ => .float .f32
  | .float64 _ => .float .f64
  | .bool _ => .bool
  | .string _ => .string
  | .char _ => .char

def bool? : Literal → Option Bool
  | .bool b => some b
  | _ => none

def string? : Literal → Option String
  | .string s => some s
  | _ => none

def integer? : Literal → Option Int
  | .int _ v _ => some v
  | _ => none

/-- A floating-point literal as a number of 64 bits. -/
def real? : Literal → Option Word64
  | .float32 a => some (.ofWord32 a)
  | .float64 a => some a
  | _ => none

/-- By type, then by value; floating-point words as numbers without sign, texts by character. -/
def code : Literal → Code
  | .int t v _ => [t.rank, v]
  | .float32 a => [8, a.toNat]
  | .float64 a => [9, a.toNat]
  | .bool b => [10, b.toNat]
  | .string s => 11 :: Code.string s
  | .char c => [12, c.toNat]

def cmp (a b : Literal) : Ordering := Code.cmp a.code b.code

/-- The text of a literal: integers other than `i64` and short floats carry their type. -/
def text : Literal → String
  | .int .i64 v _ => s!"{v}"
  | .int t v _ => s!"{v}{t.name}"
  | .float32 a => Shortest.text binary32 a.toNat ++ "f32"
  | .float64 a => Shortest.text binary64 a.toNat
  | .bool b => if b then "true" else "false"
  | .string s => Text.Quoted.string s
  | .char c => Text.Quoted.char c

end Literal

end Residual
