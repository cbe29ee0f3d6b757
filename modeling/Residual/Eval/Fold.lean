import Residual.Eval.Emit

/-!
Primitive operations: their types, and their values on literals.

Integer results are exact. An operation without a result in its type (an overflow, a division by
zero, a shift by too much) is left for run time.
-/

namespace Residual

/-- The integer that a bit pattern stands for in a type. -/
def IntTy.ofBits (t : IntTy) (b : BitVec t.width) : Int :=
  if t.signed then b.toInt else b.toNat

/-- The comparison is true of two values in the given order. -/
def CompareOp.holds : CompareOp → Ordering → Bool
  | .lt, o => o.isLT
  | .le, o => o.isLE
  | .eq, o => o.isEq
  | .ne, o => o.isNe
  | .gt, o => o.isGT
  | .ge, o => o.isGE

namespace Fold

open Number

/-- The type of the result, if the operands have types that go together. -/
def resultType : PrimOp → List (Option Prim) → Option Prim
  | .convert, [some target, some source] =>
    if source.isNumeric && target.isNumeric then some target else none
  | .arith _, [some a, some b] => if a == b && a.isNumeric then some a else none
  | .compare _, [some a, some b] => if a == b then some .bool else none
  | .bit .shiftLeft, [some a, some b] => if a.isInt && b.isInt then some a else none
  | .bit .shiftRight, [some a, some b] => if a.isInt && b.isInt then some a else none
  | .bit _, [some a, some b] => if a == b && (a.isInt || a == .bool) then some a else none
  | .unary .neg, [some a] => if a.isSigned || a.isFloat then some a else none
  | .unary .not, [some .bool] => some .bool
  | .unary .bitNot, [some a] => if a.isInt then some a else none
  | .unary .sqrt, [some a] => if a.isFloat then some a else none
  | .unary .log, [some a] => if a.isFloat then some a else none
  | .unary .exp, [some a] => if a.isFloat then some a else none
  | _, _ => none

/-- Division goes toward zero, and the remainder has the sign of the dividend. -/
def exactArith : ArithOp → Int → Int → Option Int
  | .add, a, b => some (a + b)
  | .sub, a, b => some (a - b)
  | .mul, a, b => some (a * b)
  | .div, a, b => if b = 0 then none else some (a.tdiv b)
  | .mod, a, b => if b = 0 then none else some (a.tmod b)

def realArith : ArithOp → Word64 → Word64 → Option Word64
  | .add, a, b => some (a.add b)
  | .sub, a, b => some (a.sub b)
  | .mul, a, b => some (a.mul b)
  | .div, a, b => if b.isZero then none else some (a.div b)
  | .mod, a, b => if b.isZero then none else some (a.rem b)

def arith (op : ArithOp) (a b : Literal) : Option Literal :=
  match a, b with
  | .int t x _, .int _ y _ => (exactArith op x y).bind (Literal.int? t)
  | _, _ => do
    let value ← realArith op (← a.real?) (← b.real?)
    Literal.ofReal? a.type value

/-- Numbers with a fraction are compared as numbers, all else by the order of literals. -/
def ordering (a b : Literal) : Option Ordering :=
  match a.real?, b.real? with
  | some x, some y => x.compare? y
  | _, _ => some (a.cmp b)

def compare (op : CompareOp) (a b : Literal) : Option Literal :=
  (ordering a b).map fun o => .bool (op.holds o)

/-- A shift amount is not negative and below the width of the type. -/
def shiftAmount? (t : IntTy) (b : Int) : Option Nat :=
  if 0 ≤ b ∧ b < t.width then some b.toNat else none

/-- Bit operations on the patterns of a type; a right shift goes toward the floor. -/
def exactBit (t : IntTy) : BitOp → Int → Int → Option Int
  | .and, a, b => some (t.ofBits (BitVec.ofInt t.width a &&& BitVec.ofInt t.width b))
  | .or, a, b => some (t.ofBits (BitVec.ofInt t.width a ||| BitVec.ofInt t.width b))
  | .xor, a, b => some (t.ofBits (BitVec.ofInt t.width a ^^^ BitVec.ofInt t.width b))
  | .shiftLeft, a, b => (shiftAmount? t b).map fun s => a * twoPow s
  | .shiftRight, a, b => (shiftAmount? t b).map fun s => a.fdiv (twoPow s)

def bit (op : BitOp) (a b : Literal) : Option Literal :=
  match a, b with
  | .int t x _, .int _ y _ => (exactBit t op x y).bind (Literal.int? t)
  | .bool x, .bool y =>
    match op with
    | .and => some (.bool (x && y))
    | .or => some (.bool (x || y))
    | .xor => some (.bool (x ^^ y))
    | _ => none
  | _, _ => none

def unary (op : UnaryOp) (a : Literal) : Option Literal :=
  match a with
  | .int t x _ =>
    match op with
    | .neg => Literal.int? t (-x)
    | .bitNot => Literal.int? t (t.ofBits (~~~ BitVec.ofInt t.width x))
    | _ => none
  | .bool b => if op = .not then some (.bool (!b)) else none
  | _ => do
    let x ← a.real?
    let value ← match op with
      | .neg => some x.neg
      | .sqrt => some x.sqrt
      | .log => some x.log
      | .exp => some x.exp
      | _ => none
    Literal.ofReal? a.type value

/-- The integer part of a number, or the nearest number to an integer. -/
def convert (target : Prim) (a : Literal) : Option Literal :=
  match target, a with
  | .int t, .int _ x _ => Literal.int? t x
  | .int t, _ => do Literal.int? t (← (← a.real?).truncate?)
  | _, .int _ x _ => Literal.ofReal? target (Word64.ofInt x)
  | _, _ => do Literal.ofReal? target (← a.real?)

/-- The value of an operation on literals, where `result` is its type. -/
def fold (op : PrimOp) (args : List Term) (result : Prim) : Option Literal :=
  match op, args with
  | .arith op, [.lit a, .lit b] => arith op a b
  | .compare op, [.lit a, .lit b] => compare op a b
  | .bit op, [.lit a, .lit b] => bit op a b
  | .unary op, [.lit a] => unary op a
  | .convert, [.type _, .lit a] => convert result a
  | _, _ => none

end Fold

namespace PrimOp

def operandCount : PrimOp → Nat
  | .unary _ => 1
  | _ => 2

end PrimOp

namespace Eval

/-- The type of a primitive operation on the given operands. -/
def primType (op : PrimOp) (args : List Term) : Eval Prim :=
  if args.length ≠ op.operandCount then fail (.arity (.prim op) op.operandCount args.length)
  else
    match Fold.resultType op (args.map fun a => a.ty.prim?) with
    | some p => pure p
    | none => fail (.operands op (args.map Term.ty))

def primOp (op : PrimOp) (args : List Term) : Eval Term := do
  let result ← primType op args
  match if (← getSession).settings.folding then Fold.fold op args result else none with
  | some l => return .lit l
  | none => emit (.prim op) args (.prim result)

end Eval

end Residual
