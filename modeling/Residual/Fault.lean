import Residual.JoinPoint
import Residual.Typed.Text

/-!
Why an evaluation fails, and the words for it.
-/

namespace Residual

/-- What a program says when it fails on purpose. -/
inductive Message where
  | text (s : String)
  | type (t : Ty)

inductive Cause where
  | noClause (got : Ty)
  | noPath (kind : Option PointKind)
  | arity (op : Op) (expected got : Nat)
  | operands (op : PrimOp) (got : List Ty)
  | condition (got : Ty)
  | declared (expected got : Ty)
  | branches (op : Op) (expected got : Ty)
  | pointResult (kind : PointKind) (expected got : Ty)
  | kernelResult (got : Ty)
  | closureArg (expected got : Ty)
  | notMember (union got : Ty)
  | undefinedType (ty : Ty)
  | index (op : ArrayOp) (got : Ty)
  | element (op : ArrayOp) (expected got : Ty)
  | notArray (op : ArrayOp) (got : Ty)
  | notTuple (op : TupleOp) (got : Ty)
  | notModule (op : Op) (got : Ty)
  | notLayout (got : Ty)
  | notLiteral (got : Ty)
  | unbound (x : Name)
  | noField (x : Name)
  | recursion (kind : PointKind)
  | noForeignType
  | foreignPart (got : Ty)
  | notCallable (got : Ty)
  | raised (message : Message)
  | tooDeep (limit : Nat)

/-- The kinds of failure that a caller tells apart. -/
inductive Category where
  | patternMiss | typeMismatch | unboundName | unsupportedRecursion | foreignText | notCallable
  | raised | tooDeep
deriving DecidableEq

namespace Cause

def category : Cause → Category
  | .noClause _ | .noPath _ => .patternMiss
  | .unbound _ | .noField _ => .unboundName
  | .recursion _ => .unsupportedRecursion
  | .noForeignType | .foreignPart _ => .foreignText
  | .notCallable _ => .notCallable
  | .raised _ => .raised
  | .tooDeep _ => .tooDeep
  | _ => .typeMismatch

/-- What the operands of a primitive operation have to be. -/
def operandRule : PrimOp → String
  | .convert => "a numeric type and a numeric value"
  | .unary .not => "bool"
  | .unary .neg => "a signed integer or float"
  | .unary .bitNot => "an integer"
  | .unary _ => "a float"
  | .bit .shiftLeft | .bit .shiftRight => "integers"
  | .bit _ => "matching integers or bools"
  | .compare _ => "matching primitive operands"
  | .arith _ => "matching numeric operands"

/-- What a tuple has to be for an operation on it. -/
def tupleRule : TupleOp → String
  | .index i => s!"a tuple with more than {i} elements"
  | .slice n => s!"a tuple with at least {n} elements"
  | _ => "a tuple"

/-- References go with the operations on references, other arrays with the others. -/
def arrayRule : ArrayOp → String
  | .refGet | .refSet => "a reference"
  | _ => "an array"

def mismatch (context expected got : String) : String :=
  s!"type mismatch in {context}: expected {expected}, got {got}"

/-- The text of a failure. -/
def message (names : Names) : Cause → String
  | .noClause got =>
    s!"pattern match failure: no clause matched a value of type {got.text names}"
  | .noPath none => "pattern match failure: no clause matched on any path of the program"
  | .noPath (some kind) =>
    s!"pattern match failure: no clause matched on any path of a {kind.name} body"
  | .arity op expected got => mismatch op.name s!"{expected} operands" s!"{got} operands"
  | .operands op got => mismatch op.name (operandRule op) (", ".intercalate (Ty.texts names got))
  | .condition got => mismatch "if condition" "bool" (got.text names)
  | .declared expected got =>
    mismatch "type annotation" (expected.text names) (got.text names)
  | .branches op expected got =>
    mismatch s!"branches of {op.name}" (expected.text names) (got.text names)
  | .pointResult kind expected got =>
    mismatch s!"{kind.name} join point result" (expected.text names) (got.text names)
  | .kernelResult got => mismatch "kernel result" "()" (got.text names)
  | .closureArg expected got =>
    mismatch "closure argument" (expected.text names) (got.text names)
  | .notMember union got =>
    mismatch "box" s!"a member of {union.text names}" (got.text names)
  | .undefinedType ty => mismatch "recursive type" "a finished definition" (ty.text names)
  | .index op got => mismatch s!"{op.name} index" "an integer" (got.text names)
  | .element op expected got =>
    mismatch s!"{op.name} value" (expected.text names) (got.text names)
  | .notArray op got => mismatch op.name (arrayRule op) (got.text names)
  | .notTuple op got => mismatch op.name (tupleRule op) (got.text names)
  | .notModule op got => mismatch op.name "a module" (got.text names)
  | .notLayout got =>
    mismatch "layout_index" "a layout with that many fields" (got.text names)
  | .notLiteral got => mismatch "type_lit" "a literal" (got.text names)
  | .unbound x => s!"unbound name `{names.text x}`"
  | .noField x => s!"unbound name `field `{names.text x}``"
  | .recursion kind =>
    s!"unsupported recursion shape: {kind.name} join point called itself " ++
      "before its result type was known; annotate the result type"
  | .noForeignType => "macro error: missing result type"
  | .foreignPart got =>
    "macro error: a macro part must be a string literal, a variable or a type, " ++
      s!"got a value of type {got.text names}"
  | .notCallable got => s!"value of type {got.text names} is not callable"
  | .raised (.text s) => s
  | .raised (.type t) => t.text names
  | .tooDeep limit => s!"specialization depth limit of {limit} exceeded"

end Cause

/-- A failure where it arose. `pending` is the join point that called itself too early. -/
structure Fault where
  cause : Cause
  trace : Trace
  pending : Option Point := none

end Residual
