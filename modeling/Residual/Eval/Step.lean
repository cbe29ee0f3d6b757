import Residual.Eval.Array
import Residual.Eval.Branch
import Residual.Eval.Fold
import Residual.Eval.Module
import Residual.Eval.Specialize
import Residual.Eval.Tuple
import Residual.Eval.Types

/-!
Partial evaluation of expressions.

The value of an expression is a term without code: operations that have to run later are bound
to variables in the statements of the scope. A single step takes the evaluator of the parts as a
parameter; `eval` ties the knot with a bound on the depth of nesting.
-/

namespace Residual.Eval

section Step

variable (eval : Expr → Eval Term)

/-- A function value with the names it captures. -/
def close (used : Captures) (kind : MapKind) : Eval Term :=
  return .map (.restricted (← getScope).env.visible used) kind

/-- A declared result type. On a method join point it is known before the body is evaluated. -/
def annotate (args : List Expr) : Eval Term :=
  match args with
  | [value, annot] =>
    match value.unwrapPos with
    | .node _ (.op (.entry .method) inner) =>
      match inner with
      | [body] => do
        let annot ← eval annot
        enterPoint eval .method body (some annot.ty)
      | _ => fail (.arity (.entry .method) 1 inner.length)
    | _ => do
      let value ← eval value
      let annot ← eval annot
      if value.ty == annot.ty then return value else fail (.declared annot.ty value.ty)
  | _ => fail (.arity .annotate 2 args.length)

/-- The program fails on purpose. -/
def raise (t : Term) : Eval Term :=
  match t.string? with
  | some s => fail (.raised (.text s))
  | none => fail (.raised (.type t.ty))

/-- An operation with its operands still to be evaluated. -/
def evalOp (op : Op) (args : List Expr) : Eval Term :=
  match op with
  | .cond => cond eval args
  | .annotate => annotate eval args
  | .entry entry =>
    match args with
    | [body] => enterPoint eval entry body none
    | _ => fail (.arity op 1 args.length)
  | .apply => do
    let (f, arg) ← operands₂ op (← args.mapM eval)
    apply eval f arg
  | .case => do
    let (value, f) ← operands₂ op (← args.mapM eval)
    case eval value f
  | .dynamize => do toRuntime (← operand op (← args.mapM eval))
  | .patternMiss => do patternMiss (← operand op (← args.mapM eval))
  | .errorType => do raise (← operand op (← args.mapM eval))
  | .closure => do closureOp eval (← args.mapM eval)
  | .prim op => do primOp op (← args.mapM eval)
  | .tuple op => do tupleOp op (← args.mapM eval)
  | .module op => do moduleOp eval op (← args.mapM eval)
  | .layout op => do layoutOp op (← args.mapM eval)
  | .array op => do arrayOp op (← args.mapM eval)
  | .type op => do typeOp op (← args.mapM eval)
  | .foreign target => do foreignOp target (← args.mapM eval)

/-- One step of evaluation. -/
def step (e : Expr) : Eval Term :=
  match e.kind with
  | .var x => do
    match (← getScope).env.get? x with
    | some t => return t
    | none => fail (.unbound x)
  | .lit l => return .lit l
  | .pattern p => do eval (← build (Build.lowerPattern p))
  | .function param body => do
    close (← build (Build.freeNameSet e)) (.function param body)
  | .filtered used param body => close used (.function param body)
  | .recFunction this param body => do
    close (← build (Build.freeNameSet e)) (.recFunction this param body)
  | .tuple items => return .tuple (← items.mapM eval)
  | .op op args => evalOp eval op args
  | .pos span e => do
    if (← getSession).settings.traces then withSpan span (eval e) else eval e

end Step

/-- Evaluate an expression, with steps nested at most `fuel` deep. -/
def eval : Nat → Expr → Eval Term
  | 0, _ => throw .outOfFuel
  | fuel + 1, e => step (eval fuel) e

end Residual.Eval
