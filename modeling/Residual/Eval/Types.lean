import Residual.Eval.Emit
import Residual.Typed.Order

/-!
Operations on types, and text that is passed on to other compilers.
-/

namespace Residual.Eval

/-- A piece of a foreign type. -/
def foreignPart (t : Term) : Eval ForeignPart :=
  match t with
  | .lit (.string s) => return .text s
  | .type t => return .type t
  | .var ⟨_, t⟩ => return .type t
  | t => fail (.foreignPart t.ty)

def typeOp (op : TypeOp) (args : List Term) : Eval Term :=
  match op with
  | .get => do return .type (← operand (.type op) args).ty
  | .union => do
    let (a, b) ← operands₂ (.type op) args
    return .type (.unionOf [a.ty, b.ty])
  | .literal => do
    match ← operand (.type op) args with
    | .lit l => return .type (.lit l)
    | t => fail (.notLiteral t.ty)
  | .equal => do
    let (a, b) ← operands₂ (.type op) args
    return .lit (.bool (a.ty == b.ty))
  | .foreign target => do return .type (.foreign target (← args.mapM foreignPart))

/-- A piece of foreign code stays as it is. -/
def foreignArg (t : Term) : Eval Term :=
  match t with
  | .lit (.string _) | .var _ | .type _ => return t
  | t => fail (.foreignPart t.ty)

/-- Foreign code: the type of its result, then its pieces. -/
def foreignOp (target : Target) (args : List Term) : Eval Term :=
  match args with
  | [] => fail .noForeignType
  | result :: parts => do
    let parts ← parts.mapM foreignArg
    bindResult (.op (.foreign target) (.type result.ty :: parts) result.ty) result.ty

end Residual.Eval
