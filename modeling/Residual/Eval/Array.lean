import Residual.Eval.Emit

/-!
Arrays and references. They exist at run time only, so every operation is emitted.
-/

namespace Residual

/-- The operation is on references. -/
def ArrayOp.onReference : ArrayOp → Bool
  | .refGet | .refSet => true
  | _ => false

namespace Eval

/-- The element type of an operand that has to be an array, or a reference. -/
def elementType (op : ArrayOp) (t : Term) : Eval Ty :=
  match t.ty with
  | .array storage elem =>
    if (storage == .reference) == op.onReference then return elem else fail (.notArray op t.ty)
  | other => fail (.notArray op other)

def expectIndex (op : ArrayOp) (t : Term) : Eval Unit :=
  if t.ty.prim?.any Prim.isInt then return () else fail (.index op t.ty)

def expectElement (op : ArrayOp) (elem : Ty) (t : Term) : Eval Unit :=
  if t.ty == elem then return () else fail (.element op elem t.ty)

def arrayOp (op : ArrayOp) (args : List Term) : Eval Term :=
  match op with
  | .create storage => do
    let (elem, length) ← operands₂ (.array op) args
    expectIndex op length
    let length ← toRuntime length
    emit (.array op) [.type elem.ty, length] (.array storage elem.ty)
  | .length => do
    let array ← operand (.array op) args
    let _ ← elementType op array
    emit (.array op) [array] (.prim (.int .i64))
  | .index => do
    let (array, index) ← operands₂ (.array op) args
    let elem ← elementType op array
    expectIndex op index
    emit (.array op) [array, index] elem
  | .set => do
    let (array, index, value) ← operands₃ (.array op) args
    let elem ← elementType op array
    expectIndex op index
    expectElement op elem value
    let value ← toRuntime value
    emit (.array op) [array, index, value] .unit
  | .refCreate => do
    let value ← operand (.array op) args
    let ty := .array .reference value.ty
    let value ← toRuntime value
    emit (.array op) [value] ty
  | .refGet => do
    let reference ← operand (.array op) args
    let elem ← elementType op reference
    emit (.array op) [reference] elem
  | .refSet => do
    let (reference, value) ← operands₂ (.array op) args
    let elem ← elementType op reference
    expectElement op elem value
    let value ← toRuntime value
    emit (.array op) [reference, value] .unit

end Eval

end Residual
