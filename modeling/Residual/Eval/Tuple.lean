import Residual.Eval.Emit

/-!
Tuples. Their length is known at once; elements of a variable are read at run time.
-/

namespace Residual

def Ty.tupleLength? : Ty → Option Nat
  | .list items => some items.length
  | _ => none

/-- The length of a value of a tuple type. That of a tuple is read off the tuple itself. -/
def Term.tupleLength? : Term → Option Nat
  | .tuple items => some items.length
  | t => t.ty.tupleLength?

theorem Term.length_tys (items : List Term) : (Term.tys items).length = items.length := by
  induction items with
  | nil => rfl
  | cons t rest ih => simp [Term.tys, ih]

theorem Term.tupleLength?_eq (t : Term) : t.tupleLength? = t.ty.tupleLength? := by
  cases t <;> simp [Term.tupleLength?, Term.ty, Ty.tupleLength?, Term.length_tys]

namespace Eval

/-- A value is no tuple, or too short for the operation. -/
def notTuple (op : TupleOp) (t : Term) : Eval Term := fail (.notTuple op t.ty)

def tupleIndex (t : Term) (i : Nat) : Eval Term :=
  match t with
  | .tuple items =>
    match items[i]? with
    | some item => return item
    | none => notTuple (.index i) t
  | .type (.list items) =>
    match items[i]? with
    | some item => return .ofUnit item
    | none => notTuple (.index i) t
  | .var ⟨_, .list items⟩ =>
    match items[i]? with
    | some item =>
      if item.isUnit then return .ofUnit item else emit (.tuple (.index i)) [t] item
    | none => notTuple (.index i) t
  | _ => notTuple (.index i) t

def tupleOp (op : TupleOp) (args : List Term) : Eval Term := do
  let t ← operand (.tuple op) args
  match op with
  | .lengthEq n => return .lit (.bool (t.tupleLength?.any (· == n)))
  | .lengthGe n => return .lit (.bool (t.tupleLength?.any (n ≤ ·)))
  | .index i => tupleIndex t i
  | .slice n =>
    match t.tupleLength? with
    | some length =>
      if n ≤ length then
        return .tuple (← (List.range (length - n)).mapM fun k => tupleIndex t (n + k))
      else notTuple op t
    | none => notTuple op t

end Eval

end Residual
