import Residual.Typed.Term

/-!
Residual code as statements in the order they arose, closed around a result in the end.
-/

namespace Residual

inductive Stmt where
  | letIn (bind : Var) (bound : Term) (trace : Trace)
  | state (stmt : Term) (trace : Trace)

namespace Stmt

def before : Stmt → Term → Term
  | .letIn bind bound trace, rest => .letIn bind bound rest trace
  | .state stmt trace, rest => .state stmt rest trace

/-- The statements in order, then the result. -/
def close (stmts : List Stmt) (result : Term) : Term := stmts.foldr before result

@[simp] theorem close_nil (result : Term) : close [] result = result := rfl

@[simp] theorem close_cons (s : Stmt) (stmts : List Stmt) (result : Term) :
    close (s :: stmts) result = s.before (close stmts result) := rfl

@[simp] theorem ty_before (s : Stmt) (rest : Term) : (s.before rest).ty = rest.ty := by
  cases s <;> rfl

@[simp] theorem ty_close (stmts : List Stmt) (result : Term) :
    (close stmts result).ty = result.ty := by
  induction stmts with
  | nil => rfl
  | cons s rest ih => simp [ih]

@[simp] theorem tail_before (s : Stmt) (rest : Term) : (s.before rest).tail = rest.tail := by
  cases s <;> rfl

@[simp] theorem tail_close (stmts : List Stmt) (result : Term) :
    (close stmts result).tail = result.tail := by
  induction stmts with
  | nil => rfl
  | cons s rest ih => simp [ih]

end Stmt

end Residual
