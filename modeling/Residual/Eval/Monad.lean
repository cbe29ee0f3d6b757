import Residual.Session

/-!
Evaluation steps: they read and change the session and the scope, and the changes stay when a
step fails.
-/

namespace Residual

/-- How an evaluation ends without a value. Only a fault says something about the program; the
other two are limits of the evaluator. -/
inductive Stop where
  | failed (fault : Fault)
  | tagsExhausted
  | outOfFuel

structure World where
  session : Session
  scope : Scope

abbrev Eval := ExceptT Stop (StateM World)

namespace Eval

variable {α : Type}

def getSession : Eval Session := return (← get).session

def getScope : Eval Scope := return (← get).scope

def modifySession (f : Session → Session) : Eval Unit :=
  modify fun w => { w with session := f w.session }

def modifyScope (f : Scope → Scope) : Eval Unit :=
  modify fun w => { w with scope := f w.scope }

def modifyStats (f : Stats → Stats) : Eval Unit :=
  modifySession fun s => { s with stats := f s.stats }

/-- Fail at the current position. -/
def fail (cause : Cause) : Eval α := do
  throw (.failed { cause, trace := (← getScope).trace })

/-- Exactly one operand. -/
def operand (op : Op) : List Term → Eval Term
  | [a] => pure a
  | vs => fail (.arity op 1 vs.length)

/-- Exactly two operands. -/
def operands₂ (op : Op) : List Term → Eval (Term × Term)
  | [a, b] => pure (a, b)
  | vs => fail (.arity op 2 vs.length)

/-- Exactly three operands. -/
def operands₃ (op : Op) : List Term → Eval (Term × Term × Term)
  | [a, b, c] => pure (a, b, c)
  | vs => fail (.arity op 3 vs.length)

/-- Enter nodes into the store. -/
def build (act : Build α) : Eval α :=
  modifyGet fun w =>
    let (a, store) := act.run w.session.store
    (a, { w with session := { w.session with store } })

/-- Rename with a supply of tags of its own, starting from the given renaming of the session's
environments. -/
def rename (start : EnvTable → Renaming) (act : Rename α) : Eval (α × Renaming) := do
  match act.run (start (← getSession).envs) with
  | none => throw .tagsExhausted
  | some (a, r) =>
    modifySession fun s => { s with envs := r.envs }
    return (a, r)

/-- Run a step and then change the world, whether the step succeeds or not. -/
def ensuring (act : Eval α) (after : World → World) : Eval α :=
  ExceptT.mk do
    let result ← act.run
    modify after
    pure result

/-- Run a step and look at its outcome. -/
def observe (act : Eval α) : Eval (Except Stop α) :=
  ExceptT.mk do return .ok (← act.run)

/-- Run a step and look at its fault, if it has one. A limit of the evaluator is passed on. -/
def attempt (act : Eval α) : Eval (Except Fault α) := do
  match ← observe act with
  | .ok a => return .ok a
  | .error (.failed fault) => return .error fault
  | .error stop => throw stop

/-- Run a step in another environment. -/
def withEnv (env : Env) (act : Eval α) : Eval α := do
  let saved := (← getScope).env
  modifyScope fun s => { s with env }
  ensuring act fun w => { w with scope := { w.scope with env := saved } }

/-- Run a step one position deeper. -/
def withSpan (span : Span) (act : Eval α) : Eval α := do
  let saved := (← getScope).trace
  modifyScope fun s => { s with trace := s.trace.push span }
  ensuring act fun w => { w with scope := { w.scope with trace := saved } }

/-- Run one branch of a split: its statements are closed around its value. -/
def inBranch (act : Eval Term) : Eval Term := do
  let saved ← getScope
  modifyScope Scope.enterBranch
  let closed := do
    let value ← act
    return Stmt.close (← getScope).stmts value
  ensuring closed fun w => { w with scope := Scope.leaveBranch saved w.scope }

/-- Run a step in a scope of its own, and return to the current one. -/
def inScope (scope : Scope) (act : Eval α) : Eval α := do
  let saved ← getScope
  modifyScope fun _ => scope
  ensuring act fun w => { w with scope := saved }

end Eval

end Residual
