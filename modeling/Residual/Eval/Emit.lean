import Residual.Eval.Monad

/-!
Residual code: variables for results, statements, and operations that share results.
-/

namespace Residual.Eval

def freshTag : Eval Tag := do
  match (← getScope).tags.fresh? with
  | none => throw .tagsExhausted
  | some (tag, tags) =>
    modifyScope fun s => { s with tags }
    return tag

def freshVar (t : Ty) : Eval Var := return ⟨← freshTag, t⟩

def pushStmt (mk : Trace → Stmt) : Eval Unit :=
  modifyScope fun s => { s with stmts := s.stmts ++ [mk s.trace] }

/-- Bind code to a new variable. Code whose result carries no data becomes a statement. -/
def bindResult (t : Term) (ty : Ty) : Eval Term := do
  if ty.isUnit then
    pushStmt (.state t)
    return .ofUnit ty
  else
    let v ← freshVar ty
    pushStmt (.letIn v t)
    return .var v

/-- Emit an operation, or use the result of an equal one that is in scope. -/
def emit (op : Op) (args : List Term) (ty : Ty) : Eval Term := do
  if (← getSession).settings.sharing && op.isPure && !ty.isUnit then
    match (← getScope).sharing.get? ⟨op, args⟩ with
    | some v =>
      modifyStats fun s => { s with sharingHits := s.sharingHits + 1 }
      return .var v
    | none =>
      let v ← freshVar ty
      pushStmt (.letIn v (.op op args ty))
      modifyScope fun s => { s with sharing := s.sharing.insert ⟨op, args⟩ v }
      return .var v
  else bindResult (.op op args ty) ty

mutual

/-- Make the leaves of a value run-time data: literals and boxes become variables, tuples and
maps keep their shape. -/
def toRuntime (t : Term) : Eval Term :=
  match t with
  | .lit l => bindResult (.lit l) (.prim l.type)
  | .box inner ty => do
    let inner ← toRuntime inner
    bindResult (.box inner ty) ty
  | .tuple items => return .tuple (← allToRuntime items)
  | .map env kind => return .map (.plain (← envToRuntime env)) kind
  | t => return t
termination_by structural t

def allToRuntime (ts : List Term) : Eval (List Term) :=
  match ts with
  | [] => return []
  | t :: rest => do
    let first ← toRuntime t
    return first :: (← allToRuntime rest)
termination_by structural ts

def envToRuntime (e : Env) : Eval (List (Name × Term)) :=
  match e with
  | .plain m => fieldsToRuntime (fun _ => true) m
  | .restricted m used => fieldsToRuntime used.contains m
  | .consed _ m => fieldsToRuntime (fun _ => true) m
termination_by structural e

def fieldsToRuntime (keep : Name → Bool) (m : List (Name × Term)) : Eval (List (Name × Term)) :=
  match m with
  | [] => return []
  | (x, t) :: rest =>
    if keep x then do
      let t ← toRuntime t
      return (x, t) :: (← fieldsToRuntime keep rest)
    else fieldsToRuntime keep rest
termination_by structural m

end

end Residual.Eval
