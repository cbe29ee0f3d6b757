import Residual.Typed.EnvTable
import Residual.Typed.Tags

/-!
Renaming of variables.

Each binder gets a new tag. A variable that is free becomes a parameter at its first use: its
old form is recorded as an argument and its new form as the parameter, at the same place. Free
variables of a type without run-time data become values and are not recorded. Environments
inside a renamed term are entered in the table.
-/

namespace Residual

/-- What a renaming knows: new tags by old ones, the latest first, and the free variables so
far in their old and their new form. -/
structure Renaming where
  envs : EnvTable
  tags : Tags := {}
  renamed : List (Tag × Tag) := []
  args : List Var := []
  params : List Var := []

/-- Renaming fails only when no tag is left. -/
abbrev Rename := StateT Renaming Option

namespace Rename

def freshTag : Rename Tag := fun s => do
  let (tag, tags) ← s.tags.fresh?
  return (tag, { s with tags })

/-- A new variable that stands for none in the term. -/
def freshVar (t : Ty) : Rename Var := do return ⟨← freshTag, t⟩

/-- A binder always gets a new tag. -/
def bindVar (v : Var) : Rename Var := do
  let tag ← freshTag
  modify fun s => { s with renamed := (v.tag, tag) :: s.renamed }
  return ⟨tag, v.ty⟩

/-- A use gets the tag of its binder, or becomes a parameter. -/
def useVar (v : Var) : Rename Var := do
  match (← get).renamed.lookup v.tag with
  | some tag => return ⟨tag, v.ty⟩
  | none =>
    let tag ← freshTag
    modify fun s =>
      { s with
        renamed := (v.tag, tag) :: s.renamed
        args := s.args ++ [v]
        params := s.params ++ [⟨tag, v.ty⟩] }
    return ⟨tag, v.ty⟩

def bindVars (vs : List Var) : Rename (List Var) := vs.mapM bindVar

def consFields (fields : Fields Term) : Rename Env :=
  modifyGet fun s => let (env, envs) := s.envs.cons fields; (env, { s with envs })

/-- Rename the bindings from left to right. -/
def inOrder (bindings : List (Name × Rename Term)) : Rename (List (Name × Term)) :=
  bindings.mapM fun b => return (b.1, ← b.2)

mutual

def term (t : Term) : Rename Term :=
  match t with
  | .type t => return .type t
  | .lit l => return .lit l
  | .var v => if v.ty.isUnit then return .ofUnit v.ty else return .var (← useVar v)
  | .tuple items => return .tuple (← terms items)
  | .map e kind => return .map (← env e) kind
  | .box inner t => return .box (← term inner) t
  | .letIn bind bound rest trace => do
    let bound ← term bound
    let bind ← bindVar bind
    let rest ← term rest
    return .letIn bind bound rest trace
  | .state stmt rest trace => do
    let stmt ← term stmt
    let rest ← term rest
    return .state stmt rest trace
  | .op o args t =>
    if o = .case then return .op o (← caseArgs args) t else return .op o (← terms args) t
  | .call key kind args t => return .call key kind (← args.mapM useVar) t
termination_by structural t

def terms (ts : List Term) : Rename (List Term) :=
  match ts with
  | [] => return []
  | t :: rest => do
    let first ← term t
    return first :: (← terms rest)
termination_by structural ts

/-- The parts of a split: the value, then for each branch its variable and its body. -/
def caseArgs (ts : List Term) : Rename (List Term) :=
  match ts with
  | [] => return []
  | t :: rest => do
    let value ← term t
    return value :: (← caseBinders rest)
termination_by structural ts

def caseBinders (ts : List Term) : Rename (List Term) :=
  match ts with
  | [] => return []
  | t :: rest => do
    let binder ← match t with
      | .var v => do pure (.var (← bindVar v))
      | _ => term t
    return binder :: (← caseBodies rest)
termination_by structural ts

def caseBodies (ts : List Term) : Rename (List Term) :=
  match ts with
  | [] => return []
  | t :: rest => do
    let body ← term t
    return body :: (← caseBinders rest)
termination_by structural ts

/-- Rename the visible bindings one after the other and enter the result. -/
def env (e : Env) : Rename Env :=
  match e with
  | .plain m => do consFields (← inOrder (fields m))
  | .restricted m used => do consFields (Fields.ofList (← inOrder (used.pick (fields m))))
  | .consed _ m => do consFields (← inOrder (fields m))
termination_by structural e

/-- The renaming of each binding. -/
def fields (m : List (Name × Term)) : List (Name × Rename Term) :=
  match m with
  | [] => []
  | (x, t) :: rest => (x, term t) :: fields rest
termination_by structural m

end

/-- The variables of an environment in order of first use: those that a packed form holds. -/
def envVars (envs : EnvTable) (e : Env) : Option (List Var × EnvTable) := do
  let (_, s) ← (env e).run { envs }
  return (s.args, s.envs)

end Rename

end Residual
