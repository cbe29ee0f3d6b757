import Residual.Eval.Emit

/-!
Parts of values that are known only at run time.
-/

namespace Residual.Eval

/-- Read one field of a variable of a map type. -/
def readField (v : Var) (x : Name) (t : Ty) : Eval Term :=
  if t.isUnit then return .ofUnit t else emit (.module (.getField x)) [.var v] t

/-- Read all fields of a variable of a map type. -/
def readFields (v : Var) : List (Name × Ty) → Eval (Fields Term)
  | [] => return []
  | (x, t) :: rest => do
    let value ← readField v x t
    return (x, value) :: (← readFields v rest)

/-- The variables that an environment of a packed map holds, in order. -/
def envVars (env : Env) : Eval (List Var) := do
  let (_, r) ← rename (fun envs => { envs }) (Rename.env env)
  return r.args

/-- Read the packed values from index `i` on, and pair the tag that stands for each in the
type with the tag of what was read. -/
def readPacked (v : Var) (i : Nat) : List Var → Eval (List (Tag × Tag))
  | [] => return []
  | field :: rest => do
    let value ← emit (.layout (.read i)) [.var v] field.ty
    let later ← readPacked v (i + 1) rest
    match value with
    | .var new => return (field.tag, new.tag) :: later
    | _ => return later

/-- The environment of a packed map with the values read from `v`. -/
def unpack (v : Var) (env : Env) : Eval Env := do
  let substitution ← readPacked v 0 (← envVars env)
  let tags := (← getScope).tags
  let (env, r) ← rename
    (fun envs => { envs, tags, renamed := substitution.reverse }) (Rename.env env)
  modifyScope fun s => { s with tags := r.tags }
  return env

/-- The environment and the kind of anything that is a map, at the latest after reading it. -/
def mapValue? (t : Term) : Eval (Option (Env × MapKind)) :=
  match t with
  | .map env kind => return some (env, kind)
  | .var ⟨tag, .map fields kind⟩ => do
    let read ← readFields ⟨tag, .map fields kind⟩ fields
    return some (.plain read, kind)
  | .var ⟨tag, .layout l env kind⟩ => do
    let read ← unpack ⟨tag, .layout l env kind⟩ env
    return some (read, kind)
  | .type (.map fields kind) => return some (.plain (Term.ofUnitFields fields), kind)
  | _ => return none

/-- The environment and the kind of an operand that has to be a map. -/
def mapValue (op : Op) (t : Term) : Eval (Env × MapKind) := do
  match ← mapValue? t with
  | some value => return value
  | none => fail (.notModule op t.ty)

end Residual.Eval
