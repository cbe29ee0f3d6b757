import Residual.Eval.Access

/-!
Application. A function is inlined: its body is evaluated where its argument is bound. A module
is applied to the name of a field, a union type to a value of one of its members. Only a closure
leaves a call for run time.
-/

namespace Residual.Eval

/-- The members of a union or of the union that a recursive type stands for. Any other type is
its own only member. -/
def unionMembers (t : Ty) : Eval (List Ty) := do
  match t with
  | .recur key =>
    match (← getSession).recType? key with
    | some definition => return definition.members?.getD [definition]
    | none => fail (.undefinedType t)
  | _ => return t.members?.getD [t]

/-- A value as a value of a union. -/
def boxValue (t : Ty) (value : Term) : Eval Term := do
  if (← unionMembers t).contains value.ty then return .box value t
  else fail (.notMember t value.ty)

variable (eval : Expr → Eval Term)

/-- Apply a map. -/
def applyMap (env : Env) (kind : MapKind) (arg : Term) : Eval Term :=
  match kind with
  | .function param body => withEnv (env.bind param arg) (eval body)
  | .recFunction this param body =>
    withEnv ((env.bind this (.map env kind)).bind param arg) (eval body)
  | .module => do
    match arg.string? with
    | none => fail (.notCallable (Term.map env kind).ty)
    | some field =>
      let x ← build (Build.name field)
      match env.get? x with
      | some value => return value
      | none => fail (.noField x)

def apply (f arg : Term) : Eval Term :=
  match f with
  | .var ⟨_, .closure dom range⟩ => do
    if arg.ty == dom then
      let arg ← toRuntime arg
      emit .apply [f, arg] range
    else fail (.closureArg dom arg.ty)
  | .type (.union members) => boxValue (.union members) arg
  | .type (.recur key) => boxValue (.recur key) arg
  | _ => do
    match ← mapValue? f with
    | some (env, kind) => applyMap eval env kind arg
    | none => fail (.notCallable f.ty)

end Residual.Eval
