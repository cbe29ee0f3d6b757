import Residual.Eval.Apply

/-!
Modules and their packed forms.
-/

namespace Residual

/-- A value has a field, as its type tells. -/
def Term.hasMember (t : Term) (x : Name) : Bool :=
  match t with
  | .map env _ => (env.get? x).isSome
  | t =>
    match t.ty with
    | .map fields _ => (Fields.get? fields x).isSome
    | .layout _ env _ => (env.get? x).isSome
    | _ => false

namespace Eval

/-- The name of a field as functions over fields receive it. -/
def fieldKey (x : Name) : Eval Term :=
  return .type (.lit (.string ((← getSession).store.names.text x)))

/-- One field of a module. Of a variable only that field is read. -/
def openField (op : ModuleOp) (t : Term) (x : Name) : Eval Term :=
  match t with
  | .var ⟨tag, .map fields kind⟩ =>
    match Fields.get? fields x with
    | some ty => readField ⟨tag, .map fields kind⟩ x ty
    | none => fail (.noField x)
  | _ => do
    let (env, _) ← mapValue (.module op) t
    match env.get? x with
    | some value => return value
    | none => fail (.noField x)

variable (eval : Expr → Eval Term)

/-- Each field by what the function makes of its name and its value. -/
def mapFields (f : Term) : Fields Term → Eval (Fields Term)
  | [] => return []
  | (x, value) :: rest => do
    let key ← fieldKey x
    let partly ← apply eval f key
    let new ← apply eval partly value
    return (x, new) :: (← mapFields f rest)

/-- The fields in order, each with what came before it. -/
def foldFields (f acc : Term) : Fields Term → Eval Term
  | [] => return acc
  | (x, value) :: rest => do
    let key ← fieldKey x
    let withState ← apply eval f acc
    let withKey ← apply eval withState key
    foldFields f (← apply eval withKey value) rest

def moduleOp (op : ModuleOp) (args : List Term) : Eval Term :=
  match op with
  | .create fields =>
    if fields.length = args.length then
      return .map (.plain (Fields.ofList (fields.zip args))) .module
    else fail (.arity (.module op) fields.length args.length)
  | .extend fields =>
    match args with
    | [] => fail (.arity (.module op) (fields.length + 1) 0)
    | t :: values => do
      let (env, kind) ← mapValue (.module op) t
      if values.length = fields.length then
        return .map ((fields.zip values).foldl (fun env e => env.bind e.1 e.2) env) kind
      else fail (.arity (.module op) (fields.length + 1) (values.length + 1))
  | .without fields => do
    let t ← operand (.module op) args
    let (env, kind) ← mapValue (.module op) t
    return .map (.plain (fields.foldl Fields.erase env.visible)) kind
  | .open x => do openField op (← operand (.module op) args) x
  | .getField x => do openField op (← operand (.module op) args) x
  | .hasMember x => do return .lit (.bool ((← operand (.module op) args).hasMember x))
  | .map => do
    let (f, t) ← operands₂ (.module op) args
    let (env, _) ← mapValue (.module op) t
    return .map (.plain (← mapFields eval f env.visible)) .module
  | .fold => do
    let (f, state, t) ← operands₃ (.module op) args
    let (env, _) ← mapValue (.module op) t
    foldFields eval f state env.visible

/-- Packing keeps the variables of a map in order; the type keeps all that is known of it. -/
def layoutOp (op : LayoutOp) (args : List Term) : Eval Term := do
  let t ← operand (.layout op) args
  match op with
  | .pack layout =>
    let (env, kind) ← mapValue (.layout op) t
    let (canonical, r) ← rename (fun envs => { envs }) (Rename.env env)
    let ty := .layout layout canonical kind
    bindResult (.op (.layout op) [.tuple (r.args.map .var)] ty) ty
  | .read i =>
    match t with
    | .var ⟨_, .layout _ env _⟩ =>
      match (← envVars env)[i]? with
      | some field => emit (.layout op) [t] field.ty
      | none => fail (.notLayout t.ty)
    | _ => fail (.notLayout t.ty)

end Eval

end Residual
