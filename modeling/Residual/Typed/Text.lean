import Residual.Typed.Term

/-!
Types as text, for messages and for reading.
-/

namespace Residual

def MapKind.text (names : Names) : MapKind → String
  | .module => ""
  | .function x _ => s!"fun {names.text x} "
  | .recFunction f x _ => s!"rec {names.text f} {names.text x} "

/-- Field texts between braces, in order. -/
def bracedFields (fields : List String) : String :=
  "\x7b" ++ "; ".intercalate fields ++ "\x7d"

mutual

def Ty.text (names : Names) : Ty → String
  | .prim p => p.name
  | .list items => "(" ++ ", ".intercalate (Ty.texts names items) ++ ")"
  | .lit l => "." ++ l.text
  | .map fields kind => kind.text names ++ bracedFields (Ty.fieldTexts names fields)
  | .layout l env kind =>
    l.name ++ " " ++ kind.text names ++ bracedFields (Env.typeTexts names env)
  | .closure dom range => "(" ++ dom.text names ++ " => " ++ range.text names ++ ")"
  | .union [] => "never"
  | .union members => " | ".intercalate (Ty.texts names members)
  | .recur key => s!"rec#{key.symbol}"
  | .array storage elem => storage.name ++ "<" ++ elem.text names ++ ">"
  | .foreign target parts =>
    (match target with | .host => "$" | .accel => "$cuda") ++ "\"" ++
      ForeignPart.texts names parts ++ "\""

def Ty.texts (names : Names) : List Ty → List String
  | [] => []
  | t :: rest => t.text names :: Ty.texts names rest

def Ty.fieldTexts (names : Names) : List (Name × Ty) → List String
  | [] => []
  | (x, t) :: rest => (names.text x ++ ": " ++ t.text names) :: Ty.fieldTexts names rest

def ForeignPart.spelled (names : Names) : ForeignPart → String
  | .text s => s
  | .type t => "`" ++ t.text names ++ "`"

def ForeignPart.texts (names : Names) : List ForeignPart → String
  | [] => ""
  | p :: rest => p.spelled names ++ ForeignPart.texts names rest

/-- The text of the type of a term. -/
def Term.typeText (names : Names) : Term → String
  | .type t => t.text names
  | .var ⟨_, t⟩ => t.text names
  | .tuple items => "(" ++ ", ".intercalate (Term.typeTexts names items) ++ ")"
  | .map env kind => kind.text names ++ bracedFields (Env.typeTexts names env)
  | .box _ t => t.text names
  | .lit l => l.type.name
  | .letIn _ _ rest _ => rest.typeText names
  | .state _ rest _ => rest.typeText names
  | .op _ _ t => t.text names
  | .call _ _ _ t => t.text names

def Term.typeTexts (names : Names) : List Term → List String
  | [] => []
  | t :: rest => t.typeText names :: Term.typeTexts names rest

/-- The visible bindings with their types. -/
def Env.typeTexts (names : Names) : Env → List String
  | .plain fields => Env.fieldTexts names (fun _ => true) fields
  | .restricted fields used => Env.fieldTexts names used.contains fields
  | .consed _ fields => Env.fieldTexts names (fun _ => true) fields

def Env.fieldTexts (names : Names) (keep : Name → Bool) : List (Name × Term) → List String
  | [] => []
  | (x, t) :: rest =>
    if keep x then (names.text x ++ ": " ++ t.typeText names) :: Env.fieldTexts names keep rest
    else Env.fieldTexts names keep rest

end

end Residual
