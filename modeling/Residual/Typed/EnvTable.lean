import Residual.Interner
import Residual.Typed.Equal.Quick

/-!
The table of environments that specializations are told apart by.

Environments are entered by content: a symbol that an environment got from another table says
nothing here.
-/

namespace Residual

abbrev EnvTable := Interner (Fields Term)

namespace EnvTable

/-- The node of some bindings, entering them if they are new. -/
def enter (t : EnvTable) (fields : Fields Term) : Node (Fields Term) × EnvTable :=
  @Interner.intern _ ⟨Fields.sameContent⟩ t fields

/-- Enter bindings in the table. -/
def cons (t : EnvTable) (fields : Fields Term) : Env × EnvTable :=
  let (node, t) := t.enter fields
  (.consed node.symbol node.value, t)

/-- The entered form of an environment; one that was entered before stays as it is. -/
def consEnv (t : EnvTable) : Env → Env × EnvTable
  | .consed symbol fields => (.consed symbol fields, t)
  | env => t.cons env.visible

end EnvTable

end Residual
