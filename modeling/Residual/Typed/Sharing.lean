import Residual.Typed.Equal.Quick

/-!
Results of operations that can be used again.

The table belongs to one body. Each branch of a split works in a scope of its own, and leaving
the scope forgets all that was entered in it.
-/

namespace Residual

structure Application where
  op : Op
  args : List Term

/-- Operands are compared by content. -/
instance : BEq Application :=
  ⟨fun a b => a.op == b.op && (Term.quickAll .content a.args b.args).1⟩

/-- `scopes` holds what was entered in each open scope, the innermost first. -/
structure Sharing where
  entries : List (Application × Var) := []
  scopes : List (List Application) := []

namespace Sharing

def get? (t : Sharing) (a : Application) : Option Var := t.entries.lookup a

def erase (t : Sharing) (a : Application) : Sharing :=
  { t with entries := t.entries.filter fun e => !(a == e.1) }

def insert (t : Sharing) (a : Application) (v : Var) : Sharing :=
  { entries := (a, v) :: (t.erase a).entries
    scopes := match t.scopes with
      | [] => []
      | scope :: outer => (a :: scope) :: outer }

def push (t : Sharing) : Sharing := { t with scopes := [] :: t.scopes }

def pop (t : Sharing) : Sharing :=
  match t.scopes with
  | [] => t
  | scope :: outer => scope.foldl erase { t with scopes := outer }

def size (t : Sharing) : Nat := t.entries.length

def isEmpty (t : Sharing) : Bool := t.entries.isEmpty

end Sharing

end Residual
