import Residual.Surface.Lower

/-!
The names free in an expression, in order of first use.

A pattern has the free names of the function it denotes. That function holds only expressions
embedded in the pattern, whose own patterns were entered earlier, so unfolding patterns as often
as the store has patterns reaches every name.
-/

namespace Residual.Build

/-- Add the names that are neither bound nor there already. -/
def addNames (out names bound : List Name) : List Name :=
  names.foldl (fun acc x => if bound.contains x || acc.contains x then acc else acc ++ [x]) out

variable (unfold : Pattern → Build (List Name))

mutual

def freeNamesWith (e : Expr) : Build (List Name) :=
  match e with
  | .node symbol kind => do
    match (← get).freeNames.lookup symbol with
    | some names => pure names
    | none =>
      let names ← freeNamesOfKind kind
      modify fun st => { st with freeNames := (symbol, names) :: st.freeNames }
      pure names
termination_by structural e

def freeNamesOfKind (kind : ExprKind) : Build (List Name) :=
  match kind with
  | .var x => pure [x]
  | .lit _ => pure []
  | .pattern p => unfold p
  | .function param body => do return addNames [] (← freeNamesWith body) [param]
  | .filtered _ param body => do return addNames [] (← freeNamesWith body) [param]
  | .recFunction this param body => do return addNames [] (← freeNamesWith body) [this, param]
  | .tuple items => freeNamesOfAll [] items
  | .op _ args => freeNamesOfAll [] args
  | .pos _ e => freeNamesWith e
termination_by structural kind

def freeNamesOfAll (out : List Name) (es : List Expr) : Build (List Name) :=
  match es with
  | [] => pure out
  | e :: rest => do
    let names ← freeNamesWith e
    freeNamesOfAll (addNames out names []) rest
termination_by structural es

end

/-- Free names with patterns unfolded to the given depth. -/
def freeNamesTo : Nat → Expr → Build (List Name)
  | 0, e => freeNamesWith (fun _ => pure []) e
  | depth + 1, e => freeNamesWith (fun p => do freeNamesTo depth (← lowerPattern p)) e

def freeNames (e : Expr) : Build (List Name) := do
  freeNamesTo ((← get).patterns.size + 1) e

/-- The free names in ascending order. -/
def freeNameSet (e : Expr) : Build (List Name) := do
  return (← freeNames e).mergeSort fun a b => a.index ≤ b.index

end Residual.Build
