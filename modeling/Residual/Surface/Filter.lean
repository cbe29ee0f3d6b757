import Residual.Surface.FreeNames

/-!
Programs ready for evaluation: every pattern is lowered, and every function that is not
recursive lists the names it captures.
-/

namespace Residual.Build

variable (unfold : Pattern → Build Expr)

mutual

def filterWith (e : Expr) : Build Expr :=
  match e with
  | .node symbol kind => do
    match (← get).filtered.lookup symbol with
    | some done => pure done
    | none =>
      let done ← filterKind symbol kind
      modify fun st => { st with filtered := (symbol, done) :: st.filtered }
      pure done
termination_by structural e

def filterKind (symbol : Nat) (kind : ExprKind) : Build Expr :=
  match kind with
  | .var x => pure (.node symbol (.var x))
  | .lit l => pure (.node symbol (.lit l))
  | .pattern p => unfold p
  | .function param body => do
    let used ← freeNameSet (.node symbol (.function param body))
    let body ← filterWith body
    expr (.filtered used param body)
  | .filtered listed param body => do
    let used ← freeNameSet (.node symbol (.filtered listed param body))
    let body ← filterWith body
    expr (.filtered used param body)
  | .recFunction this param body => do
    let body ← filterWith body
    expr (.recFunction this param body)
  | .tuple items => do tuple (← filterAll items)
  | .op o args => do op o (← filterAll args)
  | .pos span e => do expr (.pos span (← filterWith e))
termination_by structural kind

def filterAll (es : List Expr) : Build (List Expr) :=
  match es with
  | [] => pure []
  | e :: rest => do
    let first ← filterWith e
    return first :: (← filterAll rest)
termination_by structural es

end

/-- Filter with patterns unfolded to the given depth. -/
def filterTo : Nat → Expr → Build Expr
  | 0, e => filterWith (fun p => expr (.pattern p)) e
  | depth + 1, e => filterWith (fun p => do filterTo depth (← lowerPattern p)) e

/-- Lower every pattern and list the captures of every function. -/
def filter (e : Expr) : Build Expr := do
  filterTo ((← get).patterns.size + 1) e

end Residual.Build
