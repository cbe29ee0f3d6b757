import Residual.Name

/-!
Source positions and the chains of positions that lead to a point of evaluation.
-/

namespace Residual

structure LineCol where
  line : Nat
  col : Nat
deriving DecidableEq

/-- A stretch of the text of one module. -/
structure Span where
  module : Name
  start : LineCol
  stop : LineCol
deriving DecidableEq

/-- Positions from the outermost to the innermost. -/
structure Trace where
  positions : List Span := []
deriving DecidableEq, Inhabited

namespace Trace

def innermost (t : Trace) : Option Span := t.positions.getLast?

def size (t : Trace) : Nat := t.positions.length

def isEmpty (t : Trace) : Bool := t.positions.isEmpty

/-- Go one position deeper. A repeat of the innermost position adds nothing. -/
def push (t : Trace) (s : Span) : Trace :=
  if t.innermost = some s then t else ⟨t.positions ++ [s]⟩

def ofList (spans : List Span) : Trace := spans.foldl push {}

end Trace

end Residual
