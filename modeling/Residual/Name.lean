import Residual.Interner

/-!
Names of variables and fields, as symbols of a table of texts.

Names are ordered by when they were first entered. The empty text is name `0` of every table.
-/

namespace Residual

structure Name where
  index : Nat
deriving DecidableEq, Inhabited

structure Names where
  table : Interner String := ⟨[""]⟩

namespace Names

def size (t : Names) : Nat := t.table.size

/-- Only the empty text was entered. -/
def isEmpty (t : Names) : Bool := t.size ≤ 1

def get? (t : Names) (s : String) : Option Name := (t.table.symbol? s).map Name.mk

def intern (t : Names) (s : String) : Name × Names :=
  let (node, table) := t.table.intern s
  (⟨node.symbol⟩, ⟨table⟩)

def tryIntern (t : Names) (s : String) : Except Overflow (Name × Names) := do
  let (node, table) ← Interner.tryIntern "string" t.table s
  return (⟨node.symbol⟩, ⟨table⟩)

/-- The text of a name; names of another table may have none here. -/
def text (t : Names) (x : Name) : String := t.table.entries[x.index]?.getD "<unknown>"

end Names

end Residual
