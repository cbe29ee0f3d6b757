/-!
Diagnostic text of data: constructors with their arguments, records with their fields, lists
and maps.
-/

namespace Residual.Text.Dump

def commas (items : List String) : String := ", ".intercalate items

/-- A constructor applied to arguments. -/
def call (head : String) (args : List String) : String := head ++ "(" ++ commas args ++ ")"

/-- A constructor with named fields. -/
def record (head : String) (fields : List (String × String)) : String :=
  head ++ " \x7b " ++ commas (fields.map fun f => f.1 ++ ": " ++ f.2) ++ " \x7d"

def list (items : List String) : String := "[" ++ commas items ++ "]"

def map (entries : List (String × String)) : String :=
  "\x7b" ++ commas (entries.map fun e => e.1 ++ ": " ++ e.2) ++ "\x7d"

/-- A value entered in a table, after its symbol. -/
def node (symbol : Nat) (value : String) : String := s!"#{symbol}:" ++ value

end Residual.Text.Dump
