import Residual.Text.Blank

/-!
Settings of the evaluator, with defaults that variables of the surroundings can override.
-/

namespace Residual

/-- `maxDepth` bounds the number of join-point bodies in evaluation at one time. -/
structure Settings where
  sharing : Bool := true
  folding : Bool := true
  maxDepth : Nat := 512
  traces : Bool := true
deriving DecidableEq

namespace Settings

/-- The largest depth that can be set. -/
def depthLimit : Nat := 18446744073709551615

def digits? (cs : List Char) : Option Nat :=
  if cs.isEmpty || !cs.all Char.isDigit then none
  else
    let n := cs.foldl (fun n c => 10 * n + (c.toNat - '0'.toNat)) 0
    if n ≤ depthLimit then some n else none

/-- A number with blanks around it and perhaps a plus before it. -/
def depth? (s : String) : Option Nat :=
  match Text.trim s.toList with
  | '+' :: cs => digits? cs
  | cs => digits? cs

/-- A flag is set by any text but the ones for no. -/
def isSet : Option String → Bool
  | none => false
  | some s => s != "" && s != "0" && s != "false"

/-- The defaults, overridden by what the variables say. A depth that is no number is ignored. -/
def ofVariables (lookup : String → Option String) : Settings :=
  { maxDepth := ((lookup "HELIX_MAX_SPECIALIZATION_DEPTH").bind depth?).getD 512
    sharing := !isSet (lookup "HELIX_NO_CSE")
    folding := !isSet (lookup "HELIX_NO_FOLD") }

end Settings

end Residual
