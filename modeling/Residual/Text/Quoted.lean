import Residual.Text.Unprintable
import Residual.Text.Extender

/-!
Quoted text. The quote in use, the backslash and the common controls are escaped by a letter,
and a character that would not show on its own is written by its number.
-/

namespace Residual.Text

/-- Whether `c` lies in one of the ranges, which ascend. -/
def inRanges (c : Nat) : List (Nat × Nat) → Bool
  | [] => false
  | (lo, hi) :: rest => if c < lo then false else c ≤ hi || inRanges c rest

/-- A character with a glyph of its own. -/
def isPrintable (c : Char) : Bool :=
  !inRanges c.toNat Unprintable.ranges && !inRanges c.toNat Extender.ranges

namespace Quoted

/-- A backslash, `u` and the number in braces, in lower case without leading zeros. -/
def byNumber (c : Char) : List Char :=
  '\\' :: 'u' :: '\x7b' :: (Nat.toDigits 16 c.toNat ++ ['\x7d'])

/-- How `c` is written between two marks `quote`. -/
def escape (quote c : Char) : List Char :=
  if c = '\x00' then ['\\', '0']
  else if c = '\t' then ['\\', 't']
  else if c = '\r' then ['\\', 'r']
  else if c = '\n' then ['\\', 'n']
  else if c = '\\' ∨ c = quote then ['\\', c]
  else if isPrintable c then [c]
  else byNumber c

def string (s : String) : String :=
  String.ofList ('"' :: (s.toList.flatMap (escape '"') ++ ['"']))

def char (c : Char) : String :=
  String.ofList ('\x27' :: (escape '\x27' c ++ ['\x27']))

end Quoted

end Residual.Text
