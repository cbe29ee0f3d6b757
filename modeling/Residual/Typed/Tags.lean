import Residual.Typed.Term

/-!
The supply of tags. Tags are words of 32 bits, and the supply ends before the last one.
-/

namespace Residual

structure Tags where
  next : Tag := 0
deriving DecidableEq

namespace Tags

/-- The tag that is never handed out. -/
def limit : Tag := 4294967295

/-- The next tag, and the supply after it. -/
def fresh? (s : Tags) : Option (Tag × Tags) :=
  if s.next < limit then some (s.next, ⟨s.next + 1⟩) else none

theorem fresh?_eq_some_iff {s r : Tags} {t : Tag} :
    s.fresh? = some (t, r) ↔ s.next < limit ∧ t = s.next ∧ r.next = s.next + 1 := by
  cases s; cases r
  simp only [fresh?]
  grind

end Tags

mutual

/-- One past the highest tag of the variables in a value, or zero. -/
def Term.nextTag : Term → Tag
  | .var v => (v.tag + 1) % (Tags.limit + 1)
  | .tuple items => Term.nextTagOfAll items
  | .map env _ => Env.nextTag env
  | .box inner _ => inner.nextTag
  | _ => 0

def Term.nextTagOfAll : List Term → Tag
  | [] => 0
  | t :: rest => max t.nextTag (Term.nextTagOfAll rest)

def Env.nextTag : Env → Tag
  | .plain fields => Env.nextTagOfFields (fun _ => true) fields
  | .restricted fields used => Env.nextTagOfFields used.contains fields
  | .consed _ fields => Env.nextTagOfFields (fun _ => true) fields

def Env.nextTagOfFields (keep : Name → Bool) : List (Name × Term) → Tag
  | [] => 0
  | (x, t) :: rest =>
    if keep x then max t.nextTag (Env.nextTagOfFields keep rest)
    else Env.nextTagOfFields keep rest

end

end Residual
