import Residual.Typed.EnvTable

/-!
Join points: pieces of code that are evaluated once for each shape of what they capture.

A join point is absent, in evaluation, or done. While it is in evaluation its result type may be
known already, from an annotation or from a guess.
-/

namespace Residual

/-- A join point: what kind of code, under which key. -/
structure Point where
  kind : PointKind
  key : Key
deriving DecidableEq

/-- What a key stands for: a body and the entered environment it captures. -/
structure KeyData where
  body : Expr
  envSymbol : Nat
  env : Fields Term

instance : BEq KeyData := ⟨fun a b => a.body == b.body && a.envSymbol == b.envSymbol⟩

/-- A finished body in tags of its own, with one parameter for each captured variable. A
closure has its argument besides. -/
structure Body where
  term : Term
  ty : Ty
  params : List Var
  closureParam : Option Var

inductive Progress where
  | pending (ty : Option Ty)
  | done (body : Body)

/-- `trace` leads to the first request of the join point. -/
structure Entry where
  progress : Progress
  trace : Trace

/-- The join points that are in evaluation or done. -/
abbrev PointTable := List (Point × Entry)

namespace PointTable

def get? (t : PointTable) (p : Point) : Option Entry := t.lookup p

def insert (t : PointTable) (p : Point) (e : Entry) : PointTable := (p, e) :: t

def erase (t : PointTable) (p : Point) : PointTable := t.filter fun e => e.1 ≠ p

/-- Change how far a join point is. -/
def setProgress (t : PointTable) (p : Point) (progress : Progress) : PointTable :=
  t.map fun e => if e.1 = p then (e.1, { e.2 with progress }) else e

def count (t : PointTable) (kind : PointKind) : Nat := t.countP fun e => e.1.kind = kind

theorem get?_cons (p : Point) (e : Entry) (t : PointTable) (q : Point) :
    get? ((p, e) :: t) q = if q = p then some e else t.get? q := by
  by_cases h : q = p
  · simp [get?, h]
  · simp [get?, List.lookup_cons, h, beq_false_of_ne h]

theorem get?_insert (t : PointTable) (p q : Point) (e : Entry) :
    (t.insert p e).get? q = if q = p then some e else t.get? q :=
  get?_cons p e t q

theorem erase_cons (p q : Point) (e : Entry) (t : PointTable) :
    erase ((q, e) :: t) p = if q = p then t.erase p else (q, e) :: t.erase p := by
  by_cases h : q = p <;> simp [erase, h]

theorem get?_erase (t : PointTable) (p q : Point) :
    (t.erase p).get? q = if q = p then none else t.get? q := by
  induction t with
  | nil => simp [erase, get?]
  | cons e rest ih =>
    obtain ⟨r, e⟩ := e
    rw [erase_cons, get?_cons]
    split
    · rename_i hr
      subst hr
      rw [ih]
      split <;> rfl
    · rename_i hr
      rw [get?_cons, ih]
      split
      · rename_i hq
        rw [if_neg (hq ▸ hr)]
      · rfl

theorem get?_setProgress (t : PointTable) (p q : Point) (progress : Progress) :
    (t.setProgress p progress).get? q =
      if q = p then (t.get? q).map fun e => { e with progress } else t.get? q := by
  induction t with
  | nil => simp [setProgress, get?]
  | cons e rest ih =>
    obtain ⟨r, e⟩ := e
    have hcons : setProgress ((r, e) :: rest) p progress =
        (r, if r = p then { e with progress } else e) :: setProgress rest p progress := by
      by_cases h : r = p <;> simp [setProgress, h]
    rw [hcons, get?_cons, get?_cons, ih]
    by_cases hq : q = r
    · subst hq
      by_cases hp : q = p <;> simp [hp]
    · simp [hq]

end PointTable

end Residual
