/-!
Tables that give equal values one symbol.

Symbols are handed out in order from zero. A value keeps the symbol and the representative it
was first entered with, so a table only grows.
-/

namespace Residual

universe u

/-- A value together with its symbol. Nodes of one table are compared by symbol. -/
structure Node (α : Type u) where
  symbol : Nat
  value : α

/-- The distinct values entered so far; the symbol of each is its place. -/
structure Interner (α : Type u) where
  entries : List α := []

/-- A table named `table` with `count` entries has no symbol left. -/
structure Overflow where
  table : String
  count : Nat

namespace Interner

/-- The largest symbol. -/
def limit : Nat := 4294967295

end Interner

def Overflow.message (o : Overflow) : String :=
  s!"{o.table} interner exceeded capacity: {o.count} entries, max is {Interner.limit}"

namespace Interner

variable {α : Type u}

def size (t : Interner α) : Nat := t.entries.length

def isEmpty (t : Interner α) : Bool := t.entries.isEmpty

def get? (t : Interner α) (symbol : Nat) : Option (Node α) :=
  t.entries[symbol]?.map (Node.mk symbol)

variable [BEq α]

/-- The symbol of `a`, if it was entered before. -/
def symbol? (t : Interner α) (a : α) : Option Nat := t.entries.findIdx? (· == a)

/-- The node of the first value equal to `a`, entering `a` if there is none. -/
def intern (t : Interner α) (a : α) : Node α × Interner α :=
  match (t.symbol? a).bind t.get? with
  | some node => (node, t)
  | none => (⟨t.size, a⟩, ⟨t.entries ++ [a]⟩)

/-- Like `intern`, but refuses a new value when every symbol is taken. -/
def tryIntern (table : String) (t : Interner α) (a : α) : Except Overflow (Node α × Interner α) :=
  if (t.symbol? a).isNone && limit < t.size then .error ⟨table, t.size⟩ else .ok (t.intern a)

omit [BEq α] in
theorem get?_eq_some_iff {t : Interner α} {symbol : Nat} {node : Node α} :
    t.get? symbol = some node ↔ node.symbol = symbol ∧ t.entries[symbol]? = some node.value := by
  obtain ⟨s, a⟩ := node
  simp only [get?, Option.map_eq_some_iff, Node.mk.injEq]
  grind

theorem symbol?_lt {t : Interner α} {a : α} {symbol : Nat} (h : t.symbol? a = some symbol) :
    symbol < t.size :=
  (List.findIdx?_eq_some_iff_getElem.1 h).1

/-- A new value takes the next symbol. -/
theorem intern_of_symbol?_eq_none {t : Interner α} {a : α} (h : t.symbol? a = none) :
    t.intern a = (⟨t.size, a⟩, ⟨t.entries ++ [a]⟩) := by
  simp [intern, h]

/-- A value that was entered before changes nothing. -/
theorem intern_of_symbol?_eq_some {t : Interner α} {a : α} {symbol : Nat}
    (h : t.symbol? a = some symbol) :
    (t.intern a).2 = t ∧ t.get? symbol = some (t.intern a).1 := by
  have hlt : symbol < t.entries.length := symbol?_lt h
  have hget : t.get? symbol = some ⟨symbol, t.entries[symbol]⟩ := by simp [get?, hlt]
  simp [intern, h, hget]

/-- The node that `intern` returns is found under its symbol. -/
theorem get?_intern_symbol (t : Interner α) (a : α) :
    (t.intern a).2.get? (t.intern a).1.symbol = some (t.intern a).1 := by
  cases hs : t.symbol? a with
  | some s =>
    obtain ⟨h1, h2⟩ := intern_of_symbol?_eq_some hs
    rw [h1, (get?_eq_some_iff.1 h2).1, h2]
  | none => simp [intern_of_symbol?_eq_none hs, get?, size]

/-- No two entries are equal. -/
def Distinct (t : Interner α) : Prop := t.entries.Pairwise fun a b => ¬ (a == b) = true

theorem Distinct.intern {t : Interner α} (h : t.Distinct) (a : α) : (t.intern a).2.Distinct := by
  cases hs : t.symbol? a with
  | some s =>
    rw [(intern_of_symbol?_eq_some hs).1]
    exact h
  | none =>
    rw [intern_of_symbol?_eq_none hs]
    refine List.pairwise_append.2 ⟨h, List.pairwise_singleton .., fun b hb c hc => ?_⟩
    rw [List.mem_singleton.1 hc]
    exact Bool.not_eq_true _ ▸ List.findIdx?_eq_none_iff.1 hs b hb

end Interner

end Residual
