import Residual.Proofs.Typed.RenameGrowth
import Residual.Surface.Filter

/-!
Code in which every list of captures ascends, and stores that hold only such code.

Entering nodes, lowering patterns and filtering functions only add to a store, and they make
sorted code from sorted code. That a store grows holds of any code, that it stays sorted only of
sorted code; `strict` says whether the second is asked for, so that both have one proof.
-/

namespace Residual

mutual

/-- Every function that lists its captures lists them in ascending order. -/
def Expr.Sorted : Expr → Prop
  | .node _ kind => kind.Sorted

def ExprKind.Sorted : ExprKind → Prop
  | .var _ | .lit _ => True
  | .pattern p => p.Sorted
  | .function _ body => body.Sorted
  | .filtered used _ body => Captures.Ascending used ∧ body.Sorted
  | .recFunction _ _ body => body.Sorted
  | .tuple items => Expr.AllSorted items
  | .op _ args => Expr.AllSorted args
  | .pos _ e => e.Sorted

def Expr.AllSorted : List Expr → Prop
  | [] => True
  | e :: rest => e.Sorted ∧ Expr.AllSorted rest

def Pattern.Sorted : Pattern → Prop
  | .node _ kind => kind.Sorted

def PatternKind.Sorted : PatternKind → Prop
  | .wildcard | .var _ | .lit _ => True
  | .tuple items => Pattern.AllSorted items
  | .cons items rest => Pattern.AllSorted items ∧ rest.Sorted
  | .typeEq inner type => inner.Sorted ∧ type.Sorted
  | .active f inner => f.Sorted ∧ inner.Sorted
  | .partialActive f inner => f.Sorted ∧ inner.Sorted
  | .extension f inner => f.Sorted ∧ inner.Sorted
  | .or alternatives => Pattern.AllSorted alternatives
  | .and parts => Pattern.AllSorted parts
  | .guarded inner guard => inner.Sorted ∧ guard.Sorted
  | .module m => m.Sorted
  | .clauses arms => Clause.AllSorted arms

def Pattern.AllSorted : List Pattern → Prop
  | [] => True
  | p :: rest => p.Sorted ∧ Pattern.AllSorted rest

def ModulePattern.Sorted : ModulePattern → Prop
  | .member _ _ => True
  | .inner _ p => p.Sorted
  | .and parts => ModulePattern.AllSorted parts
  | .or alternatives => ModulePattern.AllSorted alternatives
  | .xor a b => a.Sorted ∧ b.Sorted
  | .not m => m.Sorted

def ModulePattern.AllSorted : List ModulePattern → Prop
  | [] => True
  | m :: rest => m.Sorted ∧ ModulePattern.AllSorted rest

def Clause.Sorted : Clause → Prop
  | .mk p body => p.Sorted ∧ body.Sorted

def Clause.AllSorted : List Clause → Prop
  | [] => True
  | c :: rest => c.Sorted ∧ Clause.AllSorted rest

end

lemma Expr.allSorted_iff {es : List Expr} : Expr.AllSorted es ↔ ∀ e ∈ es, e.Sorted := by
  induction es with
  | nil => simp [Expr.AllSorted]
  | cons e rest ih => simp [Expr.AllSorted, ih]

lemma Expr.Sorted.unwrapPos {e : Expr} (h : e.Sorted) : e.unwrapPos.Sorted := by
  fun_induction Expr.unwrapPos e with
  | case1 s span e ih => exact ih h
  | case2 => exact h

/-- Only sorted code was entered, and only sorted code was worked out. -/
structure Store.Sorted (st : Store) : Prop where
  exprs : ∀ k ∈ st.exprs.entries, k.Sorted
  patterns : ∀ k ∈ st.patterns.entries, k.Sorted
  freeNames : ∀ e ∈ st.freeNames, e.2.Nodup
  lowered : ∀ e ∈ st.lowered, e.2.Sorted
  filtered : ∀ e ∈ st.filtered, e.2.Sorted

/-- Everything in the first store is found in the second one. -/
structure Store.Grows (st st' : Store) : Prop where
  names : st.names.table.Extends st'.names.table
  exprs : st.exprs.Extends st'.exprs
  patterns : st.patterns.Extends st'.patterns
  freeNames : ∀ n l, st.freeNames.lookup n = some l → st'.freeNames.lookup n = some l
  lowered : ∀ n e, st.lowered.lookup n = some e → st'.lowered.lookup n = some e
  filtered : ∀ n e, st.filtered.lookup n = some e → st'.filtered.lookup n = some e

namespace Store.Grows

lemma refl (st : Store) : st.Grows st :=
  ⟨.refl _, .refl _, .refl _, fun _ _ h => h, fun _ _ h => h, fun _ _ h => h⟩

lemma trans {a b c : Store} (h : a.Grows b) (k : b.Grows c) : a.Grows c :=
  ⟨h.names.trans k.names, h.exprs.trans k.exprs, h.patterns.trans k.patterns,
    fun n l hl => k.freeNames n l (h.freeNames n l hl),
    fun n e he => k.lowered n e (h.lowered n e he),
    fun n e he => k.filtered n e (h.filtered n e he)⟩

end Store.Grows

lemma mem_of_lookup {α : Type} {l : List (Nat × α)} {n : Nat} {a : α}
    (h : l.lookup n = some a) : (n, a) ∈ l := by
  obtain ⟨before, after, rfl, -⟩ := List.lookup_eq_some_iff.1 h
  simp

lemma lookup_cons_of_lookup {α : Type} {l l' : List (Nat × α)} {n : Nat} {b : α}
    (h : l.lookup n = none) (hl : ∀ m a, l.lookup m = some a → l'.lookup m = some a) :
    ∀ m a, l.lookup m = some a → ((n, b) :: l').lookup m = some a := by
  intro m a hm
  have hne : (m == n) = false := by
    rw [beq_eq_false_iff_ne]
    rintro rfl
    rw [h] at hm
    cases hm
  rw [List.lookup_cons, hne]
  exact hl m a hm

namespace Interner

lemma intern_mem {α : Type} [BEq α] (t : Interner α) (a : α) :
    (t.intern a).1.value = a ∨ (t.intern a).1.value ∈ t.entries := by
  cases hs : t.symbol? a with
  | some s =>
    have hget := (get?_eq_some_iff.1 (intern_of_symbol?_eq_some hs).2).2
    exact .inr (List.mem_of_getElem? hget)
  | none =>
    rw [intern_of_symbol?_eq_none hs]
    exact .inl rfl

lemma entries_intern {α : Type} [BEq α] (t : Interner α) (a : α) :
    ∀ b ∈ (t.intern a).2.entries, b = a ∨ b ∈ t.entries := by
  cases hs : t.symbol? a with
  | some s =>
    rw [(intern_of_symbol?_eq_some hs).1]
    exact fun b hb => .inr hb
  | none =>
    rw [intern_of_symbol?_eq_none hs]
    intro b hb
    rcases List.mem_append.1 hb with hb | hb
    · exact .inr hb
    · exact .inl (List.mem_singleton.1 hb)

end Interner

end Residual
