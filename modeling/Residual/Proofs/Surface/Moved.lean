import Mathlib.Tactic.Lemma
import Residual.Surface.Filter

/-!
Code with other source positions.

`moved f` puts `f s` for every position `s` that a mark carries. Nodes are told apart by the
symbols of their parts, and no position has a part in that.
-/

namespace Residual

universe u

/-- A position to stand for all. -/
def Span.origin : Span := ⟨⟨0⟩, ⟨0, 0⟩, ⟨0, 0⟩⟩

mutual

def Expr.moved (f : Span → Span) : Expr → Expr
  | .node s kind => .node s (kind.moved f)

def Expr.movedAll (f : Span → Span) : List Expr → List Expr
  | [] => []
  | e :: rest => e.moved f :: Expr.movedAll f rest

def ExprKind.moved (f : Span → Span) : ExprKind → ExprKind
  | .var x => .var x
  | .lit l => .lit l
  | .pattern p => .pattern (p.moved f)
  | .function param body => .function param (body.moved f)
  | .filtered used param body => .filtered used param (body.moved f)
  | .recFunction this param body => .recFunction this param (body.moved f)
  | .tuple items => .tuple (Expr.movedAll f items)
  | .op o args => .op o (Expr.movedAll f args)
  | .pos span e => .pos (f span) (e.moved f)

def Pattern.moved (f : Span → Span) : Pattern → Pattern
  | .node s kind => .node s (kind.moved f)

def Pattern.movedAll (f : Span → Span) : List Pattern → List Pattern
  | [] => []
  | p :: rest => p.moved f :: Pattern.movedAll f rest

def PatternKind.moved (f : Span → Span) : PatternKind → PatternKind
  | .wildcard => .wildcard
  | .var x => .var x
  | .lit l => .lit l
  | .tuple items => .tuple (Pattern.movedAll f items)
  | .cons items rest => .cons (Pattern.movedAll f items) (rest.moved f)
  | .typeEq inner type => .typeEq (inner.moved f) (type.moved f)
  | .active e inner => .active (e.moved f) (inner.moved f)
  | .partialActive e inner => .partialActive (e.moved f) (inner.moved f)
  | .extension e inner => .extension (e.moved f) (inner.moved f)
  | .or alternatives => .or (Pattern.movedAll f alternatives)
  | .and parts => .and (Pattern.movedAll f parts)
  | .guarded inner guard => .guarded (inner.moved f) (guard.moved f)
  | .module m => .module (m.moved f)
  | .clauses arms => .clauses (Clause.movedAll f arms)

def ModulePattern.moved (f : Span → Span) : ModulePattern → ModulePattern
  | .member field bind => .member field bind
  | .inner field p => .inner field (p.moved f)
  | .and parts => .and (ModulePattern.movedAll f parts)
  | .or alternatives => .or (ModulePattern.movedAll f alternatives)
  | .xor a b => .xor (a.moved f) (b.moved f)
  | .not m => .not (m.moved f)

def ModulePattern.movedAll (f : Span → Span) : List ModulePattern → List ModulePattern
  | [] => []
  | m :: rest => m.moved f :: ModulePattern.movedAll f rest

def Clause.moved (f : Span → Span) : Clause → Clause
  | .mk p body => .mk (p.moved f) (body.moved f)

def Clause.movedAll (f : Span → Span) : List Clause → List Clause
  | [] => []
  | arm :: rest => arm.moved f :: Clause.movedAll f rest

end

-- The equations are worked out here once, and not by each of the proofs below at the same time.
attribute [grind =] Expr.moved Expr.movedAll ExprKind.moved Pattern.moved Pattern.movedAll
  PatternKind.moved ModulePattern.moved ModulePattern.movedAll Clause.moved Clause.movedAll

@[simp] lemma Expr.movedAll_eq (f : Span → Span) (es : List Expr) :
    Expr.movedAll f es = es.map (Expr.moved f) := by
  induction es with
  | nil => rfl
  | cons e rest ih => rw [Expr.movedAll, ih, List.map_cons]

@[simp] lemma Pattern.movedAll_eq (f : Span → Span) (ps : List Pattern) :
    Pattern.movedAll f ps = ps.map (Pattern.moved f) := by
  induction ps with
  | nil => rfl
  | cons p rest ih => rw [Pattern.movedAll, ih, List.map_cons]

@[simp] lemma ModulePattern.movedAll_eq (f : Span → Span) (ms : List ModulePattern) :
    ModulePattern.movedAll f ms = ms.map (ModulePattern.moved f) := by
  induction ms with
  | nil => rfl
  | cons m rest ih => rw [ModulePattern.movedAll, ih, List.map_cons]

@[simp] lemma Clause.movedAll_eq (f : Span → Span) (arms : List Clause) :
    Clause.movedAll f arms = arms.map (Clause.moved f) := by
  induction arms with
  | nil => rfl
  | cons arm rest ih => rw [Clause.movedAll, ih, List.map_cons]

section

variable (f : Span → Span)

@[simp] lemma Expr.symbol_moved (e : Expr) : (e.moved f).symbol = e.symbol := by
  cases e
  rfl

@[simp] lemma Pattern.symbol_moved (p : Pattern) : (p.moved f).symbol = p.symbol := by
  cases p
  rfl

@[simp] lemma Pattern.inspects_moved (p : Pattern) : (p.moved f).inspects = p.inspects := by
  obtain ⟨symbol, kind⟩ := p
  cases kind <;> rfl

@[simp] lemma Clause.pattern_moved (arm : Clause) :
    (arm.moved f).pattern = arm.pattern.moved f := by
  cases arm
  rfl

@[simp] lemma Clause.body_moved (arm : Clause) : (arm.moved f).body = arm.body.moved f := by
  cases arm
  rfl

lemma Expr.unwrapPos_moved (e : Expr) : (e.moved f).unwrapPos = e.unwrapPos.moved f := by
  match e with
  | .node _ (.pos _ e) => exact Expr.unwrapPos_moved e
  | .node _ (.var _) | .node _ (.lit _) | .node _ (.pattern _) | .node _ (.function _ _)
  | .node _ (.filtered _ _ _) | .node _ (.recFunction _ _ _) | .node _ (.tuple _)
  | .node _ (.op _ _) => rfl

/-! ### Positions do not tell nodes apart -/

@[simp] lemma Expr.beq_moved (a b : Expr) : (a.moved f == b.moved f) = (a == b) := by
  simp [BEq.beq]

@[simp] lemma Pattern.beq_moved (p q : Pattern) : (p.moved f == q.moved f) = (p == q) := by
  simp [BEq.beq]

@[simp] lemma Clause.beq_moved (a b : Clause) : (a.moved f == b.moved f) = (a == b) := by
  change (_ && _) = (_ && _)
  simp

/-- Lists whose elements compare as before compare as before. -/
lemma beq_map {α β : Type u} [BEq α] [BEq β] {g : α → β}
    (h : ∀ a b, (g a == g b) = (a == b)) (as bs : List α) :
    (as.map g == bs.map g) = (as == bs) := by
  induction as generalizing bs with
  | nil => cases bs <;> rfl
  | cons a as ih => cases bs <;> simp [h, ih]

@[simp] lemma ExprKind.beq_moved (k l : ExprKind) : (k.moved f == l.moved f) = (k == l) := by
  change (k.moved f).same (l.moved f) = k.same l
  cases k <;> cases l <;>
    simp [ExprKind.moved, ExprKind.same, beq_map (Expr.beq_moved f)]

mutual

lemma ModulePattern.same_moved (m n : ModulePattern) :
    (m.moved f).same (n.moved f) = m.same n := by
  match m with
  | .member x y => cases n <;> simp [ModulePattern.moved, ModulePattern.same]
  | .inner x p => cases n <;> simp [ModulePattern.moved, ModulePattern.same]
  | .and as =>
    cases n <;> simp [ModulePattern.moved, ModulePattern.same, ModulePattern.sameAll_moved as]
  | .or as =>
    cases n <;> simp [ModulePattern.moved, ModulePattern.same, ModulePattern.sameAll_moved as]
  | .xor a b =>
    cases n <;> simp [ModulePattern.moved, ModulePattern.same, ModulePattern.same_moved a,
      ModulePattern.same_moved b]
  | .not a =>
    cases n <;> simp [ModulePattern.moved, ModulePattern.same, ModulePattern.same_moved a]
termination_by structural m

lemma ModulePattern.sameAll_moved (ms ns : List ModulePattern) :
    ModulePattern.sameAll (ms.map (ModulePattern.moved f)) (ns.map (ModulePattern.moved f)) =
      ModulePattern.sameAll ms ns := by
  match ms with
  | [] => cases ns <;> rfl
  | m :: ms =>
    cases ns <;> simp [ModulePattern.sameAll, ModulePattern.same_moved m,
      ModulePattern.sameAll_moved ms]
termination_by structural ms

end

@[simp] lemma PatternKind.beq_moved (k l : PatternKind) :
    (k.moved f == l.moved f) = (k == l) := by
  change (k.moved f).same (l.moved f) = k.same l
  cases k <;> cases l <;>
    simp [PatternKind.moved, PatternKind.same, beq_map (Pattern.beq_moved f),
      beq_map (Clause.beq_moved f), ModulePattern.same_moved]

end

/-! ### One move after the other -/

section

variable (f g : Span → Span)

mutual

lemma Expr.moved_moved (e : Expr) : (e.moved f).moved g = e.moved (g ∘ f) := by
  match e with
  | .node s kind => rw [Expr.moved, Expr.moved, Expr.moved, ExprKind.moved_moved kind]
termination_by structural e

lemma Expr.movedAll_movedAll (es : List Expr) :
    Expr.movedAll g (Expr.movedAll f es) = Expr.movedAll (g ∘ f) es := by
  match es with
  | [] => rfl
  | e :: rest => simp only [Expr.movedAll, Expr.moved_moved e, Expr.movedAll_movedAll rest]
termination_by structural es

lemma ExprKind.moved_moved (k : ExprKind) : (k.moved f).moved g = k.moved (g ∘ f) := by
  match k with
  | .var _ | .lit _ => rfl
  | .pattern p => simp only [ExprKind.moved, Pattern.moved_moved p]
  | .function _ e => simp only [ExprKind.moved, Expr.moved_moved e]
  | .filtered _ _ e => simp only [ExprKind.moved, Expr.moved_moved e]
  | .recFunction _ _ e => simp only [ExprKind.moved, Expr.moved_moved e]
  | .tuple es => simp only [ExprKind.moved, Expr.movedAll_movedAll es]
  | .op _ es => simp only [ExprKind.moved, Expr.movedAll_movedAll es]
  | .pos _ e => simp only [ExprKind.moved, Expr.moved_moved e, Function.comp]
termination_by structural k

lemma Pattern.moved_moved (p : Pattern) : (p.moved f).moved g = p.moved (g ∘ f) := by
  match p with
  | .node s kind => rw [Pattern.moved, Pattern.moved, Pattern.moved, PatternKind.moved_moved kind]
termination_by structural p

lemma Pattern.movedAll_movedAll (ps : List Pattern) :
    Pattern.movedAll g (Pattern.movedAll f ps) = Pattern.movedAll (g ∘ f) ps := by
  match ps with
  | [] => rfl
  | p :: rest => simp only [Pattern.movedAll, Pattern.moved_moved p, Pattern.movedAll_movedAll rest]
termination_by structural ps

lemma PatternKind.moved_moved (k : PatternKind) : (k.moved f).moved g = k.moved (g ∘ f) := by
  match k with
  | .wildcard | .var _ | .lit _ => rfl
  | .tuple ps => simp only [PatternKind.moved, Pattern.movedAll_movedAll ps]
  | .cons ps p =>
    simp only [PatternKind.moved, Pattern.movedAll_movedAll ps, Pattern.moved_moved p]
  | .typeEq p e => simp only [PatternKind.moved, Pattern.moved_moved p, Expr.moved_moved e]
  | .active e p => simp only [PatternKind.moved, Pattern.moved_moved p, Expr.moved_moved e]
  | .partialActive e p => simp only [PatternKind.moved, Pattern.moved_moved p, Expr.moved_moved e]
  | .extension e p => simp only [PatternKind.moved, Pattern.moved_moved p, Expr.moved_moved e]
  | .or ps => simp only [PatternKind.moved, Pattern.movedAll_movedAll ps]
  | .and ps => simp only [PatternKind.moved, Pattern.movedAll_movedAll ps]
  | .guarded p e => simp only [PatternKind.moved, Pattern.moved_moved p, Expr.moved_moved e]
  | .module m => simp only [PatternKind.moved, ModulePattern.moved_moved m]
  | .clauses arms => simp only [PatternKind.moved, Clause.movedAll_movedAll arms]
termination_by structural k

lemma ModulePattern.moved_moved (m : ModulePattern) : (m.moved f).moved g = m.moved (g ∘ f) := by
  match m with
  | .member _ _ => rfl
  | .inner _ p => simp only [ModulePattern.moved, Pattern.moved_moved p]
  | .and ms => simp only [ModulePattern.moved, ModulePattern.movedAll_movedAll ms]
  | .or ms => simp only [ModulePattern.moved, ModulePattern.movedAll_movedAll ms]
  | .xor a b =>
    simp only [ModulePattern.moved, ModulePattern.moved_moved a, ModulePattern.moved_moved b]
  | .not m => simp only [ModulePattern.moved, ModulePattern.moved_moved m]
termination_by structural m

lemma ModulePattern.movedAll_movedAll (ms : List ModulePattern) :
    ModulePattern.movedAll g (ModulePattern.movedAll f ms) = ModulePattern.movedAll (g ∘ f) ms := by
  match ms with
  | [] => rfl
  | m :: rest =>
    simp only [ModulePattern.movedAll, ModulePattern.moved_moved m,
      ModulePattern.movedAll_movedAll rest]
termination_by structural ms

lemma Clause.moved_moved (arm : Clause) : (arm.moved f).moved g = arm.moved (g ∘ f) := by
  match arm with
  | .mk p e => simp only [Clause.moved, Pattern.moved_moved p, Expr.moved_moved e]
termination_by structural arm

lemma Clause.movedAll_movedAll (arms : List Clause) :
    Clause.movedAll g (Clause.movedAll f arms) = Clause.movedAll (g ∘ f) arms := by
  match arms with
  | [] => rfl
  | arm :: rest =>
    simp only [Clause.movedAll, Clause.moved_moved arm, Clause.movedAll_movedAll rest]
termination_by structural arms

end

end

/-! ### Tables -/

namespace Interner

variable {α : Type u} [BEq α]

/-- The table with every entry replaced. -/
def map (g : α → α) (t : Interner α) : Interner α := ⟨t.entries.map g⟩

omit [BEq α] in
@[simp] lemma size_map (g : α → α) (t : Interner α) : (t.map g).size = t.size :=
  List.length_map ..

omit [BEq α] in
lemma get?_map (g : α → α) (t : Interner α) (symbol : Nat) :
    (t.map g).get? symbol = (t.get? symbol).map fun node => ⟨node.symbol, g node.value⟩ := by
  simp only [get?, map, List.getElem?_map, Option.map_map]
  rfl

/-- A change of entries that no comparison sees changes no symbol. -/
theorem intern_map {g : α → α} (hg : ∀ a b, (g a == g b) = (a == b)) (t : Interner α) (a : α) :
    (t.map g).intern (g a) =
      (⟨(t.intern a).1.symbol, g (t.intern a).1.value⟩, (t.intern a).2.map g) := by
  have hsymbol : (t.map g).symbol? (g a) = t.symbol? a := by
    simp only [symbol?, map, List.findIdx?_map]
    congr 1
    funext b
    exact hg b a
  unfold intern
  rw [hsymbol]
  cases h : t.symbol? a with
  | none => simp [map, size]
  | some symbol =>
    simp only [Option.bind_some, get?_map]
    cases t.get? symbol with
    | none => simp [map, size]
    | some node => rfl

end Interner

/-- The store with other positions. -/
def Store.moved (f : Span → Span) (st : Store) : Store :=
  { st with
    exprs := st.exprs.map (ExprKind.moved f)
    patterns := st.patterns.map (PatternKind.moved f)
    lowered := st.lowered.map fun e => (e.1, e.2.moved f)
    filtered := st.filtered.map fun e => (e.1, e.2.moved f) }

lemma lookup_map {α β γ : Type} [BEq α] (g : β → γ) (l : List (α × β)) (a : α) :
    (l.map fun e => (e.1, g e.2)).lookup a = (l.lookup a).map g := by
  induction l with
  | nil => rfl
  | cons e rest ih =>
    obtain ⟨b, c⟩ := e
    simp only [List.map_cons, List.lookup_cons, ih]
    split <;> rfl

end Residual
