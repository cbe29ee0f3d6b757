import Residual.Literal
import Residual.Op
import Residual.Position

/-!
Surface expressions and patterns.

Both are trees whose nodes carry symbols. In one store equal trees have equal symbols, so a
symbol stands for the whole tree below it.
-/

namespace Residual

mutual

/-- An expression with the symbol of its node. -/
inductive Expr where
  | node (symbol : Nat) (kind : ExprKind)

/-- `filtered` is a function that lists the names it captures; `pattern` is a function that
matches its argument. -/
inductive ExprKind where
  | var (x : Name)
  | lit (l : Literal)
  | pattern (p : Pattern)
  | function (param : Name) (body : Expr)
  | filtered (used : List Name) (param : Name) (body : Expr)
  | recFunction (this param : Name) (body : Expr)
  | tuple (items : List Expr)
  | op (o : Op) (args : List Expr)
  | pos (span : Span) (e : Expr)

/-- A pattern with the symbol of its node. -/
inductive Pattern where
  | node (symbol : Nat) (kind : PatternKind)

/-- `cons` matches the first elements and then the tuple of the others. `active` matches the
result of a function, `partialActive` the second part of a result whose first part is true, and
`extension` the value itself if a predicate holds of it. -/
inductive PatternKind where
  | wildcard
  | var (x : Name)
  | lit (l : Literal)
  | tuple (items : List Pattern)
  | cons (items : List Pattern) (rest : Pattern)
  | typeEq (inner : Pattern) (type : Expr)
  | active (f : Expr) (inner : Pattern)
  | partialActive (f : Expr) (inner : Pattern)
  | extension (f : Expr) (inner : Pattern)
  | or (alternatives : List Pattern)
  | and (parts : List Pattern)
  | guarded (inner : Pattern) (guard : Expr)
  | module (m : ModulePattern)
  | clauses (arms : List Clause)

/-- Patterns over the fields of a module. `xor` matches if exactly one side does. -/
inductive ModulePattern where
  | member (field bind : Name)
  | inner (field : Name) (p : Pattern)
  | and (parts : List ModulePattern)
  | or (alternatives : List ModulePattern)
  | xor (a b : ModulePattern)
  | not (m : ModulePattern)

/-- One arm of an ordered match. -/
inductive Clause where
  | mk (pattern : Pattern) (body : Expr)

end

instance : Inhabited Expr := ⟨.node 0 (.tuple [])⟩

namespace Expr

def symbol : Expr → Nat
  | .node s _ => s

def kind : Expr → ExprKind
  | .node _ k => k

instance : BEq Expr := ⟨fun a b => a.symbol == b.symbol⟩

/-- The expression under its position marks. -/
def unwrapPos : Expr → Expr
  | .node _ (.pos _ e) => e.unwrapPos
  | e => e

end Expr

namespace Pattern

def symbol : Pattern → Nat
  | .node s _ => s

def kind : Pattern → PatternKind
  | .node _ k => k

/-- The pattern looks at its value; a wildcard or a variable does not. -/
def inspects (p : Pattern) : Bool :=
  match p.kind with
  | .wildcard | .var _ => false
  | _ => true

end Pattern

namespace Clause

def pattern : Clause → Pattern
  | .mk p _ => p

def body : Clause → Expr
  | .mk _ e => e

end Clause

/-! ### Equality of nodes

Two nodes are the same if they are built alike from parts with the same symbols. The position
that a mark carries does not count. -/

def ExprKind.same : ExprKind → ExprKind → Bool
  | .var x, .var y => x == y
  | .lit a, .lit b => a == b
  | .pattern p, .pattern q => p.symbol == q.symbol
  | .function x e, .function y f => x == y && e == f
  | .filtered u x e, .filtered v y f => u == v && x == y && e == f
  | .recFunction g x e, .recFunction h y f => g == h && x == y && e == f
  | .tuple as, .tuple bs => as == bs
  | .op o as, .op p bs => o == p && as == bs
  | .pos _ e, .pos _ f => e == f
  | _, _ => false

instance : BEq ExprKind := ⟨ExprKind.same⟩

instance : BEq Pattern := ⟨fun a b => a.symbol == b.symbol⟩

instance : BEq Clause := ⟨fun a b => a.pattern == b.pattern && a.body == b.body⟩

mutual

def ModulePattern.same : ModulePattern → ModulePattern → Bool
  | .member f x, .member g y => f == g && x == y
  | .inner f p, .inner g q => f == g && p == q
  | .and as, .and bs => sameAll as bs
  | .or as, .or bs => sameAll as bs
  | .xor a b, .xor c d => a.same c && b.same d
  | .not a, .not b => a.same b
  | _, _ => false

def ModulePattern.sameAll : List ModulePattern → List ModulePattern → Bool
  | [], [] => true
  | a :: as, b :: bs => a.same b && sameAll as bs
  | _, _ => false

end

def PatternKind.same : PatternKind → PatternKind → Bool
  | .wildcard, .wildcard => true
  | .var x, .var y => x == y
  | .lit a, .lit b => a == b
  | .tuple ps, .tuple qs => ps == qs
  | .cons ps p, .cons qs q => ps == qs && p == q
  | .typeEq p e, .typeEq q f => p == q && e == f
  | .active e p, .active f q => e == f && p == q
  | .partialActive e p, .partialActive f q => e == f && p == q
  | .extension e p, .extension f q => e == f && p == q
  | .or ps, .or qs => ps == qs
  | .and ps, .and qs => ps == qs
  | .guarded p e, .guarded q f => p == q && e == f
  | .module m, .module n => m.same n
  | .clauses as, .clauses bs => as == bs
  | _, _ => false

instance : BEq PatternKind := ⟨PatternKind.same⟩

end Residual
