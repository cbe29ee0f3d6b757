import Residual.Surface.Expr

/-!
The store of a surface program: its names, its expression and pattern nodes, and what was
already worked out about single nodes.

A node is entered after its parts, so its symbol is larger than those of its parts of the same
sort.
-/

namespace Residual

/-- The three tables at the end go by symbol, the latest entry first. -/
structure Store where
  names : Names := {}
  exprs : Interner ExprKind := {}
  patterns : Interner PatternKind := {}
  nextFresh : Nat := 0
  freeNames : List (Nat × List Name) := []
  lowered : List (Nat × Expr) := []
  filtered : List (Nat × Expr) := []

/-- Work that enters nodes into the store. -/
abbrev Build := StateM Store

namespace Build

def name (s : String) : Build Name :=
  modifyGet fun st => let (x, names) := st.names.intern s; (x, { st with names })

/-- A name that no program spells: it starts with a space and ends in a number of its own. -/
def fresh (hint : String) : Build Name := do
  let n := (← get).nextFresh
  modify fun st => { st with nextFresh := n + 1 }
  name s!" {hint}_{n}"

def expr (kind : ExprKind) : Build Expr :=
  modifyGet fun st =>
    let (node, exprs) := st.exprs.intern kind
    (.node node.symbol node.value, { st with exprs })

def pattern (kind : PatternKind) : Build Pattern :=
  modifyGet fun st =>
    let (node, patterns) := st.patterns.intern kind
    (.node node.symbol node.value, { st with patterns })

/-! ### Expressions -/

def var (x : Name) : Build Expr := expr (.var x)

def lit (l : Literal) : Build Expr := expr (.lit l)

def function (param : Name) (body : Expr) : Build Expr := expr (.function param body)

def tuple (items : List Expr) : Build Expr := expr (.tuple items)

def unit : Build Expr := tuple []

def op (o : Op) (args : List Expr) : Build Expr := expr (.op o args)

def apply (f arg : Expr) : Build Expr := op .apply [f, arg]

/-- Bind a name for the rest: a function applied at once. -/
def letIn (x : Name) (bound rest : Expr) : Build Expr := do
  apply (← function x rest) bound

def cond (test yes no : Expr) : Build Expr := op .cond [test, yes, no]

/-- A function that ignores its argument. -/
def thunk (body : Expr) : Build Expr := do
  function (← fresh "_") body

/-- Call the thunk bound to a name. -/
def force (x : Name) : Build Expr := do
  let f ← var x
  apply f (← unit)

def joinMethod (body : Expr) : Build Expr := op (.entry .method) [body]

/-- A method join point that declares its result type. -/
def joinMethodAt (body type : Expr) : Build Expr := do
  op .annotate [← joinMethod body, type]

def joinType (body : Expr) : Build Expr := op (.entry .type) [body]

def joinKernel (body : Expr) : Build Expr := op (.entry .kernel) [body]

def module (fields : List (Name × Expr)) : Build Expr :=
  op (.module (.create (fields.map (·.1)))) (fields.map (·.2))

def field (m : Expr) (x : Name) : Build Expr := op (.module (.open x)) [m]

def matcher (p : Pattern) : Build Expr := expr (.pattern p)

/-- Match a value against clauses in order. -/
def matchWith (scrutinee : Expr) (arms : List Clause) : Build Expr := do
  apply (← matcher (← pattern (.clauses arms))) scrutinee

end Build

end Residual
