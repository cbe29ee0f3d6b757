import Residual.Eval.Step

/-!
Compilation of programs, and copies of the bodies that it specialized.
-/

namespace Residual

/-- A function that a method, closure or kernel join point became. -/
structure FunctionDef where
  point : Point
  body : Body

/-- The code of a program. Functions are in the order they were finished. -/
structure Program where
  main : Term
  functions : List FunctionDef
  recTypes : List (Key × Ty)

namespace Program

def ty (p : Program) : Ty := p.main.ty

/-- The first function with a key. -/
def function? (p : Program) (key : Key) : Option FunctionDef :=
  p.functions.find? fun f => f.point.key == key

def functionsOf (p : Program) (kind : PointKind) : List FunctionDef :=
  p.functions.filter fun f => f.point.kind = kind

end Program

namespace Session

/-- The functions among the finished join points. -/
def functions (s : Session) : List FunctionDef :=
  s.finished.filterMap fun p =>
    if p.kind = .type then none else (s.body? p).map fun body => ⟨p, body⟩

/-- The recursive types among the finished join points. -/
def definedTypes (s : Session) : List (Key × Ty) :=
  s.finished.filterMap fun p =>
    if p.kind = .type then (s.recType? p.key).map fun ty => (p.key, ty) else none

/-- Evaluate a program ready for evaluation to its main code. -/
def evalMain (fuel : Nat) (e : Expr) : Eval Term := do
  let value ← Eval.eval fuel e
  let main := Stmt.close (← Eval.getScope).stmts value
  if main.endsInMiss then Eval.fail (.noPath none) else return main

/-- Compile an expression in an environment. Variables of the environment keep their tags, and
new ones start above them. What a compilation specialized stays in the session, also if it
fails. -/
def compile (fuel : Nat) (s : Session) (e : Expr) (env : Env) : Except Stop Program × Session :=
  let (e, store) := (Build.filter e).run s.store
  let scope : Scope := { env, tags := ⟨env.nextTag⟩ }
  let (outcome, w) := (evalMain fuel e).run ⟨{ s with store }, scope⟩
  let program (main : Term) : Program := ⟨main, w.session.functions, w.session.definedTypes⟩
  (outcome.map program, w.session)

/-- A finished body with tags of its own. -/
structure Instance where
  params : List Var
  closureParam : Option Var
  body : Term

/-- Copy a finished body; its parameters and all its binders get new tags. -/
def copy (body : Body) : Rename Instance := do
  let params ← Rename.bindVars body.params
  let closureParam ← body.closureParam.mapM Rename.bindVar
  return ⟨params, closureParam, ← Rename.term body.term⟩

/-- A copy of the body of a join point in tags of the given supply. There is none for a join
point that is not done, and no outcome if the supply ends. -/
def instantiate (s : Session) (p : Point) (tags : Tags) :
    Option (Option Instance × Tags × Session) :=
  match s.body? p with
  | none => some (none, tags, s)
  | some body => do
    let (copied, r) ← (copy body).run { envs := s.envs, tags }
    return (some copied, r.tags, { s with envs := r.envs })

end Session

end Residual
