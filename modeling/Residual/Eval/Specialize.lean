import Residual.Eval.Emit

/-!
Specialization of join points.

The captured values are renamed to canonical tags, so requests that differ only in the names of
their variables have one key. A request for a join point that is done takes its result type; one
for a join point in evaluation is recursion, and needs the type to be known. The recursion of a
type join point is a reference back to the type.
-/

namespace Residual.Eval

/-- The argument of a closure: its name and its type. -/
structure ClosureArg where
  name : Name
  dom : Ty

/-- Captured values in canonical tags. `args` are the variables of the caller that the `params`
stand for. -/
structure Captured where
  envSymbol : Nat
  env : Fields Term
  args : List Var
  params : List Var
  closureParam : Option Var
  tags : Tags

/-- What a call of a join point needs. -/
structure Specialized where
  key : Key
  args : List Var
  ty : Ty

/-- The values of the given names. -/
def lookupAll (env : Env) : List Name → Eval (List (Name × Term))
  | [] => return []
  | x :: rest => do
    match env.get? x with
    | some t => return (x, t) :: (← lookupAll env rest)
    | none => fail (.unbound x)

/-- The renamed captures in order of first use, with the argument of a closure last. -/
def renameCaptures (values : List (Name × Term)) (arg : Option ClosureArg) :
    Rename (Fields Term × Option Var) := do
  let captures ← values.mapM fun e => do return (e.1, ← Rename.term e.2)
  match arg with
  | none => return (Fields.ofList captures, none)
  | some ⟨x, dom⟩ =>
    let v ← Rename.freshVar dom
    let value := if dom.isUnit then .ofUnit dom else .var v
    return (Fields.ofList (captures ++ [(x, value)]), some v)

def capture (env : Env) (body : Expr) (arg : Option ClosureArg) : Eval Captured := do
  let free ← build (Build.freeNames body)
  let values ← lookupAll env (free.filter fun x => !arg.any fun a => a.name == x)
  let ((captures, closureParam), r) ← rename (fun envs => { envs }) (renameCaptures values arg)
  let (node, envs) := r.envs.enter captures
  modifySession fun s => { s with envs }
  return ⟨node.symbol, node.value, r.args, r.params, closureParam, r.tags⟩

/-- Ask for the key of `body` with what it captures from `env`. -/
def request (env : Env) (body : Expr) (arg : Option ClosureArg) : Eval (Key × Captured) := do
  let captured ← capture env body arg
  let key ← modifyGet fun w =>
    let (key, session) := w.session.enterKey ⟨body, captured.envSymbol, captured.env⟩
    (key, { w with session })
  return (key, captured)

def modifyPoints (f : PointTable → PointTable) : Eval Unit :=
  modifySession fun s => { s with points := f s.points }

/-- The answer to a request for a join point that is there already. -/
def reuse (p : Point) (args : List Var) (progress : Progress) : Eval Specialized :=
  match progress with
  | .done body => do
    modifyStats fun s => { s with cacheHits := s.cacheHits + 1 }
    return ⟨p.key, args, body.ty⟩
  | .pending (some ty) => do
    modifyStats fun s => { s with recursiveHits := s.recursiveHits + 1 }
    return ⟨p.key, args, ty⟩
  | .pending none => do
    modifyStats fun s => { s with recursiveHits := s.recursiveHits + 1 }
    if p.kind = .type then return ⟨p.key, args, .recur p.key⟩
    else
      throw (.failed
        { cause := .recursion p.kind, trace := (← getScope).trace, pending := some p })

variable (eval : Expr → Eval Term)

/-- Evaluate the body of a join point in the scope of its captures. The result of a type join
point is the type alone. -/
def evalBody (p : Point) (body : Expr) (captured : Captured) : Eval Term := do
  let scope : Scope :=
    { env := .consed captured.envSymbol captured.env
      tags := captured.tags
      trace := (← getScope).trace
      owner := some p }
  inScope scope do
    let value ← eval body
    if p.kind = .type then return .type value.ty
    else return Stmt.close (← getScope).stmts value

/-- The type that a pending join point was promised to have. -/
def expectedType (p : Point) : Eval (Option Ty) := do
  match (← getSession).find? p with
  | some ⟨.pending ty, _⟩ => return ty
  | _ => return none

/-- Record a finished body and return its type. A type that mentions itself is recorded as a
recursive type. -/
def finish (p : Point) (term : Term) (captured : Captured) : Eval Ty := do
  let recursive := p.kind = .type ∧ term.ty.mentions p.key
  let ty := if recursive then .recur p.key else term.ty
  if recursive then
    modifySession fun s =>
      { s with recTypes := (p.key, term.ty) :: s.recTypes.filter fun e => e.1 ≠ p.key }
  modifyPoints fun t =>
    t.setProgress p (.done ⟨term, ty, captured.params, captured.closureParam⟩)
  modifySession fun s => { s with finished := s.finished ++ [p] }
  modifyStats fun s => { s with bodies := s.bodies + 1 }
  return ty

/-- A body has a path on which some clause applied, the type that was promised for it, and, if
it is that of a kernel, no result. -/
def checkBody (p : Point) (term : Term) : Eval Unit := do
  if p.kind ≠ .type ∧ term.endsInMiss then fail (.noPath (some p.kind))
  match ← expectedType p with
  | some expected =>
    if !(expected == term.ty) then fail (.pointResult p.kind expected term.ty)
  | none => pure ()
  if p.kind = .kernel ∧ !term.ty.isUnit then fail (.kernelResult term.ty)

def specializeBody (p : Point) (body : Expr) (captured : Captured) : Eval Ty := do
  let term ← evalBody eval p body captured
  checkBody p term
  finish p term captured

/-- Evaluate a join point that is not there yet. One that fails leaves no entry. -/
def specializeNew (p : Point) (body : Expr) (captured : Captured) (annot : Option Ty) :
    Eval Ty := do
  let limit := (← getSession).settings.maxDepth
  if limit ≤ (← getSession).depth then fail (.tooDeep limit)
  let trace := (← getScope).trace
  modifyPoints fun t => t.insert p ⟨.pending annot, trace⟩
  modifySession fun s => { s with depth := s.depth + 1 }
  let outcome ← observe (specializeBody eval p body captured)
  modifySession fun s => { s with depth := s.depth - 1 }
  match outcome with
  | .ok ty => return ty
  | .error stop =>
    modifyPoints fun t => t.erase p
    throw stop

/-- Specialize `body` for what it captures from `env`. -/
def specialize (env : Env) (kind : PointKind) (body : Expr) (annot : Option Ty)
    (arg : Option ClosureArg) : Eval Specialized := do
  let (key, captured) ← request env body arg
  let p : Point := ⟨kind, key⟩
  match (← getSession).find? p with
  | some entry => reuse p captured.args entry.progress
  | none => return ⟨key, captured.args, ← specializeNew eval p body captured annot⟩

/-- Enter a join point of the program. -/
def enterPoint (op : EntryOp) (body : Expr) (annot : Option Ty) : Eval Term := do
  let spec ← specialize eval (← getScope).env op.kind body annot none
  if op = .type then return .type spec.ty
  else bindResult (.call spec.key op.kind spec.args spec.ty) spec.ty

/-- Commit a function to a closure with the given domain. -/
def closureOf (f : Term) (dom : Ty) (range : Option Ty) : Eval Term := do
  let (env, param, body) ← match f with
    | .map env (.function param body) => pure (env, param, body)
    | .map env (.recFunction this param body) => pure (env.bind this f, param, body)
    | _ => fail (.notCallable f.ty)
  let spec ← specialize eval env .closure body range (some ⟨param, dom⟩)
  let ty := .closure dom spec.ty
  bindResult (.call spec.key .closure spec.args ty) ty

def closureOp (args : List Term) : Eval Term :=
  match args with
  | [f, dom] => closureOf eval f dom.ty none
  | _ => do
    let (f, dom, range) ← operands₃ .closure args
    closureOf eval f dom.ty (some range.ty)

end Residual.Eval
