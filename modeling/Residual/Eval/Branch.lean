import Residual.Eval.Apply

/-!
Splits that are decided at run time.

All branches are evaluated, each with its own statements, and have to agree on a type. A branch
that ends in a miss takes the type of the others. A branch that called the join point of the
body before its type was known is tried again once another branch has told the type.
-/

namespace Residual

/-- Give a body that ends in a miss another type. -/
def Term.retypeMiss (ty : Ty) : Term → Term
  | .letIn bind bound rest trace => .letIn bind bound (rest.retypeMiss ty) trace
  | .state stmt rest trace => .state stmt (rest.retypeMiss ty) trace
  | .op .patternMiss args _ => .op .patternMiss args ty
  | t => t

/-- The value of a match in which no clause applied. -/
def Term.miss (scrutinee : Term) : Term := .op .patternMiss [scrutinee] .unit

namespace Eval

/-- The join point that a fault is about, if it is the one whose body is evaluated here and its
type is not known yet. -/
def pendingRecursion (fault : Fault) : Eval (Option Point) := do
  match fault.pending with
  | none => return none
  | some p =>
    if (← getScope).owner ≠ some p then return none
    match (← getSession).find? p with
    | some ⟨.pending none, _⟩ => return some p
    | _ => return none

def setPendingType (p : Point) (ty : Option Ty) : Eval Unit :=
  modifySession fun s => { s with points := s.points.setProgress p (.pending ty) }

/-- A first run of all branches: the bodies that are there, and the first branch that recursed
too early. Any other fault ends the run. -/
def firstRun : List (Eval Term) → Eval (List (Option Term) × Option (Fault × Point))
  | [] => return ([], none)
  | branch :: rest => do
    match ← attempt (inBranch branch) with
    | .ok body =>
      let (bodies, recursed) ← firstRun rest
      return (some body :: bodies, recursed)
    | .error fault =>
      match ← pendingRecursion fault with
      | none => throw (.failed fault)
      | some p =>
        let (bodies, _) ← firstRun rest
        return (none :: bodies, some (fault, p))

/-- Fill in the bodies that are not there; an outcome that fails ends the run. -/
def secondRun : List (Option Term) → List (Eval Term) → Eval (Except Fault (List Term))
  | some body :: bodies, _ :: branches => do
    match ← secondRun bodies branches with
    | .ok rest => return .ok (body :: rest)
    | .error fault => return .error fault
  | none :: bodies, branch :: branches => do
    match ← attempt (inBranch branch) with
    | .error fault => return .error fault
    | .ok body =>
      match ← secondRun bodies branches with
      | .ok rest => return .ok (body :: rest)
      | .error fault => return .error fault
  | _, _ => return .ok []

/-- The type of the first body that does not end in a miss. -/
def firstType? (bodies : List Term) : Option Ty :=
  (bodies.find? fun body => !body.endsInMiss).map Term.ty

/-- Evaluate the branches of a split. If trying again fails, what was done under the guessed
type is forgotten and the first fault stands. -/
def branches (acts : List (Eval Term)) : Eval (List Term) := do
  let (bodies, recursed) ← firstRun acts
  match recursed with
  | none => return bodies.filterMap id
  | some (fault, p) =>
    match firstType? (bodies.filterMap id) with
    | none => throw (.failed fault)
    | some ty =>
      setPendingType p (some ty)
      let mark := (← getSession).finished.length
      match ← secondRun bodies acts with
      | .ok bodies => return bodies
      | .error _ =>
        modifySession (·.forgetSince mark)
        setPendingType p none
        throw (.failed fault)

/-- The bodies at their common type, or none if all of them end in a miss. -/
def merge (op : Op) (bodies : List Term) : Eval (List Term × Option Ty) :=
  match firstType? bodies with
  | none => return (bodies, none)
  | some ty =>
    match bodies.find? fun body => !body.endsInMiss && !(body.ty == ty) with
    | some body => fail (.branches op ty body.ty)
    | none =>
      return (bodies.map fun body => if body.endsInMiss then body.retypeMiss ty else body, some ty)

/-- Emit a split. `arrange` lists its operands around the bodies. -/
def finishSplit (op : Op) (arrange : List Term → List Term) (bodies : List Term) : Eval Term := do
  let (bodies, ty) ← merge op bodies
  match ty with
  | some ty => bindResult (.op op (arrange bodies) ty) ty
  | none =>
    pushStmt (.state (.op op (arrange bodies) .unit))
    return .miss .unit

variable (eval : Expr → Eval Term)

/-- A conditional. If the test is known now, only one side is evaluated. -/
def cond (args : List Expr) : Eval Term :=
  match args with
  | [test, yes, no] => do
    let test ← eval test
    match test.bool? with
    | some taken => eval (if taken then yes else no)
    | none =>
      if !(test.ty == .bool) then fail (.condition test.ty)
      let bodies ← branches [eval yes, eval no]
      finishSplit .cond (test :: ·) bodies
  | _ => fail (.arity .cond 3 args.length)

/-- The operands of a split by union member: the value, then a variable and a body each. -/
def caseArgs (value : Term) (binders : List Var) (bodies : List Term) : List Term :=
  value :: (binders.zip bodies).flatMap fun e => [.var e.1, e.2]

/-- Apply a function to a value of a union, for each member that it can be. -/
def case (value f : Term) : Eval Term := do
  match value with
  | .box inner _ => apply eval f inner
  | .var v =>
    match v.ty with
    | .union _ | .recur _ =>
      let members ← unionMembers v.ty
      let binders ← members.mapM freshVar
      let bodies ← branches (binders.map fun b =>
        apply eval f (if b.ty.isUnit then .ofUnit b.ty else .var b))
      finishSplit .case (caseArgs value binders) bodies
    | _ => apply eval f value
  | _ => apply eval f value

/-- No clause of a match applied. Inside a branch that is left to run time. -/
def patternMiss (t : Term) : Eval Term := do
  if (← getScope).dynamicDepth = 0 then fail (.noClause t.ty) else return .miss t

end Eval

end Residual
