import Residual.Surface.Store

/-!
Patterns as functions built from conditionals.

Matching `v` against a pattern is code with two continuations: `succ` runs with the variables of
the pattern bound, `fail` with none of them. The failure code is always the call of a thunk that
was bound before the pattern bound anything, so a clause never sees the variables of a clause
tried before it.

A pattern that looks at its value goes through `case`, which splits a value of a union type by
its members first. A pattern that is no list of clauses becomes a predicate. A list of clauses
inside another pattern matches if one of its patterns does; the bodies are dropped.
-/

namespace Residual.Build

/-- Bind a thunk for `failure` around what `build` makes of its call. -/
def withFailure (failure : Expr) (build : Expr → Build Expr) : Build Expr := do
  let k ← fresh "fail"
  let thunk ← thunk failure
  let call ← force k
  let body ← build call
  letIn k thunk body

/-- Match `v` against a part `p` of a pattern by `lowerAt`, splitting unions if `p` inspects. -/
def splitting (v : Name) (p : Pattern) (lowerAt : Name → Build Expr) : Build Expr :=
  if p.inspects then do
    let part ← fresh "part"
    let body ← lowerAt part
    let f ← function part body
    let value ← var v
    op .case [value, f]
  else lowerAt v

mutual

def lowerAt (v : Name) (p : Pattern) (succ fail : Expr) : Build Expr :=
  match p with
  | .node _ kind => lowerKind v kind succ fail
termination_by structural p

def lowerKind (v : Name) (kind : PatternKind) (succ fail : Expr) : Build Expr :=
  match kind with
  | .wildcard => pure succ
  | .var x => do letIn x (← var v) succ
  | .lit l => do
    let value ← var v
    let expected ← lit l
    let sameType ← op (.type .equal) [value, expected]
    let sameValue ← op (.prim (.compare .eq)) [value, expected]
    let inner ← cond sameValue succ fail
    cond sameType inner fail
  | .tuple items => do
    let matched ← lowerElements v 0 items succ fail
    let value ← var v
    let check ← op (.tuple (.lengthEq items.length)) [value]
    cond check matched fail
  | .cons items rest => do
    let others ← fresh "rest"
    let restMatch ← splitting others rest fun x => lowerAt x rest succ fail
    let value ← var v
    let slice ← op (.tuple (.slice items.length)) [value]
    let withRest ← letIn others slice restMatch
    let matched ← lowerElements v 0 items withRest fail
    let check ← op (.tuple (.lengthGe items.length)) [value]
    cond check matched fail
  | .typeEq inner type => do
    let matched ← splitting v inner fun x => lowerAt x inner succ fail
    let value ← var v
    let check ← op (.type .equal) [value, type]
    cond check matched fail
  | .active f inner => do
    let result ← fresh "active"
    let matched ← splitting result inner fun x => lowerAt x inner succ fail
    let value ← var v
    let call ← apply f value
    letIn result call matched
  | .partialActive f inner => do
    let result ← fresh "partial"
    let payload ← fresh "payload"
    let matched ← splitting payload inner fun x => lowerAt x inner succ fail
    let answer ← var result
    let second ← op (.tuple (.index 1)) [answer]
    let bound ← letIn payload second matched
    let flag ← op (.tuple (.index 0)) [answer]
    let branch ← cond flag bound fail
    let value ← var v
    let call ← apply f value
    letIn result call branch
  | .extension f inner => do
    let matched ← splitting v inner fun x => lowerAt x inner succ fail
    let value ← var v
    let check ← apply f value
    cond check matched fail
  | .or alternatives => lowerAlternatives v alternatives succ fail
  | .and parts => lowerParts v parts succ fail
  | .guarded inner guard => do
    let guarded ← cond guard succ fail
    splitting v inner fun x => lowerAt x inner guarded fail
  | .module m => lowerModule v m succ fail
  | .clauses arms => lowerArms v arms succ fail
termination_by structural kind

/-- The alternatives in order. Each repeats the success code, under its own variables. -/
def lowerAlternatives (v : Name) (ps : List Pattern) (succ fail : Expr) : Build Expr :=
  match ps with
  | [] => pure fail
  | p :: rest => do
    let later ← lowerAlternatives v rest succ fail
    withFailure later fun next => splitting v p fun x => lowerAt x p succ next
termination_by structural ps

/-- The patterns of nested clauses, as alternatives. -/
def lowerArms (v : Name) (arms : List Clause) (succ fail : Expr) : Build Expr :=
  match arms with
  | [] => pure fail
  | .mk p _ :: rest => do
    let later ← lowerArms v rest succ fail
    withFailure later fun next => splitting v p fun x => lowerAt x p succ next
termination_by structural arms

def lowerParts (v : Name) (ps : List Pattern) (succ fail : Expr) : Build Expr :=
  match ps with
  | [] => pure succ
  | p :: rest => do
    let later ← lowerParts v rest succ fail
    splitting v p fun x => lowerAt x p later fail
termination_by structural ps

/-- Bind and match the elements of a tuple, the first of them at index `i`. -/
def lowerElements (v : Name) (i : Nat) (ps : List Pattern) (succ fail : Expr) : Build Expr :=
  match ps with
  | [] => pure succ
  | p :: rest => do
    let later ← lowerElements v (i + 1) rest succ fail
    let element ← fresh "elem"
    let matched ← splitting element p fun x => lowerAt x p later fail
    let value ← var v
    let index ← op (.tuple (.index i)) [value]
    letIn element index matched
termination_by structural ps

def lowerModule (v : Name) (m : ModulePattern) (succ fail : Expr) : Build Expr :=
  match m with
  | .member field bind => do
    let value ← var v
    let has ← op (.module (.hasMember field)) [value]
    let opened ← op (.module (.open field)) [value]
    let bound ← letIn bind opened succ
    cond has bound fail
  | .inner field p => do
    let inner ← fresh "field"
    let matched ← splitting inner p fun x => lowerAt x p succ fail
    let value ← var v
    let has ← op (.module (.hasMember field)) [value]
    let opened ← op (.module (.open field)) [value]
    let bound ← letIn inner opened matched
    cond has bound fail
  | .and parts => lowerModules v parts succ fail
  | .or alternatives => lowerModuleAlternatives v alternatives succ fail
  | .not inner => do
    let s ← fresh "not"
    let thunk ← thunk succ
    let call ← force s
    let body ← lowerModule v inner fail call
    letIn s thunk body
  | .xor a b => do
    let f ← fresh "xor_fail"
    let failThunk ← thunk fail
    let callFail ← force f
    let onlyB ← lowerModule v b succ callFail
    let body ← withFailure onlyB fun tryB => do
      let s ← fresh "xor_ok"
      let okThunk ← thunk succ
      let callOk ← force s
      let callFail ← force f
      let bMustFail ← lowerModule v b callFail callOk
      let afterA ← letIn s okThunk bMustFail
      lowerModule v a afterA tryB
    letIn f failThunk body
termination_by structural m

def lowerModules (v : Name) (ms : List ModulePattern) (succ fail : Expr) : Build Expr :=
  match ms with
  | [] => pure succ
  | m :: rest => do
    let later ← lowerModules v rest succ fail
    lowerModule v m later fail
termination_by structural ms

def lowerModuleAlternatives (v : Name) (ms : List ModulePattern) (succ fail : Expr) :
    Build Expr :=
  match ms with
  | [] => pure fail
  | m :: rest => do
    let later ← lowerModuleAlternatives v rest succ fail
    withFailure later fun next => lowerModule v m succ next
termination_by structural ms

end

/-- The clauses of a match in order, each falling through to the later ones. -/
def lowerClauses (scrutinee : Name) (miss : Expr) : List Clause → Build Expr
  | [] => pure miss
  | arm :: rest => do
    let later ← lowerClauses scrutinee miss rest
    withFailure later fun fail => lowerAt scrutinee arm.pattern arm.body fail

/-- The clauses that a pattern stands for on its own. -/
def clausesOf (p : Pattern) : Build (List Clause) :=
  match p.kind with
  | .clauses arms => pure arms
  | _ => do
    let yes ← lit (.bool true)
    let no ← lit (.bool false)
    let wildcard ← pattern .wildcard
    return [.mk p yes, .mk wildcard no]

def lowerTop (p : Pattern) : Build Expr := do
  let arms ← clausesOf p
  let arg ← fresh "arg"
  let scrutinee ← fresh "scrutinee"
  let missed ← var scrutinee
  let miss ← op .patternMiss [missed]
  let body ← lowerClauses scrutinee miss arms
  let inner ← function scrutinee body
  let value ← var arg
  let split ← op .case [value, inner]
  function arg split

/-- The function that a pattern denotes, worked out once for each pattern node. -/
def lowerPattern (p : Pattern) : Build Expr := do
  match (← get).lowered.lookup p.symbol with
  | some e => pure e
  | none =>
    let e ← lowerTop p
    modify fun st => { st with lowered := (p.symbol, e) :: st.lowered }
    pure e

end Residual.Build
