import Residual.Fault
import Residual.Settings
import Residual.Surface.Filter
import Residual.Typed.Dump
import Residual.Typed.Rename
import Residual.Typed.Sharing
import Residual.Typed.Statement

/-!
The state of a compiler between and during compilations.

A session outlives single compilations: what they specialized stays. A scope belongs to the
evaluation of one body, that of the program or that of a join point.
-/

namespace Residual

/-- Counts over all compilations of a session. -/
structure Stats where
  bodies : Nat := 0
  cacheHits : Nat := 0
  recursiveHits : Nat := 0
  sharingHits : Nat := 0

/-- `finished` lists the done join points in the order they were done, `depth` counts those in
evaluation. -/
structure Session where
  store : Store := {}
  envs : EnvTable := {}
  keys : Interner KeyData := {}
  points : PointTable := []
  recTypes : List (Key × Ty) := []
  finished : List Point := []
  settings : Settings := {}
  stats : Stats := {}
  depth : Nat := 0

/-- `dynamicDepth` counts the open branches, `owner` is the join point whose body it is. -/
structure Scope where
  env : Env
  tags : Tags
  stmts : List Stmt := []
  sharing : Sharing := {}
  trace : Trace := {}
  dynamicDepth : Nat := 0
  owner : Option Point := none

namespace Scope

/-- The scope at the start of a branch. -/
def enterBranch (s : Scope) : Scope :=
  { s with sharing := s.sharing.push, dynamicDepth := s.dynamicDepth + 1, stmts := [] }

/-- The scope after a branch that started from `saved`. -/
def leaveBranch (saved s : Scope) : Scope :=
  { s with
    sharing := s.sharing.pop
    dynamicDepth := s.dynamicDepth - 1
    env := saved.env
    trace := saved.trace
    stmts := saved.stmts }

end Scope

namespace Session

def find? (s : Session) (p : Point) : Option Entry := s.points.get? p

def recType? (s : Session) (key : Key) : Option Ty := s.recTypes.lookup key

/-- The finished body of a join point. -/
def body? (s : Session) (p : Point) : Option Body := do
  match (← s.find? p).progress with
  | .done body => some body
  | .pending _ => none

/-- Forget the join points that were done after the first `mark` of them. -/
def forgetSince (s : Session) (mark : Nat) : Session :=
  let forgotten := s.finished.drop mark
  { s with
    finished := s.finished.take mark
    points := forgotten.foldl PointTable.erase s.points
    recTypes := s.recTypes.filter fun e => !forgotten.any fun p => p.key == e.1 }

/-- What a key captures. -/
def captures (s : Session) (key : Key) : Fields Term :=
  match s.keys.get? key.symbol with
  | some node => node.value.env
  | none => []

def enterKey (s : Session) (data : KeyData) : Key × Session :=
  let (node, keys) := s.keys.intern data
  (⟨node.symbol⟩, { s with keys })

/-- The diagnostic texts of all keys, in order. A key refers to earlier keys only. -/
def keyDumps (s : Session) : List String :=
  s.keys.entries.foldl (fun texts data =>
    let earlier (k : Key) := texts[k.symbol]?.getD ""
    let env := Text.Dump.node data.envSymbol
      (Text.Dump.map (Env.dumpFields earlier (fun _ => true) data.env))
    texts ++ [Text.Dump.node texts.length
      (Text.Dump.record "JoinPointKeyData" [("body", data.body.dump), ("env", env)])]) []

/-- The diagnostic text of an environment. -/
def dumpEnv (s : Session) (env : Env) : String :=
  let keys := s.keyDumps
  env.dump fun k => keys[k.symbol]?.getD ""

end Session

end Residual
