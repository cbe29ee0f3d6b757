import Residual.Proofs.Eval.CoupledEvaluation
import Residual.Proofs.Eval.SharedCaptures
import Residual.Proofs.Session.FirstMatch

/-!
Compilation with and without sharing.

Where a result is used again, code holds one variable where it would hold two. Most of evaluation
cannot tell: it looks at the types of variables only. But the type of a packed map has the
environment in it, in canonical tags, and the key of a join point has the captured values; so both
tell which values are the same variable. Main statement: as long as no environment that is packed or
captured without sharing holds two variables that sharing would take for one, a program can be
compiled with sharing exactly if it can be compiled without, and has the same type then.
-/

namespace Residual

open Eval

/-! ### The start of two compilations -/

mutual

lemma Term.nextTag_le (t : Term) : t.nextTag ≤ Tags.limit := by
  match t with
  | .var v => exact Nat.le_of_lt_succ (Nat.mod_lt _ (Nat.succ_pos _))
  | .tuple items => exact Term.nextTagOfAll_le items
  | .map env _ => exact Env.nextTag_le env
  | .box inner _ => exact Term.nextTag_le inner
  | .type _ | .lit _ | .letIn _ _ _ _ | .state _ _ _ | .call _ _ _ _ | .op _ _ _ =>
    exact Nat.zero_le _
termination_by structural t

lemma Term.nextTagOfAll_le (ts : List Term) : Term.nextTagOfAll ts ≤ Tags.limit := by
  match ts with
  | [] => exact Nat.zero_le _
  | t :: rest => exact Nat.max_le.2 ⟨Term.nextTag_le t, Term.nextTagOfAll_le rest⟩
termination_by structural ts

lemma Env.nextTag_le (env : Env) : env.nextTag ≤ Tags.limit := by
  match env with
  | .plain m => exact Env.nextTagOfFields_le _ m
  | .restricted m used => exact Env.nextTagOfFields_le _ m
  | .consed _ m => exact Env.nextTagOfFields_le _ m
termination_by structural env

lemma Env.nextTagOfFields_le (keep : Name → Bool) (m : List (Name × Term)) :
    Env.nextTagOfFields keep m ≤ Tags.limit := by
  match m with
  | [] => exact Nat.zero_le _
  | (x, t) :: rest =>
    rw [Env.nextTagOfFields]
    split
    · exact Nat.max_le.2 ⟨Term.nextTag_le t, Env.nextTagOfFields_le keep rest⟩
    · exact Env.nextTagOfFields_le keep rest
termination_by structural m

end

/-- A new session with the settings, but for sharing. -/
def Session.fresh (settings : Settings) (sharing : Bool) : Session :=
  { settings := { settings with sharing } }

namespace Call

variable {c : Call}

lemma Fits.fresh (h : c.Fits {}) (settings : Settings) (sharing : Bool) :
    c.Fits (.fresh settings sharing) :=
  { h with meets := { h.meets with } }

end Call

/-! ### Main code -/

namespace Coupling

variable {c : Coupling} {p : Runs}

open Region (lax)

namespace Shared

end Shared

end Coupling

/-! ### Compilations -/

namespace PackedSums

def names : Build Name := do
  let _ ← Build.name "x"
  let _ ← Build.name "a"
  let _ ← Build.name "b"
  Build.name "y"

/-- A store with the names `x`, `a`, `b` and `y`. -/
def named : Store := (names.run {}).2

def op (o : Op) (args : List Expr) : Expr := .node 0 (.op o args)

def x : Expr := .node 0 (.var ⟨1⟩)

def y : Expr := .node 0 (.var ⟨4⟩)

def number : Expr := .node 0 (.lit (.int .i32 2 (by decide)))

def arith (o : ArithOp) : Expr := op (.prim (.arith o)) [x, x]

/-- A map on the heap with the fields `a` and `b`. -/
def packed (a b : Expr) : Expr :=
  op (.layout (.pack .heap)) [op (.module (.create [⟨2⟩, ⟨3⟩])) [a, b]]

/-- The body for a number `x` that is known at run time. -/
def bound (body : Expr) : Expr :=
  op .apply [.node 0 (.function ⟨1⟩ body), op .dynamize [number]]

def call (body : Expr) : Call := .of (bound body).enter named 20

lemma fits {body : Expr} (h : body.Sorted) : (call body).Fits {} := by
  have hnames : Store.Reaches {} named :=
    .tail (.tail (.tail (.single (.name "x")) (.name "a")) (.name "b")) (.name "y")
  have hnamed : Build.Does True names fun _ => True :=
    (Build.does_name "x").bind fun _ _ => (Build.does_name "a").bind fun _ _ =>
      (Build.does_name "b").bind fun _ _ => Build.does_name "y"
  have hsorted : (bound body).Sorted := ⟨h, ⟨trivial, trivial⟩, trivial⟩
  have hdoes : Build.Does True (bound body).enter (Build.Fine True) :=
    Build.does_enter (bound body) fun _ => hsorted
  obtain ⟨hreach, hissued, -⟩ :=
    Build.calls_enter (bound body) named (hnames.canonical Store.canonical_new)
  obtain ⟨-, hstore, -⟩ := hnamed {} fun _ => (Session.formed_new {}).store
  obtain ⟨-, hstore, hexpr⟩ := hdoes named hstore
  exact Store.Reaches.fits (hnames.trans hreach) (hstore trivial) hissued (hexpr trivial)

/-- Is the type of a map with a sum in both fields that of a map with a sum and a difference? -/
def compared : Expr :=
  op .cond [op (.type .equal) [packed (arith .add) (arith .add),
    packed (arith .add) (arith .sub)], number, .node 0 (.lit (.string "other"))]

/-- A sum `y` is computed again, next to a map that has `y` in both fields. -/
def apart : Expr :=
  op .apply [.node 0 (.function ⟨4⟩ (.node 0 (.tuple [arith .add, packed y y]))), arith .add]

end PackedSums

end Residual
