import Mathlib.Tactic.Lemma
import Residual.Program

/-!
What evaluation steps do to the world they run in.

`exec` runs a step from a world and gives its outcome with the world it leaves behind. The
lemmas say what it is for each of the ways in which steps are put together.
-/

namespace Residual

namespace World

def setEnv (w : World) (env : Env) : World := { w with scope := { w.scope with env } }

def setTrace (w : World) (trace : Trace) : World := { w with scope := { w.scope with trace } }

def setTags (w : World) (tags : Tags) : World := { w with scope := { w.scope with tags } }

def setStore (w : World) (store : Store) : World := { w with session := { w.session with store } }

def setEnvs (w : World) (envs : EnvTable) : World := { w with session := { w.session with envs } }

def setStats (w : World) (stats : Stats) : World := { w with session := { w.session with stats } }

def setScope (w : World) (scope : Scope) : World := { w with scope }

/-- A statement is added at the end. -/
def push (w : World) (s : Stmt) : World :=
  { w with scope := { w.scope with stmts := w.scope.stmts ++ [s] } }

/-- The result of an operation can be used again. -/
def share (w : World) (a : Application) (v : Var) : World :=
  { w with scope := { w.scope with sharing := w.scope.sharing.insert a v } }

/-- The world at the start of a branch, and after a branch that started from `w`. -/
def enterBranch (w : World) : World := { w with scope := w.scope.enterBranch }

def leaveBranch (w w' : World) : World := { w' with scope := .leaveBranch w.scope w'.scope }

def setPending (w : World) (p : Point) (ty : Option Ty) : World :=
  { w with session := { w.session with points := w.session.points.setProgress p (.pending ty) } }

/-- What was done after the first `mark` join points is forgotten, and so is the type of `p`. -/
def retract (w : World) (p : Point) (mark : Nat) : World :=
  { w with session := w.session.forgetSince mark }.setPending p none

/-- The join point `p` is in evaluation. -/
def start (w : World) (p : Point) (annot : Option Ty) : World :=
  { w with session :=
    { w.session with
      points := w.session.points.insert p ⟨.pending annot, w.scope.trace⟩
      depth := w.session.depth + 1 } }

/-- The join point `p` is given up. -/
def abandon (w : World) (p : Point) : World :=
  { w with session :=
    { w.session with
      points := w.session.points.erase p
      depth := w.session.depth - 1 } }

end World

namespace Eval

variable {α β : Type}

/-- The outcome of a step, and the world after it. -/
def exec (m : Eval α) (w : World) : Except Stop α × World := m.run w

@[simp] lemma exec_pure (a : α) (w : World) : exec (pure a : Eval α) w = (.ok a, w) := rfl

@[simp] lemma exec_throw (s : Stop) (w : World) :
    exec (throw s : Eval α) w = (.error s, w) := rfl

lemma exec_bind (m : Eval α) (f : α → Eval β) (w : World) :
    exec (m >>= f) w = match exec m w with
      | (.ok a, w') => exec (f a) w'
      | (.error s, w') => (.error s, w') := by
  simp only [exec, bind, ExceptT.bind, ExceptT.run, ExceptT.mk, StateT.bind]
  rcases m w with ⟨r, w'⟩
  cases r <;> rfl

lemma exec_bind_of_ok {m : Eval α} {f : α → Eval β} {w w' : World} {a : α}
    (h : exec m w = (.ok a, w')) : exec (m >>= f) w = exec (f a) w' := by
  rw [exec_bind, h]

lemma exec_bind_of_error {m : Eval α} {f : α → Eval β} {w w' : World} {s : Stop}
    (h : exec m w = (.error s, w')) : exec (m >>= f) w = (.error s, w') := by
  rw [exec_bind, h]

/-- A step that succeeds is made of steps that succeed. -/
theorem exec_bind_eq_ok {m : Eval α} {f : α → Eval β} {w w' : World} {b : β} :
    exec (m >>= f) w = (.ok b, w') ↔
      ∃ a w₁, exec m w = (.ok a, w₁) ∧ exec (f a) w₁ = (.ok b, w') := by
  rw [exec_bind]
  rcases hm : exec m w with ⟨r, w₁⟩
  cases r with
  | ok a =>
    constructor
    · exact fun h => ⟨a, w₁, rfl, h⟩
    · rintro ⟨_, _, h, hf⟩
      cases h
      exact hf
  | error s =>
    constructor
    · exact fun h => by cases h
    · rintro ⟨_, _, h, _⟩
      cases h

/-- The step leaves the world as it is, whatever its outcome. -/
def Reads (m : Eval α) : Prop := ∀ w, (exec m w).2 = w

lemma reads_pure (a : α) : Reads (pure a) := fun _ => rfl

lemma reads_fail (c : Cause) : Reads (fail c : Eval α) := fun _ => rfl

lemma reads_getSession : Reads getSession := fun _ => rfl

lemma Reads.bind {m : Eval α} {f : α → Eval β} (hm : Reads m) (hf : ∀ a, Reads (f a)) :
    Reads (m >>= f) := by
  intro w
  have h := hm w
  rw [exec_bind]
  rcases hrun : exec m w with ⟨_ | a, w'⟩
  · rw [hrun] at h
    exact h
  · rw [hrun] at h
    rw [← h]
    exact hf a w'

/-! ### Reading and changing the world -/

lemma exec_get (w : World) : exec (get : Eval World) w = (.ok w, w) := rfl

@[simp] lemma exec_getSession (w : World) : exec getSession w = (.ok w.session, w) := rfl

@[simp] lemma exec_getScope (w : World) : exec getScope w = (.ok w.scope, w) := rfl

@[simp] lemma exec_modifySession (f : Session → Session) (w : World) :
    exec (modifySession f) w = (.ok (), { w with session := f w.session }) := rfl

@[simp] lemma exec_modifyScope (f : Scope → Scope) (w : World) :
    exec (modifyScope f) w = (.ok (), { w with scope := f w.scope }) := rfl

lemma exec_modifyPoints (f : PointTable → PointTable) (w : World) :
    exec (modifyPoints f) w =
      (.ok (), { w with session := { w.session with points := f w.session.points } }) := rfl

lemma exec_modifyStats (f : Stats → Stats) (w : World) :
    exec (modifyStats f) w = (.ok (), w.setStats (f w.session.stats)) := rfl

@[simp] lemma exec_fail (c : Cause) (w : World) :
    exec (fail c : Eval α) w = (.error (.failed { cause := c, trace := w.scope.trace }), w) := rfl

lemma exec_build (act : Build α) (w : World) :
    exec (build act) w =
      (.ok (act.run w.session.store).1, w.setStore (act.run w.session.store).2) := rfl

lemma exec_rename (start : EnvTable → Renaming) (act : Rename α) (w : World) :
    exec (rename start act) w = match act.run (start w.session.envs) with
      | none => (.error .tagsExhausted, w)
      | some (a, r) => (.ok (a, r), w.setEnvs r.envs) := by
  rw [rename, exec_bind_of_ok (exec_getSession w)]
  cases act.run (start w.session.envs) <;> rfl

lemma exec_setPendingType (p : Point) (ty : Option Ty) (w : World) :
    exec (setPendingType p ty) w = (.ok (), w.setPending p ty) := rfl

/-! ### Steps around steps -/

lemma exec_ensuring (act : Eval α) (after : World → World) (w : World) :
    exec (ensuring act after) w = ((exec act w).1, after (exec act w).2) := rfl

lemma exec_observe (act : Eval α) (w : World) :
    exec (observe act) w = (.ok (exec act w).1, (exec act w).2) := rfl

lemma exec_attempt (act : Eval α) (w : World) :
    exec (attempt act) w = match (exec act w).1 with
      | .ok a => (.ok (.ok a), (exec act w).2)
      | .error (.failed fault) => (.ok (.error fault), (exec act w).2)
      | .error .tagsExhausted => (.error .tagsExhausted, (exec act w).2)
      | .error .outOfFuel => (.error .outOfFuel, (exec act w).2) := by
  rw [attempt, exec_bind_of_ok (exec_observe act w)]
  rcases (exec act w).1 with (_ | _ | _) | _ <;> rfl

lemma exec_withEnv (env : Env) (act : Eval α) (w : World) :
    exec (withEnv env act) w =
      ((exec act (w.setEnv env)).1, (exec act (w.setEnv env)).2.setEnv w.scope.env) := rfl

/-- A function is inlined: its body is evaluated where its argument is bound. -/
theorem exec_apply_function (ev : Expr → Eval Term) (env : Env) (x : Name) (b : Expr) (t : Term)
    (w : World) : exec (apply ev (.map env (.function x b)) t) w =
      exec (withEnv (env.bind x t) (ev b)) w := rfl

lemma exec_withSpan (span : Span) (act : Eval α) (w : World) :
    exec (withSpan span act) w =
      ((exec act (w.setTrace (w.scope.trace.push span))).1,
        (exec act (w.setTrace (w.scope.trace.push span))).2.setTrace w.scope.trace) := rfl

/-- The value of a branch, with the statements of the branch around it. -/
theorem exec_inBranch (act : Eval Term) (w : World) :
    exec (inBranch act) w =
      ((exec act w.enterBranch).1.map
          (Stmt.close (exec act w.enterBranch).2.scope.stmts),
        w.leaveBranch (exec act w.enterBranch).2) := by
  rw [inBranch, exec_bind_of_ok (exec_getScope w), exec_bind_of_ok (exec_modifyScope _ w),
    exec_ensuring]
  change ((exec _ w.enterBranch).1, w.leaveBranch (exec _ w.enterBranch).2) = _
  rw [exec_bind]
  rcases exec act w.enterBranch with ⟨_ | _, w'⟩ <;> rfl

lemma stmts_attempt_inBranch (act : Eval Term) (w : World) :
    (exec (attempt (inBranch act)) w).2.scope.stmts = w.scope.stmts := by
  rw [exec_attempt, exec_inBranch]
  rcases (exec act w.enterBranch).1 with (_ | _ | _) | _ <;> rfl

lemma exec_inScope (scope : Scope) (act : Eval α) (w : World) :
    exec (inScope scope act) w =
      ((exec act (w.setScope scope)).1, (exec act (w.setScope scope)).2.setScope w.scope) := rfl

end Eval

end Residual
