import Mathlib.Data.List.Forall2
import Residual.Proofs.Eval.Exec
import Residual.Proofs.Surface.Rebuilding
import Residual.Proofs.Typed.RenameMoved

/-!
Two evaluations of the same code with other source positions.

A comparison says how the values of the second run come from those of the first, by a move, and
as what the traces of code are seen when the two runs are compared. The traces of the second run
need not be images of those of the first, for one run may record traces where the other records
none: they only have to look alike.

`Does R act act'` says that from worlds that are alike both steps come to worlds that are alike,
either with results related by `R` or with failures that are alike.
-/

namespace Residual

/-! ### What the world holds, with other positions -/

namespace Stmt

def moved (m : Move) : Stmt → Stmt
  | .letIn bind bound trace => .letIn (bind.moved m) (bound.moved m) (m.trace trace)
  | .state stmt trace => .state (stmt.moved m) (m.trace trace)

lemma before_moved (m : Move) (s : Stmt) (rest : Term) :
    (s.before rest).moved m = (s.moved m).before (rest.moved m) := by
  cases s <;> rfl

lemma close_moved (m : Move) (stmts : List Stmt) (result : Term) :
    (close stmts result).moved m = close (stmts.map (Stmt.moved m)) (result.moved m) := by
  induction stmts with
  | nil => rfl
  | cons s rest ih => rw [close_cons, before_moved, ih, List.map_cons, close_cons]

end Stmt

def KeyData.moved (m : Move) (k : KeyData) : KeyData :=
  { k with body := k.body.moved m.span, env := Fields.moved m k.env }

lemma KeyData.beq_moved (m : Move) (a b : KeyData) : (a.moved m == b.moved m) = (a == b) := by
  change (_ && _) = (_ && _)
  rw [moved, moved, Expr.beq_moved]

def Message.moved (m : Move) : Message → Message
  | .text s => .text s
  | .type t => .type (t.moved m)

def Cause.moved (m : Move) : Cause → Cause
  | .noClause got => .noClause (got.moved m)
  | .noPath kind => .noPath kind
  | .arity op expected got => .arity op expected got
  | .operands op got => .operands op (got.map (Ty.moved m))
  | .condition got => .condition (got.moved m)
  | .declared expected got => .declared (expected.moved m) (got.moved m)
  | .branches op expected got => .branches op (expected.moved m) (got.moved m)
  | .pointResult kind expected got => .pointResult kind (expected.moved m) (got.moved m)
  | .kernelResult got => .kernelResult (got.moved m)
  | .closureArg expected got => .closureArg (expected.moved m) (got.moved m)
  | .notMember union got => .notMember (union.moved m) (got.moved m)
  | .undefinedType ty => .undefinedType (ty.moved m)
  | .index op got => .index op (got.moved m)
  | .element op expected got => .element op (expected.moved m) (got.moved m)
  | .notArray op got => .notArray op (got.moved m)
  | .notTuple op got => .notTuple op (got.moved m)
  | .notModule op got => .notModule op (got.moved m)
  | .notLayout got => .notLayout (got.moved m)
  | .notLiteral got => .notLiteral (got.moved m)
  | .unbound x => .unbound x
  | .noField x => .noField x
  | .recursion kind => .recursion kind
  | .noForeignType => .noForeignType
  | .foreignPart got => .foreignPart (got.moved m)
  | .notCallable got => .notCallable (got.moved m)
  | .raised message => .raised (message.moved m)
  | .tooDeep limit => .tooDeep limit

/-- A move changes no message. -/
theorem Cause.message_moved (m : Move) (names : Names) (c : Cause) :
    (c.moved m).message names = c.message names := by
  have htext := Ty.text_moved m names
  -- A message has types as texts only, and no position is part of a text.
  cases c with
  | noPath kind => cases kind <;> rfl
  | operands op got =>
    have hgot := Ty.texts_moved m names got
    rw [Ty.movedAll_eq] at hgot
    exact congrArg (fun texts => mismatch op.name (operandRule op) (", ".intercalate texts)) hgot
  | arity _ _ _ | unbound _ | noField _ | recursion _ | noForeignType | tooDeep _ => rfl
  | noClause got =>
    exact congrArg (fun s => s!"pattern match failure: no clause matched a value of type {s}")
      (htext got)
  | foreignPart got =>
    exact congrArg (fun s =>
      s!"macro error: a macro part must be a string literal, a variable or a type, " ++
        s!"got a value of type {s}") (htext got)
  | notCallable got => exact congrArg (fun s => s!"value of type {s} is not callable") (htext got)
  | raised message =>
    cases message with
    | text s => rfl
    | type t => exact htext t
  | notMember union got =>
    exact congrArg₂ (fun s t => mismatch "box" s!"a member of {s}" t) (htext union) (htext got)
  | declared expected got | closureArg expected got =>
    exact congrArg₂ (mismatch _) (htext expected) (htext got)
  | branches op expected got => exact congrArg₂ (mismatch _) (htext expected) (htext got)
  | pointResult kind expected got => exact congrArg₂ (mismatch _) (htext expected) (htext got)
  | element op expected got => exact congrArg₂ (mismatch _) (htext expected) (htext got)
  | condition got | kernelResult got | undefinedType got | notLayout got | notLiteral got =>
    exact congrArg (mismatch _ _) (htext got)
  | index op got => exact congrArg (mismatch _ _) (htext got)
  | notArray op got => exact congrArg (mismatch _ _) (htext got)
  | notTuple op got => exact congrArg (mismatch _ _) (htext got)
  | notModule op got => exact congrArg (mismatch _ _) (htext got)

lemma Cause.category_moved (m : Move) (c : Cause) : (c.moved m).category = c.category := by
  cases c <;> rfl

/-! ### Comparisons -/

/-- How the values of a second run come from those of a first run, and as what traces of code are
seen. -/
structure Comparison extends Move where
  view : Trace → Trace
  faithful : toMove.Faithful

namespace Comparison

variable (m : Comparison)

/-- What is seen of the code of the second run. -/
def seen : Move := ⟨id, m.view⟩

/-- What is seen of the images of the code of the first run. -/
def image : Move := m.toMove.andThen m.seen

/-- All traces of code look the same. -/
def Blind : Prop := ∀ s t, m.view s = m.view t

/-- The terms look alike. -/
def Same (c c' : Term) : Prop := c'.moved m.seen = c.moved m.image

/-- Code that looks alike, with the image of the type. -/
structure Code (c c' : Term) : Prop where
  same : m.Same c c'
  ty : c'.ty = c.ty.moved m.toMove

/-- The traces look alike. -/
def Traces (s s' : Trace) : Prop := m.view s' = m.view (m.trace s)

/-- The images of bodies, with code that looks alike. -/
structure Bodies (b b' : Body) : Prop where
  code : m.Code b.term b'.term
  ty : b'.ty = b.ty.moved m.toMove
  params : b'.params = b.params.map (Var.moved m.toMove)
  closureParam : b'.closureParam = b.closureParam.map (Var.moved m.toMove)

inductive Progresses : Progress → Progress → Prop
  | pending (ty : Option Ty) : Progresses (.pending ty) (.pending (ty.map (Ty.moved m.toMove)))
  | done {b b' : Body} (h : m.Bodies b b') : Progresses (.done b) (.done b')

structure Entries (e e' : Entry) : Prop where
  progress : m.Progresses e.progress e'.progress
  trace : m.Traces e.trace e'.trace

/-- Join points with entries that are alike, in the same order. -/
def Points : PointTable → PointTable → Prop :=
  List.Forall₂ fun e e' => e'.1 = e.1 ∧ m.Entries e.2 e'.2

structure Sessions (s s' : Session) : Prop where
  store : s'.store = s.store.moved m.span
  envs : s'.envs = s.envs.moved m.toMove
  keys : s'.keys = s.keys.map (KeyData.moved m.toMove)
  points : m.Points s.points s'.points
  recTypes : s'.recTypes = s.recTypes.map fun e => (e.1, e.2.moved m.toMove)
  finished : s'.finished = s.finished
  settings : s'.settings = { s.settings with traces := s'.settings.traces }
  /-- Either traces do not count, or none are recorded. -/
  quiet : m.Blind ∨ s.settings.traces = false ∧ s'.settings.traces = false
  stats : s'.stats = s.stats
  depth : s'.depth = s.depth

structure Scopes (s s' : Scope) : Prop where
  env : s'.env = s.env.moved m.toMove
  tags : s'.tags = s.tags
  stmts : s'.stmts.map (Stmt.moved m.seen) = s.stmts.map (Stmt.moved m.image)
  sharing : s'.sharing = s.sharing.moved m.toMove
  trace : m.Traces s.trace s'.trace
  dynamicDepth : s'.dynamicDepth = s.dynamicDepth
  owner : s'.owner = s.owner

structure Worlds (w w' : World) : Prop where
  session : m.Sessions w.session w'.session
  scope : m.Scopes w.scope w'.scope

structure Faults (f f' : Fault) : Prop where
  cause : f'.cause = f.cause.moved m.toMove
  trace : m.Traces f.trace f'.trace
  pending : f'.pending = f.pending

inductive Stops : Stop → Stop → Prop
  | failed {f f' : Fault} (h : m.Faults f f') : Stops (.failed f) (.failed f')
  | tagsExhausted : Stops .tagsExhausted .tagsExhausted
  | outOfFuel : Stops .outOfFuel .outOfFuel

variable {m} {α β γ δ : Type}

lemma same_value (t : Term) : m.Same t (t.moved m.toMove) := Term.moved_moved _ _ t

lemma code_value (t : Term) : m.Code t (t.moved m.toMove) := ⟨same_value t, Term.ty_moved _ t⟩

lemma Same.op (o : Op) {args args' : List Term} (h : List.Forall₂ m.Same args args') (t : Ty) :
    m.Same (.op o args t) (.op o args' (t.moved m.toMove)) := by
  have hargs : args'.map (Term.moved m.seen) = args.map (Term.moved m.image) := by
    induction h with
    | nil => rfl
    | cons ht _ ih => rw [List.map_cons, List.map_cons, ih, ht]
  rw [Same, Term.moved, Term.moved, Term.movedAll_eq, Term.movedAll_eq, hargs, Ty.moved_moved]
  rfl

lemma Same.endsInMiss {c c' : Term} (h : m.Same c c') : c'.endsInMiss = c.endsInMiss := by
  rw [← Term.endsInMiss_moved m.seen c', h, Term.endsInMiss_moved]

lemma Code.retypeMiss {c c' : Term} (h : m.Code c c') (ty : Ty) :
    m.Same (c.retypeMiss ty) (c'.retypeMiss (ty.moved m.toMove)) := by
  have hsame : c'.moved m.seen = c.moved m.image := h.same
  rw [Same, Term.retypeMiss_moved, Term.retypeMiss_moved, hsame, Ty.moved_moved]
  rfl

lemma Code.close {stmts stmts' : List Stmt}
    (hs : stmts'.map (Stmt.moved m.seen) = stmts.map (Stmt.moved m.image)) (value : Term) :
    m.Code (Stmt.close stmts value) (Stmt.close stmts' (value.moved m.toMove)) := by
  refine ⟨?_, ?_⟩
  · rw [Same, Stmt.close_moved, Stmt.close_moved, hs, Term.moved_moved]
    rfl
  · rw [Stmt.ty_close, Stmt.ty_close, Term.ty_moved]

/-- Both runs have a result, and the results are related, or both have none. -/
inductive Outcomes (m : Comparison) (R : α → β → Prop) : Except Stop α → Except Stop β → Prop
  | ok {a : α} {b : β} (h : R a b) : Outcomes m R (.ok a) (.ok b)
  | error {s s' : Stop} (h : m.Stops s s') : Outcomes m R (.error s) (.error s')

open Eval

/-- From worlds that are alike both steps come to alike outcomes, in worlds that are alike. -/
def Does (m : Comparison) (R : α → β → Prop) (act : Eval α) (act' : Eval β) : Prop :=
  ∀ w w', m.Worlds w w' →
    Outcomes m R (exec act w).1 (exec act' w').1 ∧ m.Worlds (exec act w).2 (exec act' w').2

/-- The second step does the same, with the image of the result. -/
abbrev Maps (m : Comparison) (b : α → β) (act : Eval α) (act' : Eval β) : Prop :=
  m.Does (fun a a' => a' = b a) act act'

namespace Does

variable {R : α → β → Prop} {S : γ → δ → Prop} {act : Eval α} {act' : Eval β}
  {next : α → Eval γ} {next' : β → Eval δ}

protected lemma pure {a : α} {b : β} (h : R a b) : m.Does R (pure a) (pure b) :=
  fun _ _ hw => ⟨.ok h, hw⟩

protected lemma throw {s s' : Stop} (h : m.Stops s s') :
    m.Does R (throw s : Eval α) (throw s' : Eval β) :=
  fun _ _ hw => ⟨.error h, hw⟩

protected lemma fail {c c' : Cause} (h : c' = c.moved m.toMove) :
    m.Does R (fail c : Eval α) (fail c' : Eval β) :=
  fun _ _ hw => ⟨.error (.failed ⟨h, hw.scope.trace, rfl⟩), hw⟩

protected lemma bind (hact : m.Does R act act')
    (hnext : ∀ a b, R a b → m.Does S (next a) (next' b)) :
    m.Does S (act >>= next) (act' >>= next') := by
  intro w w' hw
  obtain ⟨hout, hworlds⟩ := hact w w' hw
  rcases hrun : exec act w with ⟨o, w₁⟩
  rcases hrun' : exec act' w' with ⟨o', w₁'⟩
  rw [hrun, hrun'] at hout hworlds
  cases hout with
  | ok h =>
    rw [exec_bind_of_ok hrun, exec_bind_of_ok hrun']
    exact hnext _ _ h _ _ hworlds
  | error h =>
    rw [exec_bind_of_error hrun, exec_bind_of_error hrun']
    exact ⟨.error h, hworlds⟩

/-- Go on with the image of a result. -/
theorem andThen {b : α → β} (hact : m.Maps b act act')
    (hnext : ∀ a, m.Does S (next a) (next' (b a))) : m.Does S (act >>= next) (act' >>= next') :=
  hact.bind fun a _ h => h ▸ hnext a

/-- The images of some results are the results for the images. -/
theorem mapM_map {b : α → β} {c : γ → δ} {act : α → Eval γ} {act' : β → Eval δ} {l : List α}
    (h : ∀ a ∈ l, m.Maps c (act a) (act' (b a))) :
    m.Maps (List.map c) (l.mapM act) ((l.map b).mapM act') := by
  induction l with
  | nil => exact .pure rfl
  | cons a rest ih =>
    obtain ⟨ha, hrest⟩ := List.forall_mem_cons.1 h
    rw [List.map_cons, List.mapM_cons, List.mapM_cons]
    exact ha.andThen fun first => (ih hrest).andThen fun others => .pure rfl

end Does

/-! ### Reading and changing the world -/

section World

variable {S : γ → δ → Prop}

lemma does_getScope {next : Scope → Eval γ} {next' : Scope → Eval δ}
    (h : ∀ s s', m.Scopes s s' → m.Does S (next s) (next' s')) :
    m.Does S (getScope >>= next) (getScope >>= next') :=
  fun w w' hw => h w.scope w'.scope hw.scope w w' hw

lemma does_getSession {next : Session → Eval γ} {next' : Session → Eval δ}
    (h : ∀ s s', m.Sessions s s' → m.Does S (next s) (next' s')) :
    m.Does S (getSession >>= next) (getSession >>= next') :=
  fun w w' hw => h w.session w'.session hw.session w w' hw

lemma does_modifyScope {g g' : Scope → Scope}
    (h : ∀ s s', m.Scopes s s' → m.Scopes (g s) (g' s')) :
    m.Maps id (modifyScope g) (modifyScope g') :=
  fun _ _ hw => ⟨.ok rfl, hw.session, h _ _ hw.scope⟩

lemma does_modifySession {g g' : Session → Session}
    (h : ∀ s s', m.Sessions s s' → m.Sessions (g s) (g' s')) :
    m.Maps id (modifySession g) (modifySession g') :=
  fun _ _ hw => ⟨.ok rfl, h _ _ hw.session, hw.scope⟩

lemma does_modifyStats (g : Stats → Stats) : m.Maps id (modifyStats g) (modifyStats g) :=
  does_modifySession fun _ _ h => { h with stats := congrArg g h.stats }

lemma does_build {b : α → β} {act : Build α} {act' : Build β}
    (h : Build.Moves m.span b act act') : m.Maps b (build act) (build act') := by
  intro w w' hw
  have hstore := h w.session.store
  rw [← hw.session.store] at hstore
  rw [exec_build, exec_build, hstore]
  exact ⟨.ok rfl, { hw.session with store := rfl }, hw.scope⟩

lemma does_rename {b : α → β} {start start' : EnvTable → Renaming} {act : Rename α}
    {act' : Rename β} (hstart : ∀ envs : EnvTable,
      start' (envs.moved m.toMove) = (start envs).moved m.toMove)
    (h : Rename.Moves m.toMove b act act') :
    m.Maps (fun r : α × Renaming => (b r.1, r.2.moved m.toMove)) (rename start act)
      (rename start' act') := by
  intro w w' hw
  have hrun := h (start w.session.envs)
  rw [← hstart, ← hw.session.envs] at hrun
  rw [exec_rename, exec_rename, hrun]
  cases act.run (start w.session.envs) with
  | none => exact ⟨.error .tagsExhausted, hw⟩
  | some r => exact ⟨.ok rfl, { hw.session with envs := rfl }, hw.scope⟩

variable {R : α → β → Prop} {act : Eval α} {act' : Eval β}

lemma does_withEnv (env : Env) (h : m.Does R act act') :
    m.Does R (withEnv env act) (withEnv (env.moved m.toMove) act') := by
  intro w w' hw
  have hin : m.Worlds (w.setEnv env) (w'.setEnv (env.moved m.toMove)) :=
    ⟨hw.session, { hw.scope with env := rfl }⟩
  obtain ⟨hout, hworlds⟩ := h _ _ hin
  rw [exec_withEnv, exec_withEnv]
  exact ⟨hout, hworlds.session, { hworlds.scope with env := hw.scope.env }⟩

lemma does_observe (h : m.Does R act act') :
    m.Does (Outcomes m R) (observe act) (observe act') := by
  intro w w' hw
  obtain ⟨hout, hworlds⟩ := h w w' hw
  exact ⟨.ok hout, hworlds⟩

/-- Both attempts succeed with related results, or both have a fault. -/
inductive Attempts (m : Comparison) (R : α → β → Prop) : Except Fault α → Except Fault β → Prop
  | ok {a : α} {b : β} (h : R a b) : Attempts m R (.ok a) (.ok b)
  | error {f f' : Fault} (h : m.Faults f f') : Attempts m R (.error f) (.error f')

lemma does_attempt (h : m.Does R act act') :
    m.Does (Attempts m R) (attempt act) (attempt act') := by
  refine (does_observe h).bind fun o o' ho => ?_
  cases ho with
  | ok hab => exact .pure (.ok hab)
  | error hs =>
    cases hs with
    | failed hf => exact .pure (.error hf)
    | tagsExhausted => exact .throw .tagsExhausted
    | outOfFuel => exact .throw .outOfFuel

lemma Scopes.enterBranch {s s' : Scope} (h : m.Scopes s s') :
    m.Scopes s.enterBranch s'.enterBranch :=
  { h with
    stmts := rfl
    sharing := congrArg Sharing.push h.sharing
    dynamicDepth := congrArg (· + 1) h.dynamicDepth }

lemma Scopes.leaveBranch {s s' saved saved' : Scope} (hsaved : m.Scopes saved saved')
    (h : m.Scopes s s') : m.Scopes (Scope.leaveBranch saved s) (Scope.leaveBranch saved' s') :=
  { h with
    env := hsaved.env
    stmts := hsaved.stmts
    sharing := (congrArg Sharing.pop h.sharing).trans (Sharing.pop_moved m.faithful _)
    trace := hsaved.trace
    dynamicDepth := congrArg (· - 1) h.dynamicDepth }

/-- The value of a branch comes with its statements, so it is code. -/
theorem does_inBranch {act act' : Eval Term} (h : m.Maps (Term.moved m.toMove) act act') :
    m.Does m.Code (inBranch act) (inBranch act') := by
  intro w w' hw
  have hin : m.Worlds w.enterBranch w'.enterBranch := ⟨hw.session, hw.scope.enterBranch⟩
  obtain ⟨hout, hworlds⟩ := h _ _ hin
  rw [exec_inBranch, exec_inBranch]
  refine ⟨?_, hworlds.session, hw.scope.leaveBranch hworlds.scope⟩
  generalize (exec act w.enterBranch).1 = o at hout
  generalize (exec act' w'.enterBranch).1 = o' at hout
  cases hout with
  | ok hvalue =>
    subst hvalue
    exact .ok (.close hworlds.scope.stmts _)
  | error hs => exact .error hs

/-- Where traces do not count, any two of them are alike. -/
lemma Worlds.setTraces {w w' : World} (hw : m.Worlds w w') (hblind : m.Blind)
    (trace trace' : Trace) : m.Worlds (w.setTrace trace) (w'.setTrace trace') :=
  ⟨hw.session, { hw.scope with trace := hblind _ _ }⟩

/-- Where traces do not count, it does not matter which run goes a position deeper. -/
theorem does_withSpan (hblind : m.Blind) (h : m.Does R act act') (span span' : Span) :
    m.Does R (withSpan span act) (withSpan span' act') ∧
      m.Does R (withSpan span act) act' ∧ m.Does R act (withSpan span' act') := by
  refine ⟨fun w w' hw => ?_, fun w w' hw => ?_, fun w w' hw => ?_⟩
  · obtain ⟨hout, hworlds⟩ := h _ _ (hw.setTraces hblind (w.scope.trace.push span)
      (w'.scope.trace.push span'))
    rw [exec_withSpan, exec_withSpan]
    exact ⟨hout, hworlds.setTraces hblind _ _⟩
  · obtain ⟨hout, hworlds⟩ := h _ _ (hw.setTraces hblind (w.scope.trace.push span) w'.scope.trace)
    rw [exec_withSpan]
    exact ⟨hout, hworlds.setTraces hblind _ _⟩
  · obtain ⟨hout, hworlds⟩ := h _ _ (hw.setTraces hblind w.scope.trace
      (w'.scope.trace.push span'))
    rw [exec_withSpan]
    exact ⟨hout, hworlds.setTraces hblind _ _⟩

end World

end Comparison

end Residual
