import Residual.Program
import Residual.Proofs.Eval.AlikeSteps

/-!
Outcomes and sessions with other source positions.

Main statement: what two alike runs leave is the same, once the second is seen and the first is
moved and then seen.
-/

namespace Residual

/-! ### With other positions -/

section

variable (m : Move)

def Body.moved (b : Body) : Body :=
  { term := b.term.moved m
    ty := b.ty.moved m
    params := b.params.map (Var.moved m)
    closureParam := b.closureParam.map (Var.moved m) }

def Progress.moved : Progress → Progress
  | .pending ty => .pending (ty.map (Ty.moved m))
  | .done body => .done (body.moved m)

def Entry.moved (e : Entry) : Entry := ⟨e.progress.moved m, m.trace e.trace⟩

/-- The session with other positions in what it holds. -/
def Session.moved (s : Session) : Session :=
  { s with
    store := s.store.moved m.span
    envs := s.envs.moved m
    keys := s.keys.map (KeyData.moved m)
    points := s.points.map fun e => (e.1, e.2.moved m)
    recTypes := s.recTypes.map fun e => (e.1, e.2.moved m) }

def FunctionDef.moved (f : FunctionDef) : FunctionDef := ⟨f.point, f.body.moved m⟩

def Program.moved (p : Program) : Program :=
  { main := p.main.moved m
    functions := p.functions.map (FunctionDef.moved m)
    recTypes := p.recTypes.map fun e => (e.1, e.2.moved m) }

def Fault.moved (f : Fault) : Fault :=
  { f with cause := f.cause.moved m, trace := m.trace f.trace }

def Stop.moved : Stop → Stop
  | .failed fault => .failed (fault.moved m)
  | .tagsExhausted => .tagsExhausted
  | .outOfFuel => .outOfFuel

/-- The outcome of a compilation with other positions. -/
def Program.movedOutcome : Except Stop Program → Except Stop Program
  | .ok p => .ok (p.moved m)
  | .error stop => .error (stop.moved m)

end

/-! ### The traces in them -/

def Body.traces (b : Body) : List Trace :=
  b.term.traces ++ b.ty.traces ++ Var.tracesOfAll b.params ++
    Var.tracesOfAll b.closureParam.toList

def Progress.traces : Progress → List Trace
  | .pending ty => Ty.tracesOfAll ty.toList
  | .done body => body.traces

def Entry.traces (e : Entry) : List Trace := e.trace :: e.progress.traces

def KeyData.traces (k : KeyData) : List Trace := Env.tracesOfFields k.env

/-- The traces in the tables of a session: those of entered environments, of keys, of join points
with their bodies, and of recursive types. -/
def Session.traces (s : Session) : List Trace :=
  s.envs.entries.flatMap Env.tracesOfFields ++
    s.keys.entries.flatMap KeyData.traces ++
    s.points.flatMap (fun e => e.2.traces) ++ s.recTypes.flatMap (fun e => e.2.traces)

def FunctionDef.traces (f : FunctionDef) : List Trace := f.body.traces

def Program.traces (p : Program) : List Trace :=
  p.main.traces ++ p.functions.flatMap FunctionDef.traces ++
    p.recTypes.flatMap (fun e => e.2.traces)

def Message.types : Message → List Ty
  | .text _ => []
  | .type t => [t]

/-- The types that the words for a failure speak of. -/
def Cause.types : Cause → List Ty
  | .noClause got | .condition got | .kernelResult got | .undefinedType got | .index _ got
  | .notArray _ got | .notTuple _ got | .notModule _ got | .notLayout got | .notLiteral got
  | .foreignPart got | .notCallable got => [got]
  | .operands _ got => got
  | .declared expected got | .branches _ expected got | .pointResult _ expected got
  | .closureArg expected got | .notMember expected got | .element _ expected got =>
    [expected, got]
  | .raised message => message.types
  | .noPath _ | .arity _ _ _ | .unbound _ | .noField _ | .recursion _ | .noForeignType
  | .tooDeep _ => []

def Fault.traces (f : Fault) : List Trace := f.trace :: Ty.tracesOfAll f.cause.types

def Stop.traces : Stop → List Trace
  | .failed fault => fault.traces
  | .tagsExhausted | .outOfFuel => []

/-- The traces in the program or in the fault. -/
def Program.outcomeTraces : Except Stop Program → List Trace
  | .ok p => p.traces
  | .error stop => stop.traces

section

variable (m : Move)

lemma flatMap_moved {α : Type} {g : α → α} {traces : α → List Trace}
    (h : ∀ a, traces (g a) = (traces a).map m.trace) (l : List α) :
    (l.map g).flatMap traces = (l.flatMap traces).map m.trace := by
  rw [List.flatMap_map, List.map_flatMap]
  exact congrArg (l.flatMap ·) (funext h)

/-- The same for a table, whose keys stay. -/
lemma flatMap_moved_snd {κ α : Type} {g : α → α} {traces : α → List Trace}
    (h : ∀ a, traces (g a) = (traces a).map m.trace) (l : List (κ × α)) :
    (l.map fun e => (e.1, g e.2)).flatMap (fun e => traces e.2) =
      (l.flatMap fun e => traces e.2).map m.trace := by
  rw [List.flatMap_map, List.map_flatMap]
  exact congrArg (l.flatMap ·) (funext fun e => h e.2)

lemma Body.traces_moved (b : Body) : (b.moved m).traces = b.traces.map m.trace := by
  have hparams := Var.tracesOfAll_moved m b.params
  have hclosure := Var.tracesOfAll_moved m b.closureParam.toList
  rw [Var.movedAll_eq] at hparams hclosure
  simp only [traces, moved, List.map_append, Term.traces_moved, Ty.traces_moved, hparams,
    ← hclosure, Option.toList_map]

lemma Progress.traces_moved (p : Progress) : (p.moved m).traces = p.traces.map m.trace := by
  cases p with
  | pending ty =>
    have hty := Ty.tracesOfAll_moved m ty.toList
    rw [Ty.movedAll_eq] at hty
    rw [traces, ← hty, ← Option.toList_map]
    rfl
  | done body => exact body.traces_moved m

lemma Entry.traces_moved (e : Entry) : (e.moved m).traces = e.traces.map m.trace :=
  congrArg (m.trace e.trace :: ·) (e.progress.traces_moved m)

lemma Fields.tracesOfFields_moved (fields : Fields Term) :
    Env.tracesOfFields (Fields.moved m fields) = (Env.tracesOfFields fields).map m.trace := by
  rw [← Env.tracesOfFields_moved, Env.movedFields_eq]

lemma KeyData.traces_moved (k : KeyData) : (k.moved m).traces = k.traces.map m.trace :=
  Fields.tracesOfFields_moved m k.env

lemma FunctionDef.traces_moved (f : FunctionDef) : (f.moved m).traces = f.traces.map m.trace :=
  f.body.traces_moved m

lemma Session.traces_moved (s : Session) : (s.moved m).traces = s.traces.map m.trace := by
  have henvs := flatMap_moved m (Fields.tracesOfFields_moved m) s.envs.entries
  have hkeys := flatMap_moved m (KeyData.traces_moved m) s.keys.entries
  have hpoints := flatMap_moved_snd m (Entry.traces_moved m) s.points
  have htypes := flatMap_moved_snd m (Ty.traces_moved m) s.recTypes
  simp only [traces, List.map_append, ← henvs, ← hkeys, ← hpoints, ← htypes]
  rfl

lemma Program.traces_moved (p : Program) : (p.moved m).traces = p.traces.map m.trace := by
  have hfunctions := flatMap_moved m (FunctionDef.traces_moved m) p.functions
  have htypes := flatMap_moved_snd m (Ty.traces_moved m) p.recTypes
  simp only [traces, List.map_append, ← hfunctions, ← htypes, ← Term.traces_moved]
  rfl

lemma Cause.types_moved (c : Cause) : (c.moved m).types = c.types.map (Ty.moved m) := by
  cases c with
  | raised message => cases message <;> rfl
  | _ => rfl

lemma Fault.traces_moved (f : Fault) : (f.moved m).traces = f.traces.map m.trace := by
  have htypes := Ty.tracesOfAll_moved m f.cause.types
  rw [Ty.movedAll_eq, ← Cause.types_moved] at htypes
  exact congrArg (m.trace f.trace :: ·) htypes

lemma Program.outcomeTraces_moved (o : Except Stop Program) :
    outcomeTraces (movedOutcome m o) = (outcomeTraces o).map m.trace := by
  cases o with
  | ok p => exact p.traces_moved m
  | error stop =>
    cases stop with
    | failed fault => exact fault.traces_moved m
    | tagsExhausted | outOfFuel => rfl

end

/-! ### What alike runs leave -/

lemma Store.moved_moved (f g : Span → Span) (st : Store) :
    (st.moved f).moved g = st.moved (g ∘ f) := by
  simp only [Store.moved, Interner.map, List.map_map, Function.comp_def, ExprKind.moved_moved,
    PatternKind.moved_moved, Expr.moved_moved]

lemma Fields.moved_moved (m n : Move) (fields : Fields Term) :
    Fields.moved n (Fields.moved m fields) = Fields.moved (m.andThen n) fields := by
  simp only [Fields.moved, List.map_map, Function.comp_def, Term.moved_moved]

lemma EnvTable.moved_moved (m n : Move) (t : EnvTable) :
    (t.moved m).moved n = t.moved (m.andThen n) := by
  simp only [EnvTable.moved, Interner.map, List.map_map, Function.comp_def, Fields.moved_moved]

lemma KeyData.moved_moved (m n : Move) (k : KeyData) :
    (k.moved m).moved n = k.moved (m.andThen n) := by
  simp only [KeyData.moved, Expr.moved_moved, Fields.moved_moved]
  rfl

lemma Cause.moved_moved (m n : Move) (c : Cause) :
    (c.moved m).moved n = c.moved (m.andThen n) := by
  cases c with
  | raised message => cases message <;> simp only [Cause.moved, Message.moved, Ty.moved_moved]
  | _ => simp only [Cause.moved, List.map_map, Function.comp_def, Ty.moved_moved]

namespace Comparison

variable {m : Comparison}

lemma Bodies.moved {b b' : Body} (h : m.Bodies b b') : b'.moved m.seen = b.moved m.image := by
  obtain ⟨⟨hsame, -⟩, hty, hparams, hclosure⟩ := h
  rw [Body.moved, hsame, hty, hparams, hclosure, List.map_map, Option.map_map]
  simp only [Function.comp_def, Ty.moved_moved, Var.moved_moved]
  rfl

lemma Progresses.moved {p p' : Progress} (h : m.Progresses p p') :
    p'.moved m.seen = p.moved m.image := by
  cases h with
  | pending ty =>
    rw [Progress.moved, Option.map_map]
    simp only [Function.comp_def, Ty.moved_moved]
    rfl
  | done hbody => exact congrArg Progress.done hbody.moved

lemma Entries.moved {e e' : Entry} (h : m.Entries e e') :
    e'.moved m.seen = e.moved m.image :=
  congrArg₂ Entry.mk h.progress.moved h.trace

lemma Points.moved {t t' : PointTable} (h : m.Points t t') :
    (t'.map fun e => (e.1, e.2.moved m.seen)) = t.map fun e => (e.1, e.2.moved m.image) := by
  induction h with
  | nil => rfl
  | cons he _ ih => rw [List.map_cons, List.map_cons, ih, he.1, he.2.moved]

lemma types_moved (types : List (Key × Ty)) :
    ((types.map fun e => (e.1, e.2.moved m.toMove)).map fun e => (e.1, e.2.moved m.seen)) =
      types.map fun e => (e.1, e.2.moved m.image) := by
  simp only [List.map_map, Function.comp_def, Ty.moved_moved]
  rfl

lemma Sessions.moved {s s' : Session} (h : m.Sessions s s') :
    { s'.moved m.seen with settings := s.settings } = s.moved m.image := by
  have hstore : s'.store.moved m.seen.span = s.store.moved m.image.span := by
    rw [h.store, Store.moved_moved]
    rfl
  have henvs : s'.envs.moved m.seen = s.envs.moved m.image := by
    rw [h.envs, EnvTable.moved_moved]
    rfl
  have hkeys : s'.keys.map (KeyData.moved m.seen) = s.keys.map (KeyData.moved m.image) := by
    simp only [h.keys, Interner.map, List.map_map, Function.comp_def, KeyData.moved_moved]
    rfl
  have htypes := types_moved (m := m) s.recTypes
  rw [← h.recTypes] at htypes
  simp only [Session.moved, hstore, henvs, hkeys, htypes, h.points.moved, h.finished, h.stats,
    h.depth]

/-- Alike stops. -/
theorem Stops.moved {o o' : Stop} (h : m.Stops o o') : o'.moved m.seen = o.moved m.image := by
  cases h with
  | @failed f f' hf =>
    have hcause : f'.cause.moved m.seen = f.cause.moved m.image := by
      rw [hf.cause, Cause.moved_moved]
      rfl
    have htrace : m.view f'.trace = m.view (m.trace f.trace) := hf.trace
    rw [Stop.moved, Fault.moved, hcause, hf.pending]
    exact congrArg (fun t => Stop.failed ⟨_, t, _⟩) htrace
  | tagsExhausted | outOfFuel => rfl

lemma Sessions.body? {s s' : Session} (h : m.Sessions s s') (p : Point) :
    Option.Rel m.Bodies (s.body? p) (s'.body? p) := by
  have hfind := h.find? p
  unfold Session.body?
  generalize s.find? p = found at hfind
  generalize s'.find? p = found' at hfind
  cases hfind with
  | none => exact .none
  | @some e e' he =>
    obtain ⟨progress, trace⟩ := e
    obtain ⟨progress', trace'⟩ := e'
    cases he.progress with
    | pending ty => exact .none
    | done hbody => exact .some hbody

lemma Sessions.functions {s s' : Session} (h : m.Sessions s s') :
    s'.functions.map (FunctionDef.moved m.seen) = s.functions.map (FunctionDef.moved m.image) := by
  unfold Session.functions
  rw [h.finished, List.map_filterMap, List.map_filterMap]
  refine congrArg (List.filterMap · s.finished) (funext fun p => ?_)
  by_cases hp : p.kind = .type
  · rw [if_pos hp, if_pos hp]
    rfl
  · rw [if_neg hp, if_neg hp]
    have hbody := h.body? p
    generalize s.body? p = body at hbody
    generalize s'.body? p = body' at hbody
    cases hbody with
    | none => rfl
    | some hbody => exact congrArg (fun body => some (FunctionDef.mk p body)) hbody.moved

lemma Sessions.definedTypes {s s' : Session} (h : m.Sessions s s') :
    s'.definedTypes = s.definedTypes.map fun e => (e.1, e.2.moved m.toMove) := by
  unfold Session.definedTypes
  rw [h.finished, List.map_filterMap]
  refine congrArg (List.filterMap · s.finished) (funext fun p => ?_)
  rw [h.recType?]
  split
  · cases s.recType? p.key <;> rfl
  · rfl

end Comparison

end Residual
