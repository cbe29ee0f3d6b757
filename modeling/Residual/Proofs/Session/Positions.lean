import Residual.Proofs.Eval.AlikeEvaluation
import Residual.Proofs.Session.Calls
import Residual.Proofs.Session.Moved

/-!
Positions only help to explain.

Main statement: compilations of code that is the same up to its positions, with traces recorded or
not, have the same outcomes and leave the same sessions up to positions and traces; and where no
traces are recorded, none are in a program, in a fault or in a session.
-/

namespace Residual

namespace Call

/-- The compilation of the code at other positions. -/
def moved (m : Move) (c : Call) : Call :=
  ⟨c.store.moved m.span, c.fuel, c.expr.moved m.span, c.env.moved m⟩

lemma code_moved (m : Move) (c : Call) : (c.moved m).code = c.code.moved m.span :=
  congrArg Prod.fst (Build.moves_filter c.expr c.store)

lemma outcome_run (c : Call) (s : Session) :
    (c.run s).1 = (Eval.exec (Session.evalMain c.fuel c.code) (c.world s)).1.map fun main =>
      ⟨main, (c.run s).2.functions, (c.run s).2.definedTypes⟩ :=
  rfl

/-- The given environment has no traces in it. -/
def Untraced (c : Call) : Prop := ∀ t ∈ c.env.traces, t = {}

end Call

/-! ### One compilation in two worlds -/

namespace Comparison

variable {m : Comparison} {s s' : Session}

lemma Sessions.world (h : m.Sessions s s') (hstart : m.Traces {} {}) (c : Call) :
    m.Worlds (c.world s) ((c.moved m.toMove).world s') where
  session := { h with store := congrArg Prod.snd (Build.moves_filter c.expr c.store) }
  scope :=
    { env := rfl
      tags := congrArg Tags.mk (Env.nextTag_moved _ c.env)
      stmts := rfl
      sharing := rfl
      trace := hstart
      dynamicDepth := rfl
      owner := rfl }

open Eval in
lemma does_evalMain (m : Comparison) (fuel : Nat) (e : Expr) :
    m.Does m.Code (Session.evalMain fuel e) (Session.evalMain fuel (e.moved m.span)) := by
  refine (does_eval m fuel e).andThen fun value => does_getScope fun s s' hs => ?_
  have hmain : m.Code (Stmt.close s.stmts value) (Stmt.close s'.stmts (value.moved m.toMove)) :=
    .close hs.stmts value
  dsimp only
  rw [hmain.same.endsInMiss]
  split
  · exact .fail rfl
  · exact .pure hmain

lemma Sessions.run (h : m.Sessions s s') (hstart : m.Traces {} {}) (c : Call) :
    Program.movedOutcome m.seen ((c.moved m.toMove).run s').1 =
        Program.movedOutcome m.image (c.run s).1 ∧
      m.Sessions (c.run s).2 ((c.moved m.toMove).run s').2 := by
  obtain ⟨hout, hworlds⟩ := does_evalMain m c.fuel c.code _ _ (h.world hstart c)
  rw [← Call.code_moved] at hout hworlds
  have hsession : m.Sessions (c.run s).2 ((c.moved m.toMove).run s').2 := hworlds.session
  refine ⟨?_, hsession⟩
  rw [Call.outcome_run, Call.outcome_run, show (c.moved m.toMove).fuel = c.fuel from rfl]
  generalize (Eval.exec (Session.evalMain c.fuel c.code) (c.world s)).1 = o at hout
  generalize (Eval.exec (Session.evalMain c.fuel (c.moved m.toMove).code)
    ((c.moved m.toMove).world s')).1 = o' at hout
  cases hout with
  | ok hmain =>
    have htypes := types_moved (m := m) (c.run s).2.definedTypes
    rw [← hsession.definedTypes] at htypes
    change Except.ok (Program.moved m.seen _) = Except.ok (Program.moved m.image _)
    rw [Program.moved, Program.moved, hmain.same, hsession.functions, htypes]
  | error hstop => exact congrArg Except.error hstop.moved

/-- Compilations of code at other positions, one after the other. -/
theorem Sessions.after (h : m.Sessions s s') (hstart : m.Traces {} {}) (calls : List Call) :
    m.Sessions (s.after calls) (s'.after (calls.map (Call.moved m.toMove))) := by
  induction calls generalizing s s' with
  | nil => exact h
  | cons c rest ih => exact ih (h.run hstart c).2

/-- New sessions hold nothing that has a position. -/
lemma sessions_new {settings settings' : Settings}
    (hsettings : settings' = { settings with traces := settings'.traces })
    (hquiet : m.Blind ∨ settings.traces = false ∧ settings'.traces = false) :
    m.Sessions { settings } { settings := settings' } where
  store := rfl
  envs := rfl
  keys := rfl
  points := .nil
  recTypes := rfl
  finished := rfl
  settings := hsettings
  quiet := hquiet
  stats := rfl
  depth := rfl

end Comparison

/-! ### Up to positions -/

/-- All positions the same, and no traces. -/
def Move.erase : Move := ⟨fun _ => .origin, fun _ => {}⟩

/-- The compilation with all positions of code the same. -/
def Call.erased (c : Call) : Call := c.moved (.code fun _ => .origin)

/-- The session without positions and traces, and without the setting for them. -/
def Session.erased (s : Session) : Session :=
  { s.moved .erase with settings := { s.settings with traces := false } }

/-- The outcome without positions and traces. -/
def Program.erasedOutcome (o : Except Stop Program) : Except Stop Program :=
  movedOutcome .erase o

namespace Comparison

/-- Erased code against other code, where traces of code do not count. -/
def blank : Comparison where
  toMove := .code fun _ => .origin
  view := fun _ => {}
  faithful := Move.faithful_code _

/-- Erased code against other code, where traces stay. -/
def still : Comparison where
  toMove := .code fun _ => .origin
  view := id
  faithful := Move.faithful_code _

/-- Erased code against other code, where traces go down. -/
def sunk : Comparison where
  toMove := .down fun _ => .origin
  view := id
  faithful := Move.faithful_down _

lemma moved_sunk {c : Call} (h : c.Untraced) : c.moved sunk.toMove = c.erased := by
  have henv : c.env.moved (.down fun _ => .origin) = c.env.moved (.code fun _ => .origin) :=
    Env.moved_congr (m := .down _) (n := .code _) rfl _ fun t ht => by rw [h t ht]; rfl
  exact congrArg (Call.mk _ _ _) henv

end Comparison

/-- What a compilation comes to up to positions can be read off that of its erased code, whether
or not traces are recorded for it. -/
lemma Call.run_erased (settings : Settings) (traces : Bool) (calls : List Call) (c : Call) :
    let s := Session.after { settings := { settings with traces } } calls
    let s' := Session.after { settings := { settings with traces := false } }
      (calls.map Call.erased)
    Program.erasedOutcome (c.run s).1 =
        Program.movedOutcome Comparison.blank.seen (c.erased.run s').1 ∧
      (c.run s).2.erased = { (c.erased.run s').2.moved Comparison.blank.seen with
        settings := { (c.erased.run s').2.settings with traces := false } } := by
  intro s s'
  have hblind : Comparison.blank.Blind := fun _ _ => rfl
  have hs : Comparison.blank.Sessions s s' :=
    (Comparison.sessions_new rfl (.inl hblind)).after rfl calls
  obtain ⟨hout, hsessions⟩ := hs.run rfl c
  refine ⟨hout.symm, ?_⟩
  have hmoved : { (c.erased.run s').2.moved Comparison.blank.seen with
      settings := (c.run s).2.settings } = (c.run s).2.moved .erase := hsessions.moved
  have hsettings : { (c.erased.run s').2.settings with traces := false } =
      { (c.run s).2.settings with traces := false } :=
    congrArg (fun settings => { settings with traces := false }) hsessions.settings
  rw [Session.erased, ← hmoved, hsettings]

/-- Where no traces are recorded, there are none. -/
lemma Call.traces_eq_nil (settings : Settings) (hoff : settings.traces = false)
    (calls : List Call) (c : Call) (hcalls : ∀ d ∈ calls, d.Untraced) (hc : c.Untraced) :
    let s := Session.after { settings } calls
    ∀ t ∈ Program.outcomeTraces (c.run s).1 ++ (c.run s).2.traces, t = {} := by
  intro s
  have hstill : Comparison.still.Sessions s (Session.after { settings } (calls.map Call.erased)) :=
    (Comparison.sessions_new (m := .still) rfl (.inr ⟨hoff, hoff⟩)).after rfl calls
  have hsunk : Comparison.sunk.Sessions s (Session.after { settings } (calls.map Call.erased)) := by
    have hsame : calls.map (Call.moved Comparison.sunk.toMove) = calls.map Call.erased :=
      List.map_congr_left fun d hd => Comparison.moved_sunk (hcalls d hd)
    rw [← hsame]
    exact (Comparison.sessions_new (m := .sunk) rfl (.inr ⟨hoff, hoff⟩)).after rfl calls
  obtain ⟨hout, hsession⟩ := hstill.run rfl c
  obtain ⟨hout', hsession'⟩ := hsunk.run rfl c
  rw [Comparison.moved_sunk hc] at hout' hsession'
  -- Seen from the same run, the traces are as they are, and they are further down.
  have hdown : ∀ {l : List Trace}, l.map id = l.map Trace.down → ∀ t ∈ l, t = {} := fun h t ht =>
    Trace.down_eq_self (List.map_inj_left.1 h.symm t ht)
  refine List.forall_mem_append.2 ⟨hdown ?_, hdown ?_⟩
  · have h := congrArg Program.outcomeTraces (hout.symm.trans hout')
    rw [Program.outcomeTraces_moved, Program.outcomeTraces_moved] at h
    exact h
  · have h := congrArg Session.traces (hsession.moved.symm.trans hsession'.moved)
    rw [Session.traces_moved, Session.traces_moved] at h
    exact h

/-- From new sessions, whether they record traces or not, and after compilations of code that is
the same up to its positions, such code has the same outcome and leaves the same session, up to
positions and traces. If it fails, it does so with the same kind of failure and in the same words.
A session that records no traces has none, and neither has the outcome. -/
theorem run_upToPositions (settings : Settings) (traces traces' : Bool) (calls calls' : List Call)
    (c c' : Call) (hcalls : calls'.map Call.erased = calls.map Call.erased)
    (hc : c'.erased = c.erased) :
    let s := Session.after { settings := { settings with traces } } calls
    let s' := Session.after { settings := { settings with traces := traces' } } calls'
    (Program.erasedOutcome (c'.run s').1 = Program.erasedOutcome (c.run s).1 ∧
      (c'.run s').2.erased = (c.run s).2.erased) ∧
    (∀ fault, (c.run s).1 = .error (.failed fault) →
      ∃ fault', (c'.run s').1 = .error (.failed fault') ∧
        fault'.cause.category = fault.cause.category ∧
        ∀ names, fault'.cause.message names = fault.cause.message names) ∧
    (traces = false → (∀ d ∈ calls, d.Untraced) → c.Untraced →
      ∀ t ∈ Program.outcomeTraces (c.run s).1 ++ (c.run s).2.traces, t = {}) := by
  intro s s'
  obtain ⟨hout, hsession⟩ := Call.run_erased settings traces calls c
  obtain ⟨hout', hsession'⟩ := Call.run_erased settings traces' calls' c'
  rw [hc, hcalls] at hout' hsession'
  have hsame : Program.erasedOutcome (c'.run s').1 = Program.erasedOutcome (c.run s).1 :=
    hout'.trans hout.symm
  refine ⟨⟨hsame, hsession'.trans hsession.symm⟩, fun fault hfault => ?_, fun hoff => ?_⟩
  · -- A fault has the same cause, up to the positions in it.
    rw [hfault] at hsame
    generalize (c'.run s').1 = o at hsame ⊢
    obtain stop | p := o
    · cases stop with
      | failed fault' =>
        have hcause : fault'.cause.moved .erase = fault.cause.moved .erase :=
          congrArg Fault.cause (Stop.failed.inj (Except.error.inj hsame))
        refine ⟨fault', rfl, ?_, fun names => ?_⟩
        · rw [← Cause.category_moved .erase, hcause, Cause.category_moved]
        · rw [← Cause.message_moved .erase, hcause, Cause.message_moved]
      | tagsExhausted | outOfFuel => cases Except.error.inj hsame
    · cases hsame
  · exact Call.traces_eq_nil _ hoff calls c

/-- Run-time data under a mark, compiled before a variable that nothing binds. -/
def Call.marked (span : Span) : Call :=
  .of (do Build.expr (.pos span (← Build.op .dynamize [← Build.lit (.bool true)]))) {} 5

def Call.unbound (span : Span) : Call :=
  .of (do Build.expr (.pos span (← Build.var (← Build.name "x")))) {} 5

/-- Without traces the first fails where, at another position and with traces, the second does. -/
theorem run_upToPositions_unbound :
    let here : Span := ⟨⟨0⟩, ⟨1, 1⟩, ⟨1, 9⟩⟩
    let there : Span := ⟨⟨0⟩, ⟨7, 3⟩, ⟨8, 2⟩⟩
    let s := Session.after { settings := { traces := false } } [.marked here]
    let s' := Session.after { settings := { traces := true } } [.marked there]
    (∃ fault', ((Call.unbound there).run s').1 = .error (.failed fault') ∧
      fault'.cause.category = .unboundName ∧ fault'.trace = ⟨[there]⟩) ∧
    ∀ t ∈ Program.outcomeTraces ((Call.unbound here).run s).1 ++
      ((Call.unbound here).run s).2.traces, t = {} := by
  intro here there s s'
  obtain ⟨-, hfault, htraces⟩ := run_upToPositions {} false true [.marked here] [.marked there]
    (.unbound here) (.unbound there) rfl rfl
  obtain ⟨fault', hrun, hcategory, -⟩ := hfault ⟨.unbound ⟨1⟩, {}, none⟩ rfl
  refine ⟨⟨fault', hrun, hcategory, ?_⟩, htraces rfl ?_ ?_⟩
  · cases hrun
    rfl
  · exact List.forall_mem_singleton.2 (List.forall_mem_nil _)
  · exact List.forall_mem_nil _

end Residual
