import Residual.Proofs.Eval.Table
import Residual.Proofs.Eval.Visits

/-!
Sequences of compilations on one session.

A compilation starts from what the ones before it left behind, whether they succeeded or failed.
Main statement: at every moment of every compilation the table of join points is consistent with
the bodies that are being evaluated, and when a compilation returns none is.
-/

namespace Residual

open Eval

/-- A compilation. Before it the caller may have entered more into the store. -/
structure Call where
  store : Store
  fuel : Nat
  expr : Expr
  env : Env

namespace Call

/-- The program made ready for evaluation. -/
def code (c : Call) : Expr := ((Build.filter c.expr).run c.store).1

/-- The world in which the evaluation of the program starts. -/
def world (c : Call) (s : Session) : World :=
  { session := { s with store := ((Build.filter c.expr).run c.store).2 }
    scope := { env := c.env, tags := ⟨c.env.nextTag⟩ } }

/-- The outcome of the compilation, and the session after it. -/
def run (c : Call) (s : Session) : Except Stop Program × Session :=
  Session.compile c.fuel { s with store := c.store } c.expr c.env

/-- Closing the main code changes nothing. -/
lemma exec_evalMain (fuel : Nat) (e : Expr) (w : World) :
    (exec (Session.evalMain fuel e) w).2 = (exec (eval fuel e) w).2 := by
  unfold Session.evalMain
  rcases hrun : exec (eval fuel e) w with ⟨_ | v, w'⟩
  · rw [exec_bind_of_error hrun]
  · rw [exec_bind_of_ok hrun, exec_bind_of_ok (exec_getScope w')]
    dsimp only
    split <;> rfl

lemma session_run (c : Call) (s : Session) :
    (c.run s).2 = (exec (eval c.fuel c.code) (c.world s)).2.session :=
  congrArg World.session (exec_evalMain c.fuel c.code (c.world s))

/-- A program consists of the main code and of what is done when the compilation returns. -/
theorem program_of_run {c : Call} {s : Session} {program : Program}
    (h : (c.run s).1 = .ok program) :
    ∃ value w, exec (eval c.fuel c.code) (c.world s) = (.ok value, w) ∧
      program = ⟨Stmt.close w.scope.stmts value, w.session.functions, w.session.definedTypes⟩ := by
  change (exec (Session.evalMain c.fuel c.code) (c.world s)).1.map (fun main =>
    (⟨main, (exec (Session.evalMain c.fuel c.code) (c.world s)).2.session.functions,
      (exec (Session.evalMain c.fuel c.code) (c.world s)).2.session.definedTypes⟩ : Program)) =
    _ at h
  rw [exec_evalMain] at h
  unfold Session.evalMain at h
  rcases hrun : exec (eval c.fuel c.code) (c.world s) with ⟨_ | value, w⟩
  · rw [exec_bind_of_error hrun] at h
    cases h
  · rw [exec_bind_of_ok hrun, exec_bind_of_ok (exec_getScope w), hrun] at h
    refine ⟨value, w, rfl, ?_⟩
    dsimp only at h
    split at h
    · cases h
    · cases h
      rfl

/-- A check of the program of a compilation, by running it. -/
theorem exists_of_run {c : Call} {s : Session} {P : Program → Prop} [DecidablePred P]
    (h : (c.run s).1.toOption.any (fun p => decide (P p)) = true) :
    ∃ p, (c.run s).1 = .ok p ∧ P p := by
  cases hrun : (c.run s).1 with
  | error _ =>
    rw [hrun] at h
    cases h
  | ok p =>
    rw [hrun] at h
    exact ⟨p, rfl, of_decide_eq_true h⟩

end Call

/-- What a compilation is given: sorted code, and an environment of values. -/
structure Call.Formed (c : Call) : Prop where
  store : c.store.Sorted
  expr : c.expr.Sorted
  env : c.env.Formed

/-- The compilation of an expression without variables, after it was entered into a store. -/
def Call.of (act : Build Expr) (store : Store) (fuel : Nat) : Call :=
  ⟨(act.run store).2, fuel, (act.run store).1, .plain []⟩

lemma Call.formed_of {act : Build Expr} (h : Build.Does True act (Build.Fine True))
    {store : Store} (hstore : store.Sorted) (fuel : Nat) : (Call.of act store fuel).Formed := by
  obtain ⟨-, hstore, hexpr⟩ := h store fun _ => hstore
  exact ⟨hstore trivial, hexpr trivial, List.Pairwise.nil, trivial⟩

/-- The code is sorted, and so is the store after it was made ready. -/
theorem Call.Formed.filtered {c : Call} (h : c.Formed) :
    c.code.Sorted ∧ ((Build.filter c.expr).run c.store).2.Sorted := by
  have hdoes : Build.Does True (Build.filter c.expr) (Build.Fine True) :=
    Build.does_filter fun _ => h.expr
  obtain ⟨-, hstore, hcode⟩ := hdoes c.store fun _ => h.store
  exact ⟨hcode trivial, hstore trivial⟩

/-- The session after some compilations. -/
def Session.after (s : Session) (calls : List Call) : Session :=
  calls.foldl (fun s c => (c.run s).2) s

namespace Session

lemma formed_new (settings : Settings) : Session.Formed { settings } := by
  refine ⟨⟨?_, ?_, ?_, ?_, ?_⟩, ?_, ?_, ?_⟩ <;> exact fun _ h => absurd h List.not_mem_nil

/-- A new session has no join points. -/
theorem consistent_new (store : Store) (settings : Settings) :
    Consistent { store, settings } [] := by
  refine ⟨List.nodup_nil, List.nodup_nil, fun p => ?_, fun p => ?_, List.nodup_nil, rfl,
    Nat.zero_le _⟩
  · refine ⟨fun h => absurd h List.not_mem_nil, ?_⟩
    rintro ⟨body, trace, h⟩
    cases h
  · refine ⟨fun h => absurd h List.not_mem_nil, ?_⟩
    rintro ⟨ty, trace, h⟩
    cases h

lemma Consistent.inStack {s : Session} (h : s.Consistent []) (c : Call) :
    (c.world s).InStack [] := by
  obtain ⟨h1, h2, h3, h4, h5, h6, h7⟩ := h
  exact ⟨⟨h1, h2, h3, h4, h5, h6, h7⟩, rfl⟩

lemma Consistent.eval {stack : List Point} {w : World} (h : w.InStack stack) (fuel : Nat)
    (e : Expr) : (exec (Eval.eval fuel e) w).2.InStack stack :=
  (Discipline.does_eval (D := .table) (i := stack) fuel (fun h => h.elim)
    ⟨h, fun h => h.elim⟩).2.1.1

lemma Consistent.run {s : Session} (h : s.Consistent []) (c : Call) :
    (c.run s).2.Consistent [] := by
  rw [c.session_run s]
  exact (Consistent.eval (h.inStack c) c.fuel c.code).table

lemma Consistent.after {s : Session} (h : s.Consistent []) (calls : List Call) :
    (s.after calls).Consistent [] := by
  induction calls generalizing s with
  | nil => exact h
  | cons c rest ih => exact ih (h.run c)

/-- The entries in evaluation are as many as the depth says. -/
lemma Consistent.count_pending {s : Session} {stack : List Point} (h : s.Consistent stack) :
    (s.points.countP fun e => e.2.progress.isPending) = s.depth := by
  have hperm : List.Perm ((s.points.filter fun e => e.2.progress.isPending).map Prod.fst)
      stack := by
    refine (List.perm_ext_iff_of_nodup ?_ h.nested).2 fun p => ?_
    · exact (List.filter_sublist.map _).nodup h.keys
    · rw [h.inEvaluation p]
      constructor
      · intro hp
        obtain ⟨⟨q, progress, trace⟩, he, rfl⟩ := List.mem_map.1 hp
        obtain ⟨he, hpending⟩ := List.mem_filter.1 he
        cases progress with
        | pending ty => exact ⟨ty, trace, (PointTable.mem_iff_get? h.keys).1 he⟩
        | done body => cases hpending
      · rintro ⟨ty, trace, hfind⟩
        exact List.mem_map.2 ⟨(p, ⟨.pending ty, trace⟩),
          List.mem_filter.2 ⟨(PointTable.mem_iff_get? h.keys).2 hfind, rfl⟩, rfl⟩
  rw [List.countP_eq_length_filter, h.depth, ← hperm.length_eq, List.length_map]

end Session

/-- Every visited world has a consistent table, for the bodies on the way to it. -/
theorem Visits.inStack {fuel₀ : Nat} {e₀ : Expr} {w₀ : World} (h₀ : w₀.InStack [])
    {stack : List Point} {fuel : Nat} {e : Expr} {w : World}
    (h : Visits fuel₀ e₀ w₀ stack fuel e w) : w.InStack stack := by
  induction h with
  | start => exact h₀
  | @part stack fuel e w e' w' _ hask ih =>
    have hgood := (Discipline.near_of_asks (D := .table) (fun _ _ => rfl)
      (fun h => h.elim) ⟨ih, fun h => h.elim⟩ hask).2
    unfold World.stackFrom
    rcases hgood with hgood | ⟨p, hgood⟩
    · rw [if_pos (hgood.1.owner.trans ih.owner.symm)]
      exact hgood.1
    · -- A body is never entered while it is being evaluated, so its owner is another one.
      have hnew : p ∉ stack := (List.nodup_cons.1 hgood.1.table.nested).1
      have howner : w'.scope.owner = some p := hgood.1.owner
      rw [howner, if_neg fun heq => hnew (ih.mem_owner heq.symm)]
      exact hgood.1

/-- At every moment of every compilation of a session the finished join points are those that are
done, each listed once, and those in evaluation are the ones whose bodies are being evaluated, as
many as the depth says and the settings allow. When a compilation returns there is none. -/
theorem pointTable_consistent (store : Store) (settings : Settings) (calls : List Call)
    (c : Call) :
    let s := Session.after { store, settings } calls
    ((c.run s).2.Consistent [] ∧ (∀ p, ¬ (c.run s).2.InEvaluation p) ∧ (c.run s).2.depth = 0) ∧
      ∀ stack fuel e w, Visits c.fuel c.code (c.world s) stack fuel e w →
        ∀ s' ∈ [w.session, (exec (eval fuel e) w).2.session],
          s'.Consistent stack ∧ (s'.points.countP fun e => e.2.progress.isPending) = s'.depth := by
  intro s
  have hcons : s.Consistent [] := (Session.consistent_new store settings).after calls
  have hrun := hcons.run c
  refine ⟨⟨hrun, fun p hp => ?_, hrun.depth⟩, fun stack fuel e w hvisit s' hs' => ?_⟩
  · cases (hrun.inEvaluation p).2 hp
  · have hw := hvisit.inStack (hcons.inStack c)
    have hw' := Session.Consistent.eval hw fuel e
    have hs'' : s'.Consistent stack := by
      simp only [List.mem_cons, List.not_mem_nil, or_false] at hs'
      rcases hs' with rfl | rfl
      · exact hw.table
      · exact hw'.table
    exact ⟨hs'', hs''.count_pending⟩

namespace Call

/-- The body of the join point that a program enters, and the world in which it is evaluated. -/
def entered? (c : Call) (s : Session) : Option (Expr × World) :=
  match c.code, (exec (eval c.fuel c.code) (c.world s)).1 with
  | _, .error .outOfFuel => none
  | .node _ (.op (.entry op) [body]), _ =>
    match exec (request c.env body none) (c.world s) with
    | (.ok (key, captured), w) =>
      if (w.session.find? ⟨op.kind, key⟩).isNone ∧ w.session.depth < w.session.settings.maxDepth
      then some (body, w.atBody ⟨op.kind, key⟩ captured none) else none
    | _ => none
  | _, _ => none

lemma visits_of_entered {fuel : Nat} {c : Call} {s : Session} (hfuel : c.fuel = fuel + 1)
    {body : Expr} {w : World} (h : c.entered? s = some (body, w)) :
    ∃ p, w.scope.owner = some p ∧ Visits c.fuel c.code (c.world s) [p] fuel body w := by
  unfold entered? at h
  split at h
  · cases h
  · rename_i symbol op _ hcode hrun
    split at h
    · rename_i key captured w₁ hrequest
      split at h
      · rename_i hnew
        cases h
        have hvisit : Visits c.fuel c.code (c.world s) [] (fuel + 1)
            (.node symbol (.op (.entry op) [body])) (c.world s) := by
          rw [← hcode, ← hfuel]
          exact .start
        refine ⟨⟨op.kind, key⟩, rfl, ?_⟩
        -- The program belongs to no join point, so this one is entered.
        refine hvisit.body hrequest (Option.isNone_iff_eq_none.1 hnew.1) hnew.2 ?_
        rw [← hcode, ← hfuel]
        exact hrun
      · cases h
    · cases h
  · cases h

end Call

/-- A method whose body is one literal, after the compilation of another one on the session: where
the second body is visited, the first is done and the second in evaluation. -/
theorem pointTable_consistent_body :
    let method (b : Bool) : Build Expr := do Build.joinMethod (← Build.lit (.bool b))
    let first : Call := .of (method false) {} 3
    let second : Call := .of (method true) first.store 3
    ∃ p body w, Visits 3 second.code (second.world (Session.after {} [first])) [p] 2 body w ∧
      w.session.Consistent [p] ∧ w.session.finished.length = 1 ∧
      (w.session.points.countP fun e => e.2.progress.isPending) = 1 := by
  intro method first second
  have hentered : (second.entered? (Session.after {} [first])).any (fun b =>
      b.2.session.finished.length == 1 && b.2.session.depth == 1) = true := by
    decide +kernel
  obtain ⟨⟨body, w⟩, hentered, h⟩ := (Option.any_eq_true ..).1 hentered
  obtain ⟨hfinished, hdepth⟩ := Bool.and_eq_true_iff.1 h
  obtain ⟨p, -, hvisit⟩ := Call.visits_of_entered (show second.fuel = 2 + 1 from rfl) hentered
  obtain ⟨hcons, hcount⟩ := (pointTable_consistent {} {} [first] second).2 [p] 2 body w hvisit
    w.session (List.mem_cons_self ..)
  exact ⟨p, body, w, hvisit, hcons, eq_of_beq hfinished, hcount.trans (eq_of_beq hdepth)⟩

end Residual
