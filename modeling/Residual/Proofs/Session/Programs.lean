import Residual.Proofs.Eval.Links
import Residual.Proofs.Session.Calls

/-!
The calls in compiled programs.

Main statement: in a program that a session returns, a call in the main code has its function,
and so has a call to a function that was done before the one it stands in. What is left are calls
to functions that were promised a type when the caller was done. A program is linked exactly if
these promises were kept. They are not always: a join point that fails takes only itself out of
the table, and the bodies that relied on its promise stay.
-/

namespace Residual

open Eval

namespace Program

/-- The program has the called function, and it returns what the call expects. -/
def Resolves (p : Program) (c : Point × Ty) : Prop :=
  ∃ f ∈ p.functions, f.point = c.1 ∧ f.body.ty == c.2

instance (p : Program) (c : Point × Ty) : Decidable (p.Resolves c) :=
  inferInstanceAs (Decidable (∃ f ∈ p.functions, f.point = c.1 ∧ f.body.ty == c.2))

/-- Every call in the main code has its function, and so has every call of another function in
the body of a function. -/
structure Linked (p : Program) : Prop where
  main : ∀ c ∈ p.main.calls, p.Resolves c
  functions : ∀ f ∈ p.functions, ∀ c ∈ f.body.term.calls, c.1 ≠ f.point → p.Resolves c

instance (p : Program) : Decidable p.Linked :=
  decidable_of_iff ((∀ c ∈ p.main.calls, p.Resolves c) ∧
      ∀ f ∈ p.functions, ∀ c ∈ f.body.term.calls, c.1 ≠ f.point → p.Resolves c)
    ⟨fun h => ⟨h.1, h.2⟩, fun h => ⟨h.1, h.2⟩⟩

/-- Where a function calls one that was not done when it was done itself, this one is there in
the end, with the type that it was promised to have. -/
def KeepsPromises (p : Program) : Prop :=
  ∀ before f after, p.functions = before ++ f :: after → ∀ c ∈ f.body.term.calls,
    c.1 ≠ f.point → (∀ g ∈ before, g.point ≠ c.1) → p.Resolves c

lemma linked_iff {p : Program} (hmain : ∀ c ∈ p.main.calls, p.Resolves c)
    (hbefore : ∀ before f after, p.functions = before ++ f :: after → ∀ c ∈ f.body.term.calls,
      (∃ g ∈ before, g.point = c.1) → p.Resolves c) : p.Linked ↔ p.KeepsPromises := by
  constructor
  · intro h before f after hsplit c hc hne _
    have hf : f ∈ p.functions := by simp [hsplit]
    exact h.functions f hf c hc hne
  · refine fun h => ⟨hmain, fun f hf c hc hne => ?_⟩
    obtain ⟨before, after, hsplit⟩ := List.append_of_mem hf
    by_cases hdone : ∃ g ∈ before, g.point = c.1
    · exact hbefore before f after hsplit c hc hdone
    · exact h before f after hsplit c hc hne fun g hg heq => hdone ⟨g, hg, heq⟩

end Program

namespace Session

/-- The functions among some join points. -/
lemma mem_filterMap_body {s : Session} {points : List Point} {f : FunctionDef} :
    (f ∈ points.filterMap fun p =>
        if p.kind = .type then none else (s.body? p).map fun body => ⟨p, body⟩) ↔
      f.point ∈ points ∧ f.point.kind ≠ .type ∧ s.body? f.point = some f.body := by
  rw [List.mem_filterMap]
  constructor
  · rintro ⟨p, hp, h⟩
    split at h
    · cases h
    · rename_i hkind
      obtain ⟨body, hbody, rfl⟩ := Option.map_eq_some_iff.1 h
      exact ⟨hp, hkind, hbody⟩
  · rintro ⟨hp, hkind, hbody⟩
    refine ⟨f.point, hp, ?_⟩
    rw [if_neg hkind, hbody]
    rfl

lemma mem_functions {s : Session} {f : FunctionDef} :
    f ∈ s.functions ↔ f.point ∈ s.finished ∧ f.point.kind ≠ .type ∧
      s.body? f.point = some f.body :=
  mem_filterMap_body

/-- A function stands after those that were done before it. -/
theorem split_functions {s : Session} {before after : List FunctionDef} {f : FunctionDef}
    (h : s.functions = before ++ f :: after) :
    ∃ l r, s.finished = l ++ f.point :: r ∧ ∀ g, g ∈ before ↔
      g.point ∈ l ∧ g.point.kind ≠ .type ∧ s.body? g.point = some g.body := by
  obtain ⟨l, r, hfinished, hl, hr⟩ := List.filterMap_eq_append_iff.1 h
  obtain ⟨l', p, r', rfl, hnone, hp, -⟩ := List.filterMap_eq_cons_iff.1 hr
  have hpoint : f.point = p := by
    split at hp
    · cases hp
    · obtain ⟨body, -, rfl⟩ := Option.map_eq_some_iff.1 hp
      rfl
  subst hpoint
  refine ⟨l ++ l', r', by simp [hfinished], fun g => ?_⟩
  rw [← mem_filterMap_body, List.filterMap_append, hl, List.filterMap_eq_nil_iff.2 hnone,
    List.append_nil]

end Session

/-- A session between compilations. -/
structure Session.Ready (s : Session) : Prop where
  table : s.Consistent []
  bodies : s.Linked
  formed : s.Formed

namespace Call.Formed

variable {c : Call} {s : Session}

lemma good (h : c.Formed) (hs : s.Ready) : Discipline.links.Good [] (c.world s) := by
  obtain ⟨-, h2, h3, h4⟩ := hs.formed
  exact ⟨⟨hs.table.inStack c, hs.bodies.of_eq rfl fun _ => rfl,
    fun _ hs => absurd hs List.not_mem_nil⟩, fun _ => ⟨⟨h.filtered.2, h2, h3, h4⟩, h.env,
    fun _ he => absurd he List.not_mem_nil⟩⟩

end Call.Formed

namespace Session.Ready

variable {c : Call} {s : Session}

lemma new (settings : Settings) : Session.Ready { settings } :=
  ⟨Session.consistent_new _ _, fun before p after h => by simp at h, Session.formed_new settings⟩

lemma run (hs : s.Ready) (h : c.Formed) : (c.run s).2.Ready := by
  obtain ⟨-, hgood, -, -⟩ := Discipline.does_eval c.fuel (fun _ => h.filtered.1) (h.good hs)
  rw [c.session_run s]
  exact ⟨hgood.1.inStack.table, hgood.1.bodies, (hgood.2 trivial).session⟩

lemma after (hs : s.Ready) {calls : List Call} (h : ∀ c ∈ calls, c.Formed) :
    (s.after calls).Ready := by
  induction calls generalizing s with
  | nil => exact hs
  | cons c rest ih =>
    obtain ⟨hc, hrest⟩ := List.forall_mem_cons.1 h
    exact ih (hs.run hc) hrest

end Session.Ready

lemma Session.Defines.resolves {s : Session} {p : Program} (hp : p.functions = s.functions)
    (hs : s.Consistent []) {c : Point × Ty} (h : s.Defines c.1 c.2) : p.Resolves c := by
  obtain ⟨hkind, body, hbody, hty⟩ := h
  refine ⟨⟨c.1, body⟩, ?_, rfl, ?_⟩
  · rw [hp]
    exact mem_functions.2 ⟨(hs.done c.1).2 (done_iff.2 ⟨body, hbody⟩), hkind, hbody⟩
  · rw [hty]
    exact BEq.rfl

namespace World.Linked

variable {w : World} {p : Program}

lemma resolves_main (h : w.Linked []) (hp : p.functions = w.session.functions) {value : Term}
    (hvalue : value.Formed) {c : Point × Ty} (hc : c ∈ (Stmt.close w.scope.stmts value).calls) :
    p.Resolves c := by
  rw [Stmt.calls_close, hvalue.calls_eq, List.append_nil] at hc
  obtain ⟨s, hs, hc⟩ := List.mem_flatMap.1 hc
  rcases (h.stmts s hs c hc).2 with hdef | hmem
  · exact hdef.resolves hp h.inStack.table
  · cases hmem

lemma resolves_before (h : w.Linked []) (hp : p.functions = w.session.functions)
    {before after : List FunctionDef} {f g : FunctionDef}
    (hsplit : p.functions = before ++ f :: after) (hg : g ∈ before) {c : Point × Ty}
    (hc : c ∈ f.body.term.calls) (hpoint : g.point = c.1) : p.Resolves c := by
  rw [hp] at hsplit
  obtain ⟨l, r, hfinished, hl⟩ := Session.split_functions hsplit
  have hf : f ∈ w.session.functions := by simp [hsplit]
  have hbody := (Session.mem_functions.1 hf).2.2
  have hlinked := (h.bodies l _ r hfinished _ hbody c hc).2
  exact (hlinked (hpoint ▸ ((hl g).1 hg).1)).resolves hp h.inStack.table

end World.Linked

/-- Calls in the main code, and calls to functions that were done before, have their function.
So a program is linked exactly if all functions that were promised a type came to have it. -/
theorem linked_iff_keepsPromises (settings : Settings) (calls : List Call)
    (hcalls : ∀ c ∈ calls, c.Formed) (c : Call) (hc : c.Formed) (p : Program)
    (hp : (c.run (Session.after { settings } calls)).1 = .ok p) :
    (∀ call ∈ p.main.calls, p.Resolves call) ∧
      (∀ before f after, p.functions = before ++ f :: after → ∀ call ∈ f.body.term.calls,
        (∃ g ∈ before, g.point = call.1) → p.Resolves call) ∧
      (p.Linked ↔ p.KeepsPromises) := by
  have hready : (Session.after { settings } calls).Ready :=
    (Session.Ready.new settings).after hcalls
  obtain ⟨value, w, hrun, rfl⟩ := Call.program_of_run hp
  obtain ⟨-, hgood, -, hvalue⟩ :=
    Discipline.does_eval c.fuel (fun _ => hc.filtered.1) (hc.good hready)
  rw [hrun] at hgood hvalue
  have hlinked : w.Linked [] := hgood.1
  have hmain := fun call hcall => hlinked.resolves_main (c := call) (p := ⟨Stmt.close w.scope.stmts
    value, w.session.functions, w.session.definedTypes⟩) rfl (hvalue value rfl trivial) hcall
  refine ⟨hmain, ?_, Program.linked_iff hmain ?_⟩
  all_goals
    rintro before f after hsplit call hcall ⟨g, hg, hpoint⟩
    exact hlinked.resolves_before rfl hsplit hg hcall hpoint

/-! ### A broken promise

A method promises a number. Before it fails, another method is done that calls it. -/

namespace BrokenPromise

def program : Build Expr := do
  let f ← Build.name "f"
  let x ← Build.name "x"
  let y ← Build.name "y"
  let again ← Build.joinMethod (← Build.apply (← Build.var f) (← Build.var x))
  let stop ← Build.op .errorType [← Build.lit (.string "stop")]
  let number ← Build.lit (.int .i32 0 (by decide))
  let body ← Build.joinMethodAt (← Build.letIn y again stop) number
  let loop ← Build.expr (.recFunction f x body)
  Build.apply loop (← Build.op .dynamize [number])

lemma does_program : Build.Does True program (Build.Fine True) := by
  refine (Build.does_name "f").bind fun f _ => ?_
  refine (Build.does_name "x").bind fun x _ => ?_
  refine (Build.does_name "y").bind fun y _ => ?_
  refine (Build.does_var f).bind fun callee hcallee => ?_
  refine (Build.does_var x).bind fun arg harg => ?_
  refine (Build.does_op₂ hcallee harg).bind fun call hcall => ?_
  refine (Build.does_op₁ hcall).bind fun again hagain => ?_
  refine (Build.does_lit _).bind fun text htext => ?_
  refine (Build.does_op₁ htext).bind fun stop hstop => ?_
  refine (Build.does_lit _).bind fun number hnumber => ?_
  refine (Build.does_letIn hagain hstop).bind fun rest hrest => ?_
  refine ((Build.does_op₁ hrest).bind fun _ hjoin => Build.does_op₂ hjoin hnumber).bind
    fun body hbody => ?_
  refine (Build.does_expr (.recFunction f x body) hbody).bind fun loop hloop => ?_
  exact (Build.does_op₁ hnumber).bind fun _ hdynamic => Build.does_op₂ hloop hdynamic

/-- The compilation of the method, which fails. -/
def first : Call := .of program {} 30

/-- The compilation of a number after it. -/
def second : Call :=
  .of (Build.lit (.int .i32 1 (by decide))) (Session.after {} [first]).store 30

lemma formed_first : first.Formed :=
  Call.formed_of does_program (Session.formed_new {}).store 30

lemma formed_second : second.Formed := by
  have hready : (Session.after {} [first]).Ready :=
    (Session.Ready.new {}).after (List.forall_mem_singleton.2 formed_first)
  exact Call.formed_of (Build.does_lit _) hready.formed.store 30

lemma run_second : ∃ p, (second.run (Session.after {} [first])).1 = .ok p ∧ ¬ p.Linked := by
  have hrun : (match (second.run (Session.after {} [first])).1 with
      | .ok p => decide p.Linked
      | .error _ => true) = false := by decide +kernel
  split at hrun
  · rename_i p hp
    exact ⟨p, hp, of_decide_eq_false hrun⟩
  · cases hrun

end BrokenPromise

/-- A function of the program calls one that is not there. -/
theorem exists_not_linked : ∃ (calls : List Call) (c : Call) (p : Program),
    (∀ d ∈ calls, d.Formed) ∧ c.Formed ∧
    (c.run (Session.after {} calls)).1 = .ok p ∧ ¬ p.Linked := by
  obtain ⟨p, hp, hlinked⟩ := BrokenPromise.run_second
  exact ⟨[BrokenPromise.first], BrokenPromise.second, p,
    List.forall_mem_singleton.2 BrokenPromise.formed_first, BrokenPromise.formed_second, hp,
    hlinked⟩

/-- It is the promise that was not kept. -/
theorem exists_promise_not_kept : ∃ p,
    (BrokenPromise.second.run (Session.after {} [BrokenPromise.first])).1 = .ok p ∧
      ¬ p.KeepsPromises := by
  obtain ⟨p, hp, hlinked⟩ := BrokenPromise.run_second
  have hiff := (linked_iff_keepsPromises {} [BrokenPromise.first]
    (List.forall_mem_singleton.2 BrokenPromise.formed_first) BrokenPromise.second
    BrokenPromise.formed_second p hp).2.2
  exact ⟨p, hp, fun h => hlinked (hiff.2 h)⟩

end Residual
