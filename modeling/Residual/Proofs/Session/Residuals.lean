import Residual.Proofs.Eval.Static
import Residual.Proofs.Session.Calls

/-!
Residual programs compute what static programs compute.

Two compilations of core programs with one outline are compared: one that may leave anything for
later, and one with folding that leaves nothing. Main statement: running the code of the first
gives the value that the second arrived at.
-/

namespace Residual

open Eval

mutual

/-- The term is made of tuples and literals. -/
def Term.isData : Term → Bool
  | .lit _ => true
  | .tuple items => Term.allData items
  | _ => false

def Term.allData : List Term → Bool
  | [] => true
  | t :: rest => t.isData && Term.allData rest

end

mutual

/-- Tuples and literals are determined by the value they stand for. -/
lemma Term.Stands.eq_of_isData {nodes nodes' : Interner ExprKind} (u r : Term) (v : Value)
    (hu : u.isData = true) (hv : u.Stands nodes' v) (hr : r.Stands nodes v) : r = u := by
  match u with
  | .lit l =>
    obtain rfl : v = .lit l := hv
    exact hr.lit
  | .tuple us =>
    obtain ⟨vs, rfl, hus⟩ := hv
    obtain ⟨rs, rfl, hrs⟩ := hr.tuple
    rw [Term.AllRead.eq_of_allData us rs vs hu hus hrs]
  | .type _ | .var _ | .map _ _ | .box _ _ | .letIn _ _ _ _ | .state _ _ _ | .op _ _ _
  | .call _ _ _ _ => cases hu
termination_by structural u

lemma Term.AllRead.eq_of_allData {nodes nodes' : Interner ExprKind} (us rs : List Term)
    (vs : List Value) (hu : Term.allData us = true)
    (hv : Term.AllRead nodes' (fun _ _ => False) us vs)
    (hr : Term.AllRead nodes (fun _ _ => False) rs vs) : rs = us := by
  match us, rs, vs with
  | [], [], _ => rfl
  | [], _ :: _, [] => exact hr.elim
  | [], _ :: _, _ :: _ => exact hv.elim
  | _ :: _, _, [] => exact hv.elim
  | _ :: _, [], _ :: _ => exact hr.elim
  | u :: us, r :: rs, v :: vs =>
    rw [Term.allData, Bool.and_eq_true] at hu
    rw [Term.Stands.eq_of_isData u r v hu.1 hv.1 hr.1,
      Term.AllRead.eq_of_allData us rs vs hu.2 hv.2 hr.2]
termination_by structural us

end

/-- Code that is data is a value without statements. -/
lemma Stmt.close_isData {stmts : List Stmt} {t : Term}
    (h : (Stmt.close stmts t).isData = true) : stmts = [] := by
  cases stmts with
  | nil => rfl
  | cons s rest =>
    rw [Stmt.close_cons] at h
    cases s <;> cases h

/-- The compilation of a closed core program from a faithful store. -/
structure Call.Core (c : Call) : Prop where
  store : c.store.Faithful
  expr : c.expr.In c.store.exprs
  outline : c.expr.outline.Core
  env : c.env = .empty

lemma Call.core_of {act : Build Expr} {store : Store} {o : Outline}
    (h : Build.Keeps store act (Build.Drawn o)) (hstore : store.Faithful) (ho : o.Core)
    (fuel : Nat) : (Call.of act store fuel).Core := by
  obtain ⟨-, hstore', hexpr, hout⟩ := h hstore
  refine ⟨hstore', hexpr, ?_, rfl⟩
  change (act.run store).1.outline.Core
  rwa [hout]

/-- The nodes of the program made ready for evaluation. -/
def Call.nodes (c : Call) : Interner ExprKind := ((Build.filter c.expr).run c.store).2.exprs

namespace Call.Core

variable {c : Call}

lemma code (h : c.Core) :
    c.nodes.Closed ∧ c.code.In c.nodes ∧ c.code.outline = c.expr.outline := by
  obtain ⟨-, hstore, hcode⟩ := Build.keeps_filter h.expr h.outline h.store
  exact ⟨hstore.closed, hcode⟩

/-- At the start nothing is bound. -/
theorem runs (h : c.Core) (s : Session) : (c.world s).Runs c.nodes [] := by
  refine ⟨⟨rfl, ?_, fun e he => absurd he List.not_mem_nil⟩, fun _ _ => rfl,
    fun e he => absurd he List.not_mem_nil⟩
  change c.env.Core c.nodes
  rw [h.env]
  exact trivial

lemma means (h : c.Core) (s : Session) : (c.world s).scope.env.Means c.nodes [] [] := by
  change c.env.Means c.nodes [] []
  rw [h.env]
  exact ⟨List.Pairwise.nil, trivial⟩

/-- A compilation with folding whose code is data denotes it. -/
theorem denotes (h : c.Core) {s : Session} (hfold : s.settings.folding = true) {p : Program}
    (hrun : (c.run s).1 = .ok p) (hdata : p.main.isData = true) :
    ∃ v, Denotes [] c.expr.outline v ∧ p.main.Stands c.nodes v := by
  obtain ⟨value, w, hexec, rfl⟩ := program_of_run hrun
  have hstmts : w.scope.stmts = [] := Stmt.close_isData hdata
  obtain ⟨hclosed, hin, hout⟩ := h.code
  have hcore : c.code.outline.Core := by
    rw [hout]
    exact h.outline
  obtain ⟨v, hv, -, -, hmeans⟩ := settles_eval hclosed c.fuel c.code (c.world s) value w [] hin
    hcore ⟨h.runs s, hfold, rfl⟩ (h.means s) hexec hstmts
  rw [hout] at hv
  refine ⟨v, hv, ?_⟩
  rw [hstmts]
  exact hmeans.stands

/-- The code of a compilation computes what its program denotes, at the type of the code. -/
lemma run_main (h : c.Core) {s : Session} {p : Program} (hrun : (c.run s).1 = .ok p) {v : Value}
    (hv : Denotes [] c.expr.outline v) :
    ∃ r, p.main.run [] = some r ∧ r.Stands c.nodes v ∧ r.ty = p.ty := by
  obtain ⟨value, w, hexec, rfl⟩ := program_of_run hrun
  obtain ⟨hclosed, hin, hout⟩ := h.code
  rw [← hout] at hv
  have hcore : c.code.outline.Core := by
    rw [hout]
    exact h.outline
  obtain ⟨τ, -, hleads, hmeans⟩ := simulates_eval hclosed c.fuel c.code (c.world s) [] [] v hin
    hcore (h.means s) hv value w (h.runs s) hexec
  obtain ⟨stmts, hstmts, hcode⟩ := hleads.code
  obtain ⟨r, hr, hstands, hty⟩ := Term.Means.run value v hmeans
  have hall : Stmt.runAll w.scope.stmts [] = some τ := by
    rw [hstmts]
    exact hcode
  refine ⟨r, ?_, hstands, ?_⟩
  · rw [Stmt.run_close, hall, Option.bind_some, hr]
  · rw [hty, Program.ty, Stmt.ty_close]

end Call.Core

/-- A residual program computes what the static program computes: if one compilation of a closed
core program succeeds, and another one of the same outline, with folding, arrives at tuples and
literals without code, then running the code of the first ends with exactly that value, and the
type of the first program is the type of the value. -/
theorem run_main_eq_static {c c' : Call} (hc : c.Core) (hc' : c'.Core)
    (houtline : c'.expr.outline = c.expr.outline) {s s' : Session}
    (hfold : s'.settings.folding = true) {p p' : Program} (hrun : (c.run s).1 = .ok p)
    (hrun' : (c'.run s').1 = .ok p') (hdata : p'.main.isData = true) :
    p.main.run [] = some p'.main ∧ p.ty = p'.main.ty := by
  obtain ⟨v, hv, hstands'⟩ := hc'.denotes hfold hrun' hdata
  rw [houtline] at hv
  obtain ⟨r, hr, hstands, hty⟩ := hc.run_main hrun hv
  obtain rfl : r = p'.main := Term.Stands.eq_of_isData p'.main r v hdata hstands' hstands
  exact ⟨hr, hty.symm⟩

/-! ### A test that is left for run time -/

namespace Dynamized

/-- A number as it is, or as run-time data. -/
def argument (dynamic : Bool) (number : Expr) : Build Expr :=
  if dynamic then Build.op .dynamize [number] else pure number

/-- A function that compares its argument with a number, applied to that number. -/
def program (dynamic : Bool) : Build Expr := do
  let x ← Build.name "x"
  let arg ← Build.var x
  let number ← Build.lit (.int .i32 3 (by decide))
  let test ← Build.op (.prim (.compare .lt)) [arg, number]
  let body ← Build.op .cond [test, arg, number]
  let f ← Build.function x body
  Build.apply f (← argument dynamic number)

def outline (x : Name) : Outline :=
  let number : Outline := .lit (.int .i32 3 (by decide))
  .op .apply [.function none x (.op .cond [.op (.prim (.compare .lt)) [.var x, number], .var x,
    number]), number]

lemma keeps_program (dynamic : Bool) (st : Store) :
    Build.Keeps st (program dynamic) (Build.Drawn (outline ((Build.name "x").run st).1)) := by
  refine Build.Keeps.bind (P := fun x _ => x = ((Build.name "x").run st).1)
    (fun hst => ⟨.refl _, ⟨hst.closed, hst.filtered⟩, rfl⟩) fun x _ _ hx => ?_
  refine (Build.keeps_expr (.var x) (by simp [ExprKind.parts])).bind fun arg _ _ harg => ?_
  refine (Build.keeps_expr (.lit _) (by simp [ExprKind.parts])).bind fun number _ h₁ hnumber => ?_
  have harg := harg.mono h₁
  refine (Build.keeps_expr (.op _ [arg, number]) ?_).bind fun test _ h₂ htest => ?_
  · simpa [ExprKind.parts] using ⟨harg.1, hnumber.1⟩
  have harg := harg.mono h₂
  have hnumber := hnumber.mono h₂
  refine (Build.keeps_expr (.op _ [test, arg, number]) ?_).bind fun body _ h₃ hbody => ?_
  · simpa [ExprKind.parts] using ⟨htest.1, harg.1, hnumber.1⟩
  have hnumber := hnumber.mono h₃
  refine (Build.keeps_expr (.function x body) ?_).bind fun f _ h₄ hf => ?_
  · simpa [ExprKind.parts] using hbody.1
  have hnumber := hnumber.mono h₄
  refine Build.Keeps.bind (P := Build.Drawn number.outline) ?_ fun value _ h₅ hvalue => ?_
  · cases dynamic with
    | false => exact .pure ⟨hnumber.1, rfl⟩
    | true =>
      exact Build.keeps_expr (.op .dynamize [number]) (by simpa [ExprKind.parts] using hnumber.1)
  have hf := hf.mono h₅
  refine (Build.keeps_expr (.op .apply [f, value]) ?_).imp fun e t he => ⟨he.1, he.2.trans ?_⟩
  · simpa [ExprKind.parts] using ⟨hf.1, hvalue.1⟩
  · simp only [ExprKind.outline, Expr.outlines, Outline.ofOp] at hf hbody htest harg hnumber ⊢
    rw [hf.2, hbody.2, htest.2, harg.2, hvalue.2, hnumber.2, hx, outline]

/-- The compilation of the program. -/
def call (dynamic : Bool) : Call := .of (program dynamic) {} 30

lemma core (dynamic : Bool) : (call dynamic).Core := by
  refine Call.core_of (keeps_program dynamic {}) (Store.faithful_new {}) ?_ 30
  simp [outline, Outline.Core, Outline.AllCore, Op.InCore]

lemma outline_call (dynamic : Bool) :
    (call dynamic).expr.outline = outline ((Build.name "x").run {}).1 :=
  (keeps_program dynamic {} (Store.faithful_new {})).2.2.2

end Dynamized

/-- The program that compares run-time data has code, and running it gives the number that the
static program is. -/
theorem run_main_eq_static_dynamized : ∃ p p',
    ((Dynamized.call true).run {}).1 = .ok p ∧ ((Dynamized.call false).run {}).1 = .ok p' ∧
      p.main.isData = false ∧ p'.main.isData = true ∧
      p.main.run [] = some p'.main ∧ p.ty = p'.main.ty := by
  have hdynamic : (match ((Dynamized.call true).run {}).1 with
      | .ok p => p.main.isData
      | .error _ => true) = false := by decide +kernel
  have hstatic : (match ((Dynamized.call false).run {}).1 with
      | .ok p => p.main.isData
      | .error _ => false) = true := by decide +kernel
  split at hdynamic
  · rename_i p hp
    split at hstatic
    · rename_i p' hp'
      have houtline := (Dynamized.outline_call false).trans (Dynamized.outline_call true).symm
      exact ⟨p, p', hp, hp', hdynamic, hstatic, run_main_eq_static (Dynamized.core true)
        (Dynamized.core false) houtline rfl hp hp' hstatic⟩
    · cases hstatic
  · cases hdynamic

end Residual
