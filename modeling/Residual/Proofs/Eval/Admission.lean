import Residual.Proofs.Eval.Fuel
import Residual.Proofs.Eval.RegionSteps

/-!
Evaluation that admits only some captured values.

Wherever captured values are packed or entered, a check sees them before, and the world they are
packed or entered in. A run in which one of the checks fails ends there, as if at a limit of the
evaluator; any other run is a run of the plain evaluator.
-/

namespace Residual

namespace Eval

/-! ### Captured values -/

/-- The values that a body captures. -/
def captures (env : Env) (body : Expr) (arg : Option ClosureArg) : Eval (Fields Term) := do
  let free ← build (Build.freeNames body)
  lookupAll env (free.filter fun x => !arg.any fun a => a.name == x)

/-- Captured values are renamed and entered, and then the body with them. -/
def entered (body : Expr) (arg : Option ClosureArg) (values : Fields Term) :
    Eval (Key × Captured) := do
  let ((captures, closureParam), r) ← rename (fun envs => { envs }) (renameCaptures values arg)
  let (node, envs) := r.envs.enter captures
  modifySession fun s => { s with envs }
  let captured : Captured := ⟨node.symbol, node.value, r.args, r.params, closureParam, r.tags⟩
  let key ← modifyGet fun w =>
    let (key, session) := w.session.enterKey ⟨body, captured.envSymbol, captured.env⟩
    (key, { w with session })
  return (key, captured)

lemma request_eq (env : Env) (body : Expr) (arg : Option ClosureArg) :
    request env body arg = captures env body arg >>= entered body arg := by
  unfold request capture captures entered
  simp only [bind_assoc, pure_bind]

/-- What entering renamed values does. -/
theorem exec_entered {body : Expr} {arg : Option ClosureArg} {values captures : Fields Term}
    {closureParam : Option Var} {s : Renaming} {w : World}
    (hrun : (renameCaptures values arg).run { envs := w.session.envs } =
      some ((captures, closureParam), s)) :
    let node := (s.envs.enter captures).1
    let key := w.session.keys.intern ⟨body, node.symbol, node.value⟩
    exec (entered body arg values) w =
      (.ok (⟨key.1.symbol⟩, ⟨node.symbol, node.value, s.args, s.params, closureParam, s.tags⟩),
        { w with session :=
          { w.session with envs := (s.envs.enter captures).2, keys := key.2 } }) := by
  have hrename : exec (rename (fun envs => { envs }) (renameCaptures values arg)) w =
      (.ok ((captures, closureParam), s), w.setEnvs s.envs) := by rw [exec_rename, hrun]
  rw [entered, exec_bind_of_ok hrename]
  rfl

lemma exec_entered_of_full {body : Expr} {arg : Option ClosureArg} {values : Fields Term}
    {w : World} (hrun : (renameCaptures values arg).run { envs := w.session.envs } = none) :
    exec (entered body arg values) w = (.error .tagsExhausted, w) := by
  have hrename : exec (rename (fun envs => { envs }) (renameCaptures values arg)) w =
      (.error .tagsExhausted, w) := by rw [exec_rename, hrun]
  rw [entered, exec_bind_of_error hrename]

/-- The values that a function captures when it is committed to a domain. -/
def functionCaptures (f : Term) (dom : Ty) : Eval (Fields Term) :=
  match f with
  | .map env (.function param body) => captures env body (some ⟨param, dom⟩)
  | .map env (.recFunction this param body) => captures (env.bind this f) body (some ⟨param, dom⟩)
  | _ => return []

/-- The values that a closure captures, if the operands make one. -/
def closureCaptures (args : List Term) : Eval (Fields Term) :=
  match args with
  | f :: dom :: _ => functionCaptures f dom.ty
  | _ => return []

/-- The bindings of a map that is to be packed. -/
def packedValues (op : LayoutOp) (args : List Term) : Eval (Fields Term) :=
  match op with
  | .pack _ => do
    let (env, _) ← mapValue (.layout op) (← operand (.layout op) args)
    return env.visible
  | .read _ => return []

/-! ### Evaluation -/

/-- A split by union member is left to run time. -/
def caseIsDynamic : Term → Bool
  | .var ⟨_, .union _⟩ | .var ⟨_, .recur _⟩ => true
  | _ => false

section Admitting

variable (admits : List Stmt → Fields Term → Bool) (Γ : List Stmt)

/-- Go on only if the values that `act` finds from here are admitted. Before the statements of this
sequence there are those of `Γ`. -/
def admitting (act : Eval (Fields Term)) : Eval Unit := do
  match exec act (← get) with
  | (.ok values, w) => if admits (Γ ++ w.scope.stmts) values then return () else throw .outOfFuel
  | _ => return ()

variable (eval : List Stmt → Expr → Eval Term)

/-- The body of a join point starts with no statements before it. -/
def enterPointAdmitting (op : EntryOp) (body : Expr) (annot : Option Ty) : Eval Term := do
  let env := (← getScope).env
  admitting admits Γ (captures env body none)
  enterPoint (eval []) op body annot

def annotateAdmitting (args : List Expr) : Eval Term :=
  match args with
  | [value, annot] =>
    match value.unwrapPos with
    | .node _ (.op (.entry .method) [body]) => do
      let annot ← eval Γ annot
      enterPointAdmitting admits Γ eval .method body (some annot.ty)
    | _ => annotate (eval Γ) args
  | _ => annotate (eval Γ) args

def closureOpAdmitting (args : List Term) : Eval Term := do
  admitting admits Γ (closureCaptures args)
  closureOp (eval []) args

def layoutOpAdmitting (op : LayoutOp) (args : List Term) : Eval Term := do
  admitting admits Γ (packedValues op args)
  layoutOp op args

/-- The sides of a split come after the statements that are there when it starts. -/
def condAdmitting (args : List Expr) : Eval Term :=
  match args with
  | [test, yes, no] => do
    let test ← eval Γ test
    match test.bool? with
    | some taken => eval Γ (if taken then yes else no)
    | none =>
      if !(test.ty == .bool) then fail (.condition test.ty)
      let side := eval (Γ ++ (← getScope).stmts)
      let bodies ← branches [side yes, side no]
      finishSplit .cond (test :: ·) bodies
  | _ => fail (.arity .cond 3 args.length)

def caseAdmitting (value f : Term) : Eval Term := do
  let stmts := (← getScope).stmts
  case (eval (if caseIsDynamic value then Γ ++ stmts else Γ)) value f

def evalOpAdmitting (op : Op) (args : List Expr) : Eval Term :=
  match op, args with
  | .cond, args => condAdmitting Γ eval args
  | .case, args => do
    let (value, f) ← operands₂ .case (← args.mapM (eval Γ))
    caseAdmitting Γ eval value f
  | .annotate, args => annotateAdmitting admits Γ eval args
  | .entry entry, [body] => enterPointAdmitting admits Γ eval entry body none
  | .closure, args => do closureOpAdmitting admits Γ eval (← args.mapM (eval Γ))
  | .layout op, args => do layoutOpAdmitting admits Γ op (← args.mapM (eval Γ))
  | op, args => evalOp (eval Γ) op args

def stepAdmitting (e : Expr) : Eval Term :=
  match e.kind with
  | .op op args => evalOpAdmitting admits Γ eval op args
  | _ => step (eval Γ) e

/-- Evaluate an expression after the statements of `Γ`, with steps nested at most `fuel` deep, as
long as what is captured is admitted. -/
def evalAdmitting : Nat → List Stmt → Expr → Eval Term
  | 0, _, _ => throw .outOfFuel
  | fuel + 1, Γ, e => stepAdmitting admits Γ (evalAdmitting fuel) e

end Admitting

section Exec

variable (admits : List Stmt → Fields Term → Bool) (Γ : List Stmt)

lemma exec_admitting (act : Eval (Fields Term)) (w : World) :
    exec (admitting admits Γ act) w = (.error .outOfFuel, w) ∧
        (∃ values v, exec act w = (.ok values, v) ∧ admits (Γ ++ v.scope.stmts) values = false) ∨
      exec (admitting admits Γ act) w = (.ok (), w) ∧
        ∀ values v, exec act w = (.ok values, v) → admits (Γ ++ v.scope.stmts) values = true := by
  have hrun : exec (admitting admits Γ act) w = exec (match exec act w with
      | (.ok values, w) =>
        if admits (Γ ++ w.scope.stmts) values then pure () else throw .outOfFuel
      | _ => pure () : Eval Unit) w := rfl
  rw [hrun]
  rcases exec act w with ⟨s | values, v⟩
  · exact .inr ⟨rfl, fun _ _ h => by cases h⟩
  · cases hadmits : admits (Γ ++ v.scope.stmts) values
    · exact .inl ⟨by simp only [hadmits]; rfl, values, v, rfl, hadmits⟩
    · refine .inr ⟨by simp only [hadmits]; rfl, fun _ _ h => ?_⟩
      cases h
      exact hadmits

end Exec

/-! ### Where everything is admitted -/

section All

variable (Γ : List Stmt) (ev : Expr → Eval Term)

lemma admitting_all_bind {α : Type} (act : Eval (Fields Term)) (m : Eval α) :
    (do admitting (fun _ _ => true) Γ act; m) = m := by
  funext w
  change exec (admitting (fun _ _ => true) Γ act >>= fun _ => m) w = exec m w
  rcases exec_admitting (fun _ _ => true) Γ act w with ⟨-, _, _, -, hno⟩ | ⟨hrun, -⟩
  · cases hno
  · rw [exec_bind_of_ok hrun]

lemma annotateAdmitting_all (args : List Expr) :
    annotateAdmitting (fun _ _ => true) Γ (fun _ => ev) args = annotate ev args := by
  unfold annotateAdmitting
  split
  · rename_i value annot
    split
    · rename_i heq
      simp only [enterPointAdmitting, admitting_all_bind]
      rw [annotate, heq]
      rfl
    · rfl
  · rfl

lemma condAdmitting_all (args : List Expr) :
    condAdmitting Γ (fun _ => ev) args = cond ev args := by
  match args with
  | [test, yes, no] =>
    refine congrArg (ev test >>= ·) (funext fun t => ?_)
    cases t.bool? with
    | some taken => rfl
    | none => rfl
  | [] | [_] | [_, _] | _ :: _ :: _ :: _ :: _ => rfl

end All

/-- Where everything is admitted, evaluation is plain evaluation. -/
theorem evalAdmitting_all (fuel : Nat) (Γ : List Stmt) :
    evalAdmitting (fun _ _ => true) fuel Γ = eval fuel := by
  suffices evalAdmitting (fun _ _ => true) fuel = fun _ => eval fuel from congrFun this Γ
  induction fuel with
  | zero => rfl
  | succ fuel ih =>
    funext Γ e
    rw [evalAdmitting, ih, eval]
    obtain ⟨symbol, kind⟩ := e
    cases kind with
    | op op args =>
      change evalOpAdmitting (fun _ _ => true) Γ (fun _ => eval fuel) op args =
        evalOp (eval fuel) op args
      unfold evalOpAdmitting
      split
      · exact condAdmitting_all Γ _ _
      · rfl
      · exact annotateAdmitting_all Γ _ _
      · simp only [enterPointAdmitting, admitting_all_bind]
        rfl
      · simp only [closureOpAdmitting, admitting_all_bind]
        rfl
      · simp only [layoutOpAdmitting, admitting_all_bind]
        rfl
      · rfl
    | _ => rfl

/-! ### Runs that are not refused -/

namespace Lower

variable {admits : List Stmt → Fields Term → Bool} {Γ : List Stmt} {w : World}
  {ev : List Stmt → Expr → Eval Term} {ev' : Expr → Eval Term}

/-- With the first evaluator, the step does as with the second one, unless it runs out of fuel or
is refused. -/
abbrev Step (w : World) (m m' : Eval Term) : Prop :=
  Discipline.fuel.Does () w m m' fun t _ => Discipline.fuel.Value t

lemma does_admitting {act : Eval (Fields Term)} {m m' : Eval Term} (h : Step w m m') :
    Step w (do admitting admits Γ act; m) m' := by
  rcases exec_admitting admits Γ act w with ⟨hrun, -⟩ | ⟨hrun, -⟩
  · intro hw
    rw [exec_bind_of_error hrun]
    exact ⟨.inr ⟨trivial, rfl⟩, hw, .refl w, fun a ha => by cases ha⟩
  · intro hw
    rw [exec_bind_of_ok hrun]
    exact h hw

variable (h : ∀ Γ, Lower (ev Γ) ev')
include h

lemma does_enterPointAdmitting (op : EntryOp) (body : Expr) (annot : Option Ty) :
    Step w (enterPointAdmitting admits Γ ev op body annot) (enterPoint ev' op body annot) :=
  .getScope (does_admitting (Discipline.does_enterPoint (h []).pair op (fun hs => hs.elim)
    fun _ _ hs => hs.elim))

lemma does_annotateAdmitting (args : List Expr) :
    Step w (annotateAdmitting admits Γ ev args) (annotate ev' args) := by
  have hplain : Step w (annotate (ev Γ) args) (annotate ev' args) :=
    Discipline.does_annotate (h Γ).pair fun hs => hs.elim
  unfold annotateAdmitting
  split
  · rename_i value annot
    split
    · rename_i symbol body heq
      rw [annotate, heq]
      exact ((h Γ).does annot w).bind fun t _ _ _ _ => does_enterPointAdmitting h .method body _
    · exact hplain
  · exact hplain

lemma does_condAdmitting (args : List Expr) :
    Step w (condAdmitting Γ ev args) (cond ev' args) := by
  match args with
  | [test, yes, no] =>
    refine ((h Γ).does test w).bind fun t w' _ _ ht => ?_
    cases t.bool? with
    | some taken => exact (h Γ).does _ w'
    | none =>
      dsimp only
      split
      · exact .bind (P := fun _ _ => False) (.fail _) fun _ _ _ _ h => h.elim
      · have hsides := (h (Γ ++ w'.scope.stmts)).pair
        exact Discipline.does_split ht ⟨hsides, fun _ _ => trivial⟩ fun hs => hs.elim
  | [] | [_] | [_, _] | _ :: _ :: _ :: _ :: _ => exact .fail _

end Lower

end Eval

/-! ### The place of the code -/

namespace Region

open Eval

variable {i : Region} {w : World} {admits : List Stmt → Fields Term → Bool} {Γ : List Stmt}
  {ev : List Stmt → Expr → Eval Term} {α : Type}

lemma Does.admitting {act : Eval (Fields Term)} {m : Eval α} {P : α → World → Prop}
    (h : i.Does w m P) : i.Does w (do Eval.admitting admits Γ act; m) P := by
  rcases exec_admitting admits Γ act w with ⟨hrun, -⟩ | ⟨hrun, -⟩
  · intro hw
    rw [exec_bind_of_error hrun]
    exact ⟨hw, .refl w, fun a ha => by cases ha⟩
  · intro hw
    rw [exec_bind_of_ok hrun]
    exact h hw

variable (hev : ∀ Γ, Evaluator i.asks (ev Γ))
include hev

lemma does_enterPointAdmitting (op : EntryOp) {body : Expr} (hbody : body.Sorted)
    {annot : Option Ty} (hannot : ∀ ty ∈ annot, i.Shape w ty) :
    i.Does w (enterPointAdmitting admits Γ ev op body annot) fun v w' => i.Value w' v :=
  .getScope (.admitting (does_enterPoint (hev []) op hbody hannot))

lemma does_annotateAdmitting {args : List Expr} (h : Expr.AllSorted args) :
    i.Does w (annotateAdmitting admits Γ ev args) fun v w' => i.Value w' v := by
  unfold annotateAdmitting
  split
  · rename_i value annot
    split
    · rename_i symbol body heq
      have hunwrap : value.unwrapPos.Sorted := h.1.unwrapPos
      rw [heq] at hunwrap
      exact ((hev Γ).good i rfl annot w h.2.1).bind fun ty w' _ hty =>
        does_enterPointAdmitting hev .method hunwrap.1 fun t ht => by cases ht; exact hty.ty
    · exact does_annotate (hev Γ) h
  · exact does_annotate (hev Γ) h

lemma does_condAdmitting {args : List Expr} (h : Expr.AllSorted args) :
    i.Does w (condAdmitting Γ ev args) fun v w' => i.Value w' v := by
  match args with
  | [test, yes, no] =>
    refine ((hev Γ).good i rfl test w h.1).bind fun t w' _ ht => ?_
    cases t.bool? with
    | some taken =>
      refine (hev Γ).good i rfl _ w' ?_
      cases taken
      · exact h.2.2.1
      · exact h.2.1
    | none =>
      dsimp only
      split
      · exact .bind (P := fun _ _ => False) (.fail _) fun _ _ _ h => h.elim
      · rename_i hbool
        exact does_split (hev (Γ ++ w'.scope.stmts)) ht (by simpa using hbool) h.2.1 h.2.2.1
  | [] | [_] | [_, _] | _ :: _ :: _ :: _ :: _ => exact .fail _

lemma does_evalOpAdmitting (op : Op) {args : List Expr} (h : Expr.AllSorted args) :
    i.Does w (evalOpAdmitting admits Γ ev op args) fun v w' => i.Value w' v := by
  have hargs := does_args (w := w) (hev Γ) h
  unfold evalOpAdmitting
  split
  · exact does_condAdmitting hev h
  · refine hargs.bind fun ts _ _ hts => (does_operands₂ _ hts).bind fun r w' _ hr => ?_
    obtain ⟨value, f⟩ := r
    intro hw'
    dsimp only
    rw [caseAdmitting, exec_bind_of_ok (exec_getScope w')]
    exact does_case (hev _) hr.1 hr.2 hw'
  · exact does_annotateAdmitting hev h
  · exact does_enterPointAdmitting hev _ h.1 fun ty hty => by cases hty
  · exact hargs.bind fun ts w' _ hts => .admitting (does_closureOp (hev []) hts)
  · exact hargs.bind fun ts w' _ hts => .admitting (does_layoutOp _ hts)
  · exact does_evalOp (hev Γ) _ h

lemma does_stepAdmitting {e : Expr} (he : e.Sorted) :
    i.Does w (stepAdmitting admits Γ ev e) fun v w' => i.Value w' v := by
  unfold stepAdmitting
  split
  · rename_i op args hkind
    obtain ⟨symbol, kind⟩ := e
    obtain rfl : kind = .op op args := hkind
    exact does_evalOpAdmitting hev op he
  · exact does_step (hev Γ) he

omit hev in
lemma evaluator_evalAdmitting {asks : Demands} (hknown : ∀ key, asks.known key) (fuel : Nat)
    (Γ : List Stmt) : Evaluator asks (evalAdmitting admits fuel Γ) := by
  induction fuel generalizing Γ with
  | zero => exact ⟨fun _ _ _ _ _ => .throw _, fun key hkey => absurd (hknown key) hkey⟩
  | succ fuel ih =>
    refine ⟨?_, fun key hkey => absurd (hknown key) hkey⟩
    rintro i rfl e w he
    exact does_stepAdmitting ih he

end Region

end Residual
