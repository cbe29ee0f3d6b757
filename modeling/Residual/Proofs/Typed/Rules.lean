import Residual.Eval.Array
import Residual.Eval.Fold
import Residual.Proofs.Typed.Scope

/-!
The typing rules of residual code.

Each node has a rule of its own, which compares types by content: a binding has the type of what
it binds, an operation the type that its operands determine. Operations that evaluation never
leaves for run time have no rule that they could obey.
-/

namespace Residual

namespace Ty

/-- The type of an element of a tuple. -/
def item? : Ty → Nat → Option Ty
  | .list items, i => items[i]?
  | _, _ => none

/-- The type of a field of a map. -/
def field? : Ty → Name → Option Ty
  | .map fields _, x => Fields.get? fields x
  | _, _ => none

/-- The type of the elements of an array, or of what a reference holds. -/
def elem? (onReference : Bool) : Ty → Option Ty
  | .array storage elem => if (storage == .reference) == onReference then some elem else none
  | _ => none

end Ty

/-- The variables that a packed form of the environment holds: those with run-time data, in order
of first occurrence. -/
def Env.packed (env : Env) : List Var := Var.firsts (env.vars.filter fun v => !v.ty.isUnit)

/-- The type of a packed value. -/
def Ty.packed? : Ty → Nat → Option Ty
  | .layout _ env _, i => (env.packed[i]?).map Var.ty
  | _, _ => none

/-- The rule of an operation on arrays or references, for its operands and its type. -/
def ArrayOp.Obeys : ArrayOp → List Term → Ty → Prop
  | .create storage, [.type elem, size], ty =>
    size.ty.prim?.any Prim.isInt ∧ ty.code = (Ty.array storage elem).code
  | .length, [array], ty => (array.ty.elem? false).isSome ∧ ty = .prim (.int .i64)
  | .index, [array, i], ty =>
    (array.ty.elem? false).map Ty.code = some ty.code ∧ i.ty.prim?.any Prim.isInt
  | .set, [array, i, value], ty =>
    (array.ty.elem? false).map Ty.code = some value.ty.code ∧ i.ty.prim?.any Prim.isInt ∧
      ty = .unit
  | .refCreate, [value], ty => ty.code = (Ty.array .reference value.ty).code
  | .refGet, [reference], ty => (reference.ty.elem? true).map Ty.code = some ty.code
  | .refSet, [reference, value], ty =>
    (reference.ty.elem? true).map Ty.code = some value.ty.code ∧ ty = .unit
  | _, _, _ => False

/-- The rule of an operation, for its operands and its type. -/
def Op.Obeys : Op → List Term → Ty → Prop
  | .apply, [f, arg], ty =>
    match f.ty with
    | .closure dom range => arg.ty.code = dom.code ∧ ty.code = range.code
    | _ => False
  | .cond, [test, yes, no], ty =>
    test.ty.code = Ty.bool.code ∧ yes.ty.code = ty.code ∧ no.ty.code = ty.code
  | .case, value :: rest, ty =>
    ∃ branches ∈ Term.branches? rest, (∀ b ∈ branches, b.2.ty.code = ty.code) ∧
      ∀ members ∈ value.ty.members?,
        branches.map (fun b => b.1.ty.code) = members.map Ty.code
  | .prim op, args, ty =>
    Fold.resultType op (args.map fun a => a.ty.prim?) = ty.prim? ∧ ty.prim?.isSome
  | .tuple (.index i), [t], ty => (t.ty.item? i).map Ty.code = some ty.code
  | .module (.getField x), [t], ty => (t.ty.field? x).map Ty.code = some ty.code
  | .layout (.read i), [t], ty => (t.ty.packed? i).map Ty.code = some ty.code
  | .layout (.pack form), [.tuple items], .layout l env _ =>
    l = form ∧ (∀ t ∈ items, t.var?.isSome) ∧
      items.map (fun t => t.ty.code) = env.packed.map fun v => v.ty.code
  | .array op, args, ty => op.Obeys args ty
  | .foreign _, .type t :: _, ty => t.code = ty.code
  | .patternMiss, _, _ => True
  | _, _, _ => False

namespace Term

/-- The rule of a single node. -/
def Obeys : Term → Prop
  | .letIn bind bound _ _ => bound.ty.code = bind.ty.code ∧ bind.ty.isUnit = false
  | .state stmt _ _ => stmt.ty.isUnit = true
  | .box inner ty => ∀ members ∈ ty.members?, ∃ m ∈ members, m.code = inner.ty.code
  | .op o args ty => o.Obeys args ty
  | _ => True

/-- The types that are written at a single node. -/
def annotations : Term → List Ty
  | .type t => [t]
  | .var v => [v.ty]
  | .box _ ty => [ty]
  | .letIn bind _ _ _ => [bind.ty]
  | .op _ _ ty => [ty]
  | .call _ _ args ty => ty :: args.map Var.ty
  | _ => []

/-- The node obeys its rule, if that is asked for, and the types written at it have the
property. -/
def Fits (typed : Prop) (P : Ty → Prop) (t : Term) : Prop :=
  (typed → t.Obeys) ∧ ∀ ty ∈ t.annotations, P ty

lemma Fits.imp {typed : Prop} {P Q : Ty → Prop} {t : Term} (h : t.Fits typed P)
    (hPQ : ∀ ty, P ty → Q ty) : t.Fits typed Q :=
  ⟨h.1, fun ty hty => hPQ ty (h.2 ty hty)⟩

end Term

mutual

/-- The nodes of the code, with those of the visible bindings of its maps. -/
def Term.nodes : Term → List Term
  | .type t => [.type t]
  | .var v => [.var v]
  | .lit l => [.lit l]
  | .tuple items => .tuple items :: Term.nodesOfAll items
  | .map env kind => .map env kind :: env.nodes
  | .box inner ty => .box inner ty :: inner.nodes
  | .letIn bind bound rest trace => .letIn bind bound rest trace :: (bound.nodes ++ rest.nodes)
  | .state stmt rest trace => .state stmt rest trace :: (stmt.nodes ++ rest.nodes)
  | .op o args ty => .op o args ty :: Term.nodesOfAll args
  | .call key kind args ty => [.call key kind args ty]

def Term.nodesOfAll : List Term → List Term
  | [] => []
  | t :: rest => t.nodes ++ Term.nodesOfAll rest

def Env.nodes : Env → List Term
  | .plain m => Env.nodesOfFields (fun _ => true) m
  | .restricted m used => Env.nodesOfFields used.contains m
  | .consed _ m => Env.nodesOfFields (fun _ => true) m

def Env.nodesOfFields (keep : Name → Bool) : List (Name × Term) → List Term
  | [] => []
  | (x, t) :: rest =>
    if keep x then t.nodes ++ Env.nodesOfFields keep rest else Env.nodesOfFields keep rest

end

lemma Term.mem_nodesOfAll {ts : List Term} {n : Term} :
    n ∈ Term.nodesOfAll ts ↔ ∃ t ∈ ts, n ∈ t.nodes := by
  induction ts with
  | nil => simp [Term.nodesOfAll]
  | cons t rest ih => simp [Term.nodesOfAll, ih]

/-! ### Statements -/

namespace Stmt

variable {typed : Prop} {P Q : Ty → Prop}

/-- The statement and its code obey the rules, and the types in it have the property. -/
def Fits (typed : Prop) (P : Ty → Prop) (s : Stmt) : Prop :=
  (∀ n ∈ s.term.nodes, n.Fits typed P) ∧ ∀ rest, (s.before rest).Fits typed P

lemma Fits.imp {s : Stmt} (h : s.Fits typed P) (hPQ : ∀ ty, P ty → Q ty) : s.Fits typed Q :=
  ⟨fun n hn => (h.1 n hn).imp hPQ, fun rest => (h.2 rest).imp hPQ⟩

lemma fits_close {stmts : List Stmt} {result : Term} (h : ∀ s ∈ stmts, s.Fits typed P)
    (hresult : ∀ n ∈ result.nodes, n.Fits typed P) :
    ∀ n ∈ (close stmts result).nodes, n.Fits typed P := by
  induction stmts with
  | nil => exact hresult
  | cons s rest ih =>
    obtain ⟨⟨hterm, hs⟩, hrest⟩ := List.forall_mem_cons.1 h
    have ih := ih hrest
    intro n hn
    rw [close_cons] at hn
    cases s <;>
    · rcases List.mem_cons.1 hn with rfl | hn
      · exact hs _
      · exact (List.mem_append.1 hn).elim (hterm n) (ih n)

end Stmt

/-! ### A miss at another type -/

lemma Term.fits_retypeMiss {typed : Prop} {P : Ty → Prop} {ty : Ty} (hty : P ty) {t : Term}
    (h : ∀ n ∈ t.nodes, n.Fits typed P) : ∀ n ∈ (t.retypeMiss ty).nodes, n.Fits typed P := by
  induction t using Term.retypeMiss.induct with
  | case1 bind bound rest trace ih =>
    obtain ⟨hself, hparts⟩ := List.forall_mem_cons.1 h
    obtain ⟨hbound, hrest⟩ := List.forall_mem_append.1 hparts
    exact List.forall_mem_cons.2 ⟨hself, List.forall_mem_append.2 ⟨hbound, ih hrest⟩⟩
  | case2 stmt rest trace ih =>
    obtain ⟨hself, hparts⟩ := List.forall_mem_cons.1 h
    obtain ⟨hstmt, hrest⟩ := List.forall_mem_append.1 hparts
    exact List.forall_mem_cons.2 ⟨hself, List.forall_mem_append.2 ⟨hstmt, ih hrest⟩⟩
  | case3 args _ =>
    obtain ⟨-, hargs⟩ := List.forall_mem_cons.1 h
    exact List.forall_mem_cons.2 ⟨⟨fun _ => trivial, by simpa [Term.annotations] using hty⟩, hargs⟩
  | case4 t h1 h2 h3 => rwa [Term.retypeMiss.eq_4 _ _ h1 h2 h3]

lemma Term.ty_retypeMiss (ty : Ty) {t : Term} (h : t.endsInMiss = true) :
    (t.retypeMiss ty).ty = ty := by
  induction t using Term.retypeMiss.induct with
  | case1 bind bound rest trace ih => exact ih h
  | case2 stmt rest trace ih => exact ih h
  | case3 args _ => rfl
  | case4 t h1 h2 h3 =>
    exfalso
    cases t <;> grind [Term.endsInMiss, Term.tail]

end Residual
