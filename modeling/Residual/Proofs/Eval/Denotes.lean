import Residual.Eval.Fold
import Residual.Proofs.Surface.Outline

/-!
What core programs denote.

A value is a literal, a tuple or a function with the environment it was made in. `Denotes` says
which value an outline has, without any notion of code that is left for later: it is what both
an evaluation and the code it leaves behind are compared with.
-/

namespace Residual

inductive Value where
  | lit (l : Literal)
  | tuple (items : List Value)
  | function (env : List (Name × Value)) (this : Option Name) (param : Name) (body : Outline)

namespace Value

/-- The environment in which the body of a function is evaluated. -/
def callEnv (env : List (Name × Value)) (this : Option Name) (param : Name) (body : Outline)
    (arg : Value) : List (Name × Value) :=
  match this with
  | none => (param, arg) :: env
  | some f => (param, arg) :: (f, .function env this param body) :: env

def length? : Value → Option Nat
  | .tuple items => some items.length
  | _ => none

end Value

/-- The value of a primitive operation on literals, where the types of the literals go together
and the result is one of its type. -/
def PrimOp.value (op : PrimOp) (args : List Term) : Option Literal := do
  let result ← Fold.resultType op (args.map fun a => a.ty.prim?)
  Fold.fold op args result

/-- Only tuples have elements, but every value can be asked for its length. -/
def TupleOp.value : TupleOp → Value → Option Value
  | .lengthEq n, v => some (.lit (.bool (v.length?.any (· == n))))
  | .lengthGe n, v => some (.lit (.bool (v.length?.any (n ≤ ·))))
  | .index i, .tuple items => items[i]?
  | .slice n, .tuple items => if n ≤ items.length then some (.tuple (items.drop n)) else none
  | _, _ => none

mutual

/-- The outline has the value in the environment. -/
inductive Denotes : List (Name × Value) → Outline → Value → Prop where
  | var {env x v} : Fields.get? env x = some v → Denotes env (.var x) v
  | lit {env l} : Denotes env (.lit l) (.lit l)
  | function {env this param body} :
    Denotes env (.function this param body) (.function env this param body)
  | tuple {env items vs} : DenotesAll env items vs → Denotes env (.tuple items) (.tuple vs)
  | apply {env f arg env' this param body v result} :
    Denotes env f (.function env' this param body) → Denotes env arg v →
    Denotes (Value.callEnv env' this param body v) body result →
    Denotes env (.op .apply [f, arg]) result
  | cond {env test yes no b v} : Denotes env test (.lit (.bool b)) →
    Denotes env (if b then yes else no) v → Denotes env (.op .cond [test, yes, no]) v
  | prim {env op args l} {ls : List Literal} : DenotesAll env args (ls.map Value.lit) →
    op.value (ls.map Term.lit) = some l → Denotes env (.op (.prim op) args) (.lit l)
  | tupleOp {env op arg v result} : Denotes env arg v → op.value v = some result →
    Denotes env (.op (.tuple op) [arg]) result

inductive DenotesAll : List (Name × Value) → List Outline → List Value → Prop where
  | nil {env} : DenotesAll env [] []
  | cons {env o v os vs} : Denotes env o v → DenotesAll env os vs →
    DenotesAll env (o :: os) (v :: vs)

end

/-! ### Types of primitive results -/

lemma Literal.type_int? {t : IntTy} {v : Int} {l : Literal} (h : Literal.int? t v = some l) :
    l.type = .int t := by
  unfold Literal.int? at h
  split at h
  · cases h
    rfl
  · cases h

lemma Literal.type_ofReal? {p : Prim} {a : Number.Word64} {l : Literal}
    (h : Literal.ofReal? p a = some l) : l.type = p := by
  unfold Literal.ofReal? at h
  split at h <;> cases h <;> rfl

namespace Fold

lemma type_arith {op : ArithOp} {a b l : Literal} (h : arith op a b = some l) :
    l.type = a.type := by
  unfold arith at h
  split at h
  · obtain ⟨v, -, hv⟩ := Option.bind_eq_some_iff.1 h
    exact Literal.type_int? hv
  · simp only [Option.bind_eq_bind, Option.bind_eq_some_iff] at h
    obtain ⟨_, _, _, _, _, _, h⟩ := h
    exact Literal.type_ofReal? h

lemma type_compare {op : CompareOp} {a b l : Literal} (h : compare op a b = some l) :
    l.type = .bool := by
  obtain ⟨_, -, rfl⟩ := Option.map_eq_some_iff.1 h
  rfl

lemma type_bit {op : BitOp} {a b l : Literal} (h : bit op a b = some l) : l.type = a.type := by
  unfold bit at h
  split at h
  · obtain ⟨v, -, hv⟩ := Option.bind_eq_some_iff.1 h
    exact Literal.type_int? hv
  · split at h <;> cases h <;> rfl
  · cases h

lemma type_unary {op : UnaryOp} {a l : Literal} (h : unary op a = some l) :
    l.type = a.type := by
  unfold unary at h
  split at h
  · split at h
    · exact Literal.type_int? h
    · exact Literal.type_int? h
    · cases h
  · split at h
    · cases h
      rfl
    · cases h
  · obtain ⟨x, -, h⟩ := Option.bind_eq_some_iff.1 h
    dsimp only at h
    split at h
    · exact Literal.type_ofReal? h
    · exact Literal.type_ofReal? h
    · exact Literal.type_ofReal? h
    · exact Literal.type_ofReal? h
    · cases h

/-- The result is of the type that the types of the operands give. -/
lemma type_fold {op : PrimOp} {args : List Term} {result : Prim} {l : Literal}
    (hop : op ≠ .convert) (hty : resultType op (args.map fun a => a.ty.prim?) = some result)
    (h : fold op args result = some l) : l.type = result := by
  unfold fold at h
  split at h
  · rename_i op a b
    simp only [List.map_cons, List.map_nil, Term.ty, Ty.prim?, resultType] at hty
    split at hty
    · cases hty
      exact type_arith h
    · cases hty
  · rename_i op a b
    simp only [List.map_cons, List.map_nil, Term.ty, Ty.prim?, resultType] at hty
    split at hty
    · cases hty
      exact type_compare h
    · cases hty
  · rename_i op a b
    have htype := type_bit h
    simp only [List.map_cons, List.map_nil, Term.ty, Ty.prim?] at hty
    cases op <;> simp only [resultType] at hty <;> split at hty <;> cases hty <;> exact htype
  · rename_i op a
    have htype := type_unary h
    simp only [List.map_cons, List.map_nil, Term.ty, Ty.prim?] at hty
    unfold resultType at hty
    split at hty <;> simp_all
  · exact absurd rfl hop
  · cases h

end Fold

/-- A primitive operation of the core gives a literal of the type that its operands determine. -/
theorem PrimOp.type_value {op : PrimOp} {args : List Term} {l : Literal} (hop : op ≠ .convert)
    (h : op.value args = some l) :
    Fold.resultType op (args.map fun a => a.ty.prim?) = some l.type := by
  obtain ⟨result, hty, hfold⟩ := Option.bind_eq_some_iff.1 h
  rw [hty, Fold.type_fold hop hty hfold]

end Residual
