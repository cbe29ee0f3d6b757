import Residual.Captures
import Residual.Surface.Expr

/-!
Types and typed terms.

A term is what evaluation yields: values known now (types, literals, tuples, maps, boxes), the
variables that stand for values known at run time, and the residual code that computes them. A
map is an evaluated function or module, with the environment it holds. A type can contain an
environment too, that of a packed map.
-/

namespace Residual

/-- The number of a variable of residual code. -/
abbrev Tag := Nat

/-- The symbol of a specialization: a body with the environment it was specialized for. -/
structure Key where
  symbol : Nat
deriving DecidableEq, Inhabited

/-- What a map is besides its environment. -/
inductive MapKind where
  | function (param : Name) (body : Expr)
  | recFunction (this param : Name) (body : Expr)
  | module

mutual

/-- `list` is the type of tuples, `lit` that of one literal only, `recur` a recursive type by
the key of its join point. -/
inductive Ty where
  | prim (p : Prim)
  | list (items : List Ty)
  | lit (l : Literal)
  | map (fields : List (Name × Ty)) (kind : MapKind)
  | layout (layout : Layout) (env : Env) (kind : MapKind)
  | closure (dom range : Ty)
  | union (members : List Ty)
  | recur (key : Key)
  | array (storage : Storage) (elem : Ty)
  | foreign (target : Target) (parts : List ForeignPart)

/-- A piece of a foreign type. -/
inductive ForeignPart where
  | text (s : String)
  | type (t : Ty)

/-- A variable of residual code. -/
structure Var where
  tag : Tag
  ty : Ty

/-- `type` is a value without run-time data, `box` a value of a member of a union, `state` a
statement run for its effect before the rest, `call` the call of a specialized body. -/
inductive Term where
  | type (t : Ty)
  | var (v : Var)
  | tuple (items : List Term)
  | map (env : Env) (kind : MapKind)
  | box (inner : Term) (ty : Ty)
  | lit (l : Literal)
  | letIn (bind : Var) (bound rest : Term) (trace : Trace)
  | state (stmt rest : Term) (trace : Trace)
  | op (o : Op) (args : List Term) (ty : Ty)
  | call (key : Key) (kind : PointKind) (args : List Var) (ty : Ty)

/-- A map from names to terms in one of three forms: as it is, with only the names in `used`
visible, or entered in the table of environments under a symbol. -/
inductive Env where
  | plain (fields : List (Name × Term))
  | restricted (fields : List (Name × Term)) (used : Captures)
  | consed (symbol : Nat) (fields : List (Name × Term))

end

instance : Inhabited Ty := ⟨.list []⟩
instance : Inhabited Term := ⟨.tuple []⟩
instance : Inhabited Env := ⟨.plain []⟩

namespace Ty

def unit : Ty := .list []

def bool : Ty := .prim .bool

def prim? : Ty → Option Prim
  | .prim p => some p
  | _ => none

def members? : Ty → Option (List Ty)
  | .union members => some members
  | _ => none

mutual

/-- Values of the type carry no run-time data, so the type stands for its only value. -/
def isUnit : Ty → Bool
  | .lit _ => true
  | .list items => allUnit items
  | .map fields _ => fieldsUnit fields
  | _ => false

def allUnit : List Ty → Bool
  | [] => true
  | t :: rest => t.isUnit && allUnit rest

def fieldsUnit : List (Name × Ty) → Bool
  | [] => true
  | (_, t) :: rest => t.isUnit && fieldsUnit rest

end

end Ty

namespace Term

def unit : Term := .tuple []

mutual

/-- The value of a type without run-time data. Tuples and maps are built up, so that they can
be taken apart again; any other type is its own value. -/
def ofUnit : Ty → Term
  | .list items => .tuple (ofUnits items)
  | .map fields kind => .map (.plain (ofUnitFields fields)) kind
  | t => .type t

def ofUnits : List Ty → List Term
  | [] => []
  | t :: rest => ofUnit t :: ofUnits rest

def ofUnitFields : List (Name × Ty) → List (Name × Term)
  | [] => []
  | (x, t) :: rest => (x, ofUnit t) :: ofUnitFields rest

end

mutual

/-- The type of a term. -/
def ty : Term → Ty
  | .type t => t
  | .var ⟨_, t⟩ => t
  | .tuple items => .list (tys items)
  | .map env kind => .map (envTys env) kind
  | .box _ t => t
  | .lit l => .prim l.type
  | .letIn _ _ rest _ => rest.ty
  | .state _ rest _ => rest.ty
  | .op _ _ t => t
  | .call _ _ _ t => t

def tys : List Term → List Ty
  | [] => []
  | t :: rest => t.ty :: tys rest

/-- The types of the visible bindings. -/
def envTys : Env → List (Name × Ty)
  | .plain fields => fieldTys (fun _ => true) fields
  | .restricted fields used => fieldTys used.contains fields
  | .consed _ fields => fieldTys (fun _ => true) fields

def fieldTys (keep : Name → Bool) : List (Name × Term) → List (Name × Ty)
  | [] => []
  | (x, t) :: rest =>
    if keep x then (x, t.ty) :: fieldTys keep rest else fieldTys keep rest

end

def lit? : Term → Option Literal
  | .lit l => some l
  | .type (.lit l) => some l
  | _ => none

/-- A truth value known now. -/
def bool? (t : Term) : Option Bool := t.lit?.bind Literal.bool?

/-- A text known now. -/
def string? (t : Term) : Option String := t.lit?.bind Literal.string?

def var? : Term → Option Var
  | .var v => some v
  | _ => none

/-- What is left after the leading bindings and statements. -/
def tail : Term → Term
  | .letIn _ _ rest _ => rest.tail
  | .state _ rest _ => rest.tail
  | t => t

/-- The term ends where no clause of a match applied. -/
def endsInMiss (t : Term) : Bool :=
  match t.tail with
  | .op .patternMiss _ _ => true
  | _ => false

mutual

/-- The value is known now. -/
def isStatic : Term → Bool
  | .type _ | .lit _ | .map _ _ => true
  | .tuple items => allStatic items
  | _ => false

def allStatic : List Term → Bool
  | [] => true
  | t :: rest => t.isStatic && allStatic rest

end

end Term

namespace Env

/-- The bindings that can be seen, as a map: the content of the environment. -/
def visible : Env → Fields Term
  | .plain fields => fields
  | .restricted fields used => fields.filter fun e => used.contains e.1
  | .consed _ fields => fields

/-- The bindings that can be seen, in the order they are gone through. -/
def bindings : Env → List (Name × Term)
  | .plain fields => fields
  | .restricted fields used => used.pick fields
  | .consed _ fields => fields

def empty : Env := .plain []

def get? : Env → Name → Option Term
  | .plain fields, x => Fields.get? fields x
  | .restricted fields used, x => if used.sees x then Fields.get? fields x else none
  | .consed _ fields, x => Fields.get? fields x

/-- Bind a name, hiding an earlier binding of it. -/
def bind (env : Env) (x : Name) (t : Term) : Env := .plain (Fields.insert env.visible x t)

def size (env : Env) : Nat := env.bindings.length

def isEmpty (env : Env) : Bool := env.bindings.isEmpty

/-- Names ascend wherever the environment lists them. -/
def Ascending : Env → Prop
  | .plain fields => Fields.Ascending fields
  | .restricted fields used => Fields.Ascending fields ∧ used.Ascending
  | .consed _ fields => Fields.Ascending fields

theorem Ascending.visible {env : Env} (h : env.Ascending) : Fields.Ascending env.visible := by
  cases env with
  | plain m => exact h
  | consed s m => exact h
  | restricted m used => exact List.Pairwise.sublist List.filter_sublist h.1

theorem Ascending.get?_eq {env : Env} (h : env.Ascending) (x : Name) :
    env.get? x = Fields.get? env.visible x := by
  cases env with
  | plain m => rfl
  | consed s m => rfl
  | restricted m used =>
    rw [get?, Captures.sees_eq_contains h.2]
    exact (Captures.get?_filter used m x).symm

theorem Ascending.bindings_eq {env : Env} (h : env.Ascending) : env.bindings = env.visible := by
  cases env with
  | plain m => rfl
  | consed s m => rfl
  | restricted m used => exact Captures.pick_eq_filter h.2 h.1

@[simp] theorem visible_bind (env : Env) (x : Name) (t : Term) :
    (env.bind x t).visible = Fields.insert env.visible x t := rfl

theorem get?_bind (env : Env) (x y : Name) (t : Term) :
    (env.bind x t).get? y = if y = x then some t else Fields.get? env.visible y :=
  Fields.get?_insert env.visible x y t

theorem Ascending.bind {env : Env} (h : env.Ascending) (x : Name) (t : Term) :
    (env.bind x t).Ascending :=
  h.visible.insert x t

end Env

/-! ### Recursive types inside a type -/

mutual

/-- The recursive type of `key` occurs in the type. -/
def Ty.mentions (key : Key) : Ty → Bool
  | .recur k => k == key
  | .prim _ | .lit _ => false
  | .list items | .union items => Ty.anyMentions key items
  | .map fields _ => Ty.fieldsMention key fields
  | .layout _ env _ => Env.typeMentions key env
  | .closure dom range => dom.mentions key || range.mentions key
  | .array _ elem => elem.mentions key
  | .foreign _ parts => ForeignPart.anyMentions key parts

def Ty.anyMentions (key : Key) : List Ty → Bool
  | [] => false
  | t :: rest => t.mentions key || Ty.anyMentions key rest

def Ty.fieldsMention (key : Key) : List (Name × Ty) → Bool
  | [] => false
  | (_, t) :: rest => t.mentions key || Ty.fieldsMention key rest

def ForeignPart.mentions (key : Key) : ForeignPart → Bool
  | .text _ => false
  | .type t => t.mentions key

def ForeignPart.anyMentions (key : Key) : List ForeignPart → Bool
  | [] => false
  | p :: rest => p.mentions key || ForeignPart.anyMentions key rest

/-- The recursive type of `key` occurs in the type of the term. -/
def Term.typeMentions (key : Key) : Term → Bool
  | .type t => t.mentions key
  | .var ⟨_, t⟩ => t.mentions key
  | .tuple items => Term.anyTypeMentions key items
  | .map env _ => Env.typeMentions key env
  | .box _ t => t.mentions key
  | .lit _ => false
  | .letIn _ _ rest _ => rest.typeMentions key
  | .state _ rest _ => rest.typeMentions key
  | .op _ _ t => t.mentions key
  | .call _ _ _ t => t.mentions key

def Term.anyTypeMentions (key : Key) : List Term → Bool
  | [] => false
  | t :: rest => t.typeMentions key || Term.anyTypeMentions key rest

def Env.typeMentions (key : Key) : Env → Bool
  | .plain fields => Env.fieldsMention key (fun _ => true) fields
  | .restricted fields used => Env.fieldsMention key used.contains fields
  | .consed _ fields => Env.fieldsMention key (fun _ => true) fields

def Env.fieldsMention (key : Key) (keep : Name → Bool) : List (Name × Term) → Bool
  | [] => false
  | (x, t) :: rest => keep x && t.typeMentions key || Env.fieldsMention key keep rest

end

end Residual
