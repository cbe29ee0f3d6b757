import Residual.Typed.Equal

/-!
Equality of types and terms, without a look inside what is one object.

A type made of two copies of another one is shared, not copied, so a type can be far smaller
than it looks when it is spelled out. The comparison here gives the same answers as the plain
one, as its type says, and passes over parts that both sides share.
-/

namespace Residual

namespace Quick

variable {α : Type} {r s : Bool}

/-- An answer worked out already. -/
@[inline] def known (r : Bool) : { q : Bool // q = r } := ⟨r, rfl⟩

/-- The answer to an equivalent question. -/
@[inline] def of (x : { q : Bool // q = r }) (h : r = s) : { q : Bool // q = s } :=
  ⟨x.1, x.2.trans h⟩

/-- Both answers, the second one only if the first is yes. -/
@[inline] def and (x : { q : Bool // q = r }) (y : Unit → { q : Bool // q = s }) :
    { q : Bool // q = (r && s) } :=
  ⟨x.1 && (y ()).1, by rw [x.2, (y ()).2]⟩

/-- Either answer, the second one only if the first is no. -/
@[inline] def or (x : { q : Bool // q = r }) (y : Unit → { q : Bool // q = s }) :
    { q : Bool // q = (r || s) } :=
  ⟨x.1 || (y ()).1, by rw [x.2, (y ()).2]⟩

/-- Run the comparison only if `a` and `b` are two objects. -/
@[inline] def unlessSame (a b : α) (h : a = b → r = true) (k : Unit → { q : Bool // q = r }) :
    { q : Bool // q = r } :=
  ⟨withPtrEq a b (fun _ => (k ()).1) (fun e => (k ()).2.trans (h e)), (k ()).2⟩

end Quick

mutual

def Ty.quick (i : Identity) (a b : Ty) : { q : Bool // q = a.beq i b } :=
  Quick.unlessSame a b (fun e => e ▸ Ty.beq_refl i a) fun _ =>
    match a, b with
    | .list as, .list bs => Ty.quickAll i as bs
    | .map as k, .map bs l => Quick.and (Ty.quickFields i as bs) fun _ => Quick.known (k == l)
    | .layout l e k, .layout m f j =>
      Quick.and (Quick.and (Quick.known (l == m)) fun _ => Env.quick i e f)
        fun _ => Quick.known (k == j)
    | .closure a b, .closure c d => Quick.and (Ty.quick i a c) fun _ => Ty.quick i b d
    | .union as, .union bs => Ty.quickAll i as bs
    | .array s a, .array t b => Quick.and (Quick.known (s == t)) fun _ => Ty.quick i a b
    | .foreign t ps, .foreign u qs =>
      Quick.and (Quick.known (t == u)) fun _ => ForeignPart.quickAll i ps qs
    | a, b => Quick.known (a.beq i b)
termination_by structural a

def Ty.quickAll (i : Identity) (as bs : List Ty) : { q : Bool // q = Ty.beqAll i as bs } :=
  match as, bs with
  | a :: as, b :: bs => Quick.and (Ty.quick i a b) fun _ => Ty.quickAll i as bs
  | as, bs => Quick.known (Ty.beqAll i as bs)
termination_by structural as

def Ty.quickFields (i : Identity) (as bs : List (Name × Ty)) :
    { q : Bool // q = Ty.beqFields i as bs } :=
  match as, bs with
  | (x, a) :: as, (y, b) :: bs =>
    Quick.and (Quick.and (Quick.known (x == y)) fun _ => Ty.quick i a b)
      fun _ => Ty.quickFields i as bs
  | as, bs => Quick.known (Ty.beqFields i as bs)
termination_by structural as

def ForeignPart.quick (i : Identity) (a b : ForeignPart) : { q : Bool // q = a.beq i b } :=
  match a, b with
  | .type a, .type b => Ty.quick i a b
  | a, b => Quick.known (a.beq i b)
termination_by structural a

def ForeignPart.quickAll (i : Identity) (as bs : List ForeignPart) :
    { q : Bool // q = ForeignPart.beqAll i as bs } :=
  match as, bs with
  | a :: as, b :: bs => Quick.and (ForeignPart.quick i a b) fun _ => ForeignPart.quickAll i as bs
  | as, bs => Quick.known (ForeignPart.beqAll i as bs)
termination_by structural as

def Var.quick (i : Identity) (a b : Var) : { q : Bool // q = a.beq i b } :=
  match a with
  | ⟨t, a⟩ => Quick.and (Quick.known (t == b.tag)) fun _ => Ty.quick i a b.ty
termination_by structural a

def Var.quickAll (i : Identity) (as bs : List Var) : { q : Bool // q = Var.beqAll i as bs } :=
  match as, bs with
  | a :: as, b :: bs => Quick.and (Var.quick i a b) fun _ => Var.quickAll i as bs
  | as, bs => Quick.known (Var.beqAll i as bs)
termination_by structural as

def Term.quick (i : Identity) (a b : Term) : { q : Bool // q = a.beq i b } :=
  Quick.unlessSame a b (fun e => e ▸ Term.beq_refl i a) fun _ =>
    match a, b with
    | .type a, .type b => Ty.quick i a b
    | .var v, .var w => Var.quick i v w
    | .tuple as, .tuple bs => Term.quickAll i as bs
    | .map e k, .map f l => Quick.and (Env.quick i e f) fun _ => Quick.known (k == l)
    | .box a s, .box b t => Quick.and (Term.quick i a b) fun _ => Ty.quick i s t
    | .letIn v a r s, .letIn w b q t =>
      Quick.and
        (Quick.and (Quick.and (Var.quick i v w) fun _ => Term.quick i a b)
          fun _ => Term.quick i r q)
        fun _ => Quick.known (s == t)
    | .state a r s, .state b q t =>
      Quick.and (Quick.and (Term.quick i a b) fun _ => Term.quick i r q)
        fun _ => Quick.known (s == t)
    | .op o as s, .op p bs t =>
      Quick.and (Quick.and (Quick.known (o == p)) fun _ => Term.quickAll i as bs)
        fun _ => Ty.quick i s t
    | .call k j vs s, .call l m ws t =>
      Quick.and (Quick.and (Quick.known (k == l && j == m)) fun _ => Var.quickAll i vs ws)
        fun _ => Ty.quick i s t
    | a, b => Quick.known (a.beq i b)
termination_by structural a

def Term.quickAll (i : Identity) (as bs : List Term) : { q : Bool // q = Term.beqAll i as bs } :=
  match as, bs with
  | a :: as, b :: bs => Quick.and (Term.quick i a b) fun _ => Term.quickAll i as bs
  | as, bs => Quick.known (Term.beqAll i as bs)
termination_by structural as

def Env.quick (i : Identity) (a b : Env) : { q : Bool // q = a.beq i b } :=
  Quick.unlessSame a b (fun e => e ▸ Env.beq_refl i a) fun _ =>
    match a with
    | .plain m => Env.quickFields i (fun _ => true) m b.visible
    | .restricted m used => Env.quickFields i used.contains m b.visible
    | .consed symbol m =>
      Quick.or (Quick.known (i.accepts symbol b))
        fun _ => Env.quickFields i (fun _ => true) m b.visible
termination_by structural a

def Env.quickFields (i : Identity) (keep : Name → Bool) (as bs : List (Name × Term)) :
    { q : Bool // q = Env.beqFields i keep as bs } :=
  match as with
  | [] => Quick.known bs.isEmpty
  | (x, a) :: as =>
    if h : keep x then
      match bs with
      | [] => Quick.of (Quick.known false) (by simp [Env.beqFields, h])
      | (y, b) :: bs =>
        Quick.of
          (Quick.and (Quick.and (Quick.known (x == y)) fun _ => Term.quick i a b)
            fun _ => Env.quickFields i keep as bs)
          (by simp [Env.beqFields, h])
    else Quick.of (Env.quickFields i keep as bs) (by simp [Env.beqFields, h])
termination_by structural as

end

instance : BEq Ty := ⟨fun a b => (Ty.quick .symbol a b).1⟩
instance : BEq Term := ⟨fun a b => (Term.quick .symbol a b).1⟩
instance : BEq Env := ⟨fun a b => (Env.quick .symbol a b).1⟩

theorem Ty.beq_eq (a b : Ty) : (a == b) = a.beq .symbol b := (Ty.quick .symbol a b).2

theorem Term.beq_eq (a b : Term) : (a == b) = a.beq .symbol b := (Term.quick .symbol a b).2

theorem Env.beq_eq (a b : Env) : (a == b) = a.beq .symbol b := (Env.quick .symbol a b).2

instance : ReflBEq Ty := ⟨fun {a} => (Ty.beq_eq a a).trans (Ty.beq_refl .symbol a)⟩
instance : ReflBEq Term := ⟨fun {a} => (Term.beq_eq a a).trans (Term.beq_refl .symbol a)⟩
instance : ReflBEq Env := ⟨fun {a} => (Env.beq_eq a a).trans (Env.beq_refl .symbol a)⟩

/-- The bindings of two maps are the same, by content. -/
def Fields.sameContent (m n : Fields Term) : Bool :=
  (Env.quickFields .content (fun _ => true) m n).1

theorem Fields.sameContent_eq (m n : Fields Term) :
    sameContent m n = Env.beqFields .content (fun _ => true) m n :=
  (Env.quickFields .content (fun _ => true) m n).2

end Residual
