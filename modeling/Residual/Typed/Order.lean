import Residual.Typed.Equal.Quick

/-!
The order of types and terms, and unions as ordered sets of types.

Values are compared by constructor, then by parts from left to right, up to the first difference.
Environments are compared by their visible bindings.
-/

namespace Residual

def Span.code (s : Span) : Code :=
  [s.module.index, s.start.line, s.start.col, s.stop.line, s.stop.col]

def Trace.code (t : Trace) : Code := Code.list Span.code t.positions

def MapKind.code : MapKind → Code
  | .function x e => [0, x.index, e.symbol]
  | .recFunction f x e => [1, f.index, x.index, e.symbol]
  | .module => [2]

def Ty.rank : Ty → Nat
  | .prim _ => 0
  | .list _ => 1
  | .lit _ => 2
  | .map _ _ => 3
  | .layout _ _ _ => 4
  | .closure _ _ => 5
  | .union _ => 6
  | .recur _ => 7
  | .array _ _ => 8
  | .foreign _ _ => 9

def ForeignPart.rank : ForeignPart → Nat
  | .text _ => 0
  | .type _ => 1

def Term.rank : Term → Nat
  | .type _ => 0
  | .var _ => 1
  | .tuple _ => 2
  | .map _ _ => 3
  | .box _ _ => 4
  | .lit _ => 5
  | .letIn _ _ _ _ => 6
  | .state _ _ _ => 7
  | .op _ _ _ => 8
  | .call _ _ _ _ => 9

mutual

def Ty.cmp (i : Identity) (a b : Ty) : Ordering :=
  match a, b with
  | .prim p, .prim q => compare p.rank q.rank
  | .list as, .list bs => Ty.cmpAll i as bs
  | .lit l, .lit m => l.cmp m
  | .map as k, .map bs l => (Ty.cmpFields i as bs).then (Code.cmp k.code l.code)
  | .layout l e k, .layout m f j =>
    (compare l.rank m.rank).then ((e.cmp i f).then (Code.cmp k.code j.code))
  | .closure a b, .closure c d => (a.cmp i c).then (b.cmp i d)
  | .union as, .union bs => Ty.cmpAll i as bs
  | .recur k, .recur l => compare k.symbol l.symbol
  | .array s a, .array t b => (compare s.rank t.rank).then (a.cmp i b)
  | .foreign t ps, .foreign u qs => (compare t.rank u.rank).then (ForeignPart.cmpAll i ps qs)
  | a, b => compare a.rank b.rank
termination_by structural a

def Ty.cmpAll (i : Identity) (as bs : List Ty) : Ordering :=
  match as, bs with
  | [], [] => .eq
  | [], _ :: _ => .lt
  | _ :: _, [] => .gt
  | a :: as, b :: bs => (a.cmp i b).then (Ty.cmpAll i as bs)
termination_by structural as

def Ty.cmpFields (i : Identity) (as bs : List (Name × Ty)) : Ordering :=
  match as, bs with
  | [], [] => .eq
  | [], _ :: _ => .lt
  | _ :: _, [] => .gt
  | (x, a) :: as, (y, b) :: bs =>
    (compare x.index y.index).then ((a.cmp i b).then (Ty.cmpFields i as bs))
termination_by structural as

def ForeignPart.cmp (i : Identity) (a b : ForeignPart) : Ordering :=
  match a, b with
  | .text s, .text t => Code.cmp (Code.string s) (Code.string t)
  | .type a, .type b => a.cmp i b
  | a, b => compare a.rank b.rank
termination_by structural a

def ForeignPart.cmpAll (i : Identity) (as bs : List ForeignPart) : Ordering :=
  match as, bs with
  | [], [] => .eq
  | [], _ :: _ => .lt
  | _ :: _, [] => .gt
  | a :: as, b :: bs => (a.cmp i b).then (ForeignPart.cmpAll i as bs)
termination_by structural as

def Var.cmp (i : Identity) (a b : Var) : Ordering :=
  match a with
  | ⟨t, a⟩ => (compare t b.tag).then (a.cmp i b.ty)
termination_by structural a

def Var.cmpAll (i : Identity) (as bs : List Var) : Ordering :=
  match as, bs with
  | [], [] => .eq
  | [], _ :: _ => .lt
  | _ :: _, [] => .gt
  | a :: as, b :: bs => (a.cmp i b).then (Var.cmpAll i as bs)
termination_by structural as

def Term.cmp (i : Identity) (a b : Term) : Ordering :=
  match a, b with
  | .type a, .type b => a.cmp i b
  | .var v, .var w => v.cmp i w
  | .tuple as, .tuple bs => Term.cmpAll i as bs
  | .map e k, .map f l => (e.cmp i f).then (Code.cmp k.code l.code)
  | .box a s, .box b t => (a.cmp i b).then (s.cmp i t)
  | .lit l, .lit m => l.cmp m
  | .letIn v a r s, .letIn w b q t =>
    (v.cmp i w).then ((a.cmp i b).then ((r.cmp i q).then (Code.cmp s.code t.code)))
  | .state a r s, .state b q t =>
    (a.cmp i b).then ((r.cmp i q).then (Code.cmp s.code t.code))
  | .op o as s, .op p bs t => (o.cmp p).then ((Term.cmpAll i as bs).then (s.cmp i t))
  | .call k j vs s, .call l m ws t =>
    (compare k.symbol l.symbol).then
      ((compare j.rank m.rank).then ((Var.cmpAll i vs ws).then (s.cmp i t)))
  | a, b => compare a.rank b.rank
termination_by structural a

def Term.cmpAll (i : Identity) (as bs : List Term) : Ordering :=
  match as, bs with
  | [], [] => .eq
  | [], _ :: _ => .lt
  | _ :: _, [] => .gt
  | a :: as, b :: bs => (a.cmp i b).then (Term.cmpAll i as bs)
termination_by structural as

def Env.cmp (i : Identity) (a b : Env) : Ordering :=
  match a with
  | .plain m => Env.cmpFields i (fun _ => true) m b.visible
  | .restricted m used => Env.cmpFields i used.contains m b.visible
  | .consed symbol m =>
    if i.accepts symbol b then .eq else Env.cmpFields i (fun _ => true) m b.visible
termination_by structural a

/-- The order of the kept bindings of `as` and those of `bs`. -/
def Env.cmpFields (i : Identity) (keep : Name → Bool) (as bs : List (Name × Term)) : Ordering :=
  match as with
  | [] => if bs.isEmpty then .eq else .lt
  | (x, a) :: as =>
    if keep x then
      match bs with
      | [] => .gt
      | (y, b) :: bs =>
        (compare x.index y.index).then ((a.cmp i b).then (Env.cmpFields i keep as bs))
    else Env.cmpFields i keep as bs
termination_by structural as

end

namespace Ty

/-- The members of a type taken as a union. -/
def flatMembers : Ty → List Ty
  | .union members => members
  | t => [t]

/-- Put `t` after the members that are not above it. The members are given the last one first. -/
def insertLast (t : Ty) : List Ty → List Ty
  | [] => [t]
  | u :: rest => if t.cmp .symbol u = .lt then u :: insertLast t rest else t :: u :: rest

/-- The types in ascending order. -/
def sort (ts : List Ty) : List Ty := (ts.foldl (fun sorted t => insertLast t sorted) []).reverse

/-- The union of some types: its members ascend, and a single one stands for itself. -/
def unionOf (ts : List Ty) : Ty :=
  match (sort (ts.flatMap flatMembers)).eraseReps with
  | [t] => t
  | members => .union members

end Ty

end Residual
