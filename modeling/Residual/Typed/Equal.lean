import Residual.Typed.Term

/-!
Equality of types and terms.

Environments are equal if their visible bindings are, whatever form they have. Expressions and
keys are equal if their symbols are. Two entered environments can be told apart in two ways: by
content, or with a common symbol taken as proof that they are equal. The two ways agree where all
symbols come from one table.
-/

namespace Residual

/-- What makes two entered environments equal: the same `symbol` at once, and the same bindings
otherwise, or the same `content` only. -/
inductive Identity where
  | symbol
  | content
deriving DecidableEq

/-- The environment is entered under `symbol`, and symbols count. -/
def Identity.accepts (i : Identity) (symbol : Nat) : Env → Bool
  | .consed other _ => i == .symbol && symbol == other
  | _ => false

def MapKind.beq : MapKind → MapKind → Bool
  | .function x e, .function y f => x == y && e == f
  | .recFunction g x e, .recFunction h y f => g == h && x == y && e == f
  | .module, .module => true
  | _, _ => false

instance : BEq MapKind := ⟨MapKind.beq⟩

mutual

def Ty.beq (i : Identity) (a b : Ty) : Bool :=
  match a, b with
  | .prim p, .prim q => p == q
  | .list as, .list bs => Ty.beqAll i as bs
  | .lit l, .lit m => l == m
  | .map as k, .map bs l => Ty.beqFields i as bs && k == l
  | .layout l e k, .layout m f j => l == m && e.beq i f && k == j
  | .closure a b, .closure c d => a.beq i c && b.beq i d
  | .union as, .union bs => Ty.beqAll i as bs
  | .recur k, .recur l => k == l
  | .array s a, .array t b => s == t && a.beq i b
  | .foreign t ps, .foreign u qs => t == u && ForeignPart.beqAll i ps qs
  | _, _ => false
termination_by structural a

def Ty.beqAll (i : Identity) (as bs : List Ty) : Bool :=
  match as, bs with
  | [], [] => true
  | a :: as, b :: bs => a.beq i b && Ty.beqAll i as bs
  | _, _ => false
termination_by structural as

def Ty.beqFields (i : Identity) (as bs : List (Name × Ty)) : Bool :=
  match as, bs with
  | [], [] => true
  | (x, a) :: as, (y, b) :: bs => x == y && a.beq i b && Ty.beqFields i as bs
  | _, _ => false
termination_by structural as

def ForeignPart.beq (i : Identity) (a b : ForeignPart) : Bool :=
  match a, b with
  | .text s, .text t => s == t
  | .type a, .type b => a.beq i b
  | _, _ => false
termination_by structural a

def ForeignPart.beqAll (i : Identity) (as bs : List ForeignPart) : Bool :=
  match as, bs with
  | [], [] => true
  | a :: as, b :: bs => a.beq i b && ForeignPart.beqAll i as bs
  | _, _ => false
termination_by structural as

def Var.beq (i : Identity) (a b : Var) : Bool :=
  match a with
  | ⟨t, a⟩ => t == b.tag && a.beq i b.ty
termination_by structural a

def Var.beqAll (i : Identity) (as bs : List Var) : Bool :=
  match as, bs with
  | [], [] => true
  | a :: as, b :: bs => a.beq i b && Var.beqAll i as bs
  | _, _ => false
termination_by structural as

def Term.beq (i : Identity) (a b : Term) : Bool :=
  match a, b with
  | .type a, .type b => a.beq i b
  | .var v, .var w => v.beq i w
  | .tuple as, .tuple bs => Term.beqAll i as bs
  | .map e k, .map f l => e.beq i f && k == l
  | .box a s, .box b t => a.beq i b && s.beq i t
  | .lit l, .lit m => l == m
  | .letIn v a r s, .letIn w b q t => v.beq i w && a.beq i b && r.beq i q && s == t
  | .state a r s, .state b q t => a.beq i b && r.beq i q && s == t
  | .op o as s, .op p bs t => o == p && Term.beqAll i as bs && s.beq i t
  | .call k j vs s, .call l m ws t => k == l && j == m && Var.beqAll i vs ws && s.beq i t
  | _, _ => false
termination_by structural a

def Term.beqAll (i : Identity) (as bs : List Term) : Bool :=
  match as, bs with
  | [], [] => true
  | a :: as, b :: bs => a.beq i b && Term.beqAll i as bs
  | _, _ => false
termination_by structural as

def Env.beq (i : Identity) (a b : Env) : Bool :=
  match a with
  | .plain m => Env.beqFields i (fun _ => true) m b.visible
  | .restricted m used => Env.beqFields i used.contains m b.visible
  | .consed symbol m => i.accepts symbol b || Env.beqFields i (fun _ => true) m b.visible
termination_by structural a

/-- The kept bindings of `as` are those of `bs`. -/
def Env.beqFields (i : Identity) (keep : Name → Bool) (as bs : List (Name × Term)) : Bool :=
  match as with
  | [] => bs.isEmpty
  | (x, a) :: as =>
    if keep x then
      match bs with
      | [] => false
      | (y, b) :: bs => x == y && a.beq i b && Env.beqFields i keep as bs
    else Env.beqFields i keep as bs
termination_by structural as

end

/-! ### Everything equals itself -/

theorem MapKind.beq_refl (k : MapKind) : (k == k) = true := by
  cases k <;> simp [BEq.beq, MapKind.beq]

mutual

theorem Ty.beq_refl (i : Identity) (a : Ty) : a.beq i a = true := by
  match a with
  | .prim p => simp [Ty.beq]
  | .list as => simp only [Ty.beq, Ty.beqAll_refl i as]
  | .lit l => simp [Ty.beq]
  | .map as k => simp [Ty.beq, Ty.beqFields_refl i as, MapKind.beq_refl]
  | .layout l e k => simp [Ty.beq, Env.beq_refl i e, MapKind.beq_refl]
  | .closure a b => simp [Ty.beq, Ty.beq_refl i a, Ty.beq_refl i b]
  | .union as => simp only [Ty.beq, Ty.beqAll_refl i as]
  | .recur k => simp [Ty.beq]
  | .array s a => simp [Ty.beq, Ty.beq_refl i a]
  | .foreign t ps => simp [Ty.beq, ForeignPart.beqAll_refl i ps]
termination_by structural a

theorem Ty.beqAll_refl (i : Identity) (as : List Ty) : Ty.beqAll i as as = true := by
  match as with
  | [] => rfl
  | a :: as => simp [Ty.beqAll, Ty.beq_refl i a, Ty.beqAll_refl i as]
termination_by structural as

theorem Ty.beqFields_refl (i : Identity) (as : List (Name × Ty)) :
    Ty.beqFields i as as = true := by
  match as with
  | [] => rfl
  | (x, a) :: as => simp [Ty.beqFields, Ty.beq_refl i a, Ty.beqFields_refl i as]
termination_by structural as

theorem ForeignPart.beq_refl (i : Identity) (a : ForeignPart) : a.beq i a = true := by
  match a with
  | .text s => simp [ForeignPart.beq]
  | .type a => simp only [ForeignPart.beq, Ty.beq_refl i a]
termination_by structural a

theorem ForeignPart.beqAll_refl (i : Identity) (as : List ForeignPart) :
    ForeignPart.beqAll i as as = true := by
  match as with
  | [] => rfl
  | a :: as => simp [ForeignPart.beqAll, ForeignPart.beq_refl i a, ForeignPart.beqAll_refl i as]
termination_by structural as

theorem Var.beq_refl (i : Identity) (a : Var) : a.beq i a = true := by
  match a with
  | ⟨t, a⟩ => simp [Var.beq, Ty.beq_refl i a]
termination_by structural a

theorem Var.beqAll_refl (i : Identity) (as : List Var) : Var.beqAll i as as = true := by
  match as with
  | [] => rfl
  | a :: as => simp [Var.beqAll, Var.beq_refl i a, Var.beqAll_refl i as]
termination_by structural as

theorem Term.beq_refl (i : Identity) (a : Term) : a.beq i a = true := by
  match a with
  | .type a => simp only [Term.beq, Ty.beq_refl i a]
  | .var v => simp only [Term.beq, Var.beq_refl i v]
  | .tuple as => simp only [Term.beq, Term.beqAll_refl i as]
  | .map e k => simp [Term.beq, Env.beq_refl i e, MapKind.beq_refl]
  | .box a s => simp [Term.beq, Term.beq_refl i a, Ty.beq_refl i s]
  | .lit l => simp [Term.beq]
  | .letIn v a r s => simp [Term.beq, Var.beq_refl i v, Term.beq_refl i a, Term.beq_refl i r]
  | .state a r s => simp [Term.beq, Term.beq_refl i a, Term.beq_refl i r]
  | .op o as s => simp [Term.beq, Term.beqAll_refl i as, Ty.beq_refl i s]
  | .call k j vs s => simp [Term.beq, Var.beqAll_refl i vs, Ty.beq_refl i s]
termination_by structural a

theorem Term.beqAll_refl (i : Identity) (as : List Term) : Term.beqAll i as as = true := by
  match as with
  | [] => rfl
  | a :: as => simp [Term.beqAll, Term.beq_refl i a, Term.beqAll_refl i as]
termination_by structural as

theorem Env.beq_refl (i : Identity) (a : Env) : a.beq i a = true := by
  match a with
  | .plain m =>
    have h := Env.beqFields_filter i (fun _ => true) m
    rwa [List.filter_eq_self.2 fun _ _ => rfl] at h
  | .restricted m used =>
    simpa only [Env.beq, Env.visible] using Env.beqFields_filter i used.contains m
  | .consed s m =>
    have h := Env.beqFields_filter i (fun _ => true) m
    rw [List.filter_eq_self.2 fun _ _ => rfl] at h
    simp [Env.beq, Env.visible, h]
termination_by structural a

theorem Env.beqFields_filter (i : Identity) (keep : Name → Bool) (as : List (Name × Term)) :
    Env.beqFields i keep as (as.filter fun e => keep e.1) = true := by
  match as with
  | [] => rfl
  | (x, a) :: as =>
    have ih := Env.beqFields_filter i keep as
    by_cases hk : keep x = true
    · simp [Env.beqFields, hk, Term.beq_refl i a, ih]
    · simp only [Bool.not_eq_true] at hk
      simp [Env.beqFields, hk, ih]
termination_by structural as

end

end Residual
