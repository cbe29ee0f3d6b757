import Residual.Typed.Order

/-!
Types and terms are ordered by their codes.

Where entered environments are told apart by content, comparing two types is the same as
comparing their codes. So the order is total: it can be turned around, and it is transitive.
-/

namespace Residual

/-! ### Codes of the parts -/

theorem MapKind.splits_code (k l : MapKind) : Code.Splits k.code l.code := by
  cases k <;> cases l <;>
    first | exact Code.splits_of_length rfl | exact Code.splits_of_ne (by decide) _ _

theorem Trace.splits_code (s t : Trace) : Code.Splits s.code t.code :=
  Code.splits_list (fun _ _ => Code.splits_of_length rfl) _ _

theorem IntTy.rank_lt (t : IntTy) : t.rank < 8 := by
  cases t <;> decide

theorem Literal.splits_code (l m : Literal) : Code.Splits l.code m.code := by
  cases l <;> cases m <;>
    first
    | exact Code.splits_of_length rfl
    | exact (Code.splits_string _ _).cons _
    | exact Code.splits_of_ne (by decide) _ _
    | exact Code.splits_of_ne (by have := IntTy.rank_lt ‹IntTy›; omega) _ _

theorem ModuleOp.splits_code (o p : ModuleOp) : Code.Splits o.code p.code := by
  have hn := @Code.splits_list _ Name.code fun _ _ => Code.splits_of_length rfl
  cases o <;> cases p <;>
    first
    | exact Code.splits_of_length rfl
    | exact (hn _ _).cons _
    | exact Code.splits_of_ne (by decide) _ _

theorem PrimOp.splits_code (o p : PrimOp) : Code.Splits o.code p.code := by
  cases o <;> cases p <;>
    first | exact Code.splits_of_length rfl | exact Code.splits_of_ne (by decide) _ _

theorem LayoutOp.splits_code (o p : LayoutOp) : Code.Splits o.code p.code := by
  cases o <;> cases p <;> exact Code.splits_of_length rfl

theorem TupleOp.splits_code (o p : TupleOp) : Code.Splits o.code p.code := by
  cases o <;> cases p <;> exact Code.splits_of_length rfl

theorem ArrayOp.splits_code (o p : ArrayOp) : Code.Splits o.code p.code := by
  cases o <;> cases p <;>
    first | exact Code.splits_of_length rfl | exact Code.splits_of_ne (by decide) _ _

theorem TypeOp.splits_code (o p : TypeOp) : Code.Splits o.code p.code := by
  cases o <;> cases p <;>
    first | exact Code.splits_of_length rfl | exact Code.splits_of_ne (by decide) _ _

theorem Op.splits_code (o p : Op) : Code.Splits o.code p.code := by
  cases o <;> cases p <;>
    first
    | exact Code.splits_of_ne (by decide) _ _
    | exact Code.splits_of_length rfl
    | exact (PrimOp.splits_code _ _).cons _
    | exact (TupleOp.splits_code _ _).cons _
    | exact (ModuleOp.splits_code _ _).cons _
    | exact (LayoutOp.splits_code _ _).cons _
    | exact (ArrayOp.splits_code _ _).cons _
    | exact (TypeOp.splits_code _ _).cons _

/-! ### Codes of types and terms -/

mutual

/-- By constructor, then by parts from left to right. -/
def Ty.code : Ty → Code
  | .prim p => [0, p.rank]
  | .list items => 1 :: Ty.codeAll items
  | .lit l => 2 :: l.code
  | .map fields kind => 3 :: (Ty.codeFields fields ++ kind.code)
  | .layout l env kind => 4 :: l.rank :: (env.code ++ kind.code)
  | .closure dom range => 5 :: (dom.code ++ range.code)
  | .union members => 6 :: Ty.codeAll members
  | .recur key => [7, key.symbol]
  | .array storage elem => 8 :: storage.rank :: elem.code
  | .foreign target parts => 9 :: target.rank :: ForeignPart.codeAll parts

def Ty.codeAll : List Ty → Code
  | [] => [0]
  | t :: rest => 1 :: (t.code ++ Ty.codeAll rest)

def Ty.codeFields : List (Name × Ty) → Code
  | [] => [0]
  | (x, t) :: rest => 1 :: x.index :: (t.code ++ Ty.codeFields rest)

def ForeignPart.code : ForeignPart → Code
  | .text s => 0 :: Code.string s
  | .type t => 1 :: t.code

def ForeignPart.codeAll : List ForeignPart → Code
  | [] => [0]
  | p :: rest => 1 :: (p.code ++ ForeignPart.codeAll rest)

def Var.code : Var → Code
  | ⟨tag, t⟩ => tag :: t.code

def Var.codeAll : List Var → Code
  | [] => [0]
  | v :: rest => 1 :: (v.code ++ Var.codeAll rest)

def Term.code : Term → Code
  | .type t => 0 :: t.code
  | .var v => 1 :: v.code
  | .tuple items => 2 :: Term.codeAll items
  | .map env kind => 3 :: (env.code ++ kind.code)
  | .box inner t => 4 :: (inner.code ++ t.code)
  | .lit l => 5 :: l.code
  | .letIn bind bound rest trace => 6 :: (bind.code ++ bound.code ++ rest.code ++ trace.code)
  | .state stmt rest trace => 7 :: (stmt.code ++ rest.code ++ trace.code)
  | .op o args t => 8 :: (o.code ++ Term.codeAll args ++ t.code)
  | .call key kind args t => 9 :: key.symbol :: kind.rank :: (Var.codeAll args ++ t.code)

def Term.codeAll : List Term → Code
  | [] => [0]
  | t :: rest => 1 :: (t.code ++ Term.codeAll rest)

def Env.code : Env → Code
  | .plain fields => Env.codeFields (fun _ => true) fields
  | .restricted fields used => Env.codeFields used.contains fields
  | .consed _ fields => Env.codeFields (fun _ => true) fields

def Env.codeFields (keep : Name → Bool) : List (Name × Term) → Code
  | [] => [0]
  | (x, t) :: rest =>
    if keep x then 1 :: x.index :: (t.code ++ Env.codeFields keep rest)
    else Env.codeFields keep rest

end

@[simp] theorem Identity.accepts_content (symbol : Nat) (env : Env) :
    Identity.content.accepts symbol env = false := by
  cases env <;> rfl

theorem Env.codeFields_filter (keep : Name → Bool) (m : List (Name × Term)) :
    Env.codeFields keep m = Env.codeFields (fun _ => true) (m.filter fun e => keep e.1) := by
  induction m with
  | nil => simp [Env.codeFields]
  | cons e rest ih => by_cases h : keep e.1 = true <;> simp [Env.codeFields, h, ih]

theorem Env.code_eq_visible (env : Env) :
    env.code = Env.codeFields (fun _ => true) env.visible := by
  cases env with
  | plain m => rw [Env.code, Env.visible]
  | consed s m => rw [Env.code, Env.visible]
  | restricted m used => rw [Env.code, Env.visible, Env.codeFields_filter]

theorem Ty.cmp_of_ne {a b : Ty} (h : a.rank ≠ b.rank) (i : Identity) :
    a.cmp i b = compare a.rank b.rank := by
  cases a <;> cases b <;> first | exact absurd rfl h | rfl

theorem Ty.code_eq_cons (a : Ty) : ∃ c, a.code = (a.rank : Int) :: c := by
  cases a <;> exact ⟨_, by rw [Ty.code]; rfl⟩

theorem Ty.cmp_code_of_ne {a b : Ty} (h : a.rank ≠ b.rank) (x y : Code) :
    Code.cmp (a.code ++ x) (b.code ++ y) = (a.cmp .content b).then (Code.cmp x y) := by
  obtain ⟨c, hc⟩ := a.code_eq_cons
  obtain ⟨d, hd⟩ := b.code_eq_cons
  rw [Ty.cmp_of_ne h, hc, hd, List.cons_append, List.cons_append, Code.cmp_cons_nat]
  exact Code.then_eq_then h _ _

theorem Term.cmp_of_ne {a b : Term} (h : a.rank ≠ b.rank) (i : Identity) :
    a.cmp i b = compare a.rank b.rank := by
  cases a <;> cases b <;> first | exact absurd rfl h | rfl

theorem Term.code_eq_cons (a : Term) : ∃ c, a.code = (a.rank : Int) :: c := by
  cases a <;> exact ⟨_, by rw [Term.code]; rfl⟩

theorem Term.cmp_code_of_ne {a b : Term} (h : a.rank ≠ b.rank) (x y : Code) :
    Code.cmp (a.code ++ x) (b.code ++ y) = (a.cmp .content b).then (Code.cmp x y) := by
  obtain ⟨c, hc⟩ := a.code_eq_cons
  obtain ⟨d, hd⟩ := b.code_eq_cons
  rw [Term.cmp_of_ne h, hc, hd, List.cons_append, List.cons_append, Code.cmp_cons_nat]
  exact Code.then_eq_then h _ _

mutual

theorem Ty.cmp_code (a b : Ty) (x y : Code) :
    Code.cmp (a.code ++ x) (b.code ++ y) = (a.cmp .content b).then (Code.cmp x y) := by
  match a with
  | .prim p =>
    cases b with
    | prim q =>
      simp [Ty.code, Ty.cmp, Code.cmp_cons, Code.compare_natCast]
    | _ => exact Ty.cmp_code_of_ne (by simp [Ty.rank]) x y
  | .list as =>
    cases b with
    | list bs =>
      simp [Ty.code, Ty.cmp, Code.cmp_cons, Ty.cmpAll_code as bs x y]
    | _ => exact Ty.cmp_code_of_ne (by simp [Ty.rank]) x y
  | .lit l =>
    cases b with
    | lit m =>
         simp [Ty.code, Ty.cmp, Code.cmp_cons, Literal.splits_code l m x y, Literal.cmp]
    | _ => exact Ty.cmp_code_of_ne (by simp [Ty.rank]) x y
  | .map as k =>
    cases b with
    | map bs l =>
      simp [Ty.code, Ty.cmp, Code.cmp_cons, Ty.cmpFields_code as bs, MapKind.splits_code k l x y,
        Ordering.then_assoc]
    | _ => exact Ty.cmp_code_of_ne (by simp [Ty.rank]) x y
  | .layout l e k =>
    cases b with
    | layout m f j =>
      simp [Ty.code, Ty.cmp, Code.cmp_cons, Code.compare_natCast, Env.cmp_code e f,
        MapKind.splits_code k j x y, Ordering.then_assoc]
    | _ => exact Ty.cmp_code_of_ne (by simp [Ty.rank]) x y
  | .closure dom range =>
    cases b with
    | closure c d =>
      simp [Ty.code, Ty.cmp, Code.cmp_cons, Ty.cmp_code dom c, Ty.cmp_code range d,
        Ordering.then_assoc]
    | _ => exact Ty.cmp_code_of_ne (by simp [Ty.rank]) x y
  | .union as =>
    cases b with
    | union bs =>
      simp [Ty.code, Ty.cmp, Code.cmp_cons, Ty.cmpAll_code as bs x y]
    | _ => exact Ty.cmp_code_of_ne (by simp [Ty.rank]) x y
  | .recur k =>
    cases b with
    | recur l =>
      simp [Ty.code, Ty.cmp, Code.cmp_cons, Code.compare_natCast]
    | _ => exact Ty.cmp_code_of_ne (by simp [Ty.rank]) x y
  | .array s a =>
    cases b with
    | array t b =>
      simp [Ty.code, Ty.cmp, Code.cmp_cons, Code.compare_natCast, Ty.cmp_code a b,
        Ordering.then_assoc]
    | _ => exact Ty.cmp_code_of_ne (by simp [Ty.rank]) x y
  | .foreign t ps =>
    cases b with
    | foreign u qs =>
      simp [Ty.code, Ty.cmp, Code.cmp_cons, Code.compare_natCast, ForeignPart.cmpAll_code ps qs,
        Ordering.then_assoc]
    | _ => exact Ty.cmp_code_of_ne (by simp [Ty.rank]) x y
termination_by structural a

theorem Ty.cmpAll_code (as bs : List Ty) (x y : Code) :
    Code.cmp (Ty.codeAll as ++ x) (Ty.codeAll bs ++ y) =
      (Ty.cmpAll .content as bs).then (Code.cmp x y) := by
  match as, bs with
  | [], [] => simp [Ty.codeAll, Ty.cmpAll, Code.cmp_cons]
  | [], _ :: _ => simp [Ty.codeAll, Ty.cmpAll, Code.cmp]
  | _ :: _, [] => simp [Ty.codeAll, Ty.cmpAll, Code.cmp]
  | a :: as, b :: bs =>
    simp [Ty.codeAll, Ty.cmpAll, Code.cmp_cons, Ty.cmp_code a b, Ty.cmpAll_code as bs,
      Ordering.then_assoc]
termination_by structural as

theorem Ty.cmpFields_code (as bs : List (Name × Ty)) (x y : Code) :
    Code.cmp (Ty.codeFields as ++ x) (Ty.codeFields bs ++ y) =
      (Ty.cmpFields .content as bs).then (Code.cmp x y) := by
  match as, bs with
  | [], [] => simp [Ty.codeFields, Ty.cmpFields, Code.cmp_cons]
  | [], (_, _) :: _ => simp [Ty.codeFields, Ty.cmpFields, Code.cmp]
  | (_, _) :: _, [] => simp [Ty.codeFields, Ty.cmpFields, Code.cmp]
  | (_, a) :: as, (_, b) :: bs =>
    simp [Ty.codeFields, Ty.cmpFields, Code.cmp_cons, Code.compare_natCast, Ty.cmp_code a b,
      Ty.cmpFields_code as bs, Ordering.then_assoc]
termination_by structural as

theorem ForeignPart.cmp_code (a b : ForeignPart) (x y : Code) :
    Code.cmp (a.code ++ x) (b.code ++ y) = (a.cmp .content b).then (Code.cmp x y) := by
  match a, b with
  | .text s, .text t =>
    simp [ForeignPart.code, ForeignPart.cmp, Code.cmp_cons, Code.splits_string s t x y]
  | .type a, .type b =>
    simp [ForeignPart.code, ForeignPart.cmp, Code.cmp_cons, Ty.cmp_code a b]
  | .text s, .type b => simp [ForeignPart.code, ForeignPart.cmp, Code.cmp]; rfl
  | .type a, .text t => simp [ForeignPart.code, ForeignPart.cmp, Code.cmp]; rfl
termination_by structural a

theorem ForeignPart.cmpAll_code (as bs : List ForeignPart) (x y : Code) :
    Code.cmp (ForeignPart.codeAll as ++ x) (ForeignPart.codeAll bs ++ y) =
      (ForeignPart.cmpAll .content as bs).then (Code.cmp x y) := by
  match as, bs with
  | [], [] => simp [ForeignPart.codeAll, ForeignPart.cmpAll, Code.cmp_cons]
  | [], _ :: _ => simp [ForeignPart.codeAll, ForeignPart.cmpAll, Code.cmp]
  | _ :: _, [] => simp [ForeignPart.codeAll, ForeignPart.cmpAll, Code.cmp]
  | a :: as, b :: bs =>
    simp [ForeignPart.codeAll, ForeignPart.cmpAll, Code.cmp_cons, ForeignPart.cmp_code a b,
      ForeignPart.cmpAll_code as bs, Ordering.then_assoc]
termination_by structural as

theorem Var.cmp_code (a b : Var) (x y : Code) :
    Code.cmp (a.code ++ x) (b.code ++ y) = (a.cmp .content b).then (Code.cmp x y) := by
  match a, b with
  | ⟨s, a⟩, ⟨t, b⟩ =>
    simp [Var.code, Var.cmp, Code.cmp_cons, Code.compare_natCast, Ty.cmp_code a b,
      Ordering.then_assoc]
termination_by structural a

theorem Var.cmpAll_code (as bs : List Var) (x y : Code) :
    Code.cmp (Var.codeAll as ++ x) (Var.codeAll bs ++ y) =
      (Var.cmpAll .content as bs).then (Code.cmp x y) := by
  match as, bs with
  | [], [] => simp [Var.codeAll, Var.cmpAll, Code.cmp_cons]
  | [], _ :: _ => simp [Var.codeAll, Var.cmpAll, Code.cmp]
  | _ :: _, [] => simp [Var.codeAll, Var.cmpAll, Code.cmp]
  | a :: as, b :: bs =>
    simp [Var.codeAll, Var.cmpAll, Code.cmp_cons, Var.cmp_code a b, Var.cmpAll_code as bs,
      Ordering.then_assoc]
termination_by structural as

theorem Term.cmp_code (a b : Term) (x y : Code) :
    Code.cmp (a.code ++ x) (b.code ++ y) = (a.cmp .content b).then (Code.cmp x y) := by
  match a with
  | .type a =>
    cases b with
    | type b =>
      simp [Term.code, Term.cmp, Code.cmp_cons, Ty.cmp_code a b]
    | _ => exact Term.cmp_code_of_ne (by simp [Term.rank]) x y
  | .var v =>
    cases b with
    | var w =>
      simp [Term.code, Term.cmp, Code.cmp_cons, Var.cmp_code v w]
    | _ => exact Term.cmp_code_of_ne (by simp [Term.rank]) x y
  | .tuple as =>
    cases b with
    | tuple bs =>
      simp [Term.code, Term.cmp, Code.cmp_cons, Term.cmpAll_code as bs]
    | _ => exact Term.cmp_code_of_ne (by simp [Term.rank]) x y
  | .map e k =>
    cases b with
    | map f l =>
      simp [Term.code, Term.cmp, Code.cmp_cons, Env.cmp_code e f, MapKind.splits_code k l x y,
        Ordering.then_assoc]
    | _ => exact Term.cmp_code_of_ne (by simp [Term.rank]) x y
  | .box a s =>
    cases b with
    | box b t =>
      simp [Term.code, Term.cmp, Code.cmp_cons, Term.cmp_code a b, Ty.cmp_code s t,
        Ordering.then_assoc]
    | _ => exact Term.cmp_code_of_ne (by simp [Term.rank]) x y
  | .lit l =>
    cases b with
    | lit m =>
         simp [Term.code, Term.cmp, Code.cmp_cons, Literal.splits_code l m x y, Literal.cmp]
    | _ => exact Term.cmp_code_of_ne (by simp [Term.rank]) x y
  | .letIn v a r s =>
    cases b with
    | letIn w b q t =>
      simp [Term.code, Term.cmp, Code.cmp_cons, Var.cmp_code v w, Term.cmp_code a b,
        Term.cmp_code r q, Trace.splits_code s t x y, Ordering.then_assoc]
    | _ => exact Term.cmp_code_of_ne (by simp [Term.rank]) x y
  | .state a r s =>
    cases b with
    | state b q t =>
      simp [Term.code, Term.cmp, Code.cmp_cons, Term.cmp_code a b, Term.cmp_code r q,
        Trace.splits_code s t x y, Ordering.then_assoc]
    | _ => exact Term.cmp_code_of_ne (by simp [Term.rank]) x y
  | .op o as s =>
    cases b with
    | op p bs t =>
      simp [Term.code, Term.cmp, Code.cmp_cons, Op.splits_code o p _ _, Op.cmp,
        Term.cmpAll_code as bs, Ty.cmp_code s t, Ordering.then_assoc]
    | _ => exact Term.cmp_code_of_ne (by simp [Term.rank]) x y
  | .call k j vs s =>
    cases b with
    | call l m ws t =>
      simp [Term.code, Term.cmp, Code.cmp_cons, Code.compare_natCast, Var.cmpAll_code vs ws,
        Ty.cmp_code s t, Ordering.then_assoc]
    | _ => exact Term.cmp_code_of_ne (by simp [Term.rank]) x y
termination_by structural a

theorem Term.cmpAll_code (as bs : List Term) (x y : Code) :
    Code.cmp (Term.codeAll as ++ x) (Term.codeAll bs ++ y) =
      (Term.cmpAll .content as bs).then (Code.cmp x y) := by
  match as, bs with
  | [], [] => simp [Term.codeAll, Term.cmpAll, Code.cmp_cons]
  | [], _ :: _ => simp [Term.codeAll, Term.cmpAll, Code.cmp]
  | _ :: _, [] => simp [Term.codeAll, Term.cmpAll, Code.cmp]
  | a :: as, b :: bs =>
    simp [Term.codeAll, Term.cmpAll, Code.cmp_cons, Term.cmp_code a b, Term.cmpAll_code as bs,
      Ordering.then_assoc]
termination_by structural as

theorem Env.cmp_code (a b : Env) (x y : Code) :
    Code.cmp (a.code ++ x) (b.code ++ y) = (a.cmp .content b).then (Code.cmp x y) := by
  rw [Env.code_eq_visible b]
  match a with
  | .plain m => simp only [Env.code, Env.cmp, Env.cmpFields_code _ m b.visible x y]
  | .restricted m used => simp only [Env.code, Env.cmp, Env.cmpFields_code _ m b.visible x y]
  | .consed s m =>
    simp only [Env.code, Env.cmp, Env.cmpFields_code _ m b.visible x y, Identity.accepts_content]
    rfl
termination_by structural a

theorem Env.cmpFields_code (keep : Name → Bool) (as bs : List (Name × Term)) (x y : Code) :
    Code.cmp (Env.codeFields keep as ++ x) (Env.codeFields (fun _ => true) bs ++ y) =
      (Env.cmpFields .content keep as bs).then (Code.cmp x y) := by
  match as with
  | [] =>
    cases bs with
    | nil =>
      simp [Env.codeFields, Env.cmpFields, Code.cmp_cons]
    | cons b bs =>
      simp [Env.codeFields, Env.cmpFields, Code.cmp]
  | (z, a) :: as =>
    by_cases h : keep z = true
    · cases bs with
      | nil =>
      simp [Env.codeFields, Env.cmpFields, Code.cmp, h]
      | cons b bs =>
        simp [Env.codeFields, Env.cmpFields, Code.cmp_cons, Code.compare_natCast, h,
        Term.cmp_code a b.2, Env.cmpFields_code keep as bs, Ordering.then_assoc]
    · simp [Env.codeFields, Env.cmpFields, h, Env.cmpFields_code keep as bs]
termination_by structural as

end

/-! ### The order -/

theorem Ty.cmp_content (a b : Ty) : a.cmp .content b = Code.cmp a.code b.code := by
  simpa [Code.cmp] using (Ty.cmp_code a b [] []).symm

theorem ForeignPart.cmp_content (a b : ForeignPart) :
    a.cmp .content b = Code.cmp a.code b.code := by
  simpa [Code.cmp] using (ForeignPart.cmp_code a b [] []).symm

theorem Term.cmp_content (a b : Term) : a.cmp .content b = Code.cmp a.code b.code := by
  simpa [Code.cmp] using (Term.cmp_code a b [] []).symm

theorem Env.cmp_content (a b : Env) : a.cmp .content b = Code.cmp a.code b.code := by
  simpa [Code.cmp] using (Env.cmp_code a b [] []).symm

end Residual
