import Residual.Proofs.Typed.TypeCodes
import Residual.Eval.Branch

/-!
The canonical form of types and terms.

In canonical form every environment lists its visible bindings, whatever form it had. The type of
a term, its code and whether it ends in a miss can be read off the canonical form, and so can what
an environment shows.
-/

namespace Residual

mutual

/-- The type with all environments in it as plain lists of visible bindings. -/
def Ty.canon : Ty → Ty
  | .prim p => .prim p
  | .list items => .list (Ty.canonAll items)
  | .lit l => .lit l
  | .map fields kind => .map (Ty.canonFields fields) kind
  | .layout l env kind => .layout l env.canon kind
  | .closure dom range => .closure dom.canon range.canon
  | .union members => .union (Ty.canonAll members)
  | .recur key => .recur key
  | .array storage elem => .array storage elem.canon
  | .foreign target parts => .foreign target (ForeignPart.canonAll parts)

def Ty.canonAll : List Ty → List Ty
  | [] => []
  | t :: rest => t.canon :: Ty.canonAll rest

def Ty.canonFields : List (Name × Ty) → List (Name × Ty)
  | [] => []
  | (x, t) :: rest => (x, t.canon) :: Ty.canonFields rest

def ForeignPart.canon : ForeignPart → ForeignPart
  | .text s => .text s
  | .type t => .type t.canon

def ForeignPart.canonAll : List ForeignPart → List ForeignPart
  | [] => []
  | p :: rest => p.canon :: ForeignPart.canonAll rest

def Var.canon : Var → Var
  | ⟨tag, t⟩ => ⟨tag, t.canon⟩

def Var.canonAll : List Var → List Var
  | [] => []
  | v :: rest => v.canon :: Var.canonAll rest

/-- The term with all environments in it as plain lists of visible bindings. -/
def Term.canon : Term → Term
  | .type t => .type t.canon
  | .var v => .var v.canon
  | .tuple items => .tuple (Term.canonAll items)
  | .map env kind => .map env.canon kind
  | .box inner t => .box inner.canon t.canon
  | .lit l => .lit l
  | .letIn bind bound rest trace => .letIn bind.canon bound.canon rest.canon trace
  | .state stmt rest trace => .state stmt.canon rest.canon trace
  | .op o args t => .op o (Term.canonAll args) t.canon
  | .call key kind args t => .call key kind (Var.canonAll args) t.canon

def Term.canonAll : List Term → List Term
  | [] => []
  | t :: rest => t.canon :: Term.canonAll rest

/-- The visible bindings, as a plain list. -/
def Env.canon : Env → Env
  | .plain m => .plain (Env.canonFields (fun _ => true) m)
  | .restricted m used => .plain (Env.canonFields used.contains m)
  | .consed _ m => .plain (Env.canonFields (fun _ => true) m)

def Env.canonFields (keep : Name → Bool) : List (Name × Term) → List (Name × Term)
  | [] => []
  | (x, t) :: rest =>
    if keep x then (x, t.canon) :: Env.canonFields keep rest else Env.canonFields keep rest

end

-- The equations are worked out here once, and not by each of the proofs below at the same time.
attribute [grind =] Ty.canon Ty.canonAll Ty.canonFields ForeignPart.canon ForeignPart.canonAll
  Var.canon Var.canonAll Term.canon Term.canonAll Env.canon Env.canonFields

/-! ### Lists of parts -/

@[simp] lemma Ty.canonAll_eq (ts : List Ty) : Ty.canonAll ts = ts.map Ty.canon := by
  induction ts with
  | nil => rfl
  | cons t rest ih => rw [Ty.canonAll, ih, List.map_cons]

@[simp] lemma Ty.canonFields_eq (m : List (Name × Ty)) :
    Ty.canonFields m = m.map fun e => (e.1, e.2.canon) := by
  induction m with
  | nil => rfl
  | cons e rest ih => rw [Ty.canonFields, ih, List.map_cons]

@[simp] lemma ForeignPart.canonAll_eq (ps : List ForeignPart) :
    ForeignPart.canonAll ps = ps.map ForeignPart.canon := by
  induction ps with
  | nil => rfl
  | cons p rest ih => rw [ForeignPart.canonAll, ih, List.map_cons]

@[simp] lemma Var.canonAll_eq (vs : List Var) : Var.canonAll vs = vs.map Var.canon := by
  induction vs with
  | nil => rfl
  | cons v rest ih => rw [Var.canonAll, ih, List.map_cons]

@[simp] lemma Term.canonAll_eq (ts : List Term) : Term.canonAll ts = ts.map Term.canon := by
  induction ts with
  | nil => rfl
  | cons t rest ih => rw [Term.canonAll, ih, List.map_cons]

/-- The canonical form of a map, all of it. -/
def Fields.canon (m : Fields Term) : Fields Term := m.map fun e => (e.1, e.2.canon)

lemma Env.canonFields_eq (keep : Name → Bool) (m : List (Name × Term)) :
    Env.canonFields keep m = Fields.canon (m.filter fun e => keep e.1) := by
  induction m with
  | nil => rfl
  | cons e rest ih =>
    rw [Env.canonFields, ih, List.filter_cons]
    split <;> rfl

lemma Env.canon_eq (env : Env) : env.canon = .plain (Fields.canon env.visible) := by
  cases env with
  | plain m => rw [Env.canon, Env.canonFields_eq, List.filter_eq_self.2 fun _ _ => rfl, visible]
  | consed s m => rw [Env.canon, Env.canonFields_eq, List.filter_eq_self.2 fun _ _ => rfl, visible]
  | restricted m used => rw [Env.canon, Env.canonFields_eq, visible]

lemma Env.canon_eq_iff {a b : Env} :
    a.canon = b.canon ↔ Fields.canon a.visible = Fields.canon b.visible := by
  rw [Env.canon_eq, Env.canon_eq, Env.plain.injEq]

/-! ### Fields -/

namespace Fields

@[simp] lemma canon_nil : canon [] = [] := rfl

@[simp] lemma canon_cons (e : Name × Term) (m : Fields Term) :
    canon (e :: m) = (e.1, e.2.canon) :: canon m := rfl

lemma ofList_canon (m : List (Name × Term)) : canon (ofList m) = ofList (canon m) :=
  (ofList_map Term.canon m).symm

end Fields

/-! ### Inversion -/

lemma Ty.canon_eq_union {members : List Ty} {t : Ty} (h : (Ty.union members).canon = t.canon) :
    ∃ members', t = .union members' ∧ members.map canon = members'.map canon := by
  cases t <;> simp_all [Ty.canon]

/-! ### What can be read off the canonical form -/

mutual

lemma Ty.isUnit_canon (t : Ty) : t.canon.isUnit = t.isUnit := by
  match t with
  | .list items => rw [Ty.canon, Ty.isUnit, Ty.isUnit, Ty.allUnit_canon items]
  | .map fields kind => rw [Ty.canon, Ty.isUnit, Ty.isUnit, Ty.fieldsUnit_canon fields]
  | .prim _ | .lit _ | .layout _ _ _ | .closure _ _ | .union _ | .recur _ | .array _ _
  | .foreign _ _ => rfl
termination_by structural t

lemma Ty.allUnit_canon (ts : List Ty) : Ty.allUnit (Ty.canonAll ts) = Ty.allUnit ts := by
  match ts with
  | [] => rfl
  | t :: rest => rw [Ty.canonAll, Ty.allUnit, Ty.allUnit, Ty.isUnit_canon t, Ty.allUnit_canon rest]
termination_by structural ts

lemma Ty.fieldsUnit_canon (m : List (Name × Ty)) :
    Ty.fieldsUnit (Ty.canonFields m) = Ty.fieldsUnit m := by
  match m with
  | [] => rfl
  | (x, t) :: rest =>
    rw [Ty.canonFields, Ty.fieldsUnit, Ty.fieldsUnit, Ty.isUnit_canon t, Ty.fieldsUnit_canon rest]
termination_by structural m

end

mutual

lemma Term.ofUnit_canon (t : Ty) : (Term.ofUnit t).canon = Term.ofUnit t.canon := by
  match t with
  | .list items => rw [Ty.canon, Term.ofUnit, Term.ofUnit, Term.canon, Term.ofUnits_canon items]
  | .map fields kind =>
    rw [Ty.canon, Term.ofUnit, Term.ofUnit, Term.canon, Env.canon, Term.ofUnitFields_canon fields]
  | .prim _ | .lit _ | .layout _ _ _ | .closure _ _ | .union _ | .recur _ | .array _ _
  | .foreign _ _ => rfl
termination_by structural t

lemma Term.ofUnits_canon (ts : List Ty) :
    Term.canonAll (Term.ofUnits ts) = Term.ofUnits (Ty.canonAll ts) := by
  match ts with
  | [] => rfl
  | t :: rest =>
    rw [Term.ofUnits, Term.canonAll, Ty.canonAll, Term.ofUnits, Term.ofUnit_canon t,
      Term.ofUnits_canon rest]
termination_by structural ts

lemma Term.ofUnitFields_canon (m : List (Name × Ty)) :
    Env.canonFields (fun _ => true) (Term.ofUnitFields m) =
      Term.ofUnitFields (Ty.canonFields m) := by
  match m with
  | [] => rfl
  | (x, t) :: rest =>
    rw [Term.ofUnitFields, Env.canonFields, if_pos rfl, Ty.canonFields, Term.ofUnitFields,
      Term.ofUnit_canon t, Term.ofUnitFields_canon rest]
termination_by structural m

end

mutual

lemma Term.ty_canon (t : Term) : t.canon.ty = t.ty.canon := by
  match t with
  | .type _ | .var ⟨_, _⟩ | .box _ _ | .lit _ | .op _ _ _ | .call _ _ _ _ => rfl
  | .tuple items => rw [Term.canon, Term.ty, Term.ty, Ty.canon, Term.tys_canon items]
  | .map env kind => rw [Term.canon, Term.ty, Term.ty, Ty.canon, Env.tys_canon env]
  | .letIn _ _ rest _ => exact Term.ty_canon rest
  | .state _ rest _ => exact Term.ty_canon rest
termination_by structural t

lemma Term.tys_canon (ts : List Term) :
    Term.tys (Term.canonAll ts) = Ty.canonAll (Term.tys ts) := by
  match ts with
  | [] => rfl
  | t :: rest =>
    rw [Term.canonAll, Term.tys, Term.tys, Ty.canonAll, Term.ty_canon t, Term.tys_canon rest]
termination_by structural ts

lemma Env.tys_canon (env : Env) :
    Term.envTys env.canon = Ty.canonFields (Term.envTys env) := by
  match env with
  | .plain m => exact Env.fieldTys_canon _ m
  | .restricted m used => exact Env.fieldTys_canon _ m
  | .consed _ m => exact Env.fieldTys_canon _ m
termination_by structural env

lemma Env.fieldTys_canon (keep : Name → Bool) (m : List (Name × Term)) :
    Term.fieldTys (fun _ => true) (Env.canonFields keep m) =
      Ty.canonFields (Term.fieldTys keep m) := by
  match m with
  | [] => rfl
  | (x, t) :: rest =>
    rw [Env.canonFields, Term.fieldTys]
    split
    · rw [Term.fieldTys, if_pos rfl, Ty.canonFields, Term.ty_canon t, Env.fieldTys_canon keep rest]
    · exact Env.fieldTys_canon keep rest
termination_by structural m

end

lemma Term.lit?_canon (t : Term) : t.canon.lit? = t.lit? := by
  cases t with
  | type t => cases t <;> rfl
  | _ => rfl

lemma Term.endsInMiss_canon (t : Term) : t.canon.endsInMiss = t.endsInMiss := by
  have htail : ∀ t : Term, t.canon.tail = t.tail.canon := by
    intro t
    fun_induction Term.tail t with
    | case1 bind bound rest trace ih => exact ih
    | case2 stmt rest trace ih => exact ih
    | case3 t hlet hstate =>
      cases t with
      | letIn bind bound rest trace => exact absurd rfl (hlet bind bound rest trace)
      | state stmt rest trace => exact absurd rfl (hstate stmt rest trace)
      | _ => rfl
  rw [Term.endsInMiss, Term.endsInMiss, htail]
  cases t.tail with
  | op o args ty => cases o <;> rfl
  | _ => rfl

lemma Term.retypeMiss_canon (ty : Ty) (t : Term) :
    (t.retypeMiss ty).canon = t.canon.retypeMiss ty.canon := by
  match t with
  | .letIn bind bound rest trace =>
    exact congrArg (Term.letIn bind.canon bound.canon · trace) (Term.retypeMiss_canon ty rest)
  | .state stmt rest trace =>
    exact congrArg (Term.state stmt.canon · trace) (Term.retypeMiss_canon ty rest)
  | .op o args old => cases o <;> rfl
  | .type _ | .lit _ | .var _ | .tuple _ | .map _ _ | .box _ _ | .call _ _ _ _ => rfl
termination_by structural t

mutual

lemma Ty.mentions_canon (key : Key) (t : Ty) : t.canon.mentions key = t.mentions key := by
  match t with
  | .prim _ | .lit _ | .recur _ => rfl
  | .list items => exact Ty.anyMentions_canon key items
  | .union members => exact Ty.anyMentions_canon key members
  | .map fields kind => exact Ty.fieldsMention_canon key fields
  | .layout l env kind => exact Env.typeMentions_canon key env
  | .closure dom range =>
    rw [Ty.canon, Ty.mentions, Ty.mentions, Ty.mentions_canon key dom, Ty.mentions_canon key range]
  | .array storage elem => exact Ty.mentions_canon key elem
  | .foreign target parts => exact ForeignPart.anyMentions_canon key parts
termination_by structural t

lemma Ty.anyMentions_canon (key : Key) (ts : List Ty) :
    Ty.anyMentions key (Ty.canonAll ts) = Ty.anyMentions key ts := by
  match ts with
  | [] => rfl
  | t :: rest =>
    rw [Ty.canonAll, Ty.anyMentions, Ty.anyMentions, Ty.mentions_canon key t,
      Ty.anyMentions_canon key rest]
termination_by structural ts

lemma Ty.fieldsMention_canon (key : Key) (m : List (Name × Ty)) :
    Ty.fieldsMention key (Ty.canonFields m) = Ty.fieldsMention key m := by
  match m with
  | [] => rfl
  | (x, t) :: rest =>
    rw [Ty.canonFields, Ty.fieldsMention, Ty.fieldsMention, Ty.mentions_canon key t,
      Ty.fieldsMention_canon key rest]
termination_by structural m

lemma ForeignPart.mentions_canon (key : Key) (p : ForeignPart) :
    p.canon.mentions key = p.mentions key := by
  match p with
  | .text s => rfl
  | .type t => exact Ty.mentions_canon key t
termination_by structural p

lemma ForeignPart.anyMentions_canon (key : Key) (ps : List ForeignPart) :
    ForeignPart.anyMentions key (ForeignPart.canonAll ps) = ForeignPart.anyMentions key ps := by
  match ps with
  | [] => rfl
  | p :: rest =>
    rw [ForeignPart.canonAll, ForeignPart.anyMentions, ForeignPart.anyMentions,
      ForeignPart.mentions_canon key p, ForeignPart.anyMentions_canon key rest]
termination_by structural ps

lemma Term.typeMentions_canon (key : Key) (t : Term) :
    t.canon.typeMentions key = t.typeMentions key := by
  match t with
  | .type t => exact Ty.mentions_canon key t
  | .var ⟨_, t⟩ => exact Ty.mentions_canon key t
  | .tuple items => exact Term.anyTypeMentions_canon key items
  | .map env kind => exact Env.typeMentions_canon key env
  | .box inner t => exact Ty.mentions_canon key t
  | .lit _ => rfl
  | .letIn _ _ rest _ => exact Term.typeMentions_canon key rest
  | .state _ rest _ => exact Term.typeMentions_canon key rest
  | .op _ _ t => exact Ty.mentions_canon key t
  | .call _ _ _ t => exact Ty.mentions_canon key t
termination_by structural t

lemma Term.anyTypeMentions_canon (key : Key) (ts : List Term) :
    Term.anyTypeMentions key (Term.canonAll ts) = Term.anyTypeMentions key ts := by
  match ts with
  | [] => rfl
  | t :: rest =>
    rw [Term.canonAll, Term.anyTypeMentions, Term.anyTypeMentions, Term.typeMentions_canon key t,
      Term.anyTypeMentions_canon key rest]
termination_by structural ts

lemma Env.typeMentions_canon (key : Key) (env : Env) :
    env.canon.typeMentions key = env.typeMentions key := by
  match env with
  | .plain m => exact Env.fieldsMention_canon key _ m
  | .restricted m used => exact Env.fieldsMention_canon key _ m
  | .consed _ m => exact Env.fieldsMention_canon key _ m
termination_by structural env

lemma Env.fieldsMention_canon (key : Key) (keep : Name → Bool) (m : List (Name × Term)) :
    Env.fieldsMention key (fun _ => true) (Env.canonFields keep m) =
      Env.fieldsMention key keep m := by
  match m with
  | [] => rfl
  | (x, t) :: rest =>
    rw [Env.canonFields, Env.fieldsMention]
    split
    · rename_i hx
      rw [Env.fieldsMention, Term.typeMentions_canon key t, Env.fieldsMention_canon key keep rest,
        hx]
    · rename_i hx
      rw [Env.fieldsMention_canon key keep rest, Bool.eq_false_iff.2 hx, Bool.false_and,
        Bool.false_or]
termination_by structural m

end

/-! ### Codes -/

mutual

lemma Ty.code_canon (t : Ty) : t.canon.code = t.code := by
  match t with
  | .prim _ | .lit _ | .recur _ => rfl
  | .list items => rw [Ty.canon, Ty.code, Ty.code, Ty.codeAll_canon items]
  | .union members => rw [Ty.canon, Ty.code, Ty.code, Ty.codeAll_canon members]
  | .map fields kind => rw [Ty.canon, Ty.code, Ty.code, Ty.codeFields_canon fields]
  | .layout l env kind => rw [Ty.canon, Ty.code, Ty.code, Env.code_canon env]
  | .closure dom range =>
    rw [Ty.canon, Ty.code, Ty.code, Ty.code_canon dom, Ty.code_canon range]
  | .array storage elem => rw [Ty.canon, Ty.code, Ty.code, Ty.code_canon elem]
  | .foreign target parts => rw [Ty.canon, Ty.code, Ty.code, ForeignPart.codeAll_canon parts]
termination_by structural t

lemma Ty.codeAll_canon (ts : List Ty) : Ty.codeAll (Ty.canonAll ts) = Ty.codeAll ts := by
  match ts with
  | [] => rfl
  | t :: rest => rw [Ty.canonAll, Ty.codeAll, Ty.codeAll, Ty.code_canon t, Ty.codeAll_canon rest]
termination_by structural ts

lemma Ty.codeFields_canon (m : List (Name × Ty)) :
    Ty.codeFields (Ty.canonFields m) = Ty.codeFields m := by
  match m with
  | [] => rfl
  | (x, t) :: rest =>
    rw [Ty.canonFields, Ty.codeFields, Ty.codeFields, Ty.code_canon t, Ty.codeFields_canon rest]
termination_by structural m

lemma ForeignPart.code_canon (p : ForeignPart) : p.canon.code = p.code := by
  match p with
  | .text s => rfl
  | .type t => rw [ForeignPart.canon, ForeignPart.code, ForeignPart.code, Ty.code_canon t]
termination_by structural p

lemma ForeignPart.codeAll_canon (ps : List ForeignPart) :
    ForeignPart.codeAll (ForeignPart.canonAll ps) = ForeignPart.codeAll ps := by
  match ps with
  | [] => rfl
  | p :: rest =>
    rw [ForeignPart.canonAll, ForeignPart.codeAll, ForeignPart.codeAll, ForeignPart.code_canon p,
      ForeignPart.codeAll_canon rest]
termination_by structural ps

lemma Var.code_canon (v : Var) : v.canon.code = v.code := by
  match v with
  | ⟨tag, t⟩ => rw [Var.canon, Var.code, Var.code, Ty.code_canon t]
termination_by structural v

lemma Var.codeAll_canon (vs : List Var) : Var.codeAll (Var.canonAll vs) = Var.codeAll vs := by
  match vs with
  | [] => rfl
  | v :: rest =>
    rw [Var.canonAll, Var.codeAll, Var.codeAll, Var.code_canon v, Var.codeAll_canon rest]
termination_by structural vs

lemma Term.code_canon (t : Term) : t.canon.code = t.code := by
  match t with
  | .type t => rw [Term.canon, Term.code, Term.code, Ty.code_canon t]
  | .var v => rw [Term.canon, Term.code, Term.code, Var.code_canon v]
  | .tuple items => rw [Term.canon, Term.code, Term.code, Term.codeAll_canon items]
  | .map env kind => rw [Term.canon, Term.code, Term.code, Env.code_canon env]
  | .box inner t =>
    rw [Term.canon, Term.code, Term.code, Term.code_canon inner, Ty.code_canon t]
  | .lit _ => rfl
  | .letIn bind bound rest trace =>
    rw [Term.canon, Term.code, Term.code, Var.code_canon bind, Term.code_canon bound,
      Term.code_canon rest]
  | .state stmt rest trace =>
    rw [Term.canon, Term.code, Term.code, Term.code_canon stmt, Term.code_canon rest]
  | .op o args t =>
    rw [Term.canon, Term.code, Term.code, Term.codeAll_canon args, Ty.code_canon t]
  | .call key kind args t =>
    rw [Term.canon, Term.code, Term.code, Var.codeAll_canon args, Ty.code_canon t]
termination_by structural t

lemma Term.codeAll_canon (ts : List Term) :
    Term.codeAll (Term.canonAll ts) = Term.codeAll ts := by
  match ts with
  | [] => rfl
  | t :: rest =>
    rw [Term.canonAll, Term.codeAll, Term.codeAll, Term.code_canon t, Term.codeAll_canon rest]
termination_by structural ts

lemma Env.code_canon (env : Env) : env.canon.code = env.code := by
  match env with
  | .plain m => exact Env.codeFields_canon _ m
  | .restricted m used => exact Env.codeFields_canon _ m
  | .consed _ m => exact Env.codeFields_canon _ m
termination_by structural env

lemma Env.codeFields_canon (keep : Name → Bool) (m : List (Name × Term)) :
    Env.codeFields (fun _ => true) (Env.canonFields keep m) = Env.codeFields keep m := by
  match m with
  | [] => rfl
  | (x, t) :: rest =>
    rw [Env.canonFields, Env.codeFields]
    split
    · rw [Env.codeFields, if_pos rfl, Term.code_canon t, Env.codeFields_canon keep rest]
    · exact Env.codeFields_canon keep rest
termination_by structural m

end

lemma Ty.code_of_canon {s t : Ty} (h : s.canon = t.canon) : s.code = t.code := by
  rw [← Ty.code_canon s, h, Ty.code_canon]

lemma Term.ty_of_canon {a b : Term} (h : a.canon = b.canon) : a.ty.canon = b.ty.canon := by
  rw [← Term.ty_canon, h, Term.ty_canon]

lemma Ty.isUnit_of_canon {s t : Ty} (h : s.canon = t.canon) : s.isUnit = t.isUnit := by
  rw [← Ty.isUnit_canon, h, Ty.isUnit_canon]

lemma Term.ofUnit_of_canon {s t : Ty} (h : s.canon = t.canon) :
    (Term.ofUnit s).canon = (Term.ofUnit t).canon := by
  rw [Term.ofUnit_canon, h, Term.ofUnit_canon]

lemma Fields.code_canon (m : Fields Term) : Fields.code (Fields.canon m) = Fields.code m := by
  have h := Env.codeFields_canon (fun _ => true) m
  rwa [Env.canonFields_eq, List.filter_eq_self.2 fun _ _ => rfl] at h

end Residual
