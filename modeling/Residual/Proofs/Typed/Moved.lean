import Residual.Eval.Branch
import Residual.Eval.Module
import Residual.Eval.Tuple
import Residual.Proofs.Surface.Moved

/-!
Types and terms with other source positions.

A move replaces the positions in the code of functions and the traces of bindings and statements.
What a term is apart from them it keeps: its type, its content, what can be seen in its
environments.
-/

namespace Residual

/-- Other positions for those of code, and other traces for those of bindings. -/
structure Move where
  span : Span → Span
  trace : Trace → Trace

namespace Move

/-- The first move, then the second. -/
def andThen (m n : Move) : Move := ⟨n.span ∘ m.span, n.trace ∘ m.trace⟩

end Move

def MapKind.moved (m : Move) : MapKind → MapKind
  | .function param body => .function param (body.moved m.span)
  | .recFunction this param body => .recFunction this param (body.moved m.span)
  | .module => .module

mutual

def Ty.moved (m : Move) : Ty → Ty
  | .prim p => .prim p
  | .list items => .list (Ty.movedAll m items)
  | .lit l => .lit l
  | .map fields kind => .map (Ty.movedFields m fields) (kind.moved m)
  | .layout l env kind => .layout l (env.moved m) (kind.moved m)
  | .closure dom range => .closure (dom.moved m) (range.moved m)
  | .union members => .union (Ty.movedAll m members)
  | .recur key => .recur key
  | .array storage elem => .array storage (elem.moved m)
  | .foreign target parts => .foreign target (ForeignPart.movedAll m parts)

def Ty.movedAll (m : Move) : List Ty → List Ty
  | [] => []
  | t :: rest => t.moved m :: Ty.movedAll m rest

def Ty.movedFields (m : Move) : List (Name × Ty) → List (Name × Ty)
  | [] => []
  | (x, t) :: rest => (x, t.moved m) :: Ty.movedFields m rest

def ForeignPart.moved (m : Move) : ForeignPart → ForeignPart
  | .text s => .text s
  | .type t => .type (t.moved m)

def ForeignPart.movedAll (m : Move) : List ForeignPart → List ForeignPart
  | [] => []
  | p :: rest => p.moved m :: ForeignPart.movedAll m rest

def Var.moved (m : Move) : Var → Var
  | ⟨tag, t⟩ => ⟨tag, t.moved m⟩

def Var.movedAll (m : Move) : List Var → List Var
  | [] => []
  | v :: rest => v.moved m :: Var.movedAll m rest

def Term.moved (m : Move) : Term → Term
  | .type t => .type (t.moved m)
  | .var v => .var (v.moved m)
  | .tuple items => .tuple (Term.movedAll m items)
  | .map env kind => .map (env.moved m) (kind.moved m)
  | .box inner t => .box (inner.moved m) (t.moved m)
  | .lit l => .lit l
  | .letIn bind bound rest trace =>
    .letIn (bind.moved m) (bound.moved m) (rest.moved m) (m.trace trace)
  | .state stmt rest trace => .state (stmt.moved m) (rest.moved m) (m.trace trace)
  | .op o args t => .op o (Term.movedAll m args) (t.moved m)
  | .call key kind args t => .call key kind (Var.movedAll m args) (t.moved m)

def Term.movedAll (m : Move) : List Term → List Term
  | [] => []
  | t :: rest => t.moved m :: Term.movedAll m rest

def Env.moved (m : Move) : Env → Env
  | .plain fields => .plain (Env.movedFields m fields)
  | .restricted fields used => .restricted (Env.movedFields m fields) used
  | .consed symbol fields => .consed symbol (Env.movedFields m fields)

def Env.movedFields (m : Move) : List (Name × Term) → List (Name × Term)
  | [] => []
  | (x, t) :: rest => (x, t.moved m) :: Env.movedFields m rest

end

-- The equations are worked out here once, and not by each of the proofs below at the same time.
attribute [grind =] Ty.moved Ty.movedAll Ty.movedFields ForeignPart.moved ForeignPart.movedAll
  Var.moved Var.movedAll Term.moved Term.movedAll Env.moved Env.movedFields

/-- The bindings of a map with other positions. -/
def Fields.moved (m : Move) (fields : Fields Term) : Fields Term :=
  fields.map fun e => (e.1, e.2.moved m)

/-! ### Lists of parts -/

section

variable (m : Move)

@[simp] lemma Ty.movedAll_eq (ts : List Ty) : Ty.movedAll m ts = ts.map (Ty.moved m) := by
  induction ts with
  | nil => rfl
  | cons t rest ih => rw [Ty.movedAll, ih, List.map_cons]

@[simp] lemma Ty.movedFields_eq (fields : List (Name × Ty)) :
    Ty.movedFields m fields = fields.map fun e => (e.1, e.2.moved m) := by
  induction fields with
  | nil => rfl
  | cons e rest ih => rw [Ty.movedFields, ih, List.map_cons]

@[simp] lemma ForeignPart.movedAll_eq (ps : List ForeignPart) :
    ForeignPart.movedAll m ps = ps.map (ForeignPart.moved m) := by
  induction ps with
  | nil => rfl
  | cons p rest ih => rw [ForeignPart.movedAll, ih, List.map_cons]

@[simp] lemma Var.movedAll_eq (vs : List Var) : Var.movedAll m vs = vs.map (Var.moved m) := by
  induction vs with
  | nil => rfl
  | cons v rest ih => rw [Var.movedAll, ih, List.map_cons]

@[simp] lemma Term.movedAll_eq (ts : List Term) : Term.movedAll m ts = ts.map (Term.moved m) := by
  induction ts with
  | nil => rfl
  | cons t rest ih => rw [Term.movedAll, ih, List.map_cons]

@[simp] lemma Env.movedFields_eq (fields : List (Name × Term)) :
    Env.movedFields m fields = Fields.moved m fields := by
  induction fields with
  | nil => rfl
  | cons e rest ih =>
    rw [Env.movedFields, ih]
    rfl

@[simp] lemma Fields.moved_nil : Fields.moved m [] = [] := rfl

@[simp] lemma Fields.moved_cons (e : Name × Term) (rest : Fields Term) :
    Fields.moved m (e :: rest) = (e.1, e.2.moved m) :: Fields.moved m rest := rfl

@[simp] lemma Var.tag_moved (v : Var) : (v.moved m).tag = v.tag := by
  cases v
  rfl

@[simp] lemma Var.ty_moved (v : Var) : (v.moved m).ty = v.ty.moved m := by
  cases v
  rfl

end

/-! ### Maps with other values -/

namespace Fields

variable {α β : Type} (g : α → β)

lemma pick_map (used : Captures) (fields : Fields α) :
    used.pick (fields.map fun e => (e.1, g e.2)) =
      (used.pick fields).map fun e => (e.1, g e.2) := by
  simp only [Captures.pick, get?_map, Option.map_map, List.map_filterMap]
  rfl

end Fields

/-! ### What environments show -/

namespace Env

variable (m : Move) (env : Env)

@[simp] lemma visible_moved : (env.moved m).visible = Fields.moved m env.visible := by
  cases env with
  | plain fields => simp [Env.moved, visible]
  | consed symbol fields => simp [Env.moved, visible]
  | restricted fields used =>
    simp only [Env.moved, visible, movedFields_eq, Fields.moved, List.filter_map]
    rfl

@[simp] lemma get?_moved (x : Name) : (env.moved m).get? x = (env.get? x).map (Term.moved m) := by
  cases env with
  | plain fields =>
    rw [Env.moved, movedFields_eq]
    exact Fields.get?_map _ _ _
  | consed symbol fields =>
    rw [Env.moved, movedFields_eq]
    exact Fields.get?_map _ _ _
  | restricted fields used =>
    rw [Env.moved, movedFields_eq, get?, get?, Fields.moved, Fields.get?_map]
    split <;> rfl

lemma bind_moved (x : Name) (t : Term) :
    (env.bind x t).moved m = (env.moved m).bind x (t.moved m) := by
  rw [bind, bind, Env.moved, movedFields_eq, visible_moved]
  exact congrArg Env.plain (Fields.insert_map (Term.moved m) env.visible x t).symm

end Env

/-! ### What types and terms are -/

section

variable (m : Move)

mutual

@[simp] lemma Ty.isUnit_moved (t : Ty) : (t.moved m).isUnit = t.isUnit := by
  match t with
  | .prim _ | .lit _ | .layout _ _ _ | .closure _ _ | .union _ | .recur _ | .array _ _
  | .foreign _ _ => rfl
  | .list items => simpa only [Ty.moved, Ty.isUnit] using Ty.allUnit_moved items
  | .map fields _ => simpa only [Ty.moved, Ty.isUnit] using Ty.fieldsUnit_moved fields
termination_by structural t

lemma Ty.allUnit_moved (ts : List Ty) : Ty.allUnit (Ty.movedAll m ts) = Ty.allUnit ts := by
  match ts with
  | [] => rfl
  | t :: rest =>
    simp only [Ty.movedAll, Ty.allUnit, Ty.isUnit_moved t, Ty.allUnit_moved rest]
termination_by structural ts

lemma Ty.fieldsUnit_moved (fields : List (Name × Ty)) :
    Ty.fieldsUnit (Ty.movedFields m fields) = Ty.fieldsUnit fields := by
  match fields with
  | [] => rfl
  | (x, t) :: rest =>
    simp only [Ty.movedFields, Ty.fieldsUnit, Ty.isUnit_moved t, Ty.fieldsUnit_moved rest]
termination_by structural fields

end

mutual

lemma Term.ofUnit_moved (t : Ty) : Term.ofUnit (t.moved m) = (Term.ofUnit t).moved m := by
  match t with
  | .prim _ | .lit _ | .layout _ _ _ | .closure _ _ | .union _ | .recur _ | .array _ _
  | .foreign _ _ => rfl
  | .list items => simp only [Ty.moved, Term.ofUnit, Term.moved, Term.ofUnits_moved items]
  | .map fields _ =>
    simp only [Ty.moved, Term.ofUnit, Term.moved, Env.moved, Term.ofUnitFields_moved fields]
termination_by structural t

lemma Term.ofUnits_moved (ts : List Ty) :
    Term.ofUnits (Ty.movedAll m ts) = Term.movedAll m (Term.ofUnits ts) := by
  match ts with
  | [] => rfl
  | t :: rest =>
    simp only [Ty.movedAll, Term.ofUnits, Term.movedAll, Term.ofUnit_moved t,
      Term.ofUnits_moved rest]
termination_by structural ts

lemma Term.ofUnitFields_moved (fields : List (Name × Ty)) :
    Term.ofUnitFields (Ty.movedFields m fields) = Env.movedFields m (Term.ofUnitFields fields) := by
  match fields with
  | [] => rfl
  | (x, t) :: rest =>
    simp only [Ty.movedFields, Term.ofUnitFields, Env.movedFields, Term.ofUnit_moved t,
      Term.ofUnitFields_moved rest]
termination_by structural fields

end

mutual

@[simp] lemma Term.ty_moved (t : Term) : (t.moved m).ty = t.ty.moved m := by
  match t with
  | .type _ | .lit _ | .box _ _ | .op _ _ _ | .call _ _ _ _ => rfl
  | .var ⟨_, _⟩ => rfl
  | .tuple items => simp only [Term.moved, Term.ty, Ty.moved, Term.tys_moved items]
  | .map env _ => simp only [Term.moved, Term.ty, Ty.moved, Term.envTys_moved env]
  | .letIn _ _ rest _ => simpa only [Term.moved, Term.ty] using Term.ty_moved rest
  | .state _ rest _ => simpa only [Term.moved, Term.ty] using Term.ty_moved rest
termination_by structural t

lemma Term.tys_moved (ts : List Term) :
    Term.tys (Term.movedAll m ts) = Ty.movedAll m (Term.tys ts) := by
  match ts with
  | [] => rfl
  | t :: rest =>
    simp only [Term.movedAll, Term.tys, Ty.movedAll, Term.ty_moved t, Term.tys_moved rest]
termination_by structural ts

lemma Term.envTys_moved (env : Env) :
    Term.envTys (env.moved m) = Ty.movedFields m (Term.envTys env) := by
  match env with
  | .plain fields => exact Term.fieldTys_moved _ fields
  | .restricted fields used => exact Term.fieldTys_moved _ fields
  | .consed _ fields => exact Term.fieldTys_moved _ fields
termination_by structural env

lemma Term.fieldTys_moved (keep : Name → Bool) (fields : List (Name × Term)) :
    Term.fieldTys keep (Env.movedFields m fields) =
      Ty.movedFields m (Term.fieldTys keep fields) := by
  match fields with
  | [] => rfl
  | (x, t) :: rest =>
    simp only [Env.movedFields, Term.fieldTys, Term.ty_moved t, Term.fieldTys_moved keep rest]
    split <;> rfl
termination_by structural fields

end

mutual

@[simp] lemma Ty.mentions_moved (key : Key) (t : Ty) :
    (t.moved m).mentions key = t.mentions key := by
  match t with
  | .prim _ | .lit _ | .recur _ => rfl
  | .list items => simpa only [Ty.moved, Ty.mentions] using Ty.anyMentions_moved key items
  | .union members => simpa only [Ty.moved, Ty.mentions] using Ty.anyMentions_moved key members
  | .map fields _ => simpa only [Ty.moved, Ty.mentions] using Ty.fieldsMention_moved key fields
  | .layout _ env _ => simpa only [Ty.moved, Ty.mentions] using Env.typeMentions_moved key env
  | .closure dom range =>
    simp only [Ty.moved, Ty.mentions, Ty.mentions_moved key dom, Ty.mentions_moved key range]
  | .array _ elem => simpa only [Ty.moved, Ty.mentions] using Ty.mentions_moved key elem
  | .foreign _ parts =>
    simpa only [Ty.moved, Ty.mentions] using ForeignPart.anyMentions_moved key parts
termination_by structural t

lemma Ty.anyMentions_moved (key : Key) (ts : List Ty) :
    Ty.anyMentions key (Ty.movedAll m ts) = Ty.anyMentions key ts := by
  match ts with
  | [] => rfl
  | t :: rest =>
    simp only [Ty.movedAll, Ty.anyMentions, Ty.mentions_moved key t, Ty.anyMentions_moved key rest]
termination_by structural ts

lemma Ty.fieldsMention_moved (key : Key) (fields : List (Name × Ty)) :
    Ty.fieldsMention key (Ty.movedFields m fields) = Ty.fieldsMention key fields := by
  match fields with
  | [] => rfl
  | (x, t) :: rest =>
    simp only [Ty.movedFields, Ty.fieldsMention, Ty.mentions_moved key t,
      Ty.fieldsMention_moved key rest]
termination_by structural fields

lemma ForeignPart.mentions_moved (key : Key) (p : ForeignPart) :
    (p.moved m).mentions key = p.mentions key := by
  match p with
  | .text _ => rfl
  | .type t => simpa only [ForeignPart.moved, ForeignPart.mentions] using Ty.mentions_moved key t
termination_by structural p

lemma ForeignPart.anyMentions_moved (key : Key) (ps : List ForeignPart) :
    ForeignPart.anyMentions key (ForeignPart.movedAll m ps) = ForeignPart.anyMentions key ps := by
  match ps with
  | [] => rfl
  | p :: rest =>
    simp only [ForeignPart.movedAll, ForeignPart.anyMentions, ForeignPart.mentions_moved key p,
      ForeignPart.anyMentions_moved key rest]
termination_by structural ps

lemma Term.typeMentions_moved (key : Key) (t : Term) :
    (t.moved m).typeMentions key = t.typeMentions key := by
  match t with
  | .lit _ => rfl
  | .type t => simpa only [Term.moved, Term.typeMentions] using Ty.mentions_moved key t
  | .var ⟨_, t⟩ =>
    simpa only [Term.moved, Var.moved, Term.typeMentions] using Ty.mentions_moved key t
  | .tuple items =>
    simpa only [Term.moved, Term.typeMentions] using Term.anyTypeMentions_moved key items
  | .map env _ => simpa only [Term.moved, Term.typeMentions] using Env.typeMentions_moved key env
  | .box _ t => simpa only [Term.moved, Term.typeMentions] using Ty.mentions_moved key t
  | .letIn _ _ rest _ =>
    simpa only [Term.moved, Term.typeMentions] using Term.typeMentions_moved key rest
  | .state _ rest _ =>
    simpa only [Term.moved, Term.typeMentions] using Term.typeMentions_moved key rest
  | .op _ _ t => simpa only [Term.moved, Term.typeMentions] using Ty.mentions_moved key t
  | .call _ _ _ t => simpa only [Term.moved, Term.typeMentions] using Ty.mentions_moved key t
termination_by structural t

lemma Term.anyTypeMentions_moved (key : Key) (ts : List Term) :
    Term.anyTypeMentions key (Term.movedAll m ts) = Term.anyTypeMentions key ts := by
  match ts with
  | [] => rfl
  | t :: rest =>
    simp only [Term.movedAll, Term.anyTypeMentions, Term.typeMentions_moved key t,
      Term.anyTypeMentions_moved key rest]
termination_by structural ts

lemma Env.typeMentions_moved (key : Key) (env : Env) :
    (env.moved m).typeMentions key = env.typeMentions key := by
  match env with
  | .plain fields => exact Env.fieldsMention_moved key _ fields
  | .restricted fields used => exact Env.fieldsMention_moved key _ fields
  | .consed _ fields => exact Env.fieldsMention_moved key _ fields
termination_by structural env

lemma Env.fieldsMention_moved (key : Key) (keep : Name → Bool) (fields : List (Name × Term)) :
    Env.fieldsMention key keep (Env.movedFields m fields) = Env.fieldsMention key keep fields := by
  match fields with
  | [] => rfl
  | (x, t) :: rest =>
    simp only [Env.movedFields, Env.fieldsMention, Term.typeMentions_moved key t,
      Env.fieldsMention_moved key keep rest]
termination_by structural fields

end

mutual

lemma Term.nextTag_moved (t : Term) : (t.moved m).nextTag = t.nextTag := by
  match t with
  | .type _ | .lit _ | .letIn _ _ _ _ | .state _ _ _ | .op _ _ _ | .call _ _ _ _ => rfl
  | .var ⟨_, _⟩ => rfl
  | .tuple items => simpa only [Term.moved, Term.nextTag] using Term.nextTagOfAll_moved items
  | .map env _ => simpa only [Term.moved, Term.nextTag] using Env.nextTag_moved env
  | .box inner _ => simpa only [Term.moved, Term.nextTag] using Term.nextTag_moved inner
termination_by structural t

lemma Term.nextTagOfAll_moved (ts : List Term) :
    Term.nextTagOfAll (Term.movedAll m ts) = Term.nextTagOfAll ts := by
  match ts with
  | [] => rfl
  | t :: rest =>
    simp only [Term.movedAll, Term.nextTagOfAll, Term.nextTag_moved t,
      Term.nextTagOfAll_moved rest]
termination_by structural ts

lemma Env.nextTag_moved (env : Env) : (env.moved m).nextTag = env.nextTag := by
  match env with
  | .plain fields => exact Env.nextTagOfFields_moved _ fields
  | .restricted fields used => exact Env.nextTagOfFields_moved _ fields
  | .consed _ fields => exact Env.nextTagOfFields_moved _ fields
termination_by structural env

lemma Env.nextTagOfFields_moved (keep : Name → Bool) (fields : List (Name × Term)) :
    Env.nextTagOfFields keep (Env.movedFields m fields) = Env.nextTagOfFields keep fields := by
  match fields with
  | [] => rfl
  | (x, t) :: rest =>
    simp only [Env.movedFields, Env.nextTagOfFields, Term.nextTag_moved t,
      Env.nextTagOfFields_moved keep rest]
termination_by structural fields

end

/-! ### Literals, lengths, members -/

@[simp] lemma Term.lit?_moved (t : Term) : (t.moved m).lit? = t.lit? := by
  cases t with
  | type t => cases t <;> rfl
  | _ => rfl

@[simp] lemma Term.bool?_moved (t : Term) : (t.moved m).bool? = t.bool? := by
  simp [Term.bool?]

@[simp] lemma Term.string?_moved (t : Term) : (t.moved m).string? = t.string? := by
  simp [Term.string?]

@[simp] lemma Ty.prim?_moved (t : Ty) : (t.moved m).prim? = t.prim? := by
  cases t <;> rfl

lemma Ty.members?_moved (t : Ty) :
    (t.moved m).members? = t.members?.map (List.map (Ty.moved m)) := by
  cases t with
  | union members => simp [Ty.moved, Ty.members?]
  | _ => rfl

@[simp] lemma Ty.tupleLength?_moved (t : Ty) : (t.moved m).tupleLength? = t.tupleLength? := by
  cases t with
  | list items => simp [Ty.moved, Ty.tupleLength?]
  | _ => rfl

@[simp] lemma Term.tupleLength?_moved (t : Term) :
    (t.moved m).tupleLength? = t.tupleLength? := by
  simp [Term.tupleLength?_eq]

lemma Ty.get?_moved (fields : List (Name × Ty)) (x : Name) :
    Fields.get? (Ty.movedFields m fields) x = (Fields.get? fields x).map (Ty.moved m) := by
  rw [Ty.movedFields_eq]
  exact Fields.get?_map _ _ _

@[simp] lemma Term.hasMember_moved (t : Term) (x : Name) :
    (t.moved m).hasMember x = t.hasMember x := by
  -- A value that is no map has the members that its type has.
  have htype : ∀ t : Ty, (Term.type (t.moved m)).hasMember x = (Term.type t).hasMember x := by
    intro t
    cases t with
    | map fields kind =>
      change (Fields.get? (Ty.movedFields m fields) x).isSome = (Fields.get? fields x).isSome
      rw [Ty.get?_moved, Option.isSome_map]
    | layout l env kind =>
      change ((env.moved m).get? x).isSome = (env.get? x).isSome
      rw [Env.get?_moved, Option.isSome_map]
    | _ => rfl
  have hvalue : ∀ c : Term, (∀ env kind, c ≠ .map env kind) →
      c.hasMember x = (Term.type c.ty).hasMember x := by
    intro c hc
    cases c with
    | map env kind => exact absurd rfl (hc env kind)
    | _ => rfl
  by_cases ht : ∃ env kind, t = .map env kind
  · obtain ⟨env, kind, rfl⟩ := ht
    change ((env.moved m).get? x).isSome = (env.get? x).isSome
    rw [Env.get?_moved, Option.isSome_map]
  · have hne : ∀ env kind, t ≠ .map env kind := fun env kind h => ht ⟨env, kind, h⟩
    have hne' : ∀ env kind, t.moved m ≠ .map env kind := by
      intro env kind h
      cases t with
      | map env kind => exact hne env kind rfl
      | _ => cases h
    rw [hvalue _ hne, hvalue _ hne', Term.ty_moved, htype]

/-! ### The end of code -/

lemma Term.tail_moved (t : Term) : (t.moved m).tail = t.tail.moved m := by
  match t with
  | .letIn _ _ rest _ => exact Term.tail_moved rest
  | .state _ rest _ => exact Term.tail_moved rest
  | .type _ | .var _ | .tuple _ | .map _ _ | .box _ _ | .lit _ | .op _ _ _ | .call _ _ _ _ => rfl

@[simp] lemma Term.endsInMiss_moved (t : Term) : (t.moved m).endsInMiss = t.endsInMiss := by
  rw [Term.endsInMiss, Term.endsInMiss, Term.tail_moved]
  cases t.tail with
  | op o args ty => cases o <;> rfl
  | _ => rfl

lemma Term.retypeMiss_moved (ty : Ty) (t : Term) :
    (t.retypeMiss ty).moved m = (t.moved m).retypeMiss (ty.moved m) := by
  match t with
  | .letIn _ _ rest _ => simp only [Term.moved, Term.retypeMiss, Term.retypeMiss_moved ty rest]
  | .state _ rest _ => simp only [Term.moved, Term.retypeMiss, Term.retypeMiss_moved ty rest]
  | .type _ | .var _ | .tuple _ | .map _ _ | .box _ _ | .lit _ | .call _ _ _ _ => rfl
  | .op o args old => cases o <;> rfl

end

end Residual
