import Residual.Fault
import Residual.Proofs.Typed.MovedEqual

/-!
The traces in types and terms, and moves as what they do to them.

Main statements: a move replaces each trace by its image and does nothing else to the list of
traces; two moves that agree on code and on the traces of a term agree on the term; and no move
changes the text of a type.
-/

namespace Residual

mutual

/-- The traces of all bindings and statements in a type. Only packed maps can have some. -/
def Ty.traces : Ty → List Trace
  | .prim _ | .lit _ | .recur _ => []
  | .list items | .union items => Ty.tracesOfAll items
  | .map fields _ => Ty.tracesOfFields fields
  | .layout _ env _ => env.traces
  | .closure dom range => dom.traces ++ range.traces
  | .array _ elem => elem.traces
  | .foreign _ parts => ForeignPart.tracesOfAll parts

def Ty.tracesOfAll : List Ty → List Trace
  | [] => []
  | t :: rest => t.traces ++ Ty.tracesOfAll rest

def Ty.tracesOfFields : List (Name × Ty) → List Trace
  | [] => []
  | (_, t) :: rest => t.traces ++ Ty.tracesOfFields rest

def ForeignPart.traces : ForeignPart → List Trace
  | .text _ => []
  | .type t => t.traces

def ForeignPart.tracesOfAll : List ForeignPart → List Trace
  | [] => []
  | p :: rest => p.traces ++ ForeignPart.tracesOfAll rest

def Var.traces : Var → List Trace
  | ⟨_, t⟩ => t.traces

def Var.tracesOfAll : List Var → List Trace
  | [] => []
  | v :: rest => v.traces ++ Var.tracesOfAll rest

/-- The traces of all bindings and statements in a term. -/
def Term.traces : Term → List Trace
  | .type t => t.traces
  | .var v => v.traces
  | .tuple items => Term.tracesOfAll items
  | .map env _ => env.traces
  | .box inner t => inner.traces ++ t.traces
  | .lit _ => []
  | .letIn bind bound rest trace => trace :: (bind.traces ++ bound.traces ++ rest.traces)
  | .state stmt rest trace => trace :: (stmt.traces ++ rest.traces)
  | .op _ args t => Term.tracesOfAll args ++ t.traces
  | .call _ _ args t => Var.tracesOfAll args ++ t.traces

def Term.tracesOfAll : List Term → List Trace
  | [] => []
  | t :: rest => t.traces ++ Term.tracesOfAll rest

def Env.traces : Env → List Trace
  | .plain fields | .restricted fields _ | .consed _ fields => Env.tracesOfFields fields

def Env.tracesOfFields : List (Name × Term) → List Trace
  | [] => []
  | (_, t) :: rest => t.traces ++ Env.tracesOfFields rest

end

-- The equations are worked out here once, and not by each of the proofs below at the same time.
attribute [grind =] Ty.traces Ty.tracesOfAll Ty.tracesOfFields ForeignPart.traces
  ForeignPart.tracesOfAll Var.traces Var.tracesOfAll Term.traces Term.tracesOfAll Env.traces
  Env.tracesOfFields

section

variable (m : Move)

mutual

lemma Ty.traces_moved (t : Ty) : (t.moved m).traces = t.traces.map m.trace := by
  match t with
  | .prim _ | .lit _ | .recur _ => rfl
  | .list items => simpa only [Ty.moved, Ty.traces] using Ty.tracesOfAll_moved items
  | .union items => simpa only [Ty.moved, Ty.traces] using Ty.tracesOfAll_moved items
  | .map fields _ => simpa only [Ty.moved, Ty.traces] using Ty.tracesOfFields_moved fields
  | .layout _ env _ => simpa only [Ty.moved, Ty.traces] using Env.traces_moved env
  | .closure dom range =>
    simp only [Ty.moved, Ty.traces, Ty.traces_moved dom, Ty.traces_moved range, List.map_append]
  | .array _ elem => simpa only [Ty.moved, Ty.traces] using Ty.traces_moved elem
  | .foreign _ parts => simpa only [Ty.moved, Ty.traces] using ForeignPart.tracesOfAll_moved parts
termination_by structural t

lemma Ty.tracesOfAll_moved (ts : List Ty) :
    Ty.tracesOfAll (Ty.movedAll m ts) = (Ty.tracesOfAll ts).map m.trace := by
  match ts with
  | [] => rfl
  | t :: rest =>
    simp only [Ty.movedAll, Ty.tracesOfAll, Ty.traces_moved t, Ty.tracesOfAll_moved rest,
      List.map_append]
termination_by structural ts

lemma Ty.tracesOfFields_moved (fields : List (Name × Ty)) :
    Ty.tracesOfFields (Ty.movedFields m fields) = (Ty.tracesOfFields fields).map m.trace := by
  match fields with
  | [] => rfl
  | (_, t) :: rest =>
    simp only [Ty.movedFields, Ty.tracesOfFields, Ty.traces_moved t, Ty.tracesOfFields_moved rest,
      List.map_append]
termination_by structural fields

lemma ForeignPart.traces_moved (p : ForeignPart) :
    (p.moved m).traces = p.traces.map m.trace := by
  match p with
  | .text _ => rfl
  | .type t => simpa only [ForeignPart.moved, ForeignPart.traces] using Ty.traces_moved t
termination_by structural p

lemma ForeignPart.tracesOfAll_moved (ps : List ForeignPart) :
    ForeignPart.tracesOfAll (ForeignPart.movedAll m ps) =
      (ForeignPart.tracesOfAll ps).map m.trace := by
  match ps with
  | [] => rfl
  | p :: rest =>
    simp only [ForeignPart.movedAll, ForeignPart.tracesOfAll, ForeignPart.traces_moved p,
      ForeignPart.tracesOfAll_moved rest, List.map_append]
termination_by structural ps

lemma Var.traces_moved (v : Var) : (v.moved m).traces = v.traces.map m.trace := by
  match v with
  | ⟨_, t⟩ => simpa only [Var.moved, Var.traces] using Ty.traces_moved t
termination_by structural v

lemma Var.tracesOfAll_moved (vs : List Var) :
    Var.tracesOfAll (Var.movedAll m vs) = (Var.tracesOfAll vs).map m.trace := by
  match vs with
  | [] => rfl
  | v :: rest =>
    simp only [Var.movedAll, Var.tracesOfAll, Var.traces_moved v, Var.tracesOfAll_moved rest,
      List.map_append]
termination_by structural vs

lemma Term.traces_moved (t : Term) : (t.moved m).traces = t.traces.map m.trace := by
  match t with
  | .lit _ => rfl
  | .type t => simpa only [Term.moved, Term.traces] using Ty.traces_moved t
  | .var v => simpa only [Term.moved, Term.traces] using Var.traces_moved v
  | .tuple items => simpa only [Term.moved, Term.traces] using Term.tracesOfAll_moved items
  | .map env _ => simpa only [Term.moved, Term.traces] using Env.traces_moved env
  | .box inner t =>
    simp only [Term.moved, Term.traces, Term.traces_moved inner, Ty.traces_moved t,
      List.map_append]
  | .letIn bind bound rest _ =>
    simp only [Term.moved, Term.traces, Var.traces_moved bind, Term.traces_moved bound,
      Term.traces_moved rest, List.map_append, List.map_cons]
  | .state stmt rest _ =>
    simp only [Term.moved, Term.traces, Term.traces_moved stmt, Term.traces_moved rest,
      List.map_append, List.map_cons]
  | .op _ args t =>
    simp only [Term.moved, Term.traces, Term.tracesOfAll_moved args, Ty.traces_moved t,
      List.map_append]
  | .call _ _ args t =>
    simp only [Term.moved, Term.traces, Var.tracesOfAll_moved args, Ty.traces_moved t,
      List.map_append]
termination_by structural t

lemma Term.tracesOfAll_moved (ts : List Term) :
    Term.tracesOfAll (Term.movedAll m ts) = (Term.tracesOfAll ts).map m.trace := by
  match ts with
  | [] => rfl
  | t :: rest =>
    simp only [Term.movedAll, Term.tracesOfAll, Term.traces_moved t, Term.tracesOfAll_moved rest,
      List.map_append]
termination_by structural ts

lemma Env.traces_moved (env : Env) : (env.moved m).traces = env.traces.map m.trace := by
  match env with
  | .plain fields => exact Env.tracesOfFields_moved fields
  | .restricted fields _ => exact Env.tracesOfFields_moved fields
  | .consed _ fields => exact Env.tracesOfFields_moved fields
termination_by structural env

lemma Env.tracesOfFields_moved (fields : List (Name × Term)) :
    Env.tracesOfFields (Env.movedFields m fields) = (Env.tracesOfFields fields).map m.trace := by
  match fields with
  | [] => rfl
  | (_, t) :: rest =>
    simp only [Env.movedFields, Env.tracesOfFields, Term.traces_moved t,
      Env.tracesOfFields_moved rest, List.map_append]
termination_by structural fields

end

end

/-! ### Moves that agree -/

section

variable {m n : Move}

lemma MapKind.moved_congr (hspan : m.span = n.span) (k : MapKind) : k.moved m = k.moved n := by
  cases k <;> simp only [MapKind.moved, hspan]

mutual

lemma Ty.moved_congr (hspan : m.span = n.span) (t : Ty)
    (h : ∀ s ∈ t.traces, m.trace s = n.trace s) :
    t.moved m = t.moved n := by
  match t with
  | .prim _ | .lit _ | .recur _ => rfl
  | .list items => rw [Ty.moved, Ty.moved, Ty.movedAll_congr hspan items h]
  | .union items => rw [Ty.moved, Ty.moved, Ty.movedAll_congr hspan items h]
  | .map fields kind =>
    rw [Ty.moved, Ty.moved, Ty.movedFields_congr hspan fields h, MapKind.moved_congr hspan kind]
  | .layout _ env kind =>
    rw [Ty.moved, Ty.moved, Env.moved_congr hspan env h, MapKind.moved_congr hspan kind]
  | .closure dom range =>
    obtain ⟨hdom, hrange⟩ := List.forall_mem_append.1 h
    rw [Ty.moved, Ty.moved, Ty.moved_congr hspan dom hdom, Ty.moved_congr hspan range hrange]
  | .array _ elem => rw [Ty.moved, Ty.moved, Ty.moved_congr hspan elem h]
  | .foreign _ parts => rw [Ty.moved, Ty.moved, ForeignPart.movedAll_congr hspan parts h]
termination_by structural t

lemma Ty.movedAll_congr (hspan : m.span = n.span) (ts : List Ty)
    (h : ∀ s ∈ Ty.tracesOfAll ts, m.trace s = n.trace s) :
    Ty.movedAll m ts = Ty.movedAll n ts := by
  match ts with
  | [] => rfl
  | t :: rest =>
    obtain ⟨ht, hrest⟩ := List.forall_mem_append.1 h
    rw [Ty.movedAll, Ty.movedAll, Ty.moved_congr hspan t ht, Ty.movedAll_congr hspan rest hrest]
termination_by structural ts

lemma Ty.movedFields_congr (hspan : m.span = n.span) (fields : List (Name × Ty))
    (h : ∀ s ∈ Ty.tracesOfFields fields, m.trace s = n.trace s) :
    Ty.movedFields m fields = Ty.movedFields n fields := by
  match fields with
  | [] => rfl
  | (_, t) :: rest =>
    obtain ⟨ht, hrest⟩ := List.forall_mem_append.1 h
    rw [Ty.movedFields, Ty.movedFields, Ty.moved_congr hspan t ht,
      Ty.movedFields_congr hspan rest hrest]
termination_by structural fields

lemma ForeignPart.moved_congr (hspan : m.span = n.span) (p : ForeignPart)
    (h : ∀ s ∈ p.traces, m.trace s = n.trace s) : p.moved m = p.moved n := by
  match p with
  | .text _ => rfl
  | .type t => rw [ForeignPart.moved, ForeignPart.moved, Ty.moved_congr hspan t h]
termination_by structural p

lemma ForeignPart.movedAll_congr (hspan : m.span = n.span) (ps : List ForeignPart)
    (h : ∀ s ∈ ForeignPart.tracesOfAll ps, m.trace s = n.trace s) :
    ForeignPart.movedAll m ps = ForeignPart.movedAll n ps := by
  match ps with
  | [] => rfl
  | p :: rest =>
    obtain ⟨hp, hrest⟩ := List.forall_mem_append.1 h
    rw [ForeignPart.movedAll, ForeignPart.movedAll, ForeignPart.moved_congr hspan p hp,
      ForeignPart.movedAll_congr hspan rest hrest]
termination_by structural ps

lemma Var.moved_congr (hspan : m.span = n.span) (v : Var)
    (h : ∀ s ∈ v.traces, m.trace s = n.trace s) :
    v.moved m = v.moved n := by
  match v with
  | ⟨_, t⟩ => rw [Var.moved, Var.moved, Ty.moved_congr hspan t h]
termination_by structural v

lemma Var.movedAll_congr (hspan : m.span = n.span) (vs : List Var)
    (h : ∀ s ∈ Var.tracesOfAll vs, m.trace s = n.trace s) :
    Var.movedAll m vs = Var.movedAll n vs := by
  match vs with
  | [] => rfl
  | v :: rest =>
    obtain ⟨hv, hrest⟩ := List.forall_mem_append.1 h
    rw [Var.movedAll, Var.movedAll, Var.moved_congr hspan v hv, Var.movedAll_congr hspan rest hrest]
termination_by structural vs

lemma Term.moved_congr (hspan : m.span = n.span) (t : Term)
    (h : ∀ s ∈ t.traces, m.trace s = n.trace s) :
    t.moved m = t.moved n := by
  match t with
  | .lit _ => rfl
  | .type t => rw [Term.moved, Term.moved, Ty.moved_congr hspan t h]
  | .var v => rw [Term.moved, Term.moved, Var.moved_congr hspan v h]
  | .tuple items => rw [Term.moved, Term.moved, Term.movedAll_congr hspan items h]
  | .map env kind =>
    rw [Term.moved, Term.moved, Env.moved_congr hspan env h, MapKind.moved_congr hspan kind]
  | .box inner t =>
    obtain ⟨hinner, ht⟩ := List.forall_mem_append.1 h
    rw [Term.moved, Term.moved, Term.moved_congr hspan inner hinner, Ty.moved_congr hspan t ht]
  | .letIn bind bound rest trace =>
    obtain ⟨htrace, h⟩ := List.forall_mem_cons.1 h
    obtain ⟨h, hrest⟩ := List.forall_mem_append.1 h
    obtain ⟨hbind, hbound⟩ := List.forall_mem_append.1 h
    rw [Term.moved, Term.moved, htrace, Var.moved_congr hspan bind hbind,
      Term.moved_congr hspan bound hbound,
      Term.moved_congr hspan rest hrest]
  | .state stmt rest trace =>
    obtain ⟨htrace, h⟩ := List.forall_mem_cons.1 h
    obtain ⟨hstmt, hrest⟩ := List.forall_mem_append.1 h
    rw [Term.moved, Term.moved, htrace, Term.moved_congr hspan stmt hstmt,
      Term.moved_congr hspan rest hrest]
  | .op _ args t =>
    obtain ⟨hargs, ht⟩ := List.forall_mem_append.1 h
    rw [Term.moved, Term.moved, Term.movedAll_congr hspan args hargs, Ty.moved_congr hspan t ht]
  | .call _ _ args t =>
    obtain ⟨hargs, ht⟩ := List.forall_mem_append.1 h
    rw [Term.moved, Term.moved, Var.movedAll_congr hspan args hargs, Ty.moved_congr hspan t ht]
termination_by structural t

lemma Term.movedAll_congr (hspan : m.span = n.span) (ts : List Term)
    (h : ∀ s ∈ Term.tracesOfAll ts, m.trace s = n.trace s) :
    Term.movedAll m ts = Term.movedAll n ts := by
  match ts with
  | [] => rfl
  | t :: rest =>
    obtain ⟨ht, hrest⟩ := List.forall_mem_append.1 h
    rw [Term.movedAll, Term.movedAll, Term.moved_congr hspan t ht,
      Term.movedAll_congr hspan rest hrest]
termination_by structural ts

lemma Env.moved_congr (hspan : m.span = n.span) (env : Env)
    (h : ∀ s ∈ env.traces, m.trace s = n.trace s) :
    env.moved m = env.moved n := by
  match env with
  | .plain fields => rw [Env.moved, Env.moved, Env.movedFields_congr hspan fields h]
  | .restricted fields _ => rw [Env.moved, Env.moved, Env.movedFields_congr hspan fields h]
  | .consed _ fields => rw [Env.moved, Env.moved, Env.movedFields_congr hspan fields h]
termination_by structural env

lemma Env.movedFields_congr (hspan : m.span = n.span) (fields : List (Name × Term))
    (h : ∀ s ∈ Env.tracesOfFields fields, m.trace s = n.trace s) :
    Env.movedFields m fields = Env.movedFields n fields := by
  match fields with
  | [] => rfl
  | (_, t) :: rest =>
    obtain ⟨ht, hrest⟩ := List.forall_mem_append.1 h
    rw [Env.movedFields, Env.movedFields, Term.moved_congr hspan t ht,
      Env.movedFields_congr hspan rest hrest]
termination_by structural fields

end

end

/-! ### One move after the other -/

section

variable (m n : Move)

lemma MapKind.moved_moved (k : MapKind) : (k.moved m).moved n = k.moved (m.andThen n) := by
  cases k <;> simp only [MapKind.moved, Expr.moved_moved, Move.andThen]

mutual

lemma Ty.moved_moved (t : Ty) : (t.moved m).moved n = t.moved (m.andThen n) := by
  match t with
  | .prim _ | .lit _ | .recur _ => rfl
  | .list items => simp only [Ty.moved, Ty.movedAll_movedAll items]
  | .union items => simp only [Ty.moved, Ty.movedAll_movedAll items]
  | .map fields kind =>
    simp only [Ty.moved, Ty.movedFields_movedFields fields, MapKind.moved_moved]
  | .layout _ env kind => simp only [Ty.moved, Env.moved_moved env, MapKind.moved_moved]
  | .closure dom range => simp only [Ty.moved, Ty.moved_moved dom, Ty.moved_moved range]
  | .array _ elem => simp only [Ty.moved, Ty.moved_moved elem]
  | .foreign _ parts => simp only [Ty.moved, ForeignPart.movedAll_movedAll parts]
termination_by structural t

lemma Ty.movedAll_movedAll (ts : List Ty) :
    Ty.movedAll n (Ty.movedAll m ts) = Ty.movedAll (m.andThen n) ts := by
  match ts with
  | [] => rfl
  | t :: rest => simp only [Ty.movedAll, Ty.moved_moved t, Ty.movedAll_movedAll rest]
termination_by structural ts

lemma Ty.movedFields_movedFields (fields : List (Name × Ty)) :
    Ty.movedFields n (Ty.movedFields m fields) = Ty.movedFields (m.andThen n) fields := by
  match fields with
  | [] => rfl
  | (_, t) :: rest =>
    simp only [Ty.movedFields, Ty.moved_moved t, Ty.movedFields_movedFields rest]
termination_by structural fields

lemma ForeignPart.moved_moved (p : ForeignPart) :
    (p.moved m).moved n = p.moved (m.andThen n) := by
  match p with
  | .text _ => rfl
  | .type t => simp only [ForeignPart.moved, Ty.moved_moved t]
termination_by structural p

lemma ForeignPart.movedAll_movedAll (ps : List ForeignPart) :
    ForeignPart.movedAll n (ForeignPart.movedAll m ps) =
      ForeignPart.movedAll (m.andThen n) ps := by
  match ps with
  | [] => rfl
  | p :: rest =>
    simp only [ForeignPart.movedAll, ForeignPart.moved_moved p, ForeignPart.movedAll_movedAll rest]
termination_by structural ps

lemma Var.moved_moved (v : Var) : (v.moved m).moved n = v.moved (m.andThen n) := by
  match v with
  | ⟨_, t⟩ => simp only [Var.moved, Ty.moved_moved t]
termination_by structural v

lemma Var.movedAll_movedAll (vs : List Var) :
    Var.movedAll n (Var.movedAll m vs) = Var.movedAll (m.andThen n) vs := by
  match vs with
  | [] => rfl
  | v :: rest => simp only [Var.movedAll, Var.moved_moved v, Var.movedAll_movedAll rest]
termination_by structural vs

lemma Term.moved_moved (t : Term) : (t.moved m).moved n = t.moved (m.andThen n) := by
  match t with
  | .lit _ => rfl
  | .type t => simp only [Term.moved, Ty.moved_moved t]
  | .var v => simp only [Term.moved, Var.moved_moved v]
  | .tuple items => simp only [Term.moved, Term.movedAll_movedAll items]
  | .map env kind => simp only [Term.moved, Env.moved_moved env, MapKind.moved_moved]
  | .box inner t => simp only [Term.moved, Term.moved_moved inner, Ty.moved_moved t]
  | .letIn bind bound rest _ =>
    simp only [Term.moved, Var.moved_moved bind, Term.moved_moved bound, Term.moved_moved rest]
    rfl
  | .state stmt rest _ =>
    simp only [Term.moved, Term.moved_moved stmt, Term.moved_moved rest]
    rfl
  | .op _ args t => simp only [Term.moved, Term.movedAll_movedAll args, Ty.moved_moved t]
  | .call _ _ args t => simp only [Term.moved, Var.movedAll_movedAll args, Ty.moved_moved t]
termination_by structural t

lemma Term.movedAll_movedAll (ts : List Term) :
    Term.movedAll n (Term.movedAll m ts) = Term.movedAll (m.andThen n) ts := by
  match ts with
  | [] => rfl
  | t :: rest => simp only [Term.movedAll, Term.moved_moved t, Term.movedAll_movedAll rest]
termination_by structural ts

lemma Env.moved_moved (env : Env) : (env.moved m).moved n = env.moved (m.andThen n) := by
  match env with
  | .plain fields => simp only [Env.moved, Env.movedFields_movedFields fields]
  | .restricted fields _ => simp only [Env.moved, Env.movedFields_movedFields fields]
  | .consed _ fields => simp only [Env.moved, Env.movedFields_movedFields fields]
termination_by structural env

lemma Env.movedFields_movedFields (fields : List (Name × Term)) :
    Env.movedFields n (Env.movedFields m fields) = Env.movedFields (m.andThen n) fields := by
  match fields with
  | [] => rfl
  | (_, t) :: rest =>
    simp only [Env.movedFields, Term.moved_moved t, Env.movedFields_movedFields rest]
termination_by structural fields

end

end

/-! ### Texts -/

section

variable (m : Move) (names : Names)

@[simp] lemma MapKind.text_moved (k : MapKind) : (k.moved m).text names = k.text names := by
  cases k <;> rfl

mutual

@[simp] lemma Ty.text_moved (t : Ty) : (t.moved m).text names = t.text names := by
  match t with
  | .prim _ | .lit _ | .recur _ => rfl
  | .list items => simp only [Ty.moved, Ty.text, Ty.texts_moved items]
  | .map fields _ => simp only [Ty.moved, Ty.text, Ty.fieldTexts_moved fields, MapKind.text_moved]
  | .layout _ env _ => simp only [Ty.moved, Ty.text, Env.typeTexts_moved env, MapKind.text_moved]
  | .closure dom range => simp only [Ty.moved, Ty.text, Ty.text_moved dom, Ty.text_moved range]
  | .union [] => rfl
  | .union (t :: rest) =>
    have h := Ty.texts_moved (t :: rest)
    simp only [Ty.movedAll] at h
    simp only [Ty.moved, Ty.movedAll, Ty.text, h]
  | .array _ elem => simp only [Ty.moved, Ty.text, Ty.text_moved elem]
  | .foreign _ parts => simp only [Ty.moved, Ty.text, ForeignPart.texts_moved parts]
termination_by structural t

lemma Ty.texts_moved (ts : List Ty) : Ty.texts names (Ty.movedAll m ts) = Ty.texts names ts := by
  match ts with
  | [] => rfl
  | t :: rest => simp only [Ty.movedAll, Ty.texts, Ty.text_moved t, Ty.texts_moved rest]
termination_by structural ts

lemma Ty.fieldTexts_moved (fields : List (Name × Ty)) :
    Ty.fieldTexts names (Ty.movedFields m fields) = Ty.fieldTexts names fields := by
  match fields with
  | [] => rfl
  | (_, t) :: rest =>
    simp only [Ty.movedFields, Ty.fieldTexts, Ty.text_moved t, Ty.fieldTexts_moved rest]
termination_by structural fields

lemma ForeignPart.spelled_moved (p : ForeignPart) :
    (p.moved m).spelled names = p.spelled names := by
  match p with
  | .text _ => rfl
  | .type t => simp only [ForeignPart.moved, ForeignPart.spelled, Ty.text_moved t]
termination_by structural p

lemma ForeignPart.texts_moved (ps : List ForeignPart) :
    ForeignPart.texts names (ForeignPart.movedAll m ps) = ForeignPart.texts names ps := by
  match ps with
  | [] => rfl
  | p :: rest =>
    simp only [ForeignPart.movedAll, ForeignPart.texts, ForeignPart.spelled_moved p,
      ForeignPart.texts_moved rest]
termination_by structural ps

lemma Term.typeText_moved (t : Term) : (t.moved m).typeText names = t.typeText names := by
  match t with
  | .lit _ => rfl
  | .type t => simp only [Term.moved, Term.typeText, Ty.text_moved t]
  | .var ⟨_, t⟩ => simp only [Term.moved, Var.moved, Term.typeText, Ty.text_moved t]
  | .tuple items => simp only [Term.moved, Term.typeText, Term.typeTexts_moved items]
  | .map env _ =>
    simp only [Term.moved, Term.typeText, Env.typeTexts_moved env, MapKind.text_moved]
  | .box _ t => simp only [Term.moved, Term.typeText, Ty.text_moved t]
  | .letIn _ _ rest _ => simp only [Term.moved, Term.typeText, Term.typeText_moved rest]
  | .state _ rest _ => simp only [Term.moved, Term.typeText, Term.typeText_moved rest]
  | .op _ _ t => simp only [Term.moved, Term.typeText, Ty.text_moved t]
  | .call _ _ _ t => simp only [Term.moved, Term.typeText, Ty.text_moved t]
termination_by structural t

lemma Term.typeTexts_moved (ts : List Term) :
    Term.typeTexts names (Term.movedAll m ts) = Term.typeTexts names ts := by
  match ts with
  | [] => rfl
  | t :: rest =>
    simp only [Term.movedAll, Term.typeTexts, Term.typeText_moved t, Term.typeTexts_moved rest]
termination_by structural ts

lemma Env.typeTexts_moved (env : Env) :
    Env.typeTexts names (env.moved m) = Env.typeTexts names env := by
  match env with
  | .plain fields => exact Env.fieldTexts_moved _ fields
  | .restricted fields used => exact Env.fieldTexts_moved _ fields
  | .consed _ fields => exact Env.fieldTexts_moved _ fields
termination_by structural env

lemma Env.fieldTexts_moved (keep : Name → Bool) (fields : List (Name × Term)) :
    Env.fieldTexts names keep (Env.movedFields m fields) = Env.fieldTexts names keep fields := by
  match fields with
  | [] => rfl
  | (_, t) :: rest =>
    simp only [Env.movedFields, Env.fieldTexts, Term.typeText_moved t,
      Env.fieldTexts_moved keep rest]
termination_by structural fields

end

end

/-! ### A move that only empty traces stay under -/

/-- The position one line further down, at its start. -/
def Span.down (s : Span) : Span := { s with start := { s.start with line := s.start.line + 1 } }

/-- Every position of the trace one line further down. -/
def Trace.down (t : Trace) : Trace := ⟨t.positions.map Span.down⟩

lemma Trace.down_eq_self {t : Trace} (h : t.down = t) : t = {} := by
  obtain ⟨positions⟩ := t
  cases positions with
  | nil => rfl
  | cons s rest =>
    have hs : s.down = s := (List.cons.inj (congrArg Trace.positions h)).1
    have hline : s.start.line + 1 = s.start.line := congrArg (fun s => s.start.line) hs
    omega

lemma Trace.cmp_down (s t : Trace) :
    Code.cmp s.down.code t.down.code = Code.cmp s.code t.code := by
  obtain ⟨ss⟩ := s
  obtain ⟨ts⟩ := t
  simp only [Trace.down, Trace.code]
  induction ss generalizing ts with
  | nil => cases ts <;> simp [Code.list, Code.cmp]
  | cons s ss ih =>
    cases ts with
    | nil => simp [Code.list, Code.cmp]
    | cons t ts => simp [Code.list, Code.cmp, Span.code, Span.down, ih]

lemma Trace.down_inj {s t : Trace} (h : s.down = t.down) : s = t := by
  obtain ⟨ss⟩ := s
  obtain ⟨ts⟩ := t
  refine congrArg Trace.mk ((List.map_inj_right fun a b hab => ?_).1 (congrArg positions h))
  obtain ⟨_, ⟨_, _⟩, _⟩ := a
  obtain ⟨_, ⟨_, _⟩, _⟩ := b
  simpa [Span.down] using hab

namespace Move

/-- Move the positions of code, and every trace down. -/
def down (f : Span → Span) : Move := ⟨f, Trace.down⟩

lemma faithful_down (f : Span → Span) : (down f).Faithful := ⟨Trace.down_inj, Trace.cmp_down⟩

end Move

end Residual
