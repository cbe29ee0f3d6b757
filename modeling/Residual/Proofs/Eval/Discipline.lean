import Residual.Proofs.Eval.Exec
import Residual.Proofs.Surface.Building
import Residual.Proofs.Typed.RenameFormed

/-!
Disciplines: what evaluation keeps, said once for each way in which it changes the world.

A discipline is an invariant of worlds and a preorder between the world before a step and the
world after it, each with one rule for every primitive change. The judgement `Does` carries both
through a step, whether the step succeeds or fails. It speaks of two steps at a time, so that a
step can also be compared with itself under another evaluator of its parts: they agree if the
evaluators agree in the worlds that satisfy the invariant.

A discipline that is `strict` also keeps all values formed and all code sorted.
-/

namespace Residual

/-- The type that a call of a join point says its body has: for a closure, the range. -/
def PointKind.result : PointKind → Ty → Ty
  | .closure, .closure _ range => range
  | _, ty => ty

/-- A call can have the type `callTy` if the body has the type `ty`: for a closure, this is a type
of functions to `ty`. -/
def PointKind.Expects : PointKind → Ty → Ty → Prop
  | .closure, callTy, ty => ∃ dom, callTy = .closure dom ty
  | _, callTy, ty => callTy = ty

lemma PointKind.Expects.result_eq {kind : PointKind} {callTy ty : Ty}
    (h : kind.Expects callTy ty) : kind.result callTy = ty := by
  cases kind with
  | closure =>
    obtain ⟨dom, rfl⟩ := h
    rfl
  | _ =>
    cases h
    rfl

mutual

/-- The calls of join points in a term, with the type that each expects of the body. -/
def Term.calls : Term → List (Point × Ty)
  | .type _ | .var _ | .lit _ => []
  | .tuple items => Term.callsOfAll items
  | .map env _ => env.calls
  | .box inner _ => inner.calls
  | .letIn _ bound rest _ => bound.calls ++ rest.calls
  | .state stmt rest _ => stmt.calls ++ rest.calls
  | .op _ args _ => Term.callsOfAll args
  | .call key kind _ ty => [(⟨kind, key⟩, kind.result ty)]

def Term.callsOfAll : List Term → List (Point × Ty)
  | [] => []
  | t :: rest => t.calls ++ Term.callsOfAll rest

def Env.calls : Env → List (Point × Ty)
  | .plain m | .restricted m _ | .consed _ m => Env.callsOfFields m

def Env.callsOfFields : List (Name × Term) → List (Point × Ty)
  | [] => []
  | (_, t) :: rest => t.calls ++ Env.callsOfFields rest

end

mutual

/-- The calls of join points in a term, with the type that each has itself. -/
def Term.sites : Term → List (Point × Ty)
  | .type _ | .var _ | .lit _ => []
  | .tuple items => Term.sitesOfAll items
  | .map env _ => env.sites
  | .box inner _ => inner.sites
  | .letIn _ bound rest _ => bound.sites ++ rest.sites
  | .state stmt rest _ => stmt.sites ++ rest.sites
  | .op _ args _ => Term.sitesOfAll args
  | .call key kind _ ty => [(⟨kind, key⟩, ty)]

def Term.sitesOfAll : List Term → List (Point × Ty)
  | [] => []
  | t :: rest => t.sites ++ Term.sitesOfAll rest

def Env.sites : Env → List (Point × Ty)
  | .plain m | .restricted m _ | .consed _ m => Env.sitesOfFields m

def Env.sitesOfFields : List (Name × Term) → List (Point × Ty)
  | [] => []
  | (_, t) :: rest => t.sites ++ Env.sitesOfFields rest

end

/-- What a call expects of the body. -/
def Point.expected (c : Point × Ty) : Point × Ty := (c.1, c.1.kind.result c.2)

mutual

lemma Term.calls_eq_sites (t : Term) : t.calls = t.sites.map Point.expected := by
  match t with
  | .type _ | .var _ | .lit _ => rfl
  | .tuple items => exact Term.callsOfAll_eq_sites items
  | .map env kind => exact Env.calls_eq_sites env
  | .box inner ty => exact Term.calls_eq_sites inner
  | .letIn bind bound rest trace =>
    simp [Term.calls, Term.sites, Term.calls_eq_sites bound, Term.calls_eq_sites rest]
  | .state stmt rest trace =>
    simp [Term.calls, Term.sites, Term.calls_eq_sites stmt, Term.calls_eq_sites rest]
  | .op o args ty => exact Term.callsOfAll_eq_sites args
  | .call key kind args ty => rfl
termination_by structural t

lemma Term.callsOfAll_eq_sites (ts : List Term) :
    Term.callsOfAll ts = (Term.sitesOfAll ts).map Point.expected := by
  match ts with
  | [] => rfl
  | t :: rest =>
    simp [Term.callsOfAll, Term.sitesOfAll, Term.calls_eq_sites t, Term.callsOfAll_eq_sites rest]
termination_by structural ts

lemma Env.calls_eq_sites (env : Env) : env.calls = env.sites.map Point.expected := by
  match env with
  | .plain m | .restricted m _ | .consed _ m => exact Env.callsOfFields_eq_sites m
termination_by structural env

lemma Env.callsOfFields_eq_sites (m : List (Name × Term)) :
    Env.callsOfFields m = (Env.sitesOfFields m).map Point.expected := by
  match m with
  | [] => rfl
  | (x, t) :: rest =>
    simp [Env.callsOfFields, Env.sitesOfFields, Term.calls_eq_sites t,
      Env.callsOfFields_eq_sites rest]
termination_by structural m

end

def Stmt.calls : Stmt → List (Point × Ty)
  | .letIn _ bound _ => bound.calls
  | .state stmt _ => stmt.calls

def Stmt.sites : Stmt → List (Point × Ty)
  | .letIn _ bound _ => bound.sites
  | .state stmt _ => stmt.sites

lemma Stmt.calls_eq_sites (s : Stmt) : s.calls = s.sites.map Point.expected := by
  cases s <;> exact Term.calls_eq_sites _

lemma Stmt.calls_close (stmts : List Stmt) (result : Term) :
    (Stmt.close stmts result).calls = stmts.flatMap Stmt.calls ++ result.calls := by
  induction stmts with
  | nil => rfl
  | cons s rest ih => cases s <;> simp [Stmt.before, Term.calls, Stmt.calls, ih]

lemma Stmt.sites_close (stmts : List Stmt) (result : Term) :
    (Stmt.close stmts result).sites = stmts.flatMap Stmt.sites ++ result.sites := by
  induction stmts with
  | nil => rfl
  | cons s rest ih => cases s <;> simp [Stmt.before, Term.sites, Stmt.sites, ih]

mutual

lemma Term.Formed.sites_eq (t : Term) (h : t.Formed) : t.sites = [] := by
  match t with
  | .type _ | .var _ | .lit _ => rfl
  | .tuple items => exact Term.AllFormed.sites_eq items h
  | .map env kind => exact Env.Formed.sites_eq env h.1
  | .box inner ty => exact Term.Formed.sites_eq inner h.1
  | .op o args ty => exact Term.AllFormed.sites_eq args h.2.1
termination_by structural t

lemma Term.AllFormed.sites_eq (ts : List Term) (h : Term.AllFormed ts) :
    Term.sitesOfAll ts = [] := by
  match ts with
  | [] => rfl
  | t :: rest =>
    rw [Term.sitesOfAll, Term.Formed.sites_eq t h.1, Term.AllFormed.sites_eq rest h.2]
    rfl
termination_by structural ts

lemma Env.Formed.sites_eq (env : Env) (h : env.Formed) : env.sites = [] := by
  match env with
  | .plain m => exact Env.FieldsFormed.sites_eq m h.2
  | .restricted m used => exact Env.FieldsFormed.sites_eq m h.2.1
  | .consed _ m => exact Env.FieldsFormed.sites_eq m h.2
termination_by structural env

lemma Env.FieldsFormed.sites_eq (m : List (Name × Term)) (h : Env.FieldsFormed m) :
    Env.sitesOfFields m = [] := by
  match m with
  | [] => rfl
  | (x, t) :: rest =>
    rw [Env.sitesOfFields, Term.Formed.sites_eq t h.1, Env.FieldsFormed.sites_eq rest h.2]
    rfl
termination_by structural m

end

/-- A value calls nothing. -/
theorem Term.Formed.calls_eq {t : Term} (h : t.Formed) : t.calls = [] := by
  rw [t.calls_eq_sites, h.sites_eq]
  rfl

section

variable {P : Point → Ty → Prop}

lemma Term.forall_calls {t : Term} :
    (∀ c ∈ t.calls, P c.1 c.2) ↔ ∀ c ∈ t.sites, P c.1 (c.1.kind.result c.2) := by
  rw [t.calls_eq_sites]
  exact List.forall_mem_map

lemma Stmt.forall_calls {s : Stmt} :
    (∀ c ∈ s.calls, P c.1 c.2) ↔ ∀ c ∈ s.sites, P c.1 (c.1.kind.result c.2) := by
  rw [s.calls_eq_sites]
  exact List.forall_mem_map

end

lemma Term.mem_sitesOfAll {ts : List Term} {c : Point × Ty} :
    c ∈ Term.sitesOfAll ts ↔ ∃ t ∈ ts, c ∈ t.sites := by
  induction ts with
  | nil => simp [Term.sitesOfAll]
  | cons t rest ih => simp [Term.sitesOfAll, ih]

/-! ### Formed worlds -/

def Progress.Formed : Progress → Prop
  | .pending none => True
  | .pending (some ty) => ty.Formed
  | .done body => body.ty.Formed

/-- What a session hands to evaluation is formed. -/
structure Session.Formed (s : Session) : Prop where
  store : s.store.Sorted
  envs : s.envs.Formed
  points : ∀ e ∈ s.points, e.2.progress.Formed
  recTypes : ∀ e ∈ s.recTypes, e.2.Formed

/-- What a world hands to evaluation is formed. -/
structure World.Formed (w : World) : Prop where
  session : w.session.Formed
  env : w.scope.env.Formed
  sharing : ∀ e ∈ w.scope.sharing.entries, e.2.Formed

/-- The tables of the second session have all that is in those of the first. -/
structure Session.Grows (s s' : Session) : Prop where
  store : s.store.Grows s'.store
  envs : s.envs.Extends s'.envs
  keys : s.keys.Extends s'.keys

namespace Session.Grows

lemma refl (s : Session) : s.Grows s := ⟨.refl _, .refl _, .refl _⟩

lemma trans {a b c : Session} (h : a.Grows b) (k : b.Grows c) : a.Grows c :=
  ⟨h.store.trans k.store, h.envs.trans k.envs, h.keys.trans k.keys⟩

end Session.Grows

/-- Only the tables have grown, and perhaps the counts of requests have changed. -/
structure Session.Quiet (s s' : Session) : Prop where
  grows : s.Grows s'
  bodies : s'.stats.bodies = s.stats.bodies
  rest : s' = { s with store := s'.store, envs := s'.envs, keys := s'.keys, stats := s'.stats }

/-! ### Bodies -/

namespace World

/-- The scope in which the body of `p` is evaluated. -/
def bodyScope (w : World) (p : Point) (captured : Eval.Captured) : Scope :=
  { env := .consed captured.envSymbol captured.env
    tags := captured.tags
    trace := w.scope.trace
    owner := some p }

/-- The world in which the body of `p` is evaluated. -/
def atBody (w : World) (p : Point) (captured : Eval.Captured) (annot : Option Ty) : World :=
  (w.start p annot).setScope (w.bodyScope p captured)

/-- The finished body of `p`, from the value of its code. -/
def bodyTerm (w : World) (p : Point) (value : Term) : Term :=
  if p.kind = .type then .type value.ty else Stmt.close w.scope.stmts value

end World

/-- The type of the body of a join point; a type that mentions itself is recursive. -/
def Point.bodyTy (p : Point) (term : Term) : Ty :=
  if p.kind = .type ∧ term.ty.mentions p.key then .recur p.key else term.ty

/-- The join point `p` is done. -/
def World.complete (w : World) (p : Point) (term : Term) (captured : Eval.Captured) : World :=
  { w with session :=
    { w.session with
      recTypes :=
        if p.kind = .type ∧ term.ty.mentions p.key then
          (p.key, term.ty) :: w.session.recTypes.filter fun e => e.1 ≠ p.key
        else w.session.recTypes
      points := w.session.points.setProgress p
        (.done ⟨term, p.bodyTy term, captured.params, captured.closureParam⟩)
      finished := w.session.finished ++ [p]
      stats := { w.session.stats with bodies := w.session.stats.bodies + 1 }
      depth := w.session.depth - 1 } }

/-- One of the statements binds the variable to the operation, at its type. -/
def Application.BoundIn (a : Application) (v : Var) (stmts : List Stmt) : Prop :=
  ∃ trace, .letIn v (.op a.op a.args v.ty) trace ∈ stmts

/-- The key and the captured values are the answer to a request that was made before. -/
def Session.Asked (strict : Prop) (s : Session) (p : Point) (captured : Eval.Captured) : Prop :=
  ∃ w env body arg w', (strict → w.Formed ∧ env.Formed ∧ body.Sorted) ∧
    (p.kind = .closure ↔ arg.isSome) ∧
    Eval.exec (Eval.request env body arg) w = (.ok (p.key, captured), w') ∧
    w'.session.Grows s

lemma Session.Asked.mono {strict : Prop} {s s' : Session} {p : Point}
    {captured : Eval.Captured} (h : s.Asked strict p captured) (hs : s.Grows s') :
    s'.Asked strict p captured := by
  obtain ⟨w, env, body, arg, w', h1, h2, h3, h4⟩ := h
  exact ⟨w, env, body, arg, w', h1, h2, h3, h4.trans hs⟩

/-- An invariant of worlds, a preorder between worlds before and after, and what may be called.
The invariant has an index that changes where the body of a join point is entered, and where a
branch is entered that saves the statements so far. The evaluation of a body comes to a result,
and a split guesses the type of a body, only where the discipline says that it may. Of two steps
that are compared the first one may run out of fuel if the discipline is `lax`. -/
structure Discipline where
  Index : Type
  strict : Prop
  Inv : Index → World → Prop
  Le : World → World → Prop
  Known : Index → Session → Point → Ty → Prop
  inner : Index → Point → Index
  within : Index → List Stmt → Index
  Ends : Index → World → Prop := fun _ _ => True
  Guesses : Index → World → Point → Prop := fun _ _ _ => True
  lax : Prop := False
  le_refl : ∀ w, Le w w
  le_trans : ∀ {w₁ w₂ w₃}, Le w₁ w₂ → Le w₂ w₃ → Le w₁ w₃
  le_grows : ∀ {w w'}, Le w w' → w.session.Grows w'.session
  le_owner : ∀ {w w'}, Le w w' → w'.scope.owner = w.scope.owner
  known_le : ∀ {i w w' p ty}, Inv i w' → Le w w' → Known i w.session p ty →
    Known i w'.session p ty
  known_pending : ∀ {i w p ty trace callTy}, Inv i w → p.kind ≠ .type →
    w.session.find? p = some ⟨.pending (some ty), trace⟩ → p.kind.Expects callTy ty →
    Known i w.session p callTy
  known_done : ∀ {i w p body trace callTy}, Inv i w → p.kind ≠ .type →
    w.session.find? p = some ⟨.done body, trace⟩ → p.kind.Expects callTy body.ty →
    Known i w.session p callTy
  known_stmts : ∀ {i w}, strict → Inv i w → ∀ s ∈ w.scope.stmts, ∀ c ∈ s.sites,
    Known i w.session c.1 c.2
  known_within : ∀ {i stmts s p ty}, Known (within i stmts) s p ty → Known i s p ty := by
    exact fun h => h
  quiet : ∀ {i w s'}, Inv i w → w.session.Quiet s' →
    Inv i { w with session := s' } ∧ Le w { w with session := s' }
  tags : ∀ {i w t}, Inv i w → w.scope.tags.next ≤ t.next →
    Inv i (w.setTags t) ∧ Le w (w.setTags t)
  push : ∀ {i w s}, Inv i w → (strict → ∀ c ∈ s.sites, Known i w.session c.1 c.2) →
    Inv i (w.push s) ∧ Le w (w.push s)
  share : ∀ {i w a v}, Inv i w → w.scope.sharing.get? a = none → a.op.isPure = true →
    a.BoundIn v w.scope.stmts → Inv i (w.share a v) ∧ Le w (w.share a v)
  setEnv : ∀ {i w} (env : Env), Inv i w → Inv i (w.setEnv env)
  resetEnv : ∀ {w w'} (env : Env), Le (w.setEnv env) w' → Le w (w'.setEnv w.scope.env)
  setTrace : ∀ {i w} (trace : Trace), Inv i w → Inv i (w.setTrace trace)
  resetTrace : ∀ {w w'} (trace : Trace), Le (w.setTrace trace) w' →
    Le w (w'.setTrace w.scope.trace)
  enterBranch : ∀ {i w}, Inv i w → Inv (within i w.scope.stmts) w.enterBranch
  leaveBranch : ∀ {i w w'}, Inv i w → Inv (within i w.scope.stmts) w' → Le w.enterBranch w' →
    Inv i (w.leaveBranch w') ∧ Le w (w.leaveBranch w')
  guess : ∀ {i w p} (ty : Ty), Inv i w → w.scope.owner = some p → Guesses i w p →
    Inv i (w.setPending p (some ty)) ∧ Le w (w.setPending p (some ty))
  retract : ∀ {i w w' p ty}, Inv i w → w.scope.owner = some p → Guesses i w p → Inv i w' →
    Le (w.setPending p (some ty)) w' → w'.scope.stmts = w.scope.stmts →
    Inv i (w'.retract p w.session.finished.length) ∧
      Le w (w'.retract p w.session.finished.length)
  start : ∀ {i w p captured annot}, Inv i w → w.session.find? p = none →
    w.session.depth < w.session.settings.maxDepth →
    w.session.Asked strict p captured → Inv (inner i p) (w.atBody p captured annot)
  complete : ∀ {i w w' p captured annot value}, Inv i w → w.session.find? p = none →
    w.session.Asked strict p captured → Inv (inner i p) w' →
    Le (w.atBody p captured annot) w' →
    (strict → ∀ c ∈ (w'.bodyTerm p value).sites, Known (inner i p) w'.session c.1 c.2) →
    (Eval.exec (Eval.checkBody p (w'.bodyTerm p value)) (w'.setScope w.scope)).1 = .ok () →
    Ends (inner i p) (w.atBody p captured annot) →
    Inv i ((w'.setScope w.scope).complete p (w'.bodyTerm p value) captured) ∧
      Le w ((w'.setScope w.scope).complete p (w'.bodyTerm p value) captured) ∧
      (p.kind ≠ .type → ∀ callTy, p.kind.Expects callTy (p.bodyTy (w'.bodyTerm p value)) →
        Known i ((w'.setScope w.scope).complete p (w'.bodyTerm p value) captured).session p callTy)
  abandon : ∀ {i w w' p captured annot}, Inv i w → w.session.find? p = none →
    Inv (inner i p) w' → Le (w.atBody p captured annot) w' →
    Inv i ((w'.setScope w.scope).abandon p) ∧ Le w ((w'.setScope w.scope).abandon p)

/-- Every body may come to a result, every split may guess, and two steps do exactly the same. -/
class Discipline.Unguarded (D : Discipline) : Prop where
  ends : ∀ i w, D.Ends i w
  guesses : ∀ i w p, D.Guesses i w p
  exact : ¬ D.lax

namespace Discipline

open Eval

variable {D : Discipline} {i : D.Index} {w : World} {α β : Type}

/-- The invariant holds, and the world is formed if that is asked for. -/
def Good (D : Discipline) (i : D.Index) (w : World) : Prop :=
  D.Inv i w ∧ (D.strict → w.Formed)

/-- A value that evaluation may go on with. -/
def Value (D : Discipline) (t : Term) : Prop := D.strict → t.Formed

/-- A type that evaluation may go on with. -/
def Shape (D : Discipline) (t : Ty) : Prop := D.strict → t.Formed

/-- Code whose calls are known and whose type is formed. -/
def Code (D : Discipline) (i : D.Index) (w : World) (t : Term) : Prop :=
  D.strict → t.ty.Formed ∧ ∀ c ∈ t.sites, D.Known i w.session c.1 c.2

/-- Two outcomes are the same, or the first one is that there was no fuel left. -/
def Agree (D : Discipline) (r r' : Except Stop α × World) : Prop :=
  r = r' ∨ D.lax ∧ r.1 = .error .outOfFuel

lemma Agree.refl (r : Except Stop α × World) : D.Agree r r := .inl rfl

lemma Agree.eq [D.Unguarded] {r r' : Except Stop α × World} (h : D.Agree r r') : r = r' :=
  h.resolve_right fun h => Unguarded.exact h.1

/-- A step around another one passes on that there was no fuel left. -/
theorem Agree.map {r r' : Except Stop α × World} (h : D.Agree r r')
    (f : Except Stop α × World → Except Stop β × World)
    (hf : ∀ w, (f (.error .outOfFuel, w)).1 = .error .outOfFuel) : D.Agree (f r) (f r') := by
  rcases h with rfl | ⟨hlax, herror⟩
  · exact .refl _
  · obtain ⟨_, w⟩ := r
    cases herror
    exact .inr ⟨hlax, hf w⟩

/-- Both steps do the same from `w`, and keep the invariant; a result has the property. -/
def Does (D : Discipline) (i : D.Index) (w : World) (m m' : Eval α) (Q : α → World → Prop) :
    Prop :=
  D.Good i w → D.Agree (exec m w) (exec m' w) ∧ D.Good i (exec m w).2 ∧ D.Le w (exec m w).2 ∧
    ∀ a, (exec m w).1 = .ok a → Q a (exec m w).2

/-- Two evaluators that do the same where the invariant holds, here and inside the body of a
join point. -/
structure Pair (D : Discipline) (i : D.Index) (ev ev' : Expr → Eval Term) : Prop where
  here : ∀ e w, (D.strict → e.Sorted) → D.Does i w (ev e) (ev' e) fun t _ => D.Value t
  inside : ∀ p e w, (D.strict → e.Sorted) →
    D.Does (D.inner i p) w (ev e) (ev' e) fun t _ => D.Value t
  ends : ∀ p e w t, D.Inv (D.inner i p) w → (exec (ev e) w).1 = .ok t → D.Ends (D.inner i p) w

lemma Value.code {t : Term} (h : D.Value t) : D.Code i w t := by
  intro hs
  refine ⟨(h hs).ty, fun c hc => ?_⟩
  rw [(h hs).sites_eq] at hc
  cases hc

lemma Code.le {t : Term} {w' : World} (h : D.Code i w t) (hi : D.Inv i w') (hle : D.Le w w') :
    D.Code i w' t :=
  fun hs => ⟨(h hs).1, fun c hc => D.known_le hi hle ((h hs).2 c hc)⟩

namespace Does

variable {m m' : Eval α} {f f' : α → Eval β} {P : α → World → Prop} {Q : β → World → Prop}

lemma pure {a : α} (h : D.Good i w → P a w) : D.Does i w (pure a) (pure a) P :=
  fun hw => ⟨.refl _, hw, D.le_refl w, fun b hb => by cases hb; exact h hw⟩

lemma throw (s : Stop) : D.Does i w (throw s : Eval α) (throw s) P :=
  fun hw => ⟨.refl _, hw, D.le_refl w, fun b hb => by cases hb⟩

lemma fail (c : Cause) : D.Does i w (Eval.fail c : Eval α) (Eval.fail c) P :=
  fun hw => ⟨.refl _, hw, D.le_refl w, fun b hb => by cases hb⟩

lemma given (h : D.Good i w → D.Does i w m m' P) : D.Does i w m m' P := fun hw => h hw hw

lemma imp {P' : α → World → Prop} (h : D.Does i w m m' P) (hP : ∀ a w', P a w' → P' a w') :
    D.Does i w m m' P' :=
  fun hw => let ⟨h1, h2, h3, h4⟩ := h hw; ⟨h1, h2, h3, fun a ha => hP a _ (h4 a ha)⟩

lemma bind (hm : D.Does i w m m' P)
    (hf : ∀ a w', D.Good i w' → D.Le w w' → P a w' → D.Does i w' (f a) (f' a) Q) :
    D.Does i w (m >>= f) (m' >>= f') Q := by
  intro hw
  obtain ⟨hagree, hgood, hle, hP⟩ := hm hw
  rcases hrun : exec m w with ⟨r, w'⟩
  rw [hrun] at hagree hgood hle hP
  cases r with
  | error s =>
    rw [exec_bind_of_error hrun]
    refine ⟨?_, hgood, hle, fun a ha => by cases ha⟩
    rcases hagree with heq | ⟨hlax, herror⟩
    · rw [exec_bind_of_error heq.symm]
      exact .refl _
    · cases herror
      exact .inr ⟨hlax, rfl⟩
  | ok a =>
    have heq := hagree.resolve_right fun h => by cases h.2
    rw [exec_bind_of_ok hrun, exec_bind_of_ok heq.symm]
    obtain ⟨hagree', hgood', hle', hQ⟩ := hf a w' hgood hle (hP a rfl) hgood
    exact ⟨hagree', hgood', D.le_trans hle hle', hQ⟩

lemma get {f f' : World → Eval β} (h : D.Does i w (f w) (f' w) Q) :
    D.Does i w (MonadState.get >>= f) (MonadState.get >>= f') Q :=
  h

lemma getScope {f f' : Scope → Eval β} (h : D.Does i w (f w.scope) (f' w.scope) Q) :
    D.Does i w (Eval.getScope >>= f) (Eval.getScope >>= f') Q :=
  h

lemma getSession {f f' : Session → Eval β}
    (h : D.Does i w (f w.session) (f' w.session) Q) :
    D.Does i w (Eval.getSession >>= f) (Eval.getSession >>= f') Q :=
  h

lemma ran (h : D.Does i w m m' P) :
    D.Does i w m m' fun a w' => P a w' ∧ exec m w = (.ok a, w') := by
  intro hw
  obtain ⟨h1, h2, h3, h4⟩ := h hw
  exact ⟨h1, h2, h3, fun a ha => ⟨h4 a ha, Prod.ext ha rfl⟩⟩

/-- A step that succeeds from `w` and leaves the world `w'` behind. -/
theorem of_exec {a : α} {w' : World} (hm : exec m w = (.ok a, w'))
    (h : D.Good i w → D.Good i w' ∧ D.Le w w' ∧ P a w') : D.Does i w m m P := by
  intro hw
  obtain ⟨hgood, hle, hP⟩ := h hw
  rw [hm]
  exact ⟨.refl _, hgood, hle, fun b hb => by cases hb; exact hP⟩

lemma mapM {f f' : α → Eval β} {P : β → Prop} {l : List α}
    (h : ∀ a ∈ l, ∀ w, D.Does i w (f a) (f' a) fun b _ => P b) :
    D.Does i w (l.mapM f) (l.mapM f') fun bs _ => ∀ b ∈ bs, P b := by
  induction l generalizing w with
  | nil => exact .pure fun _ b hb => by cases hb
  | cons a l ih =>
    rw [List.mapM_cons, List.mapM_cons]
    refine (h a (List.mem_cons_self ..) w).bind fun b w₁ _ _ hb => ?_
    refine (ih fun a ha => h a (List.mem_cons_of_mem _ ha)).bind fun bs w₂ _ _ hbs => ?_
    exact .pure fun _ => List.forall_mem_cons.2 ⟨hb, hbs⟩

end Does

/-! ### Rules for the primitive changes -/

lemma good_quiet {s' : Session} (hw : D.Good i w) (hq : w.session.Quiet s')
    (hf : D.strict → s'.Formed) :
    D.Good i { w with session := s' } ∧ D.Le w { w with session := s' } :=
  ⟨⟨(D.quiet hw.1 hq).1, fun hs => ⟨hf hs, (hw.2 hs).env, (hw.2 hs).sharing⟩⟩,
    (D.quiet hw.1 hq).2⟩

lemma does_modifyStats (f : Stats → Stats) (hf : ∀ s, (f s).bodies = s.bodies) :
    D.Does i w (modifyStats f) (modifyStats f) fun _ _ => True := by
  refine .of_exec (exec_modifyStats f w) fun hw => ?_
  have hq : w.session.Quiet { w.session with stats := f w.session.stats } :=
    ⟨⟨.refl _, .refl _, .refl _⟩, hf _, rfl⟩
  obtain ⟨hgood, hle⟩ := good_quiet hw hq fun hs => by
    obtain ⟨h1, h2, h3, h4⟩ := (hw.2 hs).session
    exact ⟨h1, h2, h3, h4⟩
  exact ⟨hgood, hle, trivial⟩

lemma does_build {act : Build α} {P : α → Prop} (h : Build.Does D.strict act P) :
    D.Does i w (build act) (build act) fun a _ => P a := by
  refine .of_exec (exec_build act w) fun hw => ?_
  obtain ⟨hgrow, hsorted, hP⟩ := h w.session.store fun hs => (hw.2 hs).session.store
  have hq : w.session.Quiet { w.session with store := (act.run w.session.store).2 } :=
    ⟨⟨hgrow, .refl _, .refl _⟩, rfl, rfl⟩
  obtain ⟨hgood, hle⟩ := good_quiet hw hq fun hs => by
    obtain ⟨h1, h2, h3, h4⟩ := (hw.2 hs).session
    exact ⟨hsorted hs, h2, h3, h4⟩
  exact ⟨hgood, hle, hP⟩

lemma does_setEnvs {envs : EnvTable} (hext : w.session.envs.Extends envs)
    (hf : D.strict → envs.Formed) (hw : D.Good i w) :
    D.Good i (w.setEnvs envs) ∧ D.Le w (w.setEnvs envs) := by
  have hq : w.session.Quiet { w.session with envs } := ⟨⟨.refl _, hext, .refl _⟩, rfl, rfl⟩
  refine good_quiet hw hq fun hs => ?_
  obtain ⟨h1, h2, h3, h4⟩ := (hw.2 hs).session
  exact ⟨h1, hf hs, h3, h4⟩

/-- A renaming that starts without arguments. -/
theorem does_rename {start : EnvTable → Renaming} {act : Rename α} {P : α → Prop}
    (hstart : ∀ envs, (start envs).envs = envs ∧ (start envs).args = [] ∧
      (start envs).params = [])
    (hgrows : Rename.Grows act) (hkeeps : D.strict → Rename.Keeps act P) :
    D.Does i w (rename start act) (rename start act) fun a w' =>
      act.run (start w.session.envs) = some a ∧ w'.session.envs = a.2.envs ∧
        w'.scope = w.scope ∧ (D.strict → P a.1 ∧ a.2.Formed) := by
  intro hw
  rw [exec_rename]
  cases hrun : act.run (start w.session.envs) with
  | none => exact ⟨.refl _, hw, D.le_refl w, fun b hb => by cases hb⟩
  | some r =>
    obtain ⟨a, r⟩ := r
    obtain ⟨hbase, hargs, hparams⟩ := hstart w.session.envs
    have hext : w.session.envs.Extends r.envs := by
      have h := (hgrows _ _ _ hrun).envs
      rwa [hbase] at h
    have hformed : D.strict → r.Formed ∧ P a := fun hs => by
      refine hkeeps hs _ _ _ hrun ⟨?_, ?_, ?_, ?_⟩
      · rw [hbase]
        exact (hw.2 hs).session.envs
      · simp [hargs]
      · simp [hargs]
      · simp [hparams]
    obtain ⟨hgood, hle⟩ := does_setEnvs hext (fun hs => (hformed hs).1.envs) hw
    refine ⟨.refl _, hgood, hle, fun b hb => ?_⟩
    cases hb
    exact ⟨rfl, rfl, rfl, fun hs => ⟨(hformed hs).2, (hformed hs).1⟩⟩

lemma good_tags {t : Tags} (hw : D.Good i w) (ht : w.scope.tags.next ≤ t.next) :
    D.Good i (w.setTags t) ∧ D.Le w (w.setTags t) :=
  ⟨⟨(D.tags hw.1 ht).1, fun hs => ⟨(hw.2 hs).session, (hw.2 hs).env, (hw.2 hs).sharing⟩⟩,
    (D.tags hw.1 ht).2⟩

end Discipline

end Residual
