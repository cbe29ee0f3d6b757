import Residual.Proofs.Eval.Together
import Residual.Proofs.Typed.Akin

/-!
Coupled runs: two evaluations of the same code that leave different code.

A coupling says how the sessions and the scopes of two runs belong together, beyond what two runs of
the same code always have in common: the store, the types of join points, what was finished, the
trace. Its laws are about the few steps that touch what it speaks of: drawing a variable, adding a
statement, emitting an operation, packing and unpacking, entering captured values, and splitting.
All of evaluation is built from these, so coupled runs stay coupled and decide alike.
-/

namespace Residual

/-! ### What two runs have in common -/

/-- Two runs side by side: what is known of their tags, and the world that each of them is in. -/
structure Runs where
  tags : Tagging
  left : World
  right : World

/-- What a session enters captured values in, how it is set, and how often a result was used
again. -/
structure Session.Tables where
  envs : EnvTable
  keys : Interner KeyData
  settings : Settings
  hits : Nat

def Session.tables (s : Session) : Session.Tables :=
  ⟨s.envs, s.keys, s.settings, s.stats.sharingHits⟩

/-- What is emitted in a scope. -/
structure Scope.Output where
  tags : Tags
  stmts : List Stmt
  sharing : Sharing

def Scope.output (s : Scope) : Scope.Output := ⟨s.tags, s.stmts, s.sharing⟩

/-- At the start of a branch. -/
def Scope.Output.enterBranch (o : Scope.Output) : Scope.Output :=
  ⟨o.tags, [], o.sharing.push⟩

/-- After a branch that started from `o`. -/
def Scope.Output.leaveBranch (o o' : Scope.Output) : Scope.Output :=
  ⟨o'.tags, o.stmts, o'.sharing.pop⟩

/-- What a body starts with. -/
def Scope.Output.start (tags : Tags) : Scope.Output := ⟨tags, [], {}⟩

namespace Runs

/-- The functions in values are made of code of the store. -/
abbrev held (p : Runs) : MapKind → Prop := MapKind.Backed p.left.session.store

abbrev Kin (p : Runs) (a b : Term) : Prop := a.Akin p.tags p.held b

abbrev KinVar (p : Runs) (v w : Var) : Prop := v.Akin p.tags p.held w

abbrev KinFields (p : Runs) (m n : Fields Term) : Prop := m.Akin p.tags p.held n

abbrev KinEnv (p : Runs) (d e : Env) : Prop := d.Akin p.tags p.held e

abbrev Tys (p : Runs) (s t : Ty) : Prop := s.Twin p.held t

/-- More is known, and more is there. -/
structure Grows (p q : Runs) : Prop where
  tags : p.tags ≤ q.tags
  store : p.left.session.store.Grows q.left.session.store

/-- Besides, both runs have all that was there. -/
structure Later (p q : Runs) : Prop extends Grows p q where
  left : p.left.Framed q.left
  right : p.right.Framed q.right

variable {p q r : Runs}

lemma Grows.refl (p : Runs) : p.Grows p := ⟨le_refl _, .refl _⟩

lemma Grows.trans (h : p.Grows q) (k : q.Grows r) : p.Grows r :=
  ⟨h.tags.trans k.tags, h.store.trans k.store⟩

lemma Grows.held (h : p.Grows q) : ∀ k, p.held k → q.held k := MapKind.Backed.mono h.store

lemma Later.refl (p : Runs) : p.Later p := ⟨.refl p, .refl _, .refl _⟩

lemma Later.trans (h : p.Later q) (k : q.Later r) : p.Later r :=
  ⟨h.toGrows.trans k.toGrows, h.left.trans k.left, h.right.trans k.right⟩

lemma Grows.kin {a b : Term} (h : p.Grows q) (hab : p.Kin a b) : q.Kin a b :=
  hab.mono h.tags h.held

lemma Grows.kinVar {v w : Var} (h : p.Grows q) (hvw : p.KinVar v w) : q.KinVar v w :=
  hvw.mono h.tags h.held

lemma Grows.kinFields {m n : Fields Term} (h : p.Grows q) (hmn : p.KinFields m n) :
    q.KinFields m n :=
  hmn.imp fun _ _ hde => ⟨hde.1, h.kin hde.2⟩

lemma Grows.kinEnv {d e : Env} (h : p.Grows q) (hde : p.KinEnv d e) : q.KinEnv d e :=
  h.kinFields hde

lemma Grows.tys {s t : Ty} (h : p.Grows q) (hst : p.Tys s t) : q.Tys s t := hst.mono h.held

lemma Grows.kins {as bs : List Term} (h : p.Grows q) (hab : List.Forall₂ p.Kin as bs) :
    List.Forall₂ q.Kin as bs :=
  hab.imp fun _ _ => h.kin

end Runs

/-! ### Tables of related entries -/

lemma optionRel_imp {α β : Type} {R S : α → β → Prop} (hRS : ∀ a b, R a b → S a b)
    {o : Option α} {o' : Option β} (h : Option.Rel R o o') : Option.Rel S o o' := by
  cases h with
  | none => exact .none
  | some h => exact .some (hRS _ _ h)

namespace PointTable

variable {R : Entry → Entry → Prop} {t t' : PointTable}

/-- Tables with related entries for the same join points. -/
abbrev Rel (R : Entry → Entry → Prop) (t t' : PointTable) : Prop :=
  List.Forall₂ (fun d e => d.1 = e.1 ∧ R d.2 e.2) t t'

lemma Rel.get? (h : Rel R t t') (p : Point) : Option.Rel R (t.get? p) (t'.get? p) := by
  induction h with
  | nil => exact .none
  | @cons d e t t' h _ ih =>
    obtain ⟨q, d⟩ := d
    obtain ⟨q', e⟩ := e
    obtain ⟨rfl, h⟩ := h
    rw [get?_cons, get?_cons]
    split
    · exact .some h
    · exact ih

lemma Rel.erase (h : Rel R t t') (p : Point) : Rel R (t.erase p) (t'.erase p) := by
  induction h with
  | nil => exact .nil
  | @cons d e t t' h _ ih =>
    obtain ⟨q, d⟩ := d
    obtain ⟨q', e⟩ := e
    obtain ⟨rfl, h⟩ := h
    rw [erase_cons, erase_cons]
    split
    · exact ih
    · exact .cons ⟨rfl, h⟩ ih

lemma Rel.foldl_erase (h : Rel R t t') (ps : List Point) :
    Rel R (ps.foldl PointTable.erase t) (ps.foldl PointTable.erase t') := by
  induction ps generalizing t t' with
  | nil => exact h
  | cons p ps ih => exact ih (h.erase p)

lemma Rel.setProgress (h : Rel R t t') (p : Point) {r r' : Progress}
    (hr : ∀ d e, R d e → R { d with progress := r } { e with progress := r' }) :
    Rel R (t.setProgress p r) (t'.setProgress p r') := by
  refine List.forall₂_map_left_iff.2 (List.forall₂_map_right_iff.2 (h.imp fun d e hde => ?_))
  obtain ⟨q, d⟩ := d
  obtain ⟨q', e⟩ := e
  obtain ⟨rfl, hde⟩ := hde
  dsimp only
  split
  · exact ⟨rfl, hr d e hde⟩
  · exact ⟨rfl, hde⟩

end PointTable

/-- The entries for one key in lists with related entries for the same keys. -/
theorem lookup_rel {α : Type} {R : α → α → Prop} {l l' : List (Key × α)}
    (h : List.Forall₂ (fun d e => d.1 = e.1 ∧ R d.2 e.2) l l') (key : Key) :
    Option.Rel R (l.lookup key) (l'.lookup key) := by
  induction h with
  | nil => exact .none
  | @cons d e l l' hde _ ih =>
    rw [List.lookup_cons, List.lookup_cons, hde.1]
    split
    · exact .some hde.2
    · exact ih

lemma filter_rel {α : Type} {R : α → α → Prop} {l l' : List (Key × α)}
    (h : List.Forall₂ (fun d e => d.1 = e.1 ∧ R d.2 e.2) l l') (keep : Key → Bool) :
    List.Forall₂ (fun d e => d.1 = e.1 ∧ R d.2 e.2) (l.filter fun e => keep e.1)
      (l'.filter fun e => keep e.1) := by
  induction h with
  | nil => exact .nil
  | @cons d e l l' hde _ ih =>
    rw [List.filter_cons, List.filter_cons, hde.1]
    split
    · exact .cons hde ih
    · exact ih

/-! ### Couplings -/

/-- How two runs belong together. Where they are `exact`, the code that they leave is the same;
where they are `lenient`, one may end at a limit of the evaluator at which the other goes on. The
second run ends where captured values are not admitted. Its scope comes after the statements that
it was entered with, those of the enclosing sequences of the same body. -/
structure Coupling where
  exact : Prop
  lenient : Prop
  admits : List Stmt → Fields Term → Bool
  Sessions : Store → Session.Tables → Session.Tables → Prop
  Scopes : List Stmt → Store → Tagging → Scope.Output → Scope.Output → Prop

/-- Code of one type, which is the same if the runs are exact. -/
structure Term.Coupled (exact : Prop) (held : MapKind → Prop) (a b : Term) : Prop where
  ty : a.ty.Twin held b.ty
  miss : a.endsInMiss = b.endsInMiss
  same : exact → a.canon = b.canon

structure Body.Coupled (exact : Prop) (held : MapKind → Prop) (b b' : Body) : Prop where
  ty : b.ty.Twin held b'.ty
  same : exact → b.canon = b'.canon

inductive Progress.Coupled (exact : Prop) (held : MapKind → Prop) : Progress → Progress → Prop
  | pending {ty ty' : Option Ty} (h : Option.Rel (Ty.Twin held) ty ty') :
      Progress.Coupled exact held (.pending ty) (.pending ty')
  | done {b b' : Body} (h : b.Coupled exact held b') :
      Progress.Coupled exact held (.done b) (.done b')

structure Entry.Coupled (exact : Prop) (held : MapKind → Prop) (e e' : Entry) : Prop where
  progress : e.progress.Coupled exact held e'.progress
  trace : e.trace = e'.trace

section Mono

variable {exact : Prop} {held held' : MapKind → Prop} (hheld : ∀ k, held k → held' k)
include hheld

lemma Term.Coupled.mono {a b : Term} (h : a.Coupled exact held b) : a.Coupled exact held' b :=
  { h with ty := h.ty.mono hheld }

lemma Entry.Coupled.mono {e e' : Entry} (h : e.Coupled exact held e') :
    e.Coupled exact held' e' := by
  refine ⟨?_, h.trace⟩
  obtain ⟨p, t⟩ := e
  obtain ⟨p', t'⟩ := e'
  obtain ⟨hprogress, -⟩ := h
  dsimp only at hprogress ⊢
  cases hprogress with
  | done h => exact .done ⟨h.ty.mono hheld, h.same⟩
  | pending h => exact .pending (optionRel_imp (fun _ _ h => h.mono hheld) h)

end Mono

/-- The other run stopped at a limit of the evaluator. -/
def Stop.IsLimit : Stop → Prop
  | .failed _ => False
  | .tagsExhausted | .outOfFuel => True

namespace Coupling

open Eval
open Region (lax)

variable (c : Coupling) (Γ : List Stmt)

structure LinkedSessions (s s' : Session) : Prop where
  coherent : s.store.Coherent
  store : s.store = s'.store
  points : PointTable.Rel (Entry.Coupled c.exact (MapKind.Backed s.store)) s.points s'.points
  recTypes : List.Forall₂ (fun d e => d.1 = e.1 ∧ d.2.Twin (MapKind.Backed s.store) e.2)
    s.recTypes s'.recTypes
  finished : s.finished = s'.finished
  settings : { s.settings with sharing := false } = { s'.settings with sharing := false }
  counts : { s.stats with sharingHits := 0 } = { s'.stats with sharingHits := 0 }
  depth : s.depth = s'.depth
  rest : c.Sessions s.store s.tables s'.tables

variable {c} in
lemma LinkedSessions.folding {s s' : Session} (h : c.LinkedSessions s s') :
    s.settings.folding = s'.settings.folding := by
  have hsettings := congrArg Settings.folding h.settings
  exact hsettings

variable {c} in
lemma LinkedSessions.maxDepth {s s' : Session} (h : c.LinkedSessions s s') :
    s.settings.maxDepth = s'.settings.maxDepth := by
  have hsettings := congrArg Settings.maxDepth h.settings
  exact hsettings

variable {c} in
lemma LinkedSessions.traces {s s' : Session} (h : c.LinkedSessions s s') :
    s.settings.traces = s'.settings.traces := by
  have hsettings := congrArg Settings.traces h.settings
  exact hsettings

structure LinkedScopes (st : Store) (T : Tagging) (s s' : Scope) : Prop where
  trace : s.trace = s'.trace
  dynamicDepth : s.dynamicDepth = s'.dynamicDepth
  owner : s.owner = s'.owner
  rest : c.Scopes Γ st T s.output s'.output

/-- The worlds of two coupled runs, in sequences after the statements of `Γ`. -/
structure Linked (p : Runs) : Prop where
  session : c.LinkedSessions p.left.session p.right.session
  scope : c.LinkedScopes Γ p.left.session.store p.tags p.left.scope p.right.scope

/-- Besides, both worlds are in order. -/
structure Alike (p : Runs) : Prop extends c.Linked Γ p where
  left : lax.Ready p.left
  right : lax.Ready p.right

/-- A run ended at a limit, so nothing is said of the other one. -/
def Limited {α β : Type} (r : Except Stop α) (r' : Except Stop β) : Prop :=
  c.lenient ∧ (r = .error .tagsExhausted ∨ ∃ s : Stop, s.IsLimit ∧ r' = .error s)

variable {α β : Type}

/-- Where `I` holds, the two steps lead to `O` and have related outcomes. -/
def Moves (I O : Runs → Prop) (J : Runs → Runs → Prop) (p : Runs) (m m' : Eval α)
    (R : Runs → α → α → Prop) : Prop :=
  I p → c.Limited (exec m p.left).1 (exec m' p.right).1 ∨
    ∃ q : Runs, q.left = (exec m p.left).2 ∧ q.right = (exec m' p.right).2 ∧ J p q ∧ O q ∧
      Outcomes (R q) (exec m p.left).1 (exec m' p.right).1

/-- Steps that keep runs coupled, whether they are in order or not. -/
abbrev Paired (p : Runs) (m m' : Eval α) (R : Runs → α → α → Prop) : Prop :=
  c.Moves (c.Linked Γ) (c.Linked Γ) Runs.Grows p m m' R

/-- Steps that keep runs coupled that are in order. -/
abbrev Matches (p : Runs) (m m' : Eval α) (R : Runs → α → α → Prop) : Prop :=
  c.Moves (c.Alike Γ) (c.Linked Γ) Runs.Grows p m m' R

/-- Steps that keep runs coupled and in order. -/
abbrev Together (p : Runs) (m m' : Eval α) (R : Runs → α → α → Prop) : Prop :=
  c.Moves (c.Alike Γ) (c.Alike Γ) Runs.Later p m m' R

variable {c} {Γ} {p : Runs} {I M O : Runs → Prop} {J J' K : Runs → Runs → Prop} {m m' : Eval α}
  {f f' : α → Eval β} {R R' : Runs → α → α → Prop} {S : Runs → β → β → Prop}

/-! ### Steps one after the other -/

lemma Limited.map {γ δ : Type} {r : Except Stop α} {r' : Except Stop β} {s : Except Stop γ}
    {s' : Except Stop δ} (h : c.Limited r r')
    (hl : r = .error .tagsExhausted → s = .error .tagsExhausted)
    (hr : ∀ stop : Stop, stop.IsLimit → r' = .error stop → s' = .error stop) : c.Limited s s' :=
  ⟨h.1, h.2.imp hl fun ⟨stop, hstop, hrun⟩ => ⟨stop, hstop, hr stop hstop hrun⟩⟩

lemma Limited.bind {w w' : World} (h : c.Limited (exec m w).1 (exec m' w').1) :
    c.Limited (exec (m >>= f) w).1 (exec (m' >>= f') w').1 :=
  h.map
    (fun hrun => by
      rw [exec_bind_of_error (Prod.ext hrun rfl : exec m w = (.error .tagsExhausted, _))])
    fun s _ hrun => by
      rw [exec_bind_of_error (Prod.ext hrun rfl : exec m' w' = (.error s, _))]

namespace Moves

lemma given (h : I p → c.Moves I O J p m m' R) : c.Moves I O J p m m' R := fun hp => h hp hp

lemma imp (h : c.Moves I O J p m m' R) (hR : ∀ q a a', J p q → R q a a' → R' q a a') :
    c.Moves I O J p m m' R' := by
  intro hp
  refine (h hp).imp id ?_
  rintro ⟨q, hl, hr, hJ, hO, hout⟩
  exact ⟨q, hl, hr, hJ, hO, hout.imp fun a a' => hR q a a' hJ⟩

/-- Steps that leave the worlds as they are. -/
theorem of_outcome {r r' : Except Stop α} (hm : exec m p.left = (r, p.left))
    (hm' : exec m' p.right = (r', p.right)) (hO : I p → O p) (hJ : J p p)
    (h : I p → Outcomes (R p) r r') : c.Moves I O J p m m' R := by
  intro hp
  refine .inr ⟨p, by rw [hm], by rw [hm'], hJ, hO hp, ?_⟩
  rw [hm, hm']
  exact h hp

lemma bind_of (hm : c.Moves I M J p m m' R)
    (hf : ∀ a a' q, J p q → R q a a' → c.Moves M O J' q (f a) (f' a') S)
    (htrans : ∀ q r, J p q → J' q r → K p r) (hstop : ∀ q, J p q → M q → K p q ∧ O q) :
    c.Moves I O K p (m >>= f) (m' >>= f') S := by
  intro hp
  rcases hm hp with hlimit | ⟨q, hl, hr, hJ, hM, hout⟩
  · exact .inl hlimit.bind
  · rcases hrun : exec m p.left with ⟨r, v⟩
    rcases hrun' : exec m' p.right with ⟨r', v'⟩
    rw [hrun] at hl hout
    rw [hrun'] at hr hout
    subst hl hr
    cases hout with
    | ok h =>
      rw [exec_bind_of_ok hrun, exec_bind_of_ok hrun']
      refine (hf _ _ q hJ h hM).imp id ?_
      rintro ⟨x, hl, hr, hJ', hO, hout⟩
      exact ⟨x, hl, hr, htrans q x hJ hJ', hO, hout⟩
    | error h =>
      rw [exec_bind_of_error hrun, exec_bind_of_error hrun']
      obtain ⟨hK, hO⟩ := hstop q hJ hM
      exact .inr ⟨q, rfl, rfl, hK, hO, .error h⟩

lemma getScope {f f' : Scope → Eval β}
    (h : c.Moves I O J p (f p.left.scope) (f' p.right.scope) S) :
    c.Moves I O J p (Eval.getScope >>= f) (Eval.getScope >>= f') S :=
  h

/-- Only the second step looks at its scope. -/
theorem getScope_right {m : Eval β} {f' : Scope → Eval β}
    (h : c.Moves I O J p m (f' p.right.scope) S) : c.Moves I O J p m (Eval.getScope >>= f') S :=
  h

lemma getSession {f f' : Session → Eval β}
    (h : c.Moves I O J p (f p.left.session) (f' p.right.session) S) :
    c.Moves I O J p (Eval.getSession >>= f) (Eval.getSession >>= f') S :=
  h

end Moves

lemma outcomes_fail (h : c.Linked Γ p) {a a' : Cause} (hcause : a.canon = a'.canon)
    {R : α → α → Prop} :
    Outcomes R (.error (.failed ⟨a, p.left.scope.trace, none⟩))
      (.error (.failed ⟨a', p.right.scope.trace, none⟩)) := by
  refine .error ?_
  simp only [Stop.canon, Fault.canon, hcause, h.scope.trace]

namespace Paired

lemma pure {a a' : α} (h : R p a a') : c.Paired Γ p (pure a) (pure a') R :=
  .of_outcome rfl rfl id (.refl p) fun _ => .ok h

lemma throw {s s' : Stop} (h : s.canon = s'.canon) :
    c.Paired Γ p (throw s : Eval α) (throw s') R :=
  .of_outcome rfl rfl id (.refl p) fun _ => .error h

lemma fail {a a' : Cause} (h : a.canon = a'.canon) :
    c.Paired Γ p (Eval.fail a : Eval α) (Eval.fail a') R :=
  .of_outcome rfl rfl id (.refl p) fun hp => outcomes_fail hp h

lemma bind (hm : c.Paired Γ p m m' R)
    (hf : ∀ a a' q, p.Grows q → R q a a' → c.Paired Γ q (f a) (f' a') S) :
    c.Paired Γ p (m >>= f) (m' >>= f') S :=
  Moves.bind_of hm hf (fun _ _ => .trans) fun _ hJ hM => ⟨hJ, hM⟩

/-- Steps that succeed and leave the worlds of `q` behind. -/
theorem of_exec {q : Runs} {a a' : α} (hm : exec m p.left = (.ok a, q.left))
    (hm' : exec m' p.right = (.ok a', q.right))
    (h : c.Linked Γ p → p.Grows q ∧ c.Linked Γ q ∧ R q a a') : c.Paired Γ p m m' R := by
  intro hp
  obtain ⟨h₁, h₂, h₃⟩ := h hp
  rw [hm, hm']
  exact .inr ⟨q, rfl, rfl, h₁, h₂, .ok h₃⟩

/-- Related steps of two lists, one after the other. -/
theorem mapM {γ : Type} {f f' : γ → Eval β} {Q : Runs → γ → γ → Prop} {l l' : List γ}
    (hQ : ∀ p q a a', p.Grows q → Q p a a' → Q q a a')
    (hS : ∀ p q b b', p.Grows q → S p b b' → S q b b') (hl : List.Forall₂ (Q p) l l')
    (h : ∀ a a' q, p.Grows q → Q q a a' → c.Paired Γ q (f a) (f' a') S) :
    c.Paired Γ p (l.mapM f) (l'.mapM f') fun q => List.Forall₂ (S q) := by
  induction l generalizing p l' with
  | nil =>
    cases hl
    exact .pure .nil
  | cons a l ih =>
    cases hl with
    | @cons _ a' _ l' ha hl =>
      rw [List.mapM_cons, List.mapM_cons]
      refine (h a a' p (.refl p) ha).bind fun b b' q hq hb => ?_
      refine (ih (hl.imp fun a a' => hQ p q a a' hq) fun a a' r hr => h a a' r (hq.trans hr)).bind
        fun bs bs' r hr hbs => .pure (.cons (hS q r b b' hr hb) hbs)

end Paired

namespace Matches

lemma pure {a a' : α} (h : R p a a') : c.Matches Γ p (pure a) (pure a') R :=
  .of_outcome rfl rfl Alike.toLinked (.refl p) fun _ => .ok h

lemma throw {s s' : Stop} (h : s.canon = s'.canon) :
    c.Matches Γ p (throw s : Eval α) (throw s') R :=
  .of_outcome rfl rfl Alike.toLinked (.refl p) fun _ => .error h

lemma fail {a a' : Cause} (h : a.canon = a'.canon) :
    c.Matches Γ p (Eval.fail a : Eval α) (Eval.fail a') R :=
  .of_outcome rfl rfl Alike.toLinked (.refl p) fun hp => outcomes_fail hp.toLinked h

lemma of_paired (h : c.Paired Γ p m m' R) : c.Matches Γ p m m' R := fun hp => h hp.toLinked

lemma bind_paired (hm : c.Matches Γ p m m' R)
    (hf : ∀ a a' q, p.Grows q → R q a a' → c.Paired Γ q (f a) (f' a') S) :
    c.Matches Γ p (m >>= f) (m' >>= f') S :=
  Moves.bind_of hm hf (fun _ _ => .trans) fun _ hJ hM => ⟨hJ, hM⟩

end Matches

namespace Together

lemma pure {a a' : α} (h : R p a a') : c.Together Γ p (pure a) (pure a') R :=
  .of_outcome rfl rfl id (.refl p) fun _ => .ok h

lemma throw {s s' : Stop} (h : s.canon = s'.canon) :
    c.Together Γ p (throw s : Eval α) (throw s') R :=
  .of_outcome rfl rfl id (.refl p) fun _ => .error h

lemma fail {a a' : Cause} (h : a.canon = a'.canon) :
    c.Together Γ p (Eval.fail a : Eval α) (Eval.fail a') R :=
  .of_outcome rfl rfl id (.refl p) fun hp => outcomes_fail hp.toLinked h

/-- Both steps are in order for themselves. -/
theorem of_matches {P P' : α → World → Prop} (h : c.Matches Γ p m m' R)
    (hl : lax.Does p.left m P) (hr : lax.Does p.right m' P') :
    c.Together Γ p m m' fun q a a' => R q a a' ∧ P a q.left ∧ P' a' q.right := by
  intro hp
  obtain ⟨hready, hframed, hP⟩ := hl hp.left
  obtain ⟨hready', hframed', hP'⟩ := hr hp.right
  refine (h hp).imp id ?_
  rintro ⟨q, hql, hqr, hgrows, hlinked, hout⟩
  rw [← hql] at hready hframed hP
  rw [← hqr] at hready' hframed' hP'
  refine ⟨q, hql, hqr, ⟨hgrows, hframed, hframed'⟩, ⟨hlinked, hready, hready'⟩, ?_⟩
  generalize (exec m p.left).1 = r at hout hP
  generalize (exec m' p.right).1 = r' at hout hP'
  cases hout with
  | ok h => exact .ok ⟨h, hP _ rfl, hP' _ rfl⟩
  | error h => exact .error h

lemma of_paired {P P' : α → World → Prop} (h : c.Paired Γ p m m' R)
    (hl : lax.Does p.left m P) (hr : lax.Does p.right m' P') :
    c.Together Γ p m m' fun q a a' => R q a a' ∧ P a q.left ∧ P' a' q.right :=
  of_matches (.of_paired h) hl hr

lemma bind (hm : c.Together Γ p m m' R)
    (hf : ∀ a a' q, p.Later q → R q a a' → c.Together Γ q (f a) (f' a') S) :
    c.Together Γ p (m >>= f) (m' >>= f') S :=
  Moves.bind_of hm hf (fun _ _ => .trans) fun _ hJ hM => ⟨hJ, hM⟩

/-- The last of the steps only has to match. -/
theorem bind_matches (hm : c.Together Γ p m m' R)
    (hf : ∀ a a' q, p.Later q → R q a a' → c.Matches Γ q (f a) (f' a') S) :
    c.Matches Γ p (m >>= f) (m' >>= f') S :=
  Moves.bind_of hm hf (fun _ _ hJ hJ' => hJ.toGrows.trans hJ')
    fun _ hJ hM => ⟨hJ.toGrows, hM.toLinked⟩

lemma toMatches (h : c.Together Γ p m m' R) : c.Matches Γ p m m' R := by
  intro hp
  refine (h hp).imp id ?_
  rintro ⟨q, hl, hr, hJ, hO, hout⟩
  exact ⟨q, hl, hr, hJ.toGrows, hO.toLinked, hout⟩

end Together

end Coupling

end Residual
