import Residual.Proofs.Eval.Points
import Residual.Proofs.Typed.Twins

/-!
Twin worlds: sessions and scopes that differ at most in the forms of environments.

Everything a step can find in one of two such worlds it finds in the other up to the forms of
environments: entries of the tables, join points, shared results, tags, and the statements so far.
What has no bearing on evaluation but is part of its outcome, such as the counts and the order in
which join points were finished, is the same.
-/

namespace Residual

/-! ### Canonical forms of what a world holds -/

def Stmt.canon : Stmt → Stmt
  | .letIn bind bound trace => .letIn bind.canon bound.canon trace
  | .state stmt trace => .state stmt.canon trace

lemma Stmt.canon_close (stmts : List Stmt) (t : Term) :
    (Stmt.close stmts t).canon = Stmt.close (stmts.map Stmt.canon) t.canon := by
  induction stmts with
  | nil => rfl
  | cons s rest ih =>
    rw [List.map_cons, Stmt.close_cons, Stmt.close_cons, ← ih]
    cases s <;> rfl

def Body.canon (b : Body) : Body :=
  ⟨b.term.canon, b.ty.canon, b.params.map Var.canon, b.closureParam.map Var.canon⟩

def Progress.canon : Progress → Progress
  | .pending ty => .pending (ty.map Ty.canon)
  | .done body => .done body.canon

def Entry.canon (e : Entry) : Entry := { e with progress := e.progress.canon }

def KeyData.canon (d : KeyData) : KeyData := { d with env := Fields.canon d.env }

def Application.canon (a : Application) : Application := { a with args := a.args.map Term.canon }

def Message.canon : Message → Message
  | .text s => .text s
  | .type t => .type t.canon

def Cause.canon : Cause → Cause
  | .noClause got => .noClause got.canon
  | .operands op got => .operands op (got.map Ty.canon)
  | .condition got => .condition got.canon
  | .declared expected got => .declared expected.canon got.canon
  | .branches op expected got => .branches op expected.canon got.canon
  | .pointResult kind expected got => .pointResult kind expected.canon got.canon
  | .kernelResult got => .kernelResult got.canon
  | .closureArg expected got => .closureArg expected.canon got.canon
  | .notMember union got => .notMember union.canon got.canon
  | .undefinedType ty => .undefinedType ty.canon
  | .index op got => .index op got.canon
  | .element op expected got => .element op expected.canon got.canon
  | .notArray op got => .notArray op got.canon
  | .notTuple op got => .notTuple op got.canon
  | .notModule op got => .notModule op got.canon
  | .notLayout got => .notLayout got.canon
  | .notLiteral got => .notLiteral got.canon
  | .foreignPart got => .foreignPart got.canon
  | .notCallable got => .notCallable got.canon
  | .raised message => .raised message.canon
  | cause => cause

def Fault.canon (f : Fault) : Fault := { f with cause := f.cause.canon }

def Stop.canon : Stop → Stop
  | .failed fault => .failed fault.canon
  | stop => stop

/-- The maps in what is known of the type of a join point. -/
def Progress.kinds : Progress → List MapKind
  | .pending ty => ty.toList.flatMap Ty.kinds
  | .done body => body.ty.kinds

abbrev Entry.Twin := Residual.Twin Entry.canon fun e => e.progress.kinds

/-! ### Tables -/

variable {held : MapKind → Prop}

lemma KeyData.beq_of_canon {a a' b b' : KeyData} (h : a.canon = a'.canon)
    (k : b.canon = b'.canon) : (a == b) = (a' == b') := by
  cases a
  cases a'
  cases b
  cases b'
  simp only [canon, KeyData.mk.injEq] at h k
  obtain ⟨rfl, rfl, -⟩ := h
  obtain ⟨rfl, rfl, -⟩ := k
  rfl

lemma Application.beq_of_canon {a a' b b' : Application} (h : a.canon = a'.canon)
    (k : b.canon = b'.canon) : (a == b) = (a' == b') := by
  have hcode : ∀ a b : Application, (a == b) =
      (a.op == b.op && decide (Term.codeAll a.args = Term.codeAll b.args)) := by
    intro a b
    change (a.op == b.op && (Term.quickAll .content a.args b.args).1) = _
    rw [(Term.quickAll .content a.args b.args).2]
    congr 1
    rw [Bool.eq_iff_iff, Term.beqAll_content_iff, decide_eq_true_iff]
  have hargs : ∀ a : Application, Term.codeAll a.canon.args = Term.codeAll a.args := by
    intro a
    rw [← Term.codeAll_canon a.args, Term.canonAll_eq]
    rfl
  have hop : ∀ a : Application, a.canon.op = a.op := fun _ => rfl
  rw [hcode, hcode, ← hargs a, ← hargs b, ← hop a, ← hop b, h, k, hargs, hargs, hop, hop]

/-- Tables with twins under each join point. -/
abbrev PointTable.Twin (held : MapKind → Prop) (t t' : PointTable) : Prop :=
  List.Forall₂ (fun d e => d.1 = e.1 ∧ d.2.Twin held e.2) t t'

namespace Sharing

variable {s s' : Sharing}

/-- Results that can be shared: twins for the same operations on the same operands. -/
structure Twin (held : MapKind → Prop) (s s' : Sharing) : Prop where
  entries : List.Forall₂ (fun d e => d.1.canon = e.1.canon ∧ d.2.Twin held e.2) s.entries s'.entries
  scopes : s.scopes.map (List.map Application.canon) = s'.scopes.map (List.map Application.canon)

lemma Twin.get? (h : Twin held s s') {a a' : Application} (ha : a.canon = a'.canon) :
    Option.Rel (Var.Twin held) (s.get? a) (s'.get? a') := by
  have hentries := h.entries
  rw [Sharing.get?, Sharing.get?]
  generalize s.entries = es at hentries
  generalize s'.entries = es' at hentries
  induction hentries with
  | nil => exact .none
  | @cons d e es es' hde hrest ih =>
    rw [List.lookup_cons, List.lookup_cons, Application.beq_of_canon ha hde.1]
    split
    · exact .some hde.2
    · exact ih

lemma Twin.erase (h : Twin held s s') {a a' : Application} (ha : a.canon = a'.canon) :
    Twin held (s.erase a) (s'.erase a') := by
  refine ⟨?_, h.scopes⟩
  have hentries := h.entries
  rw [Sharing.erase, Sharing.erase]
  generalize s.entries = es at hentries
  generalize s'.entries = es' at hentries
  induction hentries with
  | nil => exact .nil
  | @cons d e es es' hde hrest ih =>
    rw [List.filter_cons, List.filter_cons, Application.beq_of_canon ha hde.1]
    split
    · exact .cons hde ih
    · exact ih

lemma Twin.insert (h : Twin held s s') {a a' : Application} (ha : a.canon = a'.canon)
    {v v' : Var} (hv : v.Twin held v') : Twin held (s.insert a v) (s'.insert a' v') := by
  refine ⟨.cons ⟨ha, hv⟩ (h.erase ha).entries, ?_⟩
  have hscopes := h.scopes
  rw [Sharing.insert, Sharing.insert]
  cases hs : s.scopes <;> cases hs' : s'.scopes <;> rw [hs, hs'] at hscopes <;>
    simp_all

lemma Twin.push (h : Twin held s s') : Twin held s.push s'.push :=
  ⟨h.entries, congrArg ([] :: ·) h.scopes⟩

end Sharing

/-! ### Worlds -/

/-- Sessions that differ at most in the forms of environments. -/
structure Session.Twin (held : MapKind → Prop) (s s' : Session) : Prop where
  store : s.store = s'.store
  envs : EnvTable.Twin held s.envs s'.envs
  keys : s.keys.entries.map KeyData.canon = s'.keys.entries.map KeyData.canon
  points : PointTable.Twin held s.points s'.points
  recTypes : List.Forall₂ (fun d e => d.1 = e.1 ∧ d.2.Twin held e.2) s.recTypes s'.recTypes
  finished : s.finished = s'.finished
  settings : s.settings = s'.settings
  stats : s.stats = s'.stats
  depth : s.depth = s'.depth

/-- Scopes that differ at most in the forms of environments, and in the bindings. -/
structure Scope.Twin (held : MapKind → Prop) (s s' : Scope) : Prop where
  tags : s.tags = s'.tags
  stmts : s.stmts.map Stmt.canon = s'.stmts.map Stmt.canon
  sharing : s.sharing.Twin held s'.sharing
  trace : s.trace = s'.trace
  dynamicDepth : s.dynamicDepth = s'.dynamicDepth
  owner : s.owner = s'.owner

structure World.Twin (held : MapKind → Prop) (w w' : World) : Prop where
  session : w.session.Twin held w'.session
  scope : w.scope.Twin held w'.scope

/-! ### Outcomes -/

namespace Eval

/-- Results with the property, or stops for one reason. -/
inductive Outcomes {α : Type} (R : α → α → Prop) : Except Stop α → Except Stop α → Prop
  | ok {a a' : α} (h : R a a') : Outcomes R (.ok a) (.ok a')
  | error {s s' : Stop} (h : s.canon = s'.canon) : Outcomes R (.error s) (.error s')

lemma Outcomes.imp {α : Type} {R R' : α → α → Prop} {r r' : Except Stop α} (h : Outcomes R r r')
    (hR : ∀ a a', R a a' → R' a a') : Outcomes R' r r' := by
  cases h with
  | ok h => exact .ok (hR _ _ h)
  | error h => exact .error h

end Eval

end Residual
