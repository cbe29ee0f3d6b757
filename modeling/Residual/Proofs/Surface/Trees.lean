import Mathlib.Logic.Relation
import Residual.Proofs.Surface.Issued
import Residual.Proofs.Surface.Moved

/-!
Trees, and how a store makes nodes for them.

A tree is entered from its leaves up, each node after its parts. Main statement: entering a tree
calls the interface of the store with nodes that it has issued, and gives a node that is equal to
the tree but for symbols and the positions of marks.
-/

namespace Residual

/-! ### Trees -/

mutual

/-- The tree without symbols and positions. -/
def Expr.bare : Expr → Expr
  | .node _ kind => .node 0 kind.bare

def ExprKind.bare : ExprKind → ExprKind
  | .var x => .var x
  | .lit l => .lit l
  | .pattern p => .pattern p.bare
  | .function param body => .function param body.bare
  | .filtered used param body => .filtered used param body.bare
  | .recFunction this param body => .recFunction this param body.bare
  | .tuple items => .tuple (Expr.bareAll items)
  | .op o args => .op o (Expr.bareAll args)
  | .pos _ e => .pos .origin e.bare

def Expr.bareAll : List Expr → List Expr
  | [] => []
  | e :: rest => e.bare :: Expr.bareAll rest

def Pattern.bare : Pattern → Pattern
  | .node _ kind => .node 0 kind.bare

def PatternKind.bare : PatternKind → PatternKind
  | .wildcard => .wildcard
  | .var x => .var x
  | .lit l => .lit l
  | .tuple items => .tuple (Pattern.bareAll items)
  | .cons items rest => .cons (Pattern.bareAll items) rest.bare
  | .typeEq inner type => .typeEq inner.bare type.bare
  | .active f inner => .active f.bare inner.bare
  | .partialActive f inner => .partialActive f.bare inner.bare
  | .extension f inner => .extension f.bare inner.bare
  | .or alternatives => .or (Pattern.bareAll alternatives)
  | .and parts => .and (Pattern.bareAll parts)
  | .guarded inner guard => .guarded inner.bare guard.bare
  | .module m => .module m.bare
  | .clauses arms => .clauses (Clause.bareAll arms)

def Pattern.bareAll : List Pattern → List Pattern
  | [] => []
  | p :: rest => p.bare :: Pattern.bareAll rest

def ModulePattern.bare : ModulePattern → ModulePattern
  | .member field bind => .member field bind
  | .inner field p => .inner field p.bare
  | .and parts => .and (ModulePattern.bareAll parts)
  | .or alternatives => .or (ModulePattern.bareAll alternatives)
  | .xor a b => .xor a.bare b.bare
  | .not m => .not m.bare

def ModulePattern.bareAll : List ModulePattern → List ModulePattern
  | [] => []
  | m :: rest => m.bare :: ModulePattern.bareAll rest

def Clause.bare : Clause → Clause
  | .mk p body => .mk p.bare body.bare

def Clause.bareAll : List Clause → List Clause
  | [] => []
  | c :: rest => c.bare :: Clause.bareAll rest

end

mutual

/-- Enter a tree, each node after its parts. The symbols that the tree carries do not count. -/
def Expr.enter : Expr → Build Expr
  | .node _ kind => do Build.expr (← kind.enter)

/-- Enter the parts of a node. -/
def ExprKind.enter : ExprKind → Build ExprKind
  | .var x => return .var x
  | .lit l => return .lit l
  | .pattern p => return .pattern (← p.enter)
  | .function param body => return .function param (← body.enter)
  | .filtered used param body => return .filtered used param (← body.enter)
  | .recFunction this param body => return .recFunction this param (← body.enter)
  | .tuple items => return .tuple (← Expr.enterAll items)
  | .op o args => return .op o (← Expr.enterAll args)
  | .pos span e => return .pos span (← e.enter)

def Expr.enterAll : List Expr → Build (List Expr)
  | [] => return []
  | e :: rest => return (← e.enter) :: (← Expr.enterAll rest)

/-- Enter a pattern with all expressions inside it. -/
def Pattern.enter : Pattern → Build Pattern
  | .node _ kind => do Build.pattern (← kind.enter)

/-- Enter the parts of a pattern. -/
def PatternKind.enter : PatternKind → Build PatternKind
  | .wildcard => return .wildcard
  | .var x => return .var x
  | .lit l => return .lit l
  | .tuple items => return .tuple (← Pattern.enterAll items)
  | .cons items rest => return .cons (← Pattern.enterAll items) (← rest.enter)
  | .typeEq inner type => return .typeEq (← inner.enter) (← type.enter)
  | .active f inner => return .active (← f.enter) (← inner.enter)
  | .partialActive f inner => return .partialActive (← f.enter) (← inner.enter)
  | .extension f inner => return .extension (← f.enter) (← inner.enter)
  | .or alternatives => return .or (← Pattern.enterAll alternatives)
  | .and parts => return .and (← Pattern.enterAll parts)
  | .guarded inner guard => return .guarded (← inner.enter) (← guard.enter)
  | .module m => return .module (← m.enter)
  | .clauses arms => return .clauses (← Clause.enterAll arms)

def Pattern.enterAll : List Pattern → Build (List Pattern)
  | [] => return []
  | p :: rest => return (← p.enter) :: (← Pattern.enterAll rest)

def ModulePattern.enter : ModulePattern → Build ModulePattern
  | .member field bind => return .member field bind
  | .inner field p => return .inner field (← p.enter)
  | .and parts => return .and (← ModulePattern.enterAll parts)
  | .or alternatives => return .or (← ModulePattern.enterAll alternatives)
  | .xor a b => return .xor (← a.enter) (← b.enter)
  | .not m => return .not (← m.enter)

def ModulePattern.enterAll : List ModulePattern → Build (List ModulePattern)
  | [] => return []
  | m :: rest => return (← m.enter) :: (← ModulePattern.enterAll rest)

def Clause.enter : Clause → Build Clause
  | .mk p body => return .mk (← p.enter) (← body.enter)

def Clause.enterAll : List Clause → Build (List Clause)
  | [] => return []
  | c :: rest => return (← c.enter) :: (← Clause.enterAll rest)

end

/-! ### Calls of the interface -/

/-- A call of the interface of a store, with nodes that it has issued, and the store after it. -/
inductive Store.Call (st : Store) : Store → Prop where
  | name (s : String) : Store.Call st ((Build.name s).run st).2
  | fresh (hint : String) : Store.Call st ((Build.fresh hint).run st).2
  | expr {kind : ExprKind} (h : kind.Issued st) : Store.Call st ((Build.expr kind).run st).2
  | pattern {kind : PatternKind} (h : kind.Issued st) :
      Store.Call st ((Build.pattern kind).run st).2
  | lower {p : Pattern} (h : p.Issued st) : Store.Call st ((Build.lowerPattern p).run st).2
  | freeNames {e : Expr} (h : e.Issued st) : Store.Call st ((Build.freeNames e).run st).2
  | filter {e : Expr} (h : e.Issued st) : Store.Call st ((Build.filter e).run st).2

/-- Calls of the interface lead from the first store to the second one. -/
abbrev Store.Reaches : Store → Store → Prop := Relation.ReflTransGen Store.Call

namespace Store.Call

variable {st st' : Store}

lemma grows (h : st.Call st') : st.Grows st' := by
  cases h with
  | name s => exact Build.Adds.grows st
  | fresh hint => exact Build.Adds.grows st
  | expr _ => exact Build.Adds.grows st
  | pattern _ => exact Build.Adds.grows st
  | lower _ => exact Build.Adds.grows st
  | freeNames _ => exact Build.Adds.grows st
  | filter _ => exact Build.Adds.grows st

lemma canonical (h : st.Call st') (hst : st.Canonical) : st'.Canonical := by
  cases h with
  | name s => exact (Build.Issues.canonical (fun _ _ => Build.issues_name s) hst).1
  | fresh hint => exact (Build.Issues.canonical (fun _ _ => Build.issues_fresh hint) hst).1
  | expr hk =>
    exact (Build.Issues.canonical (fun _ hu => Build.issues_expr (hk.mono hu.nodesIn)) hst).1
  | pattern hk =>
    exact (Build.Issues.canonical (fun _ hu => Build.issues_pattern (hk.mono hu.nodesIn)) hst).1
  | lower hp =>
    exact (Build.Issues.canonical
      (fun _ hu => Build.issues_lowerPattern (hp.mono hu.nodesIn)) hst).1
  | freeNames he =>
    exact (Build.Issues.canonical (fun _ hu => Build.issues_freeNames (he.mono hu.nodesIn)) hst).1
  | filter he =>
    exact (Build.Issues.canonical (fun _ hu => Build.issues_filter (he.mono hu.nodesIn)) hst).1

end Store.Call

namespace Store.Reaches

variable {st st' : Store}

lemma grows (h : st.Reaches st') : st.Grows st' := by
  induction h with
  | refl => exact .refl st
  | tail _ hcall ih => exact ih.trans hcall.grows

lemma canonical (h : st.Reaches st') (hst : st.Canonical) : st'.Canonical := by
  induction h with
  | refl => exact hst
  | tail _ hcall ih => exact hcall.canonical ih

end Store.Reaches

/-! ### Kinds of equal trees -/

/-- Nodes of one store that are built alike are equal but for positions. -/
lemma ExprKind.bare_eq_of_same {u : Store} {k l : ExprKind} (hk : k.Issued u) (hl : l.Issued u)
    (h : k.same l = true) : k.bare = l.bare := by
  have hagrees : k.Agrees l :=
    ExprKind.agrees_of_same (fun c hc => (hk.codes c hc).mem) (fun c hc => (hl.codes c hc).mem) h
  cases l with
  | pattern q =>
    cases k with
    | pattern p => rw [(hk.nested p p.mem_nested).eq_of_beq (hl.nested q q.mem_nested) h]
    | _ => exact nomatch h
  | pos _ f =>
    cases k with
    | pos _ e => rw [ExprKind.bare, ExprKind.bare, show e = f from hagrees]
    | _ => exact nomatch h
  | _ => rw [hagrees.eq trivial]

mutual

lemma ModulePattern.same_refl (m : ModulePattern) : m.same m = true := by
  match m with
  | .member _ _ | .inner _ _ => simp [ModulePattern.same, BEq.beq]
  | .and ms | .or ms => exact ModulePattern.sameAll_refl ms
  | .xor a b =>
    rw [ModulePattern.same, ModulePattern.same_refl a, ModulePattern.same_refl b, Bool.and_self]
  | .not m => exact ModulePattern.same_refl m
termination_by structural m

lemma ModulePattern.sameAll_refl (ms : List ModulePattern) :
    ModulePattern.sameAll ms ms = true := by
  match ms with
  | [] => rfl
  | m :: rest =>
    rw [ModulePattern.sameAll, ModulePattern.same_refl m, ModulePattern.sameAll_refl rest,
      Bool.and_self]
termination_by structural ms

end

instance : ReflBEq Expr := ⟨by simp [BEq.beq]⟩

instance : ReflBEq Pattern := ⟨by simp [BEq.beq]⟩

instance : ReflBEq Clause := ⟨fun {c} => by
  change (c.pattern == c.pattern && c.body == c.body) = true
  simp⟩

lemma PatternKind.same_refl (k : PatternKind) : k.same k = true := by
  cases k with
  | module m => exact ModulePattern.same_refl m
  | _ => simp [PatternKind.same]

lemma ExprKind.same_refl (k : ExprKind) : k.same k = true := by
  cases k <;> simp [ExprKind.same]

namespace Build

variable {α β : Type} {st : Store}

/-! ### Entering a tree -/

/-- The work calls the interface with nodes that were issued, and its result has the property in
the store that it leaves behind. -/
def Calls (st : Store) (act : Build α) (Q : Store → α → Prop) : Prop :=
  st.Canonical → st.Reaches (act.run st).2 ∧ Q (act.run st).2 (act.run st).1

namespace Calls

variable {act : Build α} {f : α → Build β} {P : Store → α → Prop} {Q : Store → β → Prop}

protected lemma pure {a : α} (h : P st a) : Calls st (Pure.pure a) P := fun _ => ⟨.refl, h⟩

protected lemma bind (ha : Calls st act P)
    (hf : ∀ a st', st.NodesIn st' → P st' a → Calls st' (f a) Q) : Calls st (act >>= f) Q := by
  intro hst
  obtain ⟨hreach, hP⟩ := ha hst
  obtain ⟨hreach', hQ⟩ := hf _ _ hreach.grows.nodesIn hP (hreach.canonical hst)
  exact ⟨hreach.trans hreach', hQ⟩

lemma imp {P' : Store → α → Prop} (ha : Calls st act P) (h : ∀ u a, P u a → P' u a) :
    Calls st act P' :=
  fun hst => ⟨(ha hst).1, h _ _ (ha hst).2⟩

end Calls

lemma calls_expr {kind : ExprKind} (hk : kind.Issued st) :
    Calls st (expr kind) fun u e => e.Issued u ∧ e.kind.bare = kind.bare := by
  intro hst
  obtain ⟨-, he, hsame⟩ :=
    Issues.canonical (fun _ hu => issues_kind (hk.mono hu.nodesIn)) hst
  have hk' := hk.mono (Store.Call.expr hk).grows.nodesIn
  refine ⟨.single (.expr hk), he, ?_⟩
  rcases hsame with heq | hsame
  · rw [heq]
  · exact ExprKind.bare_eq_of_same he.kind hk' hsame

lemma calls_pattern {kind : PatternKind} (hk : kind.Issued st) :
    Calls st (pattern kind) fun u p => p.Issued u ∧ p.kind = kind := by
  intro hst
  obtain ⟨-, hp⟩ := Issues.canonical (fun _ hu => issues_pattern (hk.mono hu.nodesIn)) hst
  exact ⟨.single (.pattern hk), hp⟩

mutual

/-- Entering a tree gives a node for it. -/
theorem calls_enter (t : Expr) (st : Store) :
    Calls st t.enter fun u e => e.Issued u ∧ e.bare = t.bare := by
  match t with
  | .node _ kind =>
    rw [Expr.enter]
    refine (calls_enterKind kind st).bind fun k st' _ hk => (calls_expr hk.1).imp ?_
    rintro u ⟨symbol, value⟩ ⟨he, hbare⟩
    refine ⟨he, ?_⟩
    rw [Expr.bare, Expr.bare, ← hk.2]
    exact congrArg (Expr.node 0) hbare
termination_by structural t

lemma calls_enterKind (kind : ExprKind) (st : Store) :
    Calls st kind.enter fun u k => k.Issued u ∧ k.bare = kind.bare := by
  match kind with
  | .var _ | .lit _ => exact .pure ⟨.of_codes rfl fun _ h => absurd h List.not_mem_nil, rfl⟩
  | .pattern p =>
    exact (calls_enterPattern p st).bind fun _ _ _ hp =>
      .pure ⟨⟨hp.1.codes, hp.1.nested⟩, congrArg ExprKind.pattern hp.2⟩
  | .function param body =>
    exact (calls_enter body st).bind fun _ _ _ he =>
      .pure ⟨.of_codes rfl (List.forall_mem_singleton.2 he.1),
        congrArg (ExprKind.function param) he.2⟩
  | .filtered used param body =>
    exact (calls_enter body st).bind fun _ _ _ he =>
      .pure ⟨.of_codes rfl (List.forall_mem_singleton.2 he.1),
        congrArg (ExprKind.filtered used param) he.2⟩
  | .recFunction this param body =>
    exact (calls_enter body st).bind fun _ _ _ he =>
      .pure ⟨.of_codes rfl (List.forall_mem_singleton.2 he.1),
        congrArg (ExprKind.recFunction this param) he.2⟩
  | .tuple items =>
    exact (calls_enterAll items st).bind fun _ _ _ hes =>
      .pure ⟨.of_codes rfl hes.1, congrArg ExprKind.tuple hes.2⟩
  | .op o args =>
    exact (calls_enterAll args st).bind fun _ _ _ hes =>
      .pure ⟨.of_codes rfl hes.1, congrArg (ExprKind.op o) hes.2⟩
  | .pos span e =>
    exact (calls_enter e st).bind fun _ _ _ he =>
      .pure ⟨.of_codes rfl (List.forall_mem_singleton.2 he.1),
        congrArg (ExprKind.pos .origin) he.2⟩
termination_by structural kind

lemma calls_enterAll (ts : List Expr) (st : Store) :
    Calls st (Expr.enterAll ts) fun u es => (∀ e ∈ es, e.Issued u) ∧
      Expr.bareAll es = Expr.bareAll ts := by
  match ts with
  | [] => exact .pure ⟨fun _ h => absurd h List.not_mem_nil, rfl⟩
  | t :: rest =>
    refine (calls_enter t st).bind fun e st₁ _ he => (calls_enterAll rest st₁).bind
      fun es st₂ hin hes => .pure ⟨List.forall_mem_cons.2 ⟨he.1.mono hin, hes.1⟩, ?_⟩
    rw [Expr.bareAll, Expr.bareAll, he.2, hes.2]
termination_by structural ts

/-- Entering a pattern gives a node for it. -/
theorem calls_enterPattern (t : Pattern) (st : Store) :
    Calls st t.enter fun u p => p.Issued u ∧ p.bare = t.bare := by
  match t with
  | .node _ kind =>
    rw [Pattern.enter]
    refine (calls_enterPatternKind kind st).bind fun k st' _ hk => (calls_pattern hk.1).imp ?_
    rintro u ⟨symbol, value⟩ ⟨hp, rfl⟩
    refine ⟨hp, ?_⟩
    rw [Pattern.bare, Pattern.bare, ← hk.2]
    rfl
termination_by structural t

lemma calls_enterPatternKind (kind : PatternKind) (st : Store) :
    Calls st kind.enter fun u k => k.Issued u ∧ k.bare = kind.bare := by
  -- What was entered first is still there after the other part, whichever comes first.
  match kind with
  | .wildcard | .var _ | .lit _ =>
    exact .pure ⟨⟨fun _ h => absurd h List.not_mem_nil, fun _ h => absurd h List.not_mem_nil⟩, rfl⟩
  | .tuple ps =>
    exact (calls_enterPatterns ps st).bind fun _ _ _ hps =>
      .pure ⟨hps.1, congrArg PatternKind.tuple hps.2⟩
  | .or ps =>
    exact (calls_enterPatterns ps st).bind fun _ _ _ hps =>
      .pure ⟨⟨hps.1.codes, hps.1.nested⟩, congrArg PatternKind.or hps.2⟩
  | .and ps =>
    exact (calls_enterPatterns ps st).bind fun _ _ _ hps =>
      .pure ⟨⟨hps.1.codes, hps.1.nested⟩, congrArg PatternKind.and hps.2⟩
  -- Two parts each: patterns first, or code first.
  | .cons items rest =>
    refine (calls_enterPatterns items st).bind fun ps st₁ _ hps =>
      (calls_enterPattern rest st₁).bind fun p st₂ hin hp => .pure ⟨⟨?_, ?_⟩, ?_⟩
    · exact List.forall_mem_append.2 ⟨(hps.1.mono hin).codes, hp.1.codes⟩
    · exact List.forall_mem_append.2 ⟨(hps.1.mono hin).nested, hp.1.nested⟩
    · rw [PatternKind.bare, PatternKind.bare, hps.2, hp.2]
  | .typeEq inner code =>
    refine (calls_enterPattern inner st).bind fun p st₁ _ hp => (calls_enter code st₁).bind
      fun e st₂ hin he => .pure ⟨⟨?_, (hp.1.mono hin).nested⟩, ?_⟩
    · exact List.forall_mem_cons.2 ⟨he.1, (hp.1.mono hin).codes⟩
    · rw [PatternKind.bare, PatternKind.bare, hp.2, he.2]
  | .guarded inner code =>
    refine (calls_enterPattern inner st).bind fun p st₁ _ hp => (calls_enter code st₁).bind
      fun e st₂ hin he => .pure ⟨⟨?_, (hp.1.mono hin).nested⟩, ?_⟩
    · exact List.forall_mem_cons.2 ⟨he.1, (hp.1.mono hin).codes⟩
    · rw [PatternKind.bare, PatternKind.bare, hp.2, he.2]
  | .active f inner =>
    refine (calls_enter f st).bind fun e st₁ _ he => (calls_enterPattern inner st₁).bind
      fun p st₂ hin hp => .pure ⟨⟨?_, hp.1.nested⟩, ?_⟩
    · exact List.forall_mem_cons.2 ⟨he.1.mono hin, hp.1.codes⟩
    · rw [PatternKind.bare, PatternKind.bare, hp.2, he.2]
  | .partialActive f inner =>
    refine (calls_enter f st).bind fun e st₁ _ he => (calls_enterPattern inner st₁).bind
      fun p st₂ hin hp => .pure ⟨⟨?_, hp.1.nested⟩, ?_⟩
    · exact List.forall_mem_cons.2 ⟨he.1.mono hin, hp.1.codes⟩
    · rw [PatternKind.bare, PatternKind.bare, hp.2, he.2]
  | .extension f inner =>
    refine (calls_enter f st).bind fun e st₁ _ he => (calls_enterPattern inner st₁).bind
      fun p st₂ hin hp => .pure ⟨⟨?_, hp.1.nested⟩, ?_⟩
    · exact List.forall_mem_cons.2 ⟨he.1.mono hin, hp.1.codes⟩
    · rw [PatternKind.bare, PatternKind.bare, hp.2, he.2]
  | .module m =>
    exact (calls_enterModule m st).bind fun _ _ _ hm =>
      .pure ⟨hm.1, congrArg PatternKind.module hm.2⟩
  | .clauses arms =>
    exact (calls_enterClauses arms st).bind fun _ _ _ hcs =>
      .pure ⟨hcs.1, congrArg PatternKind.clauses hcs.2⟩
termination_by structural kind

lemma calls_enterPatterns (ts : List Pattern) (st : Store) :
    Calls st (Pattern.enterAll ts) fun u ps => (PatternKind.tuple ps).Issued u ∧
      Pattern.bareAll ps = Pattern.bareAll ts := by
  match ts with
  | [] =>
    exact .pure ⟨⟨fun _ h => absurd h List.not_mem_nil, fun _ h => absurd h List.not_mem_nil⟩, rfl⟩
  | t :: rest =>
    refine (calls_enterPattern t st).bind fun p st₁ _ hp => (calls_enterPatterns rest st₁).bind
      fun ps st₂ hin hps => .pure ⟨⟨?_, ?_⟩, ?_⟩
    · exact List.forall_mem_append.2 ⟨(hp.1.mono hin).codes, hps.1.codes⟩
    · exact List.forall_mem_append.2 ⟨(hp.1.mono hin).nested, hps.1.nested⟩
    · rw [Pattern.bareAll, Pattern.bareAll, hp.2, hps.2]
termination_by structural ts

lemma calls_enterModule (t : ModulePattern) (st : Store) :
    Calls st t.enter fun u m => (PatternKind.module m).Issued u ∧ m.bare = t.bare := by
  match t with
  | .member _ _ =>
    exact .pure ⟨⟨fun _ h => absurd h List.not_mem_nil, fun _ h => absurd h List.not_mem_nil⟩, rfl⟩
  | .inner field p =>
    exact (calls_enterPattern p st).bind fun _ _ _ hp =>
      .pure ⟨⟨hp.1.codes, hp.1.nested⟩, congrArg (ModulePattern.inner field) hp.2⟩
  | .and ms =>
    exact (calls_enterModules ms st).bind fun _ _ _ hms =>
      .pure ⟨hms.1, congrArg ModulePattern.and hms.2⟩
  | .or ms =>
    exact (calls_enterModules ms st).bind fun _ _ _ hms =>
      .pure ⟨⟨hms.1.codes, hms.1.nested⟩, congrArg ModulePattern.or hms.2⟩
  | .xor a b =>
    refine (calls_enterModule a st).bind fun m st₁ _ hm => (calls_enterModule b st₁).bind
      fun n st₂ hin hn => .pure ⟨⟨?_, ?_⟩, ?_⟩
    · exact List.forall_mem_append.2 ⟨(hm.1.mono hin).codes, hn.1.codes⟩
    · exact List.forall_mem_append.2 ⟨(hm.1.mono hin).nested, hn.1.nested⟩
    · rw [ModulePattern.bare, ModulePattern.bare, hm.2, hn.2]
  | .not m =>
    exact (calls_enterModule m st).bind fun _ _ _ hm =>
      .pure ⟨⟨hm.1.codes, hm.1.nested⟩, congrArg ModulePattern.not hm.2⟩
termination_by structural t

lemma calls_enterModules (ts : List ModulePattern) (st : Store) :
    Calls st (ModulePattern.enterAll ts) fun u ms =>
      (PatternKind.module (.and ms)).Issued u ∧
        ModulePattern.bareAll ms = ModulePattern.bareAll ts := by
  match ts with
  | [] =>
    exact .pure ⟨⟨fun _ h => absurd h List.not_mem_nil, fun _ h => absurd h List.not_mem_nil⟩, rfl⟩
  | t :: rest =>
    refine (calls_enterModule t st).bind fun m st₁ _ hm => (calls_enterModules rest st₁).bind
      fun ms st₂ hin hms => .pure ⟨⟨?_, ?_⟩, ?_⟩
    · exact List.forall_mem_append.2 ⟨(hm.1.mono hin).codes, hms.1.codes⟩
    · exact List.forall_mem_append.2 ⟨(hm.1.mono hin).nested, hms.1.nested⟩
    · rw [ModulePattern.bareAll, ModulePattern.bareAll, hm.2, hms.2]
termination_by structural ts

lemma calls_enterClause (t : Clause) (st : Store) :
    Calls st t.enter fun u c => (PatternKind.clauses [c]).Issued u ∧ c.bare = t.bare := by
  match t with
  | .mk p body =>
    refine (calls_enterPattern p st).bind fun q st₁ _ hq => (calls_enter body st₁).bind
      fun e st₂ hin he => .pure ⟨⟨?_, ?_⟩, ?_⟩
    · refine List.forall_mem_append.2 ⟨?_, fun _ h => absurd h List.not_mem_nil⟩
      exact List.forall_mem_cons.2 ⟨he.1, (hq.1.mono hin).codes⟩
    · exact List.forall_mem_append.2
        ⟨(hq.1.mono hin).nested, fun _ h => absurd h List.not_mem_nil⟩
    · rw [Clause.bare, Clause.bare, hq.2, he.2]
termination_by structural t

lemma calls_enterClauses (ts : List Clause) (st : Store) :
    Calls st (Clause.enterAll ts) fun u cs => (PatternKind.clauses cs).Issued u ∧
      Clause.bareAll cs = Clause.bareAll ts := by
  match ts with
  | [] =>
    exact .pure ⟨⟨fun _ h => absurd h List.not_mem_nil, fun _ h => absurd h List.not_mem_nil⟩, rfl⟩
  | t :: rest =>
    refine (calls_enterClause t st).bind fun c st₁ _ hc => (calls_enterClauses rest st₁).bind
      fun cs st₂ hin hcs => .pure ⟨⟨?_, ?_⟩, ?_⟩
    · exact List.forall_mem_append.2
        ⟨fun e he => (hc.1.mono hin).codes e (List.mem_append_left _ he), hcs.1.codes⟩
    · exact List.forall_mem_append.2
        ⟨fun q hq => (hc.1.mono hin).nested q (List.mem_append_left _ hq), hcs.1.nested⟩
    · rw [Clause.bareAll, Clause.bareAll, hc.2, hcs.2]
termination_by structural ts

end

/-! ### Sorted trees -/

variable {strict : Prop}

mutual

/-- Entering a sorted tree keeps a store sorted. -/
theorem does_enter (t : Expr) (ht : strict → t.Sorted) : Does strict t.enter (Fine strict) := by
  match t with
  | .node _ kind => exact (does_enterKind kind ht).bind fun _ hk => does_expr _ hk
termination_by structural t

lemma does_enterKind (kind : ExprKind) (hk : strict → kind.Sorted) :
    Does strict kind.enter fun k => strict → k.Sorted := by
  match kind with
  | .var _ | .lit _ => exact .pure fun _ => trivial
  | .pattern p => exact (does_enterPattern p hk).bind fun _ hp => .pure hp
  | .function _ body => exact (does_enter body hk).bind fun _ hb => .pure hb
  | .filtered _ _ body =>
    exact (does_enter body fun h => (hk h).2).bind fun _ hb => .pure fun h => ⟨(hk h).1, hb h⟩
  | .recFunction _ _ body => exact (does_enter body hk).bind fun _ hb => .pure hb
  | .tuple items => exact (does_enterAll items hk).bind fun _ hes => .pure hes
  | .op _ args => exact (does_enterAll args hk).bind fun _ hes => .pure hes
  | .pos _ e => exact (does_enter e hk).bind fun _ he => .pure he
termination_by structural kind

lemma does_enterAll (ts : List Expr) (ht : strict → Expr.AllSorted ts) :
    Does strict (Expr.enterAll ts) fun es => strict → Expr.AllSorted es := by
  match ts with
  | [] => exact .pure fun _ => trivial
  | t :: rest =>
    exact (does_enter t fun h => (ht h).1).bind fun _ he =>
      (does_enterAll rest fun h => (ht h).2).bind fun _ hes => .pure fun h => ⟨he h, hes h⟩
termination_by structural ts

lemma does_enterPattern (t : Pattern) (ht : strict → t.Sorted) :
    Does strict t.enter fun p => strict → p.Sorted := by
  match t with
  | .node _ kind => exact (does_enterPatternKind kind ht).bind fun _ hk => does_pattern _ hk
termination_by structural t

lemma does_enterPatternKind (kind : PatternKind) (hk : strict → kind.Sorted) :
    Does strict kind.enter fun k => strict → k.Sorted := by
  match kind with
  | .wildcard | .var _ | .lit _ => exact .pure fun _ => trivial
  | .tuple ps | .or ps | .and ps => exact (does_enterPatterns ps hk).bind fun _ hps => .pure hps
  | .cons items rest =>
    exact (does_enterPatterns items fun h => (hk h).1).bind fun _ hps =>
      (does_enterPattern rest fun h => (hk h).2).bind fun _ hp => .pure fun h => ⟨hps h, hp h⟩
  | .typeEq inner code | .guarded inner code =>
    exact (does_enterPattern inner fun h => (hk h).1).bind fun _ hp =>
      (does_enter code fun h => (hk h).2).bind fun _ he => .pure fun h => ⟨hp h, he h⟩
  | .active f inner | .partialActive f inner | .extension f inner =>
    exact (does_enter f fun h => (hk h).1).bind fun _ he =>
      (does_enterPattern inner fun h => (hk h).2).bind fun _ hp => .pure fun h => ⟨he h, hp h⟩
  | .module m => exact (does_enterModule m hk).bind fun _ hm => .pure hm
  | .clauses arms => exact (does_enterClauses arms hk).bind fun _ hcs => .pure hcs
termination_by structural kind

lemma does_enterPatterns (ts : List Pattern) (ht : strict → Pattern.AllSorted ts) :
    Does strict (Pattern.enterAll ts) fun ps => strict → Pattern.AllSorted ps := by
  match ts with
  | [] => exact .pure fun _ => trivial
  | t :: rest =>
    exact (does_enterPattern t fun h => (ht h).1).bind fun _ hp =>
      (does_enterPatterns rest fun h => (ht h).2).bind fun _ hps => .pure fun h => ⟨hp h, hps h⟩
termination_by structural ts

lemma does_enterModule (t : ModulePattern) (ht : strict → t.Sorted) :
    Does strict t.enter fun m => strict → m.Sorted := by
  match t with
  | .member _ _ => exact .pure fun _ => trivial
  | .inner _ p => exact (does_enterPattern p ht).bind fun _ hp => .pure hp
  | .and ms | .or ms => exact (does_enterModules ms ht).bind fun _ hms => .pure hms
  | .xor a b =>
    exact (does_enterModule a fun h => (ht h).1).bind fun _ ha =>
      (does_enterModule b fun h => (ht h).2).bind fun _ hb => .pure fun h => ⟨ha h, hb h⟩
  | .not m => exact (does_enterModule m ht).bind fun _ hm => .pure hm
termination_by structural t

lemma does_enterModules (ts : List ModulePattern) (ht : strict → ModulePattern.AllSorted ts) :
    Does strict (ModulePattern.enterAll ts) fun ms => strict → ModulePattern.AllSorted ms := by
  match ts with
  | [] => exact .pure fun _ => trivial
  | t :: rest =>
    exact (does_enterModule t fun h => (ht h).1).bind fun _ hm =>
      (does_enterModules rest fun h => (ht h).2).bind fun _ hms => .pure fun h => ⟨hm h, hms h⟩
termination_by structural ts

lemma does_enterClause (t : Clause) (ht : strict → t.Sorted) :
    Does strict t.enter fun c => strict → c.Sorted := by
  match t with
  | .mk p body =>
    exact (does_enterPattern p fun h => (ht h).1).bind fun _ hp =>
      (does_enter body fun h => (ht h).2).bind fun _ he => .pure fun h => ⟨hp h, he h⟩
termination_by structural t

lemma does_enterClauses (ts : List Clause) (ht : strict → Clause.AllSorted ts) :
    Does strict (Clause.enterAll ts) fun cs => strict → Clause.AllSorted cs := by
  match ts with
  | [] => exact .pure fun _ => trivial
  | t :: rest =>
    exact (does_enterClause t fun h => (ht h).1).bind fun _ hc =>
      (does_enterClauses rest fun h => (ht h).2).bind fun _ hcs => .pure fun h => ⟨hc h, hcs h⟩
termination_by structural ts

end

end Build

/-- A tree is entered by calls of the interface. If its nodes have the symbols that the store gives
them, then the store has issued it. -/
theorem Store.Reaches.enter {st : Store} (h : Store.Reaches {} st) {t : Expr}
    (ht : (t.enter.run st).1 = t) :
    Store.Reaches {} (t.enter.run st).2 ∧ t.Issued (t.enter.run st).2 := by
  obtain ⟨hreach, hissued, -⟩ := Build.calls_enter t st (h.canonical Store.canonical_new)
  rw [ht] at hissued
  exact ⟨h.trans hreach, hissued⟩

end Residual
