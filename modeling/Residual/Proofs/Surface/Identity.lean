import Residual.Proofs.Surface.Trees

/-!
The identity of nodes.

A kind that is met again gets the node that it got first, so a tree that was entered changes
nothing when it is entered again. Main statement: in a store that was made by calls of its
interface, two trees get the same symbol exactly if they are equal but for the positions of marks.
Symbols are handed out one after another, and nodes and names keep their values whatever is called
later.
-/

namespace Residual

/-! ### Entering a tree again -/

namespace Build

variable {u : Store}

/-- A value that is met again. -/
lemma expr_eq {e : Expr} {kind : ExprKind} (hu : u.Canonical) (he : e.Issued u)
    (h : ∀ x : ExprKind, x.same kind = x.same e.kind) : (expr kind).run u = (e, u) := by
  obtain ⟨s, k⟩ := e
  have hfound : u.exprs.intern kind = (⟨s, k⟩, u.exprs) :=
    hu.exprs.intern_eq he.mem k.same_refl h
  change (Expr.node (u.exprs.intern kind).1.symbol (u.exprs.intern kind).1.value,
    { u with exprs := (u.exprs.intern kind).2 }) = _
  rw [hfound]

lemma pattern_eq {p : Pattern} (hu : u.Canonical) (hp : p.Issued u) :
    (pattern p.kind).run u = (p, u) := by
  obtain ⟨s, k⟩ := p
  have hfound : u.patterns.intern k = (⟨s, k⟩, u.patterns) :=
    hu.patterns.intern_eq hp.mem k.same_refl fun _ => rfl
  change (Pattern.node (u.patterns.intern k).1.symbol (u.patterns.intern k).1.value,
    { u with patterns := (u.patterns.intern k).2 }) = _
  rw [hfound]

lemma run_bind_of_eq {α β : Type} {act : Build α} {f : α → Build β} {st st' : Store} {a : α}
    (h : act.run st = (a, st')) : (act >>= f).run st = (f a).run st' := by
  rw [StateT.run_bind, h]
  rfl

mutual

/-- Entering a tree again gives the node that is there. -/
theorem enter_eq (t : Expr) {e : Expr} (hu : u.Canonical) (he : e.Issued u)
    (h : e.bare = t.bare) : t.enter.run u = (e, u) := by
  match t with
  | .node _ kind =>
    obtain ⟨s, k⟩ := e
    injection h with _ h
    obtain ⟨l, hl, hsame⟩ := enterKind_eq kind hu he.kind h
    rw [Expr.enter, run_bind_of_eq hl]
    exact expr_eq hu he hsame
termination_by structural t

/-- The parts of a node are those that are there, but for the positions of marks. -/
lemma enterKind_eq (kind : ExprKind) {k : ExprKind} (hu : u.Canonical) (hk : k.Issued u)
    (h : k.bare = kind.bare) :
    ∃ l, kind.enter.run u = (l, u) ∧ ∀ x : ExprKind, x.same l = x.same k := by
  -- A tree and a kind with one bare form have one constructor, so each part is found again by
  -- induction.
  match kind with
  | .var _ | .lit _ =>
    cases k <;> cases h
    exact ⟨_, rfl, fun _ => rfl⟩
  | .pattern p =>
    cases k with
    | pattern q =>
      injection h with h
      refine ⟨_, ?_, fun _ => rfl⟩
      exact run_bind_of_eq (enterPattern_eq p hu ⟨hk.codes, hk.nested⟩ h)
    | _ => cases h
  | .function _ body =>
    cases k with
    | function _ e =>
      injection h with hparam h
      refine ⟨_, ?_, fun _ => rfl⟩
      rw [hparam]
      exact run_bind_of_eq (enter_eq body hu (hk.codes e (List.mem_cons_self ..)) h)
    | _ => cases h
  | .filtered _ _ body =>
    cases k with
    | filtered _ _ e =>
      injection h with hused hparam h
      refine ⟨_, ?_, fun _ => rfl⟩
      rw [hused, hparam]
      exact run_bind_of_eq (enter_eq body hu (hk.codes e (List.mem_cons_self ..)) h)
    | _ => cases h
  | .recFunction _ _ body =>
    cases k with
    | recFunction _ _ e =>
      injection h with hthis hparam h
      refine ⟨_, ?_, fun _ => rfl⟩
      rw [hthis, hparam]
      exact run_bind_of_eq (enter_eq body hu (hk.codes e (List.mem_cons_self ..)) h)
    | _ => cases h
  | .tuple items =>
    cases k with
    | tuple es =>
      injection h with h
      exact ⟨_, run_bind_of_eq (enterAll_eq items hu hk.codes h), fun _ => rfl⟩
    | _ => cases h
  | .op _ args =>
    cases k with
    | op _ es =>
      injection h with ho h
      refine ⟨_, ?_, fun _ => rfl⟩
      rw [ho]
      exact run_bind_of_eq (enterAll_eq args hu hk.codes h)
    | _ => cases h
  | .pos span body =>
    cases k with
    | pos _ e =>
      injection h with _ h
      refine ⟨.pos span e, ?_, fun x => by cases x <;> rfl⟩
      exact run_bind_of_eq (enter_eq body hu (hk.codes e (List.mem_cons_self ..)) h)
    | _ => cases h
termination_by structural kind

lemma enterAll_eq (ts : List Expr) {es : List Expr} (hu : u.Canonical)
    (hes : ∀ e ∈ es, e.Issued u) (h : Expr.bareAll es = Expr.bareAll ts) :
    (Expr.enterAll ts).run u = (es, u) := by
  match ts with
  | [] =>
    cases es with
    | nil => rfl
    | cons => cases h
  | t :: rest =>
    cases es with
    | nil => cases h
    | cons e es =>
      injection h with hhead htail
      obtain ⟨he, hes⟩ := List.forall_mem_cons.1 hes
      rw [Expr.enterAll, run_bind_of_eq (enter_eq t hu he hhead),
        run_bind_of_eq (enterAll_eq rest hu hes htail)]
      rfl
termination_by structural ts

lemma enterPattern_eq (t : Pattern) {p : Pattern} (hu : u.Canonical) (hp : p.Issued u)
    (h : p.bare = t.bare) : t.enter.run u = (p, u) := by
  match t with
  | .node _ kind =>
    obtain ⟨s, k⟩ := p
    injection h with _ h
    rw [Pattern.enter, run_bind_of_eq (enterPatternKind_eq kind hu hp.kind h)]
    exact pattern_eq hu hp
termination_by structural t

lemma enterPatternKind_eq (kind : PatternKind) {k : PatternKind} (hu : u.Canonical)
    (hk : k.Issued u) (h : k.bare = kind.bare) : kind.enter.run u = (k, u) := by
  -- As for expressions: one constructor on both sides, and each part is found again.
  match kind with
  | .wildcard | .var _ | .lit _ =>
    cases k <;> cases h
    rfl
  | .tuple ts =>
    cases k with
    | tuple ps =>
      injection h with h
      exact run_bind_of_eq (enterPatterns_eq ts hu hk h)
    | _ => cases h
  | .or ts =>
    cases k with
    | or ps =>
      injection h with h
      exact run_bind_of_eq (enterPatterns_eq ts hu ⟨hk.codes, hk.nested⟩ h)
    | _ => cases h
  | .and ts =>
    cases k with
    | and ps =>
      injection h with h
      exact run_bind_of_eq (enterPatterns_eq ts hu ⟨hk.codes, hk.nested⟩ h)
    | _ => cases h
  | .cons ts t =>
    cases k with
    | cons ps p =>
      injection h with hitems hrest
      obtain ⟨hc, hd⟩ := List.forall_mem_append.1 hk.codes
      obtain ⟨hn, hm⟩ := List.forall_mem_append.1 hk.nested
      rw [PatternKind.enter, run_bind_of_eq (enterPatterns_eq ts hu ⟨hc, hn⟩ hitems),
        run_bind_of_eq (enterPattern_eq t hu ⟨hd, hm⟩ hrest)]
      rfl
    | _ => cases h
  -- Patterns that hold code: a type, a guard or a function.
  | .typeEq t code =>
    cases k with
    | typeEq p e =>
      injection h with hinner hcode
      obtain ⟨he, hc⟩ := List.forall_mem_cons.1 hk.codes
      rw [PatternKind.enter, run_bind_of_eq (enterPattern_eq t hu ⟨hc, hk.nested⟩ hinner),
        run_bind_of_eq (enter_eq code hu he hcode)]
      rfl
    | _ => cases h
  | .guarded t code =>
    cases k with
    | guarded p e =>
      injection h with hinner hcode
      obtain ⟨he, hc⟩ := List.forall_mem_cons.1 hk.codes
      rw [PatternKind.enter, run_bind_of_eq (enterPattern_eq t hu ⟨hc, hk.nested⟩ hinner),
        run_bind_of_eq (enter_eq code hu he hcode)]
      rfl
    | _ => cases h
  | .active f t =>
    cases k with
    | active e p =>
      injection h with hf hinner
      obtain ⟨he, hc⟩ := List.forall_mem_cons.1 hk.codes
      rw [PatternKind.enter, run_bind_of_eq (enter_eq f hu he hf),
        run_bind_of_eq (enterPattern_eq t hu ⟨hc, hk.nested⟩ hinner)]
      rfl
    | _ => cases h
  | .partialActive f t =>
    cases k with
    | partialActive e p =>
      injection h with hf hinner
      obtain ⟨he, hc⟩ := List.forall_mem_cons.1 hk.codes
      rw [PatternKind.enter, run_bind_of_eq (enter_eq f hu he hf),
        run_bind_of_eq (enterPattern_eq t hu ⟨hc, hk.nested⟩ hinner)]
      rfl
    | _ => cases h
  | .extension f t =>
    cases k with
    | extension e p =>
      injection h with hf hinner
      obtain ⟨he, hc⟩ := List.forall_mem_cons.1 hk.codes
      rw [PatternKind.enter, run_bind_of_eq (enter_eq f hu he hf),
        run_bind_of_eq (enterPattern_eq t hu ⟨hc, hk.nested⟩ hinner)]
      rfl
    | _ => cases h
  -- Patterns made of other syntax.
  | .module m =>
    cases k with
    | module n =>
      injection h with h
      exact run_bind_of_eq (enterModule_eq m hu hk h)
    | _ => cases h
  | .clauses arms =>
    cases k with
    | clauses cs =>
      injection h with h
      exact run_bind_of_eq (enterClauses_eq arms hu hk h)
    | _ => cases h
termination_by structural kind

lemma enterPatterns_eq (ts : List Pattern) {ps : List Pattern} (hu : u.Canonical)
    (hps : (PatternKind.tuple ps).Issued u) (h : Pattern.bareAll ps = Pattern.bareAll ts) :
    (Pattern.enterAll ts).run u = (ps, u) := by
  match ts with
  | [] =>
    cases ps with
    | nil => rfl
    | cons => cases h
  | t :: rest =>
    cases ps with
    | nil => cases h
    | cons p ps =>
      injection h with hhead htail
      obtain ⟨hc, hcs⟩ := List.forall_mem_append.1 hps.codes
      obtain ⟨hn, hns⟩ := List.forall_mem_append.1 hps.nested
      rw [Pattern.enterAll, run_bind_of_eq (enterPattern_eq t hu ⟨hc, hn⟩ hhead),
        run_bind_of_eq (enterPatterns_eq rest hu ⟨hcs, hns⟩ htail)]
      rfl
termination_by structural ts

lemma enterModule_eq (t : ModulePattern) {m : ModulePattern} (hu : u.Canonical)
    (hm : (PatternKind.module m).Issued u) (h : m.bare = t.bare) : t.enter.run u = (m, u) := by
  -- A position is in no module pattern itself, only in the patterns inside.
  match t with
  | .member _ _ =>
    cases m <;> cases h
    rfl
  | .inner _ t =>
    cases m with
    | inner field p =>
      injection h with hfield h
      rw [hfield]
      exact run_bind_of_eq (enterPattern_eq t hu ⟨hm.codes, hm.nested⟩ h)
    | _ => cases h
  | .and ts =>
    cases m with
    | and ms =>
      injection h with h
      exact run_bind_of_eq (enterModules_eq ts hu hm h)
    | _ => cases h
  | .or ts =>
    cases m with
    | or ms =>
      injection h with h
      exact run_bind_of_eq (enterModules_eq ts hu ⟨hm.codes, hm.nested⟩ h)
    | _ => cases h
  | .xor a b =>
    cases m with
    | xor m n =>
      injection h with ha hb
      obtain ⟨hc, hd⟩ := List.forall_mem_append.1 hm.codes
      obtain ⟨hn, hm⟩ := List.forall_mem_append.1 hm.nested
      rw [ModulePattern.enter, run_bind_of_eq (enterModule_eq a hu ⟨hc, hn⟩ ha),
        run_bind_of_eq (enterModule_eq b hu ⟨hd, hm⟩ hb)]
      rfl
    | _ => cases h
  | .not t =>
    cases m with
    | not m =>
      injection h with h
      exact run_bind_of_eq (enterModule_eq t hu ⟨hm.codes, hm.nested⟩ h)
    | _ => cases h
termination_by structural t

lemma enterModules_eq (ts : List ModulePattern) {ms : List ModulePattern} (hu : u.Canonical)
    (hms : (PatternKind.module (.and ms)).Issued u)
    (h : ModulePattern.bareAll ms = ModulePattern.bareAll ts) :
    (ModulePattern.enterAll ts).run u = (ms, u) := by
  match ts with
  | [] =>
    cases ms with
    | nil => rfl
    | cons => cases h
  | t :: rest =>
    cases ms with
    | nil => cases h
    | cons m ms =>
      injection h with hhead htail
      obtain ⟨hc, hcs⟩ := List.forall_mem_append.1 hms.codes
      obtain ⟨hn, hns⟩ := List.forall_mem_append.1 hms.nested
      rw [ModulePattern.enterAll, run_bind_of_eq (enterModule_eq t hu ⟨hc, hn⟩ hhead),
        run_bind_of_eq (enterModules_eq rest hu ⟨hcs, hns⟩ htail)]
      rfl
termination_by structural ts

lemma enterClause_eq (t : Clause) {p : Pattern} {e : Expr} (hu : u.Canonical)
    (hp : p.Issued u) (he : e.Issued u) (h : (Clause.mk p e).bare = t.bare) :
    t.enter.run u = (.mk p e, u) := by
  match t with
  | .mk t body =>
    injection h with ht hbody
    rw [Clause.enter, run_bind_of_eq (enterPattern_eq t hu hp ht),
      run_bind_of_eq (enter_eq body hu he hbody)]
    rfl
termination_by structural t

lemma enterClauses_eq (ts : List Clause) {cs : List Clause} (hu : u.Canonical)
    (hcs : (PatternKind.clauses cs).Issued u) (h : Clause.bareAll cs = Clause.bareAll ts) :
    (Clause.enterAll ts).run u = (cs, u) := by
  match ts with
  | [] =>
    cases cs with
    | nil => rfl
    | cons => cases h
  | t :: rest =>
    cases cs with
    | nil => cases h
    | cons c cs =>
      obtain ⟨p, e⟩ := c
      injection h with hhead htail
      obtain ⟨hc, hcs'⟩ := List.forall_mem_append.1 hcs.codes
      obtain ⟨he, hc⟩ := List.forall_mem_cons.1 hc
      obtain ⟨hn, hns⟩ := List.forall_mem_append.1 hcs.nested
      rw [Clause.enterAll, run_bind_of_eq (enterClause_eq t hu ⟨hc, hn⟩ he hhead),
        run_bind_of_eq (enterClauses_eq rest hu ⟨hcs', hns⟩ htail)]
      rfl
termination_by structural ts

end

end Build

/-! ### Identity -/

/-- A symbol that was handed out before, with the table left alone, or the next one. -/
def Interner.Hands {α : Type} (t t' : Interner α) (symbol : Nat) : Prop :=
  symbol < t.size ∧ t' = t ∨ symbol = t.size ∧ t'.size = t.size + 1

lemma Interner.hands_intern {α : Type} [BEq α] (t : Interner α) (a : α) :
    t.Hands (t.intern a).2 (t.intern a).1.symbol := by
  cases hs : t.symbol? a with
  | none =>
    rw [intern_of_symbol?_eq_none hs]
    exact .inr ⟨rfl, List.length_append⟩
  | some s =>
    obtain ⟨heq, hget⟩ := intern_of_symbol?_eq_some hs
    exact .inl ⟨(get?_eq_some_iff.1 hget).1 ▸ symbol?_lt hs, heq⟩

namespace Names

variable {t : Names} {x y : Name}

lemma text_of_lt (hx : x.index < t.size) : t.table.entries[x.index]? = some (t.text x) := by
  rw [text, List.getElem?_eq_getElem hx, Option.getD_some]

lemma text_of_getElem? {s : String} (h : t.table.entries[x.index]? = some s) :
    x.index < t.size ∧ t.text x = s :=
  ⟨(List.getElem?_eq_some_iff.1 h).1, by rw [text, h, Option.getD_some]⟩

/-- Names of one table are equal if their texts are. -/
lemma eq_iff_text (ht : t.table.Distinct) (hx : x.index < t.size) (hy : y.index < t.size) :
    x = y ↔ t.text x = t.text y := by
  refine ⟨congrArg t.text, fun h => ?_⟩
  have hfound := ht.intern_eq (text_of_lt hx) (beq_self_eq_true _) fun _ => rfl
  rw [h, ht.intern_eq (text_of_lt hy) (beq_self_eq_true _) fun _ => rfl] at hfound
  have hindex : y.index = x.index := congrArg (fun r => r.1.symbol) hfound
  cases x
  cases y
  exact congrArg Name.mk hindex.symm

end Names

/-- What the symbols and names of a store tell. -/
structure Store.Identifies (st : Store) : Prop where
  /-- One symbol for one tree. -/
  expr_iff : ∀ e f : Expr, e.Issued st → f.Issued st → (e.symbol = f.symbol ↔ e.bare = f.bare)
  pattern_iff : ∀ p q : Pattern, p.Issued st → q.Issued st →
    (p.symbol = q.symbol ↔ p.bare = q.bare)
  name_iff : ∀ x y : Name, x.index < st.names.size → y.index < st.names.size →
    (x = y ↔ st.names.text x = st.names.text y)
  /-- A call issues a node for what it is given. -/
  exprCall : ∀ kind : ExprKind, kind.Issued st →
    ((Build.expr kind).run st).1.Issued ((Build.expr kind).run st).2 ∧
      ((Build.expr kind).run st).1.kind.bare = kind.bare
  patternCall : ∀ kind : PatternKind, kind.Issued st →
    ((Build.pattern kind).run st).1.Issued ((Build.pattern kind).run st).2 ∧
      ((Build.pattern kind).run st).1.kind = kind
  nameCall : ∀ s, ((Build.name s).run st).1.index < ((Build.name s).run st).2.names.size ∧
    ((Build.name s).run st).2.names.text ((Build.name s).run st).1 = s
  lowerCall : ∀ p : Pattern, p.Issued st →
    ((Build.lowerPattern p).run st).1.Issued ((Build.lowerPattern p).run st).2
  filterCall : ∀ e : Expr, e.Issued st →
    ((Build.filter e).run st).1.Issued ((Build.filter e).run st).2
  /-- Every tree can be entered by calls. -/
  exprEntered : ∀ t : Expr, st.Reaches (t.enter.run st).2 ∧
    (t.enter.run st).1.Issued (t.enter.run st).2 ∧ (t.enter.run st).1.bare = t.bare
  patternEntered : ∀ t : Pattern, st.Reaches (t.enter.run st).2 ∧
    (t.enter.run st).1.Issued (t.enter.run st).2 ∧ (t.enter.run st).1.bare = t.bare
  /-- What is there is not entered again. -/
  exprAgain : ∀ t e : Expr, e.Issued st → t.bare = e.bare → t.enter.run st = (e, st)
  patternAgain : ∀ t p : Pattern, p.Issued st → t.bare = p.bare → t.enter.run st = (p, st)
  nameAgain : ∀ x : Name, x.index < st.names.size →
    (Build.name (st.names.text x)).run st = (x, st)
  /-- Symbols are handed out in order. -/
  exprHands : ∀ kind, st.exprs.Hands ((Build.expr kind).run st).2.exprs
    ((Build.expr kind).run st).1.symbol
  patternHands : ∀ kind, st.patterns.Hands ((Build.pattern kind).run st).2.patterns
    ((Build.pattern kind).run st).1.symbol
  nameHands : ∀ s, st.names.table.Hands ((Build.name s).run st).2.names.table
    ((Build.name s).run st).1.index
  /-- Nodes and names keep their values. -/
  exprLater : ∀ (u : Store) (e : Expr), st.Reaches u → e.Issued st → e.Issued u
  patternLater : ∀ (u : Store) (p : Pattern), st.Reaches u → p.Issued st → p.Issued u
  nameLater : ∀ (u : Store) (x : Name), st.Reaches u → x.index < st.names.size →
    x.index < u.names.size ∧ u.names.text x = st.names.text x

namespace Store

variable {st u : Store}

/-- The table has the text of a name that was made. -/
theorem getElem?_name (st : Store) (s : String) :
    ((Build.name s).run st).2.names.table.entries[((Build.name s).run st).1.index]? = some s := by
  have hget := (Interner.get?_eq_some_iff.1 (Interner.get?_intern_symbol st.names.table s)).2
  rcases Interner.intern_eq_or st.names.table s with heq | ⟨-, heq⟩
  · exact hget.trans (congrArg some heq)
  · exact hget.trans (congrArg some (eq_of_beq heq))

namespace Canonical

lemma expr_iff (hst : st.Canonical) {e f : Expr} (he : e.Issued st) (hf : f.Issued st) :
    e.symbol = f.symbol ↔ e.bare = f.bare := by
  refine ⟨fun hsymbol => by rw [he.mem.eq hf.mem hsymbol], fun hbare => ?_⟩
  have hsame : (f, st) = (e, st) :=
    (Build.enter_eq f hst hf rfl).symm.trans (Build.enter_eq f hst he hbare)
  cases hsame
  rfl

lemma pattern_iff (hst : st.Canonical) {p q : Pattern} (hp : p.Issued st) (hq : q.Issued st) :
    p.symbol = q.symbol ↔ p.bare = q.bare := by
  refine ⟨fun hsymbol => by rw [hp.mem.eq hq.mem hsymbol], fun hbare => ?_⟩
  have hsame : (q, st) = (p, st) :=
    (Build.enterPattern_eq q hst hq rfl).symm.trans (Build.enterPattern_eq q hst hp hbare)
  cases hsame
  rfl

lemma name_text (hst : st.Canonical) {x : Name} (hx : x.index < st.names.size) :
    (Build.name (st.names.text x)).run st = (x, st) := by
  have hfound := hst.names.intern_eq (Names.text_of_lt hx) (beq_self_eq_true _) fun _ => rfl
  change ((⟨(st.names.table.intern _).1.symbol⟩ : Name),
    { st with names := ⟨(st.names.table.intern _).2⟩ }) = _
  rw [hfound]

end Canonical

/-- Nodes and names are identified in every store that calls lead to. -/
theorem Reaches.identifies (h : Store.Reaches {} st) : st.Identifies :=
  have hst : st.Canonical := h.canonical canonical_new
  { expr_iff := fun _ _ he hf => hst.expr_iff he hf
    pattern_iff := fun _ _ hp hq => hst.pattern_iff hp hq
    name_iff := fun _ _ hx hy => Names.eq_iff_text hst.names hx hy
    exprCall := fun _ hk => (Build.calls_expr hk hst).2
    patternCall := fun _ hk => (Build.calls_pattern hk hst).2
    nameCall := fun s => Names.text_of_getElem? (getElem?_name st s)
    lowerCall := fun _ hp => (Build.Issues.canonical
      (fun _ hu => Build.issues_lowerPattern (hp.mono hu.nodesIn)) hst).2
    filterCall := fun _ he => (Build.Issues.canonical
      (fun _ hu => Build.issues_filter (he.mono hu.nodesIn)) hst).2
    exprEntered := fun t => Build.calls_enter t st hst
    patternEntered := fun t => Build.calls_enterPattern t st hst
    exprAgain := fun t _ he hbare => Build.enter_eq t hst he hbare.symm
    patternAgain := fun t _ hp hbare => Build.enterPattern_eq t hst hp hbare.symm
    nameAgain := fun _ => hst.name_text
    exprHands := fun kind => Interner.hands_intern st.exprs kind
    patternHands := fun kind => Interner.hands_intern st.patterns kind
    nameHands := fun s => Interner.hands_intern st.names.table s
    exprLater := fun _ _ hu he => he.mono hu.grows.nodesIn
    patternLater := fun _ _ hu hp => hp.mono hu.grows.nodesIn
    nameLater := fun _ _ hu hx =>
      Names.text_of_getElem? (hu.grows.names.getElem? (Names.text_of_lt hx)) }

/-- A pair of one variable, marked with two positions. The second mark gets the node of the first,
and entering the pair with the positions exchanged changes nothing. -/
theorem Reaches.identifies_marked :
    let x : Expr := .node 0 (.var ⟨1⟩)
    let mark (line : Nat) : Expr := .node 0 (.pos ⟨⟨0⟩, ⟨line, 1⟩, ⟨line, 2⟩⟩ x)
    let pair (a b : Nat) : Expr := .node 0 (.tuple [mark a, mark b])
    let named := ((Build.name "x").run {}).2
    let st := ((pair 1 2).enter.run named).2
    Store.Reaches {} st ∧ st.Identifies ∧ mark 1 ≠ mark 2 ∧ st.exprs.size = 3 ∧
      (mark 2).enter.run st = (mark 1).enter.run st ∧
      (pair 2 1).enter.run st = (pair 1 2).enter.run named := by
  intro x mark pair named st
  have hnamed : Store.Reaches {} named := .single (.name "x")
  obtain ⟨hpair, hissued, hbare⟩ := hnamed.identifies.exprEntered (pair 1 2)
  have hst : Store.Reaches {} st := hnamed.trans hpair
  have hid : st.Identifies := Reaches.identifies hst
  have hswapped : (pair 2 1).bare = ((pair 1 2).enter.run named).1.bare :=
    (show (pair 2 1).bare = (pair 1 2).bare from rfl).trans hbare.symm
  exact ⟨hst, hid, by simp [mark], rfl, rfl, hid.exprAgain (pair 2 1) _ hissued hswapped⟩

end Store

end Residual
