import Residual.Proofs.Surface.Prefiltered

/-!
Nodes that a store has issued.

A store hands out a node for every kind that is entered, and the kinds are built from nodes that it
handed out before. The judgement `Issues` says that work keeps to this: what it enters is built
from nodes of the store that it ends with, nothing is entered twice, and so are its results. Main
statement: lowering a pattern, listing free names and making a program ready do so.
-/

namespace Residual

/-! ### Tables without repetitions -/

namespace Interner

variable {α : Type} [BEq α] {t : Interner α} {a b : α} {s : Nat}

/-- A value that is compared like an entry finds this entry again. -/
theorem Distinct.intern_eq (h : t.Distinct) (hs : t.entries[s]? = some a) (ha : (a == a) = true)
    (hb : ∀ x, (x == b) = (x == a)) : t.intern b = (⟨s, a⟩, t) := by
  obtain ⟨hlt, hget⟩ := List.getElem?_eq_some_iff.1 hs
  have hfound : t.symbol? b = some s := by
    refine List.findIdx?_eq_some_iff_getElem.2 ⟨hlt, ?_, fun j hj => ?_⟩
    · rw [hget, hb, ha]
    · rw [hb, ← hget]
      exact List.pairwise_iff_getElem.1 h j s (Nat.lt_trans hj hlt) hlt hj
  have hnode : t.get? s = some ⟨s, a⟩ := get?_eq_some_iff.2 ⟨rfl, hs⟩
  rw [Interner.intern, hfound, Option.bind_some, hnode]

/-- The node that stands for a value has an equal one. -/
theorem intern_eq_or (t : Interner α) (a : α) : (t.intern a).1.value = a ∨
    (t.intern a).1.value ∈ t.entries ∧ ((t.intern a).1.value == a) = true := by
  cases hs : t.symbol? a with
  | none => exact .inl (by rw [intern_of_symbol?_eq_none hs])
  | some s =>
    have hget := (get?_eq_some_iff.1 (intern_of_symbol?_eq_some hs).2).2
    obtain ⟨hlt, hsame, -⟩ := List.findIdx?_eq_some_iff_getElem.1 hs
    rw [List.getElem?_eq_getElem hlt, Option.some.injEq] at hget
    exact .inr ⟨hget ▸ List.getElem_mem hlt, hget ▸ hsame⟩

end Interner

/-! ### Patterns inside patterns -/

mutual

/-- The pattern and those inside it. -/
def Pattern.nested : Pattern → List Pattern
  | .node symbol kind => .node symbol kind :: kind.nested

def PatternKind.nested : PatternKind → List Pattern
  | .wildcard | .var _ | .lit _ => []
  | .tuple items => Pattern.nestedOfAll items
  | .cons items rest => Pattern.nestedOfAll items ++ rest.nested
  | .typeEq inner _ | .guarded inner _ => inner.nested
  | .active _ inner | .partialActive _ inner | .extension _ inner => inner.nested
  | .or alternatives => Pattern.nestedOfAll alternatives
  | .and parts => Pattern.nestedOfAll parts
  | .module m => m.nested
  | .clauses arms => Clause.nestedOfAll arms

def Pattern.nestedOfAll : List Pattern → List Pattern
  | [] => []
  | p :: rest => p.nested ++ Pattern.nestedOfAll rest

def ModulePattern.nested : ModulePattern → List Pattern
  | .member _ _ => []
  | .inner _ p => p.nested
  | .and parts => ModulePattern.nestedOfAll parts
  | .or alternatives => ModulePattern.nestedOfAll alternatives
  | .xor a b => a.nested ++ b.nested
  | .not m => m.nested

def ModulePattern.nestedOfAll : List ModulePattern → List Pattern
  | [] => []
  | m :: rest => m.nested ++ ModulePattern.nestedOfAll rest

def Clause.nested : Clause → List Pattern
  | .mk p _ => p.nested

def Clause.nestedOfAll : List Clause → List Pattern
  | [] => []
  | c :: rest => c.nested ++ Clause.nestedOfAll rest

end

/-- The patterns that a node is built from, down to those inside a pattern. -/
def ExprKind.nested : ExprKind → List Pattern
  | .pattern p => p.nested
  | _ => []

/-- The pattern is the one that the table has under its symbol. -/
def Pattern.In (p : Pattern) (t : Interner PatternKind) : Prop :=
  t.entries[p.symbol]? = some p.kind

namespace Pattern.In

variable {t u : Interner PatternKind} {p q : Pattern}

lemma mono (h : p.In t) (ht : t.Extends u) : p.In u := ht.getElem? h

/-- One symbol stands for one pattern. -/
theorem eq (hp : p.In t) (hq : q.In t) (h : p.symbol = q.symbol) : p = q := by
  obtain ⟨s, k⟩ := p
  obtain ⟨s', k'⟩ := q
  have hs : s = s' := h
  subst hs
  have hk : some k = some k' := hp.symm.trans hq
  cases hk
  rfl

lemma eq_of_beq (hp : p.In t) (hq : q.In t) (h : (p == q) = true) : p = q :=
  hp.eq hq (by simpa [BEq.beq] using h)

end Pattern.In

lemma Pattern.mem_nested (p : Pattern) : p ∈ p.nested := by
  cases p
  exact List.mem_cons_self ..

lemma Pattern.nested_subset {p : Pattern} {ps : List Pattern} (h : p ∈ ps) :
    p ∈ Pattern.nestedOfAll ps := by
  induction h with
  | head => exact List.mem_append_left _ p.mem_nested
  | tail _ _ ih => exact List.mem_append_right _ ih

lemma Clause.nested_subset {c : Clause} {cs : List Clause} (h : c ∈ cs) :
    c.pattern ∈ Clause.nestedOfAll cs := by
  induction h with
  | head =>
    cases c
    exact List.mem_append_left _ (Pattern.mem_nested _)
  | tail _ _ ih => exact List.mem_append_right _ ih

lemma Clause.codes_subset {c : Clause} {cs : List Clause} (h : c ∈ cs) :
    c.body ∈ Clause.codesOfAll cs := by
  induction h with
  | head =>
    cases c
    exact List.mem_append_left _ (List.mem_cons_self ..)
  | tail _ _ ih => exact List.mem_append_right _ ih

/-! ### Nodes of a store -/

/-- The store has issued the expression and all nodes that it is built from. -/
inductive Expr.Issued (u : Store) : Expr → Prop
  | intro {e : Expr} (mem : e.In u.exprs) (codes : ∀ c ∈ e.kind.codes, Expr.Issued u c)
      (nested : ∀ p ∈ e.kind.nested, p.In u.patterns) : Expr.Issued u e

/-- The nodes that the kind is built from were issued. -/
structure ExprKind.Issued (u : Store) (kind : ExprKind) : Prop where
  codes : ∀ c ∈ kind.codes, c.Issued u
  nested : ∀ p ∈ kind.nested, p.In u.patterns

/-- The nodes that the kind is built from were issued. -/
structure PatternKind.Issued (u : Store) (kind : PatternKind) : Prop where
  codes : ∀ c ∈ kind.codes, c.Issued u
  nested : ∀ p ∈ kind.nested, p.In u.patterns

/-- The store has issued the pattern and all nodes that it is built from. -/
structure Pattern.Issued (u : Store) (p : Pattern) : Prop where
  codes : ∀ c ∈ p.codes, c.Issued u
  nested : ∀ q ∈ p.nested, q.In u.patterns

/-- All nodes of the first store are nodes of the second one. -/
structure Store.NodesIn (st u : Store) : Prop where
  exprs : st.exprs.Extends u.exprs
  patterns : st.patterns.Extends u.patterns

lemma Store.Grows.nodesIn {st u : Store} (h : st.Grows u) : st.NodesIn u :=
  ⟨h.exprs, h.patterns⟩

variable {u v : Store}

namespace Expr.Issued

variable {e : Expr}

lemma mem (h : e.Issued u) : e.In u.exprs := by
  cases h
  assumption

lemma kind (h : e.Issued u) : e.kind.Issued u := by
  cases h
  exact ⟨‹_›, ‹_›⟩

lemma mono (h : e.Issued u) (hin : u.NodesIn v) : e.Issued v := by
  induction h with
  | intro hmem _ hnested ih =>
    exact .intro (hmem.mono hin.exprs) ih fun p hp => (hnested p hp).mono hin.patterns

end Expr.Issued

lemma ExprKind.Issued.mono {kind : ExprKind} (h : kind.Issued u) (hin : u.NodesIn v) :
    kind.Issued v :=
  ⟨fun c hc => (h.codes c hc).mono hin, fun p hp => (h.nested p hp).mono hin.patterns⟩

lemma PatternKind.Issued.mono {kind : PatternKind} (h : kind.Issued u) (hin : u.NodesIn v) :
    kind.Issued v :=
  ⟨fun c hc => (h.codes c hc).mono hin, fun p hp => (h.nested p hp).mono hin.patterns⟩

namespace Pattern.Issued

variable {p : Pattern}

lemma mem (h : p.Issued u) : p.In u.patterns := h.nested p p.mem_nested

lemma kind (h : p.Issued u) : p.kind.Issued u := by
  cases p
  exact ⟨h.codes, fun q hq => h.nested q (List.mem_cons_of_mem _ hq)⟩

lemma of_kind (hmem : p.In u.patterns) (h : p.kind.Issued u) : p.Issued u := by
  cases p
  exact ⟨h.codes, List.forall_mem_cons.2 ⟨hmem, h.nested⟩⟩

lemma mono (h : p.Issued u) (hin : u.NodesIn v) : p.Issued v :=
  ⟨fun c hc => (h.codes c hc).mono hin, fun q hq => (h.nested q hq).mono hin.patterns⟩

end Pattern.Issued

/-! ### One kind for one symbol -/

mutual

/-- Kinds that are built alike from patterns of one table are equal. -/
lemma ModulePattern.eq_of_same {t : Interner PatternKind} (m n : ModulePattern)
    (hm : ∀ p ∈ m.nested, p.In t) (hn : ∀ p ∈ n.nested, p.In t) (h : m.same n = true) :
    m = n := by
  match m, n with
  | .member f x, .member g y =>
    simp only [same, Bool.and_eq_true, beq_iff_eq] at h
    rw [h.1, h.2]
  | .inner f p, .inner g q =>
    simp only [same, Bool.and_eq_true, beq_iff_eq] at h
    rw [h.1, (hm p p.mem_nested).eq_of_beq (hn q q.mem_nested) h.2]
  | .and ms, .and ns => rw [ModulePattern.eq_of_sameAll ms ns hm hn h]
  | .or ms, .or ns => rw [ModulePattern.eq_of_sameAll ms ns hm hn h]
  | .xor a b, .xor c d =>
    simp only [same, Bool.and_eq_true] at h
    obtain ⟨ha, hb⟩ := List.forall_mem_append.1 hm
    obtain ⟨hc, hd⟩ := List.forall_mem_append.1 hn
    rw [ModulePattern.eq_of_same a c ha hc h.1, ModulePattern.eq_of_same b d hb hd h.2]
  | .not m, .not n => rw [ModulePattern.eq_of_same m n hm hn h]
termination_by structural m

lemma ModulePattern.eq_of_sameAll {t : Interner PatternKind} (ms ns : List ModulePattern)
    (hm : ∀ p ∈ ModulePattern.nestedOfAll ms, p.In t)
    (hn : ∀ p ∈ ModulePattern.nestedOfAll ns, p.In t) (h : sameAll ms ns = true) : ms = ns := by
  match ms, ns with
  | [], [] => rfl
  | m :: ms, n :: ns =>
    simp only [sameAll, Bool.and_eq_true] at h
    obtain ⟨hm, hms⟩ := List.forall_mem_append.1 hm
    obtain ⟨hn, hns⟩ := List.forall_mem_append.1 hn
    rw [ModulePattern.eq_of_same m n hm hn h.1, ModulePattern.eq_of_sameAll ms ns hms hns h.2]
termination_by structural ms

end

/-- Kinds that are built alike from nodes of one store are equal. -/
lemma PatternKind.eq_of_same {k l : PatternKind} (hk : k.Issued u) (hl : l.Issued u)
    (h : k.same l = true) : k = l := by
  -- Parts that are equal by symbol are nodes of one store, so they are the same.
  have hcode : ∀ {e f : Expr}, e ∈ k.codes → f ∈ l.codes → (e == f) = true → e = f :=
    fun he hf => (hk.codes _ he).mem.eq_of_beq (hl.codes _ hf).mem
  have hpattern : ∀ {p q : Pattern}, p ∈ k.nested → q ∈ l.nested → (p == q) = true → p = q :=
    fun hp hq => (hk.nested _ hp).eq_of_beq (hl.nested _ hq)
  have hinner : ∀ {p q : Pattern}, k.nested = p.nested → l.nested = q.nested →
      (p == q) = true → p = q := fun hp hq =>
    hpattern (hp ▸ Pattern.mem_nested _) (hq ▸ Pattern.mem_nested _)
  have hitems : ∀ {ps qs : List Pattern}, k.nested = Pattern.nestedOfAll ps →
      l.nested = Pattern.nestedOfAll qs → (ps == qs) = true → ps = qs := fun hps hqs =>
    List.eq_of_beq_items fun p hp q hq =>
      hpattern (hps ▸ Pattern.nested_subset hp) (hqs ▸ Pattern.nested_subset hq)
  unfold same at h
  split at h <;> try simp only [Bool.and_eq_true, beq_iff_eq] at h
  · rfl
  · rw [h]
  · rw [h]
  · rw [hitems rfl rfl h]
  · rw [hpattern (List.mem_append_right _ (Pattern.mem_nested _))
      (List.mem_append_right _ (Pattern.mem_nested _)) h.2]
    rw [List.eq_of_beq_items (fun p hp q hq => hpattern
      (List.mem_append_left _ (Pattern.nested_subset hp))
      (List.mem_append_left _ (Pattern.nested_subset hq))) h.1]
  · rw [hinner rfl rfl h.1, hcode (List.mem_cons_self ..) (List.mem_cons_self ..) h.2]
  · rw [hinner rfl rfl h.2, hcode (List.mem_cons_self ..) (List.mem_cons_self ..) h.1]
  · rw [hinner rfl rfl h.2, hcode (List.mem_cons_self ..) (List.mem_cons_self ..) h.1]
  · rw [hinner rfl rfl h.2, hcode (List.mem_cons_self ..) (List.mem_cons_self ..) h.1]
  · rw [hitems rfl rfl h]
  · rw [hitems rfl rfl h]
  · rw [hinner rfl rfl h.1, hcode (List.mem_cons_self ..) (List.mem_cons_self ..) h.2]
  · rw [ModulePattern.eq_of_same _ _ hk.nested hl.nested h]
  · refine congrArg clauses (List.eq_of_beq_items (fun c hc d hd hsame => ?_) h)
    obtain ⟨p, e⟩ := c
    obtain ⟨q, f⟩ := d
    have hparts : (p == q && e == f) = true := hsame
    rw [Bool.and_eq_true] at hparts
    have hp : p = q := hpattern (Clause.nested_subset hc) (Clause.nested_subset hd) hparts.1
    have he : e = f := hcode (Clause.codes_subset hc) (Clause.codes_subset hd) hparts.2
    rw [hp, he]
  · cases h

/-- A kind without patterns is built from expressions only. -/
theorem ExprKind.Issued.of_codes {kind : ExprKind} (hnested : kind.nested = [])
    (h : ∀ c ∈ kind.codes, c.Issued u) : kind.Issued u :=
  ⟨h, fun p hp => by rw [hnested] at hp; cases hp⟩

/-! ### Stores -/

/-- The store is made of nodes that `u` has issued, and nothing was entered twice. -/
structure Store.MadeOf (u st : Store) : Prop where
  names : st.names.table.Distinct
  exprs : st.exprs.Distinct
  patterns : st.patterns.Distinct
  exprKinds : ∀ kind ∈ st.exprs.entries, kind.Issued u
  patternKinds : ∀ kind ∈ st.patterns.entries, kind.Issued u
  lowered : ∀ e ∈ st.lowered, e.2.Issued u
  filtered : ∀ e ∈ st.filtered, e.2.Issued u

/-- The store is made of its own nodes, and nothing was entered twice. -/
abbrev Store.Canonical (st : Store) : Prop := st.MadeOf st

lemma Store.MadeOf.mono {st : Store} (h : u.MadeOf st) (hin : u.NodesIn v) : v.MadeOf st where
  names := h.names
  exprs := h.exprs
  patterns := h.patterns
  exprKinds k hk := (h.exprKinds k hk).mono hin
  patternKinds k hk := (h.patternKinds k hk).mono hin
  lowered e he := (h.lowered e he).mono hin
  filtered e he := (h.filtered e he).mono hin

lemma Store.canonical_new : Store.Canonical {} where
  names := List.pairwise_singleton ..
  exprs := .nil
  patterns := .nil
  exprKinds _ h := absurd h List.not_mem_nil
  patternKinds _ h := absurd h List.not_mem_nil
  lowered _ h := absurd h List.not_mem_nil
  filtered _ h := absurd h List.not_mem_nil

namespace Build

variable {α β : Type}

/-- Work that ends with a part of the store `u` makes a store of nodes of `u` from one, and its
result has the property. -/
def Issues (u : Store) (act : Build α) (Q : α → Prop) : Prop :=
  ∀ st : Store, u.MadeOf st → (act.run st).2.NodesIn u → u.MadeOf (act.run st).2 ∧ Q (act.run st).1

namespace Issues

variable {act : Build α} {f : α → Build β} {P P' : α → Prop} {Q : β → Prop}

protected lemma pure {a : α} (h : P a) : Issues u (Pure.pure a) P := fun _ hst _ => ⟨hst, h⟩

protected lemma bind [hadds : ∀ a, Adds (f a)] (ha : Issues u act P)
    (hf : ∀ a, P a → Issues u (f a) Q) : Issues u (act >>= f) Q := by
  intro st hst hin
  have hgrow := (hadds (act.run st).1).grows (act.run st).2
  obtain ⟨hst', hP⟩ := ha st hst ⟨hgrow.exprs.trans hin.exprs, hgrow.patterns.trans hin.patterns⟩
  exact hf _ hP _ hst' hin

lemma imp (ha : Issues u act P) (h : ∀ a, P a → P' a) : Issues u act P' :=
  fun st hst hin => ⟨(ha st hst hin).1, h _ (ha st hst hin).2⟩

/-- Work on a canonical store leaves one behind, whose nodes it returns. -/
theorem canonical [hadds : Adds act] {st : Store} {P : Store → α → Prop}
    (h : ∀ u, st.Grows u → Issues u act (P u)) (hst : st.Canonical) :
    (act.run st).2.Canonical ∧ P (act.run st).2 (act.run st).1 :=
  h _ (hadds.grows st) st (hst.mono (hadds.grows st).nodesIn) ⟨.refl _, .refl _⟩

end Issues

lemma issues_name (s : String) : Issues u (name s) fun _ => True :=
  fun _ hst _ => ⟨{ hst with names := hst.names.intern s }, trivial⟩

lemma issues_fresh (hint : String) : Issues u (fresh hint) fun _ => True :=
  fun _ hst _ => ⟨{ hst with names := hst.names.intern _ }, trivial⟩

/-- The node that is entered stands for the given one. -/
theorem issues_kind {kind : ExprKind} (hk : kind.Issued u) :
    Issues u (expr kind) fun e => e.Issued u ∧ (e.kind = kind ∨ e.kind.same kind = true) := by
  intro st hst hin
  have hmem := (Interner.get?_eq_some_iff.1 (Interner.get?_intern_symbol st.exprs kind)).2
  have hvalue : (st.exprs.intern kind).1.value.Issued u ∧
      ((st.exprs.intern kind).1.value = kind ∨
        (st.exprs.intern kind).1.value.same kind = true) := by
    rcases Interner.intern_eq_or st.exprs kind with heq | ⟨hold, hsame⟩
    · exact ⟨heq.symm ▸ hk, .inl heq⟩
    · exact ⟨hst.exprKinds _ hold, .inr hsame⟩
  refine ⟨{ hst with exprs := hst.exprs.intern kind, exprKinds := fun k hmem => ?_ },
    .intro (hin.exprs.getElem? hmem) hvalue.1.codes hvalue.1.nested, hvalue.2⟩
  rcases Interner.entries_intern st.exprs kind k hmem with rfl | hmem
  · exact hk
  · exact hst.exprKinds k hmem

lemma issues_expr {kind : ExprKind} (hk : kind.Issued u) :
    Issues u (expr kind) (Expr.Issued u) :=
  (issues_kind hk).imp fun _ h => h.1

lemma issues_pattern {kind : PatternKind} (hk : kind.Issued u) :
    Issues u (pattern kind) fun p => p.Issued u ∧ p.kind = kind := by
  intro st hst hin
  have hmem := (Interner.get?_eq_some_iff.1 (Interner.get?_intern_symbol st.patterns kind)).2
  have hvalue : (st.patterns.intern kind).1.value = kind := by
    rcases Interner.intern_eq_or st.patterns kind with heq | ⟨hold, hsame⟩
    · exact heq
    · exact PatternKind.eq_of_same (hst.patternKinds _ hold) hk hsame
  refine ⟨{ hst with patterns := hst.patterns.intern kind, patternKinds := fun k hmem => ?_ },
    .of_kind (hin.patterns.getElem? hmem) ?_, hvalue⟩
  · rcases Interner.entries_intern st.patterns kind k hmem with rfl | hmem
    · exact hk
    · exact hst.patternKinds k hmem
  · change PatternKind.Issued u (st.patterns.intern kind).1.value
    rw [hvalue]
    exact hk

lemma lowers_issues : Lowers (Expr.Issued u) (Issues u) where
  pure := .pure
  bind := .bind
  fresh := issues_fresh
  var _ := issues_expr (.of_codes rfl fun _ h => absurd h List.not_mem_nil)
  lit _ := issues_expr (.of_codes rfl fun _ h => absurd h List.not_mem_nil)
  function h := issues_expr (.of_codes rfl (List.forall_mem_singleton.2 h))
  unit := issues_expr (.of_codes rfl fun _ h => absurd h List.not_mem_nil)
  op h := issues_expr (.of_codes rfl h)
  wildcard := (issues_pattern ⟨fun _ h => absurd h List.not_mem_nil,
    fun _ h => absurd h List.not_mem_nil⟩).imp fun _ hp => hp.1.codes

lemma issues_lowerPattern {p : Pattern} (hp : p.Issued u) :
    Issues u (lowerPattern p) (Expr.Issued u) := by
  intro st hst hin
  cases hl : st.lowered.lookup p.symbol with
  | some e =>
    rw [run_lowerPattern_of_hit hl]
    exact ⟨hst, hst.lowered _ (mem_of_lookup hl)⟩
  | none =>
    rw [run_lowerPattern_of_miss hl] at hin ⊢
    obtain ⟨hst', he⟩ := lowers_issues.lowerTop hp.codes st hst ⟨hin.exprs, hin.patterns⟩
    exact ⟨{ hst' with lowered := List.forall_mem_cons.2 ⟨he, hst'.lowered⟩ }, he⟩

/-! ### Free names and filtering -/

section FreeNames

variable {unfold : Pattern → Build (List Name)}

mutual

lemma issues_freeNamesWith [hadds : ∀ p, Adds (unfold p)]
    (hu : ∀ p, p.Issued u → Issues u (unfold p) fun _ => True) (e : Expr) (he : e.Issued u) :
    Issues u (freeNamesWith unfold e) fun _ => True := by
  match e with
  | .node symbol kind =>
    intro st hst hin
    cases hl : st.freeNames.lookup symbol with
    | some names =>
      rw [run_freeNamesWith_of_hit hl]
      exact ⟨hst, trivial⟩
    | none =>
      rw [run_freeNamesWith_of_miss hl] at hin ⊢
      obtain ⟨hst', -⟩ := issues_freeNamesOfKind hu kind he.kind st hst ⟨hin.exprs, hin.patterns⟩
      exact ⟨{ hst' with }, trivial⟩
termination_by structural e

lemma issues_freeNamesOfKind [hadds : ∀ p, Adds (unfold p)]
    (hu : ∀ p, p.Issued u → Issues u (unfold p) fun _ => True) (kind : ExprKind)
    (hk : kind.Issued u) :
    Issues u (freeNamesOfKind unfold kind) fun _ => True := by
  match kind with
  | .var _ | .lit _ => exact .pure trivial
  | .pattern p => exact hu p ⟨hk.codes, hk.nested⟩
  | .function _ body | .filtered _ _ body | .recFunction _ _ body =>
    exact (issues_freeNamesWith hu body (hk.codes _ (List.mem_singleton_self _))).bind
      fun _ _ => .pure trivial
  | .tuple es | .op _ es => exact issues_freeNamesOfAll hu [] es hk.codes
  | .pos _ e => exact issues_freeNamesWith hu e (hk.codes _ (List.mem_singleton_self _))
termination_by structural kind

lemma issues_freeNamesOfAll [hadds : ∀ p, Adds (unfold p)]
    (hu : ∀ p, p.Issued u → Issues u (unfold p) fun _ => True) (out : List Name) (es : List Expr)
    (he : ∀ e ∈ es, e.Issued u) :
    Issues u (freeNamesOfAll unfold out es) fun _ => True := by
  match es with
  | [] => exact .pure trivial
  | e :: rest =>
    obtain ⟨he, hrest⟩ := List.forall_mem_cons.1 he
    exact (issues_freeNamesWith hu e he).bind fun _ _ => issues_freeNamesOfAll hu _ rest hrest
termination_by structural es

end

end FreeNames

lemma issues_freeNamesTo (depth : Nat) {e : Expr} (he : e.Issued u) :
    Issues u (freeNamesTo depth e) fun _ => True := by
  induction depth generalizing e with
  | zero => exact issues_freeNamesWith (fun _ _ => .pure trivial) e he
  | succ depth ih =>
    exact issues_freeNamesWith (fun p hp => (issues_lowerPattern hp).bind fun _ hl => ih hl) e he

lemma issues_freeNames {e : Expr} (he : e.Issued u) :
    Issues u (freeNames e) fun _ => True :=
  fun st hst hin => issues_freeNamesTo _ he st hst hin

lemma issues_freeNameSet {e : Expr} (he : e.Issued u) :
    Issues u (freeNameSet e) fun _ => True :=
  (issues_freeNames he).bind fun _ _ => .pure trivial

section Filter

variable {unfold : Pattern → Build Expr}

mutual

lemma issues_filterWith [hadds : ∀ p, Adds (unfold p)]
    (hu : ∀ p, p.Issued u → Issues u (unfold p) (Expr.Issued u)) (e : Expr) (he : e.Issued u) :
    Issues u (filterWith unfold e) (Expr.Issued u) := by
  match e with
  | .node symbol kind =>
    intro st hst hin
    cases hl : st.filtered.lookup symbol with
    | some done =>
      rw [run_filterWith_of_hit hl]
      exact ⟨hst, hst.filtered _ (mem_of_lookup hl)⟩
    | none =>
      rw [run_filterWith_of_miss hl] at hin ⊢
      obtain ⟨hst', hdone⟩ := issues_filterKind hu symbol kind he st hst ⟨hin.exprs, hin.patterns⟩
      exact ⟨{ hst' with filtered := List.forall_mem_cons.2 ⟨hdone, hst'.filtered⟩ }, hdone⟩
termination_by structural e

lemma issues_filterKind [hadds : ∀ p, Adds (unfold p)]
    (hu : ∀ p, p.Issued u → Issues u (unfold p) (Expr.Issued u)) (symbol : Nat) (kind : ExprKind)
    (he : (Expr.node symbol kind).Issued u) :
    Issues u (filterKind unfold symbol kind) (Expr.Issued u) := by
  have hk := he.kind
  match kind with
  | .var _ | .lit _ => exact .pure he
  | .pattern p => exact hu p ⟨hk.codes, hk.nested⟩
  | .function _ body | .filtered _ _ body =>
    refine (issues_freeNameSet he).bind fun used _ => ?_
    refine (issues_filterWith hu body (hk.codes _ (List.mem_singleton_self _))).bind
      fun done hd => ?_
    exact issues_expr (.of_codes rfl (List.forall_mem_singleton.2 hd))
  | .recFunction _ _ e | .pos _ e =>
    refine (issues_filterWith hu e (hk.codes _ (List.mem_singleton_self _))).bind fun done hd => ?_
    exact issues_expr (.of_codes rfl (List.forall_mem_singleton.2 hd))
  | .tuple es | .op _ es =>
    exact (issues_filterAll hu es hk.codes).bind fun done hd => issues_expr (.of_codes rfl hd)
termination_by structural kind

lemma issues_filterAll [hadds : ∀ p, Adds (unfold p)]
    (hu : ∀ p, p.Issued u → Issues u (unfold p) (Expr.Issued u)) (es : List Expr)
    (he : ∀ e ∈ es, e.Issued u) :
    Issues u (filterAll unfold es) fun done => ∀ e ∈ done, e.Issued u := by
  match es with
  | [] => exact .pure fun _ h => absurd h List.not_mem_nil
  | e :: rest =>
    obtain ⟨he, hrest⟩ := List.forall_mem_cons.1 he
    exact (issues_filterWith hu e he).bind fun _ hfirst => (issues_filterAll hu rest hrest).bind
      fun _ hothers => .pure (List.forall_mem_cons.2 ⟨hfirst, hothers⟩)
termination_by structural es

end

end Filter

lemma issues_filterTo (depth : Nat) {e : Expr} (he : e.Issued u) :
    Issues u (filterTo depth e) (Expr.Issued u) := by
  induction depth generalizing e with
  | zero =>
    refine issues_filterWith (fun p hp => ?_) e he
    exact (issues_expr ⟨hp.codes, hp.nested⟩ : Issues u (expr (.pattern p)) _)
  | succ depth ih =>
    exact issues_filterWith (fun p hp => (issues_lowerPattern hp).bind fun _ hl => ih hl) e he

lemma issues_filter {e : Expr} (he : e.Issued u) : Issues u (filter e) (Expr.Issued u) :=
  fun st hst hin => issues_filterTo _ he st hst hin

end Build

end Residual
