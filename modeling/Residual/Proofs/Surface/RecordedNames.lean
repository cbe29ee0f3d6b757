import Residual.Proofs.Surface.FirstUse

/-!
The free names that a store records.

Asking for the free names of an expression records them for every expression on the way. Patterns
are unfolded as often as the store has patterns, which is enough: a pattern is entered after those
that stand in the expressions inside it, so they nest no deeper. Main statement: lowering is
hygienic. The function that a pattern denotes has the free names that the pattern takes, and none
that was made for it, if the expressions inside the pattern have none.
-/

namespace Residual

/-! ### How deep patterns nest -/

/-- Patterns nest at most `d` deep in the expression. -/
inductive Expr.Nests : Nat → Expr → Prop
  | pattern {d symbol : Nat} {p : Pattern} :
    (∀ c ∈ p.codes, Expr.Nests d c) → Expr.Nests (d + 1) (.node symbol (.pattern p))
  | code {d symbol : Nat} {kind : ExprKind} : (∀ p, kind ≠ .pattern p) →
    (∀ c ∈ kind.codes, Expr.Nests d c) → Expr.Nests d (.node symbol kind)

namespace Expr.Nests

variable {d d' : Nat} {e : Expr}

lemma mono (h : e.Nests d) (hd : d ≤ d') : e.Nests d' := by
  induction h generalizing d' with
  | pattern _ ih =>
    obtain ⟨d', rfl⟩ := Nat.exists_eq_add_of_lt hd
    exact .pattern fun c hc => ih c hc (by omega)
  | code hkind _ ih => exact .code hkind fun c hc => ih c hc hd

lemma of_pattern {symbol : Nat} {p : Pattern} (h : (Expr.node symbol (.pattern p)).Nests d) :
    ∃ d', d = d' + 1 ∧ ∀ c ∈ p.codes, c.Nests d' := by
  cases h with
  | pattern hcodes => exact ⟨_, rfl, hcodes⟩
  | code hkind _ => exact absurd rfl (hkind p)

/-- The parts of code that is no pattern nest no deeper. -/
theorem of_codes {symbol : Nat} {kind : ExprKind} (h : (Expr.node symbol kind).Nests d)
    (hkind : ∀ p, kind ≠ .pattern p) : ∀ c ∈ kind.codes, c.Nests d := by
  cases h with
  | pattern _ => exact absurd rfl (hkind _)
  | code _ hcodes => exact hcodes

end Expr.Nests

/-! ### What stores record -/

/-- The expression is the function that the pattern denotes. -/
structure Pattern.LowersTo (u : Store) (p : Pattern) (l : Expr) : Prop where
  shape : ∃ n, p.FunctionShape u.names Eq n l
  nests : ∀ d, (∀ c ∈ p.codes, c.Nests d) → l.Nests d

/-- Patterns nest no deeper in the expressions inside a pattern than patterns were entered
before. -/
def Interner.Stacked (t : Interner PatternKind) : Prop :=
  ∀ (s : Nat) (kind : PatternKind), t.entries[s]? = some kind → ∀ c ∈ kind.codes, c.Nests s

lemma Interner.Stacked.intern {t : Interner PatternKind} {kind : PatternKind} (h : t.Stacked)
    (hk : ∀ c ∈ kind.codes, c.Nests t.size) : (t.intern kind).2.Stacked := by
  intro s l hs
  cases hfound : t.symbol? kind with
  | some _ =>
    rw [(intern_of_symbol?_eq_some hfound).1] at hs
    exact h s l hs
  | none =>
    rw [intern_of_symbol?_eq_none hfound] at hs
    rcases Nat.lt_or_ge s t.entries.length with hlt | hge
    · exact h s l (by rwa [List.getElem?_append_left hlt] at hs)
    · rw [List.getElem?_append_right hge, List.getElem?_singleton] at hs
      split at hs
      · cases hs
        have hsize : s = t.size := by rw [Interner.size]; omega
        exact hsize ▸ hk
      · cases hs

lemma Interner.Stacked.intern_wildcard {t : Interner PatternKind} (h : t.Stacked) :
    (t.intern .wildcard).2.Stacked :=
  h.intern fun _ hc => absurd hc List.not_mem_nil

/-- The store is made of nodes of `u` and has at least `d` patterns. It records functions that
patterns of `u` denote, free names of expressions of `u`, and what they become. -/
structure Store.Traced (u : Store) (d : Nat) (st : Store) : Prop where
  made : u.MadeOf st
  stacked : st.patterns.Stacked
  deep : d ≤ st.patterns.size
  lowered : ∀ r ∈ st.lowered, ∃ p : Pattern, p.In u.patterns ∧ p.symbol = r.1 ∧ p.LowersTo u r.2
  freeNames : ∀ r ∈ st.freeNames, ∃ e : Expr, e.In u.exprs ∧ e.symbol = r.1 ∧ e.Lists u r.2
  filtered : ∀ r ∈ st.filtered, ∃ e : Expr, e.In u.exprs ∧ e.symbol = r.1 ∧ e.Becomes u r.2

/-- The nodes and the names of the first store are those of the second one, and so is what it
records for patterns. -/
structure Store.RecordedIn (st u : Store) : Prop where
  part : st.PartOf u
  lowered : ∀ n e, st.lowered.lookup n = some e → u.lowered.lookup n = some e

lemma Store.Grows.recordedIn {st st' u : Store} (h : st.Grows st') (hu : st'.RecordedIn u) :
    st.RecordedIn u :=
  ⟨h.partOf hu.part, fun n e hl => hu.lowered n e (h.lowered n e hl)⟩

lemma Store.recordedIn_self (st : Store) : st.RecordedIn st :=
  ⟨⟨⟨.refl _, .refl _⟩, .refl _⟩, fun _ _ h => h⟩

/-- Patterns nest no deeper in code of a store than the store has patterns. -/
theorem Expr.Issued.nests {st : Store} {e : Expr} (h : e.Issued st) (hst : st.patterns.Stacked) :
    e.Nests st.patterns.size := by
  induction h with
  | @intro e _ _ hnested ih =>
    obtain ⟨symbol, kind⟩ := e
    by_cases hkind : ∃ p, kind = .pattern p
    · obtain ⟨p, rfl⟩ := hkind
      have hp : p.In st.patterns := hnested p p.mem_nested
      have hcodes := hst _ _ hp
      rw [show p.kind.codes = p.codes by cases p; rfl] at hcodes
      exact (Expr.Nests.pattern hcodes).mono (List.getElem?_eq_some_iff.1 hp).1
    · exact .code (fun p hp => hkind ⟨p, hp⟩) ih

namespace Build

variable {α β : Type} {u : Store} {d : Nat}

/-! ### Lowering -/

/-- The work leaves alone what is recorded, enters no patterns but such without expressions, and its
result has the property. -/
def Unrecorded (act : Build α) (Q : α → Prop) : Prop :=
  ∀ st : Store, (act.run st).2.lowered = st.lowered ∧ (act.run st).2.freeNames = st.freeNames ∧
    (act.run st).2.filtered = st.filtered ∧
    (st.patterns.Stacked → (act.run st).2.patterns.Stacked) ∧ Q (act.run st).1

lemma lowers_unrecorded : Lowers (fun _ => True) Unrecorded where
  pure h _ := ⟨rfl, rfl, rfl, id, h⟩
  bind ha hf st := by
    obtain ⟨hl, hn, hr, hs, hP⟩ := ha st
    obtain ⟨hl', hn', hr', hs', hQ⟩ := hf _ hP _
    exact ⟨hl'.trans hl, hn'.trans hn, hr'.trans hr, fun hst => hs' (hs hst), hQ⟩
  fresh _ _ := ⟨rfl, rfl, rfl, id, trivial⟩
  var _ _ := ⟨rfl, rfl, rfl, id, trivial⟩
  lit _ _ := ⟨rfl, rfl, rfl, id, trivial⟩
  function _ _ := ⟨rfl, rfl, rfl, id, trivial⟩
  unit _ := ⟨rfl, rfl, rfl, id, trivial⟩
  op _ _ := ⟨rfl, rfl, rfl, id, trivial⟩
  wildcard _ := ⟨rfl, rfl, rfl, Interner.Stacked.intern_wildcard, fun _ _ => trivial⟩

lemma issues_nests {kind : ExprKind} (hplain : kind.Plain) (hnested : kind.nested = [])
    (hk : ∀ c ∈ kind.codes, c.Issued u ∧ c.Nests d) :
    Issues u (expr kind) fun e => e.Issued u ∧ e.Nests d := by
  refine (issues_node hplain (.of_codes hnested fun c hc => (hk c hc).1)).imp ?_
  rintro ⟨_, _⟩ ⟨he, rfl⟩
  exact ⟨he, .code (fun p hp => by cases hp; exact hplain) fun c hc => (hk c hc).2⟩

/-- Lowering puts together code in which patterns nest no deeper than in the expressions inside the
pattern. -/
lemma lowers_nests (d : Nat) : Lowers (fun e => e.Issued u ∧ e.Nests d) (Issues u) where
  pure := .pure
  bind := .bind
  fresh := issues_fresh
  var _ := issues_nests trivial rfl fun _ h => absurd h List.not_mem_nil
  lit _ := issues_nests trivial rfl fun _ h => absurd h List.not_mem_nil
  function h := issues_nests trivial rfl (List.forall_mem_singleton.2 h)
  unit := issues_nests trivial rfl fun _ h => absurd h List.not_mem_nil
  op h := issues_nests trivial rfl h
  wildcard := by
    refine (issues_pattern ⟨fun _ h => absurd h List.not_mem_nil,
      fun _ h => absurd h List.not_mem_nil⟩).imp ?_
    rintro ⟨_, _⟩ ⟨-, rfl⟩
    exact fun _ h => absurd h List.not_mem_nil

/-! ### Work on traced stores -/

/-- Work that ends with lowered patterns of `u` makes a traced store from one, and its result has
the property. -/
def Traces (u : Store) (d : Nat) (act : Build α) (Q : α → Prop) : Prop :=
  ∀ st : Store, u.Traced d st → (act.run st).2.RecordedIn u →
    u.Traced d (act.run st).2 ∧ Q (act.run st).1

namespace Traces

variable {act : Build α} {f : α → Build β} {P P' : α → Prop} {Q : β → Prop}

protected lemma pure {a : α} (h : P a) : Traces u d (Pure.pure a) P := fun _ hst _ => ⟨hst, h⟩

protected lemma bind [hadds : ∀ a, Adds (f a)] (ha : Traces u d act P)
    (hf : ∀ a, P a → Traces u d (f a) Q) : Traces u d (act >>= f) Q := by
  intro st hst hin
  obtain ⟨hst', hP⟩ := ha st hst (((hadds _).grows _).recordedIn hin)
  exact hf _ hP _ hst' hin

lemma imp (ha : Traces u d act P) (h : ∀ a, P a → P' a) : Traces u d act P' :=
  fun st hst hin => (ha st hst hin).imp id (h _)

/-- Work that records nothing. -/
lemma of_issues [hadds : Adds act] (ha : Issues u act P) (hsame : Unrecorded act fun _ => True) :
    Traces u d act P := by
  intro st hst hin
  obtain ⟨hmade, hP⟩ := ha st hst.made hin.part.nodes
  obtain ⟨hlowered, hnames, hfiltered, hstacked, -⟩ := hsame st
  refine ⟨⟨hmade, hstacked hst.stacked, ?_, hlowered ▸ hst.lowered, hnames ▸ hst.freeNames,
    hfiltered ▸ hst.filtered⟩, hP⟩
  exact Nat.le_trans hst.deep (hadds.grows st).patterns.length_le

end Traces

lemma traces_expr (kind : ExprKind) (hk : kind.Issued u) :
    Traces u d (expr kind) fun e => e.Issued u ∧ e.kind.Agrees kind := by
  refine .of_issues ((issues_kind hk).imp fun e he => ⟨he.1, ?_⟩)
    fun _ => ⟨rfl, rfl, rfl, id, trivial⟩
  rcases he.2 with heq | hsame
  · exact .of_eq heq
  · exact ExprKind.agrees_of_same (fun c hc => (he.1.kind.codes c hc).mem)
      (fun c hc => (hk.codes c hc).mem) hsame

lemma traces_node (kind : ExprKind) (hplain : kind.Plain) (hk : kind.Issued u) :
    Traces u d (expr kind) fun e => e.Issued u ∧ e.kind = kind :=
  (traces_expr kind hk).imp fun _ he => ⟨he.1, he.2.eq hplain⟩

/-- A pattern is lowered to the function that it denotes, which `u` records for it. -/
theorem traces_lowerPattern {p : Pattern} (hp : p.Issued u) : Traces u d (lowerPattern p) fun l =>
    l.Issued u ∧ p.LowersTo u l ∧ u.lowered.lookup p.symbol = some l := by
  intro st hst hin
  obtain ⟨hmade, he⟩ := issues_lowerPattern hp st hst.made hin.part.nodes
  cases hl : st.lowered.lookup p.symbol with
  | some l =>
    rw [run_lowerPattern_of_hit hl] at he hin ⊢
    obtain ⟨q, hq, hsymbol, hlowers⟩ := hst.lowered _ (mem_of_lookup hl)
    obtain rfl : q = p := hq.eq hp.mem hsymbol
    exact ⟨hst, he, hlowers, hin.lowered _ _ hl⟩
  | none =>
    have hgrows : st.Grows ((lowerPattern p).run st).2 := Adds.grows st
    have hsize := hgrows.patterns.length_le
    rw [run_lowerPattern_of_miss hl] at hmade he hin hsize ⊢
    have hpart : ((lowerTop p).run st).2.PartOf u :=
      ⟨⟨hin.part.nodes.exprs, hin.part.nodes.patterns⟩, hin.part.names⟩
    have hlowers : p.LowersTo u ((lowerTop p).run st).1 := by
      refine ⟨⟨st.nextFresh, ?_⟩, fun d hd => ?_⟩
      · exact (shapes_lowerTop hp.codes st hst.made (Nat.le_refl _) hpart).2.2.2
      · exact ((lowers_nests d).lowerTop (fun c hc => ⟨hp.codes c hc, hd c hc⟩) st hst.made
          hpart.nodes).2.2
    obtain ⟨hsame, hnames, hfiltered, hstacked, -⟩ :=
      lowers_unrecorded.lowerTop (p := p) (fun _ _ => trivial) st
    refine ⟨⟨hmade, hstacked hst.stacked, Nat.le_trans hst.deep hsize, ?_,
      hnames ▸ hst.freeNames, hfiltered ▸ hst.filtered⟩, he, hlowers,
      hin.lowered _ _ List.lookup_cons_self⟩
    rw [hsame]
    exact List.forall_mem_cons.2 ⟨⟨p, hp.mem, rfl, hlowers⟩, hst.lowered⟩

/-! ### Asking for free names -/

/-- Unfolding a pattern that nests no deeper than `depth` lists the names of what it is lowered
to. -/
abbrev ListsPatterns (u : Store) (d depth : Nat) (unfold : Pattern → Build (List Name)) : Prop :=
  ∀ symbol p, (Expr.node symbol (.pattern p)).Nests depth → p.Issued u →
    Traces u d (unfold p) fun names => ∃ l, u.lowered.lookup p.symbol = some l ∧ l.Lists u names

section FreeNames

variable {unfold : Pattern → Build (List Name)} {depth : Nat}

mutual

lemma traces_freeNamesWith [hadds : ∀ p, Adds (unfold p)] (hu : ListsPatterns u d depth unfold)
    (e : Expr) (he : e.Issued u) (hd : e.Nests depth) :
    Traces u d (freeNamesWith unfold e) (e.Lists u) := by
  match e with
  | .node symbol kind =>
    intro st hst hin
    cases hl : st.freeNames.lookup symbol with
    | some names =>
      rw [run_freeNamesWith_of_hit hl]
      obtain ⟨c, hc, hsymbol, hnames⟩ := hst.freeNames _ (mem_of_lookup hl)
      obtain rfl : c = .node symbol kind := hc.eq he.mem hsymbol
      exact ⟨hst, hnames⟩
    | none =>
      rw [run_freeNamesWith_of_miss hl] at hin ⊢
      obtain ⟨hst', hnames⟩ := traces_freeNamesOfKind hu symbol kind he hd st hst
        ⟨⟨⟨hin.part.nodes.exprs, hin.part.nodes.patterns⟩, hin.part.names⟩, hin.lowered⟩
      exact ⟨⟨{ hst'.made with }, hst'.stacked, hst'.deep, hst'.lowered,
        List.forall_mem_cons.2 ⟨⟨_, he.mem, rfl, hnames⟩, hst'.freeNames⟩, hst'.filtered⟩, hnames⟩
termination_by structural e

lemma traces_freeNamesOfKind [hadds : ∀ p, Adds (unfold p)]
    (hu : ListsPatterns u d depth unfold) (symbol : Nat) (kind : ExprKind)
    (he : (Expr.node symbol kind).Issued u) (hd : (Expr.node symbol kind).Nests depth) :
    Traces u d (freeNamesOfKind unfold kind) ((Expr.node symbol kind).Lists u) := by
  have hk := he.kind
  -- A form binds what it binds in a part; the names of the part come from the record.
  match kind with
  | .var y => exact .pure (.var rfl)
  | .lit l => exact .pure (.lit rfl)
  | .pattern p =>
    refine (hu symbol p hd ⟨hk.codes, hk.nested⟩).imp ?_
    rintro names ⟨l, hl, hnames⟩
    exact .pattern rfl hl hnames
  -- The three kinds of functions take their own names out of the list of the body.
  | .function param body =>
    exact (traces_freeNamesWith hu body (hk.codes _ (List.mem_singleton_self _))
      (hd.of_codes (fun _ h => nomatch h) _ (List.mem_singleton_self _))).bind
      fun names hnames => .pure (.function .plain hnames)
  | .filtered _ param body =>
    exact (traces_freeNamesWith hu body (hk.codes _ (List.mem_singleton_self _))
      (hd.of_codes (fun _ h => nomatch h) _ (List.mem_singleton_self _))).bind
      fun names hnames => .pure (.function .filtered hnames)
  | .recFunction this param body =>
    exact (traces_freeNamesWith hu body (hk.codes _ (List.mem_singleton_self _))
      (hd.of_codes (fun _ h => nomatch h) _ (List.mem_singleton_self _))).bind
      fun names hnames => .pure (.recFunction rfl hnames)
  -- Tuples and operations join the lists of their parts.
  | .tuple es =>
    refine (traces_freeNamesOfAll hu [] es hk.codes (hd.of_codes fun _ h => nomatch h)).imp ?_
    rintro _ ⟨lists, hlength, heach, rfl⟩
    exact .parts (.inl rfl) hlength heach
  | .op _ es =>
    refine (traces_freeNamesOfAll hu [] es hk.codes (hd.of_codes fun _ h => nomatch h)).imp ?_
    rintro _ ⟨lists, hlength, heach, rfl⟩
    exact .parts (.inr ⟨_, rfl⟩) hlength heach
  | .pos _ e =>
    exact (traces_freeNamesWith hu e (hk.codes _ (List.mem_singleton_self _))
      (hd.of_codes (fun _ h => nomatch h) _ (List.mem_singleton_self _))).imp
      fun names h => .pos rfl h
termination_by structural kind

lemma traces_freeNamesOfAll [hadds : ∀ p, Adds (unfold p)] (hu : ListsPatterns u d depth unfold)
    (out : List Name) (es : List Expr) (he : ∀ e ∈ es, e.Issued u) (hd : ∀ e ∈ es, e.Nests depth) :
    Traces u d (freeNamesOfAll unfold out es) fun names => ∃ lists : List (List Name),
      es.length = lists.length ∧ (∀ (i : Nat) a ns, es[i]? = some a → lists[i]? = some ns →
        a.Lists u ns) ∧ names = lists.foldl (fun out ns => addNames out ns []) out := by
  match es with
  | [] => exact .pure ⟨[], rfl, fun _ _ _ h => (nomatch h), rfl⟩
  | e :: rest =>
    obtain ⟨he, hrest⟩ := List.forall_mem_cons.1 he
    obtain ⟨hde, hdrest⟩ := List.forall_mem_cons.1 hd
    refine (traces_freeNamesWith hu e he hde).bind fun names hnames => ?_
    refine (traces_freeNamesOfAll hu _ rest hrest hdrest).imp ?_
    rintro _ ⟨lists, hlength, heach, rfl⟩
    refine ⟨names :: lists, congrArg Nat.succ hlength, ?_, rfl⟩
    rintro (_ | i) a ns ha hns
    · cases ha
      cases hns
      exact hnames
    · exact heach i a ns ha hns
termination_by structural es

end

end FreeNames

lemma traces_freeNamesTo (depth : Nat) {e : Expr} (he : e.Issued u) (hd : e.Nests depth) :
    Traces u d (freeNamesTo depth e) (e.Lists u) := by
  induction depth generalizing e with
  | zero =>
    refine traces_freeNamesWith (fun symbol p hp _ => ?_) e he hd
    obtain ⟨_, h, -⟩ := hp.of_pattern
    cases h
  | succ depth ih =>
    refine traces_freeNamesWith (fun symbol p hp hissued => ?_) e he hd
    obtain ⟨_, heq, hcodes⟩ := hp.of_pattern
    obtain rfl := Nat.succ.inj heq
    exact (traces_lowerPattern hissued).bind fun l hl => (ih hl.1 (hl.2.1.nests _ hcodes)).imp
      fun names hnames => ⟨l, hl.2.2, hnames⟩

lemma traces_listed {e : Expr} (he : e.Issued u) (hd : e.Nests d) :
    Traces u d (freeNames e) (e.Lists u) :=
  fun st hst hin => traces_freeNamesTo _ he
    (hd.mono (Nat.le_trans hst.deep (Nat.le_succ _))) st hst hin

lemma traces_freeNames {e : Expr} (he : e.Issued u) (hd : e.Nests d) :
    Traces u d (freeNames e) fun names => names.Nodup ∧ ∀ x, x ∈ names ↔ e.FreeIn u x :=
  (traces_listed he hd).imp fun _ h => ⟨h.nodup, h.mem_iff⟩

lemma traces_freeNameSet {e : Expr} (he : e.Issued u) (hd : e.Nests d) :
    Traces u d (freeNameSet e) fun used =>
      Captures.Ascending used ∧ ∀ x, x ∈ used ↔ e.FreeIn u x :=
  (traces_freeNames he hd).bind fun names hnames => .pure ⟨ascending_mergeSort hnames.1,
    fun x => by rw [List.mem_mergeSort, hnames.2]⟩

/-! ### Filtering -/

/-- Unfolding a pattern that nests no deeper than `depth` gives what it becomes when it is lowered
and filtered. -/
abbrev FiltersPatterns (u : Store) (d depth : Nat) (unfold : Pattern → Build Expr) : Prop :=
  ∀ symbol p, (Expr.node symbol (.pattern p)).Nests depth →
    (Expr.node symbol (.pattern p)).Nests d → p.Issued u → Traces u d (unfold p) fun done =>
      done.Issued u ∧ ∃ l, u.lowered.lookup p.symbol = some l ∧ l.Becomes u done

section Filter

variable {unfold : Pattern → Build Expr} {depth : Nat}

mutual

lemma traces_filterWith [hadds : ∀ p, Adds (unfold p)] (hu : FiltersPatterns u d depth unfold)
    (e : Expr) (he : e.Issued u) (hdepth : e.Nests depth) (hd : e.Nests d) :
    Traces u d (filterWith unfold e) fun done => done.Issued u ∧ e.Becomes u done := by
  match e with
  | .node symbol kind =>
    intro st hst hin
    cases hl : st.filtered.lookup symbol with
    | some done =>
      rw [run_filterWith_of_hit hl]
      obtain ⟨c, hc, hsymbol, hbecomes⟩ := hst.filtered _ (mem_of_lookup hl)
      obtain rfl : c = .node symbol kind := hc.eq he.mem hsymbol
      exact ⟨hst, hst.made.filtered _ (mem_of_lookup hl), hbecomes⟩
    | none =>
      rw [run_filterWith_of_miss hl] at hin ⊢
      obtain ⟨hst', hdone, hbecomes⟩ := traces_filterKind hu symbol kind he hdepth hd st hst
        ⟨⟨⟨hin.part.nodes.exprs, hin.part.nodes.patterns⟩, hin.part.names⟩, hin.lowered⟩
      exact ⟨⟨{ hst'.made with filtered := List.forall_mem_cons.2 ⟨hdone, hst'.made.filtered⟩ },
        hst'.stacked, hst'.deep, hst'.lowered, hst'.freeNames,
        List.forall_mem_cons.2 ⟨⟨_, he.mem, rfl, hbecomes⟩, hst'.filtered⟩⟩, hdone, hbecomes⟩
termination_by structural e

lemma traces_filterKind [hadds : ∀ p, Adds (unfold p)] (hu : FiltersPatterns u d depth unfold)
    (symbol : Nat) (kind : ExprKind) (he : (Expr.node symbol kind).Issued u)
    (hdepth : (Expr.node symbol kind).Nests depth) (hd : (Expr.node symbol kind).Nests d) :
    Traces u d (filterKind unfold symbol kind) fun done =>
      done.Issued u ∧ (Expr.node symbol kind).Becomes u done := by
  have hk := he.kind
  -- The captures of a function are looked up before its body is changed.
  match kind with
  | .var _ => exact .pure ⟨he, .var rfl⟩
  | .lit _ => exact .pure ⟨he, .lit rfl⟩
  | .pattern p =>
    refine (hu symbol p hdepth hd ⟨hk.codes, hk.nested⟩).imp fun done hdone => ⟨hdone.1, ?_⟩
    obtain ⟨-, l, hl, hbecomes⟩ := hdone
    exact .pattern rfl hl hbecomes
  | .function param body =>
    have hmem := List.mem_singleton_self body
    refine (traces_freeNameSet he hd).bind fun used hused => ?_
    refine (traces_filterWith hu body (hk.codes _ hmem)
      (hdepth.of_codes (fun _ h => nomatch h) _ hmem)
      (hd.of_codes (fun _ h => nomatch h) _ hmem)).bind fun done hdone => ?_
    refine (traces_node (.filtered used param done) trivial
      (.of_codes rfl (List.forall_mem_singleton.2 hdone.1))).imp fun e hnode => ⟨hnode.1, ?_⟩
    exact .function .plain hnode.2 hused.1 hused.2 hdone.2
  | .filtered listed param body =>
    have hmem := List.mem_singleton_self body
    refine (traces_freeNameSet he hd).bind fun used hused => ?_
    refine (traces_filterWith hu body (hk.codes _ hmem)
      (hdepth.of_codes (fun _ h => nomatch h) _ hmem)
      (hd.of_codes (fun _ h => nomatch h) _ hmem)).bind fun done hdone => ?_
    refine (traces_node (.filtered used param done) trivial
      (.of_codes rfl (List.forall_mem_singleton.2 hdone.1))).imp fun e hnode => ⟨hnode.1, ?_⟩
    exact .function .filtered hnode.2 hused.1 hused.2 hdone.2
  -- A recursive function lists no captures, as the closure is made where it stands.
  | .recFunction this param body =>
    have hmem := List.mem_singleton_self body
    refine (traces_filterWith hu body (hk.codes _ hmem)
      (hdepth.of_codes (fun _ h => nomatch h) _ hmem)
      (hd.of_codes (fun _ h => nomatch h) _ hmem)).bind fun done hdone => ?_
    refine (traces_node (.recFunction this param done) trivial
      (.of_codes rfl (List.forall_mem_singleton.2 hdone.1))).imp fun e hnode => ⟨hnode.1, ?_⟩
    exact .recFunction rfl hnode.2 hdone.2
  -- The others are the same node again, made of the changed parts.
  | .tuple es =>
    refine (traces_filterAll hu es hk.codes (hdepth.of_codes fun _ h => nomatch h)
      (hd.of_codes fun _ h => nomatch h)).bind fun done hdone => ?_
    refine (traces_node (.tuple done) trivial (.of_codes rfl hdone.1)).imp
      fun e hnode => ⟨hnode.1, ?_⟩
    exact .tuple rfl hnode.2 hdone.2.1 hdone.2.2
  | .op o es =>
    refine (traces_filterAll hu es hk.codes (hdepth.of_codes fun _ h => nomatch h)
      (hd.of_codes fun _ h => nomatch h)).bind fun done hdone => ?_
    refine (traces_node (.op o done) trivial (.of_codes rfl hdone.1)).imp
      fun e hnode => ⟨hnode.1, ?_⟩
    exact .op rfl hnode.2 hdone.2.1 hdone.2.2
  | .pos span e =>
    have hmem := List.mem_singleton_self e
    refine (traces_filterWith hu e (hk.codes _ hmem) (hdepth.of_codes (fun _ h => nomatch h) _ hmem)
      (hd.of_codes (fun _ h => nomatch h) _ hmem)).bind fun done hdone => ?_
    refine (traces_expr (.pos span done)
      (.of_codes rfl (List.forall_mem_singleton.2 hdone.1))).imp ?_
    rintro ⟨_, kind⟩ ⟨hissued, hagrees⟩
    cases kind <;> first | (cases hagrees; done) | skip
    obtain rfl : _ = done := hagrees
    exact ⟨hissued, .pos rfl rfl hdone.2⟩
termination_by structural kind

lemma traces_filterAll [hadds : ∀ p, Adds (unfold p)] (hu : FiltersPatterns u d depth unfold)
    (es : List Expr) (he : ∀ e ∈ es, e.Issued u) (hdepth : ∀ e ∈ es, e.Nests depth)
    (hd : ∀ e ∈ es, e.Nests d) :
    Traces u d (filterAll unfold es) fun done => (∀ e ∈ done, e.Issued u) ∧
      es.length = done.length ∧ ∀ (i : Nat) a a', es[i]? = some a → done[i]? = some a' →
        a.Becomes u a' := by
  match es with
  | [] => exact .pure ⟨fun _ h => absurd h List.not_mem_nil, rfl, fun _ _ _ h => nomatch h⟩
  | e :: rest =>
    obtain ⟨he, hrest⟩ := List.forall_mem_cons.1 he
    obtain ⟨hdepth, hdepthRest⟩ := List.forall_mem_cons.1 hdepth
    obtain ⟨hde, hdrest⟩ := List.forall_mem_cons.1 hd
    refine (traces_filterWith hu e he hdepth hde).bind fun _ hfirst =>
      (traces_filterAll hu rest hrest hdepthRest hdrest).bind fun _ hothers =>
      .pure ⟨List.forall_mem_cons.2 ⟨hfirst.1, hothers.1⟩, congrArg Nat.succ hothers.2.1, ?_⟩
    rintro (_ | i) a a' ha ha'
    · cases ha
      cases ha'
      exact hfirst.2
    · exact hothers.2.2 i a a' ha ha'
termination_by structural es

end

end Filter

lemma traces_filterTo (depth : Nat) {e : Expr} (he : e.Issued u) (hdepth : e.Nests depth)
    (hd : e.Nests d) :
    Traces u d (filterTo depth e) fun done => done.Issued u ∧ e.Becomes u done := by
  induction depth generalizing e with
  | zero =>
    refine traces_filterWith (fun symbol p hp _ _ => ?_) e he hdepth hd
    obtain ⟨_, h, -⟩ := hp.of_pattern
    cases h
  | succ depth ih =>
    refine traces_filterWith (fun symbol p hp hp' hissued => ?_) e he hdepth hd
    obtain ⟨_, heq, hcodes⟩ := hp.of_pattern
    obtain rfl := Nat.succ.inj heq
    obtain ⟨_, rfl, hcodes'⟩ := hp'.of_pattern
    exact (traces_lowerPattern hissued).bind fun l hl =>
      (ih hl.1 (hl.2.1.nests _ hcodes) ((hl.2.1.nests _ hcodes').mono (Nat.le_succ _))).imp
        fun done hdone => ⟨hdone.1, l, hl.2.2, hdone.2⟩

lemma traces_filter {e : Expr} (he : e.Issued u) (hd : e.Nests d) :
    Traces u d (filter e) fun done => done.Issued u ∧ e.Becomes u done :=
  fun st hst hin => traces_filterTo _ he (hd.mono (Nat.le_trans hst.deep (Nat.le_succ _))) hd st hst
    hin

end Build

/-! ### Stores that calls of the interface lead to -/

lemma Build.traced_pattern {u st : Store} {kind : PatternKind} (hk : kind.Issued st)
    (hst : u.Traced st.patterns.size st) (hin : ((pattern kind).run st).2.RecordedIn u) :
    u.Traced st.patterns.size ((pattern kind).run st).2 := by
  have hgrows : st.Grows ((pattern kind).run st).2 := Adds.grows st
  have hmade := (issues_pattern ((hk.mono hgrows.nodesIn).mono hin.part.nodes) st hst.made
    hin.part.nodes).1
  exact ⟨hmade, hst.stacked.intern fun c hc => (hk.codes c hc).nests hst.stacked,
    hgrows.patterns.length_le, hst.lowered, hst.freeNames, hst.filtered⟩

/-- What a store records that was built by calls of the interface is right in any store that it is
part of. -/
theorem Store.Reaches.traced {st u : Store} (h : Store.Reaches {} st) (hu : st.RecordedIn u) :
    u.Traced st.patterns.size st := by
  induction h with
  | refl =>
    exact ⟨Store.canonical_new.mono hu.part.nodes, fun _ _ h => by simp at h, Nat.le_refl _,
      fun _ h => absurd h List.not_mem_nil, fun _ h => absurd h List.not_mem_nil,
      fun _ h => absurd h List.not_mem_nil⟩
  | @tail st st' hreach hcall ih =>
    have hst := ih (hcall.grows.recordedIn hu)
    have hnodes : st.NodesIn u := (hcall.grows.partOf hu.part).nodes
    have hst' : u.Traced st.patterns.size st' := by
      cases hcall with
      | name s => exact (Build.Traces.of_issues (Build.issues_name s)
          (fun _ => ⟨rfl, rfl, rfl, id, trivial⟩) st hst hu).1
      | fresh hint => exact (Build.Traces.of_issues (Build.issues_fresh hint)
          (fun _ => ⟨rfl, rfl, rfl, id, trivial⟩) st hst hu).1
      | expr hk => exact (Build.traces_expr _ (hk.mono hnodes) st hst hu).1
      | pattern hk => exact Build.traced_pattern hk hst hu
      | lower hp => exact (Build.traces_lowerPattern (hp.mono hnodes) st hst hu).1
      | freeNames he =>
        exact (Build.traces_freeNames (he.mono hnodes) (he.nests hst.stacked) st hst hu).1
      | filter he =>
        exact (Build.traces_filter (he.mono hnodes) (he.nests hst.stacked) st hst hu).1
    exact { hst' with deep := Nat.le_refl _ }

/-! ### Hygiene -/

namespace Build

/-- The free names of expressions, each with the expression. -/
def freeNamesOfEach : List Expr → Build (List (Expr × List Name))
  | [] => pure []
  | e :: rest => do
    let names ← freeNames e
    return (e, names) :: (← freeNamesOfEach rest)

/-- The free names of the expressions inside a pattern, and those of the function that the pattern
denotes. -/
def survey (p : Pattern) : Build (List (Expr × List Name) × List Name) := do
  let inside ← freeNamesOfEach p.codes
  let names ← freeNames (← lowerPattern p)
  return (inside, names)

instance (es : List Expr) : Adds (freeNamesOfEach es) := by
  induction es with
  | nil => exact inferInstanceAs (Adds (pure _))
  | cons e rest ih => exact inferInstanceAs (Adds (_ >>= _))

instance (p : Pattern) : Adds (survey p) := inferInstanceAs (Adds (_ >>= _))

variable {u : Store} {d : Nat}

lemma traces_freeNamesOfEach {es : List Expr} (he : ∀ e ∈ es, e.Issued u)
    (hd : ∀ e ∈ es, e.Nests d) : Traces u d (freeNamesOfEach es) fun inside =>
      (∀ e ∈ es, ∃ names, (e, names) ∈ inside) ∧
        ∀ r ∈ inside, r.1 ∈ es ∧ ∀ x, x ∈ r.2 ↔ r.1.FreeIn u x := by
  induction es with
  | nil => exact .pure ⟨fun _ h => absurd h List.not_mem_nil, fun _ h => absurd h List.not_mem_nil⟩
  | cons e rest ih =>
    obtain ⟨he, hrest⟩ := List.forall_mem_cons.1 he
    obtain ⟨hde, hdrest⟩ := List.forall_mem_cons.1 hd
    refine (traces_freeNames he hde).bind fun names hnames => (ih hrest hdrest).bind
      fun inside hinside => .pure ⟨?_, ?_⟩
    · exact List.forall_mem_cons.2 ⟨⟨names, List.mem_cons_self ..⟩, fun c hc =>
        (hinside.1 c hc).imp fun _ => List.mem_cons_of_mem _⟩
    · exact List.forall_mem_cons.2 ⟨⟨List.mem_cons_self .., hnames.2⟩, fun r hr =>
        ⟨List.mem_cons_of_mem _ (hinside.2 r hr).1, (hinside.2 r hr).2⟩⟩

lemma traces_survey {p : Pattern} (hp : p.Issued u) (hd : ∀ c ∈ p.codes, c.Nests d) :
    Traces u d (survey p) fun r => (∀ c ∈ p.codes, ∃ names, (c, names) ∈ r.1) ∧
      (∀ q ∈ r.1, q.1 ∈ p.codes ∧ ∀ x, x ∈ q.2 ↔ q.1.FreeIn u x) ∧
      ∃ l, p.LowersTo u l ∧ ∀ x, x ∈ r.2 ↔ l.FreeIn u x :=
  (traces_freeNamesOfEach hp.codes hd).bind fun _ hinside => (traces_lowerPattern hp).bind
    fun l hl => (traces_freeNames hl.1 (hl.2.1.nests d hd)).bind
    fun _ hnames => .pure ⟨hinside.1, hinside.2, l, hl.2.1, hnames.2⟩

end Build

/-- Lowering a pattern is hygienic, in any store that calls of the interface lead to. If no
expression inside the pattern has a free name that was made for lowered code, then the function
that the pattern denotes has none either, and its free names are those that the pattern takes. -/
theorem Store.Reaches.survey_hygienic {st : Store} (h : Store.Reaches {} st) {p : Pattern}
    (hp : p.Issued st)
    (hclean : ∀ r ∈ ((Build.survey p).run st).1.1, ∀ x ∈ r.2,
      ¬ ((Build.survey p).run st).2.names.Generated x) :
    (∀ x ∈ ((Build.survey p).run st).1.2, ¬ ((Build.survey p).run st).2.names.Generated x) ∧
      ∀ x, x ∈ ((Build.survey p).run st).1.2 ↔
        p.Free x fun c => ∃ r ∈ ((Build.survey p).run st).1.1, r.1 = c ∧ x ∈ r.2 := by
  have hgrows : st.Grows ((Build.survey p).run st).2 := Build.Adds.grows st
  have hst := h.traced (hgrows.recordedIn (Store.recordedIn_self _))
  obtain ⟨-, hall, hinside, l, hl, hnames⟩ := Build.traces_survey (hp.mono hgrows.nodesIn)
    (fun c hc => (hp.codes c hc).nests hst.stacked) st hst
    (Store.recordedIn_self _)
  obtain ⟨n, hshape⟩ := hl.shape
  -- The names that were given for an expression inside the pattern are those that it takes.
  have hgiven : ∀ c ∈ p.codes, ∀ x, (∃ r ∈ ((Build.survey p).run st).1.1, r.1 = c ∧ x ∈ r.2) ↔
      c.Takes (Pattern.FreeIn ((Build.survey p).run st).2 x) x := by
    intro c hc x
    rw [← Expr.freeIn_iff]
    constructor
    · rintro ⟨r, hr, rfl, hx⟩
      exact ((hinside r hr).2 x).1 hx
    · intro hx
      obtain ⟨names, hmem⟩ := hall c hc
      exact ⟨(c, names), hmem, rfl, ((hinside _ hmem).2 x).2 hx⟩
  have htaken : ∀ x, x ∈ ((Build.survey p).run st).1.2 ↔
      p.Free x fun c => ∃ r ∈ ((Build.survey p).run st).1.1, r.1 = c ∧ x ∈ r.2 := by
    intro x
    rw [hnames, Expr.freeIn_iff, hshape.takes_iff fun c hc htakes => ?_]
    · exact ⟨p.counts_free.imp (fun c hc => (hgiven c hc x).2) (S := False) id,
        p.counts_free.imp (fun c hc => (hgiven c hc x).1) (S := False) id⟩
    · obtain ⟨r, hr, -, hx⟩ := (hgiven c hc x).2 htakes
      exact hclean r hr x hx
  refine ⟨fun x hx => ?_, htaken⟩
  obtain ⟨c, -, r, hr, -, hxr⟩ :=
    (p.counts_free.codes_or (S := False) ((htaken x).1 hx)).resolve_right id
  exact hclean r hr x hxr

namespace GuardedPair

/-- A store with two names, `x` and `y`. -/
def store : Store := ((Build.name "y").run ((Build.name "x").run {}).2).2

/-- The pattern `(x, _ if (x, y))`. -/
def tree : Pattern :=
  .node 0 (.tuple [.node 0 (.var ⟨1⟩), .node 0 (.guarded (.node 0 .wildcard)
    (.node 0 (.tuple [.node 0 (.var ⟨1⟩), .node 0 (.var ⟨2⟩)])))])

/-- The pattern with the store that it was entered into. -/
def entered : Pattern × Store := tree.enter.run store

lemma inside_eq :
    ((Build.survey entered.1).run entered.2).1.1.map Prod.snd = [[⟨1⟩, ⟨2⟩]] := by
  decide +kernel

lemma names_eq : ((Build.survey entered.1).run entered.2).1.2 = [⟨2⟩] := by decide +kernel

lemma not_generated {u : Store} (h : store.Grows u) :
    ¬ u.names.Generated ⟨1⟩ ∧ ¬ u.names.Generated ⟨2⟩ := by
  have hx : u.names.table.entries[1]? = some "x" := h.names.getElem? rfl
  have hy : u.names.table.entries[2]? = some "y" := h.names.getElem? rfl
  constructor <;> rintro ⟨s, hs, hspace⟩
  · obtain rfl : "x" = s := Option.some.inj (hx.symm.trans hs)
    simp at hspace
  · obtain rfl : "y" = s := Option.some.inj (hy.symm.trans hs)
    simp at hspace

end GuardedPair

open GuardedPair in
/-- The first element of a tuple is bound in the guard of the second one. -/
theorem Store.Reaches.survey_hygienic_guard :
    (Store.Reaches {} entered.2 ∧ entered.1.Issued entered.2 ∧
      ∀ r ∈ ((Build.survey entered.1).run entered.2).1.1, ∀ x ∈ r.2,
        ¬ ((Build.survey entered.1).run entered.2).2.names.Generated x) ∧
      ((∀ x ∈ ((Build.survey entered.1).run entered.2).1.2,
          ¬ ((Build.survey entered.1).run entered.2).2.names.Generated x) ∧
        ∀ x, x ∈ ((Build.survey entered.1).run entered.2).1.2 ↔ entered.1.Free x fun c =>
          ∃ r ∈ ((Build.survey entered.1).run entered.2).1.1, r.1 = c ∧ x ∈ r.2) ∧
      ((Build.survey entered.1).run entered.2).1.2 = [⟨2⟩] := by
  have hstore : Store.Reaches {} store := .tail (.single (.name "x")) (.name "y")
  obtain ⟨hreach, hp, -⟩ := Build.calls_enterPattern tree store
    (hstore.canonical Store.canonical_new)
  have hst : Store.Reaches {} entered.2 := hstore.trans hreach
  have hgrows : entered.2.Grows ((Build.survey entered.1).run entered.2).2 :=
    Build.Adds.grows entered.2
  have hgiven := GuardedPair.not_generated (hreach.grows.trans hgrows)
  have hclean : ∀ r ∈ ((Build.survey entered.1).run entered.2).1.1, ∀ x ∈ r.2,
      ¬ ((Build.survey entered.1).run entered.2).2.names.Generated x := by
    intro r hr x hx
    have hnames := List.mem_map_of_mem (f := Prod.snd) hr
    rw [inside_eq, List.mem_singleton] at hnames
    rw [hnames] at hx
    rw [List.mem_cons, List.mem_singleton] at hx
    rcases hx with rfl | rfl
    · exact hgiven.1
    · exact hgiven.2
  exact ⟨⟨hst, hp, hclean⟩, Store.Reaches.survey_hygienic hst hp hclean, names_eq⟩

end Residual
