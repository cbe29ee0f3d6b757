import Residual.Proofs.Surface.RecordedNames

/-!
Filtering reaches a normal form.

Patterns are unfolded as often as the store has patterns, and unfolding them more often changes
nothing. Main statement: what an expression becomes has no pattern and lists the captures of every
function, it uses its free names in the order of the expression, and filtering it again gives the
same node.
-/

namespace Residual

variable {u st : Store} {e : Expr} {x : Name}

/-- Where a pattern stands, patterns nest. -/
lemma Expr.Nests.not_zero {symbol : Nat} {p : Pattern} :
    ¬ (Expr.node symbol (.pattern p)).Nests 0 := by
  intro h
  obtain ⟨_, h, -⟩ := h.of_pattern
  cases h

namespace Build

variable {α β : Type} {d depth k : Nat}

/-! ### Unfolding more often -/

/-- From a traced store the second work does what the first one does. -/
def Same (u : Store) (d : Nat) (act act' : Build α) : Prop :=
  ∀ st : Store, u.Traced d st → (act.run st).2.RecordedIn u → act'.run st = act.run st

namespace Same

variable {act act' : Build α} {f f' : α → Build β} {P : α → Prop}

protected lemma refl (act : Build α) : Same u d act act := fun _ _ _ => rfl

protected lemma bind [hadds : ∀ a, Adds (f a)] (ht : Traces u d act P) (ha : Same u d act act')
    (hf : ∀ a, P a → Same u d (f a) (f' a)) : Same u d (act >>= f) (act' >>= f') := by
  intro st hst hin
  have hin' := ((hadds _).grows _).recordedIn hin
  obtain ⟨hst', hP⟩ := ht st hst hin'
  change (f' (act'.run st).1).run (act'.run st).2 = (f (act.run st).1).run (act.run st).2
  rw [ha st hst hin']
  exact hf _ hP _ hst' hin

end Same

/-- Patterns that nest no deeper than `depth` are unfolded alike. -/
abbrev SamePatterns (u : Store) (d depth : Nat) (unfold unfold' : Pattern → Build Expr) : Prop :=
  ∀ symbol p, (Expr.node symbol (.pattern p)).Nests depth →
    (Expr.node symbol (.pattern p)).Nests d → p.Issued u → Same u d (unfold p) (unfold' p)

section Filter

variable {unfold unfold' : Pattern → Build Expr}

mutual

lemma same_filterWith [hadds : ∀ p, Adds (unfold p)] (hu : FiltersPatterns u d depth unfold)
    (hsame : SamePatterns u d depth unfold unfold') (e : Expr) (he : e.Issued u)
    (hdepth : e.Nests depth) (hd : e.Nests d) :
    Same u d (filterWith unfold e) (filterWith unfold' e) := by
  match e with
  | .node symbol kind =>
    intro st hst hin
    cases hl : st.filtered.lookup symbol with
    | some done => rw [run_filterWith_of_hit hl, run_filterWith_of_hit hl]
    | none =>
      rw [run_filterWith_of_miss hl] at hin
      rw [run_filterWith_of_miss hl, run_filterWith_of_miss hl,
        same_filterKind hu hsame symbol kind he hdepth hd st hst
          ⟨⟨⟨hin.part.nodes.exprs, hin.part.nodes.patterns⟩, hin.part.names⟩, hin.lowered⟩]
termination_by structural e

lemma same_filterKind [hadds : ∀ p, Adds (unfold p)] (hu : FiltersPatterns u d depth unfold)
    (hsame : SamePatterns u d depth unfold unfold') (symbol : Nat) (kind : ExprKind)
    (he : (Expr.node symbol kind).Issued u) (hdepth : (Expr.node symbol kind).Nests depth)
    (hd : (Expr.node symbol kind).Nests d) :
    Same u d (filterKind unfold symbol kind) (filterKind unfold' symbol kind) := by
  have hk := he.kind
  -- A part nests patterns no deeper than the whole.
  match kind with
  | .var _ | .lit _ => exact .refl _
  | .pattern p => exact hsame symbol p hdepth hd ⟨hk.codes, hk.nested⟩
  | .function _ body | .filtered _ _ body =>
    have hmem := List.mem_singleton_self body
    have hbody := hk.codes _ hmem
    have hnests := hdepth.of_codes (fun _ h => nomatch h) _ hmem
    have hnests' := hd.of_codes (fun _ h => nomatch h) _ hmem
    exact .bind (traces_freeNameSet he hd) (.refl _) fun used _ =>
      .bind (traces_filterWith hu body hbody hnests hnests')
        (same_filterWith hu hsame body hbody hnests hnests') fun _ _ => .refl _
  | .recFunction _ _ body =>
    have hmem := List.mem_singleton_self body
    have hbody := hk.codes _ hmem
    have hnests := hdepth.of_codes (fun _ h => nomatch h) _ hmem
    have hnests' := hd.of_codes (fun _ h => nomatch h) _ hmem
    exact .bind (traces_filterWith hu body hbody hnests hnests')
      (same_filterWith hu hsame body hbody hnests hnests') fun _ _ => .refl _
  | .tuple es | .op _ es =>
    have hnests := hdepth.of_codes fun _ h => nomatch h
    have hnests' := hd.of_codes fun _ h => nomatch h
    exact .bind (traces_filterAll hu es hk.codes hnests hnests')
      (same_filterAll hu hsame es hk.codes hnests hnests') fun _ _ => .refl _
  | .pos _ e =>
    have hmem := List.mem_singleton_self e
    have hcode := hk.codes _ hmem
    have hnests := hdepth.of_codes (fun _ h => nomatch h) _ hmem
    have hnests' := hd.of_codes (fun _ h => nomatch h) _ hmem
    exact .bind (traces_filterWith hu e hcode hnests hnests')
      (same_filterWith hu hsame e hcode hnests hnests') fun _ _ => .refl _
termination_by structural kind

lemma same_filterAll [hadds : ∀ p, Adds (unfold p)] (hu : FiltersPatterns u d depth unfold)
    (hsame : SamePatterns u d depth unfold unfold') (es : List Expr) (he : ∀ e ∈ es, e.Issued u)
    (hdepth : ∀ e ∈ es, e.Nests depth) (hd : ∀ e ∈ es, e.Nests d) :
    Same u d (filterAll unfold es) (filterAll unfold' es) := by
  match es with
  | [] => exact .refl _
  | e :: rest =>
    obtain ⟨he, hrest⟩ := List.forall_mem_cons.1 he
    obtain ⟨hdepth, hdepthRest⟩ := List.forall_mem_cons.1 hdepth
    obtain ⟨hde, hdrest⟩ := List.forall_mem_cons.1 hd
    exact .bind (traces_filterWith hu e he hdepth hde)
      (same_filterWith hu hsame e he hdepth hde) fun _ _ =>
      .bind (traces_filterAll hu rest hrest hdepthRest hdrest)
        (same_filterAll hu hsame rest hrest hdepthRest hdrest) fun _ _ => .refl _
termination_by structural es

end

end Filter

/-- What an expression becomes does not depend on how often patterns are unfolded, if that is often
enough. -/
lemma same_filterTo (depth k : Nat) {e : Expr} (he : e.Issued u) (hdepth : e.Nests depth)
    (hd : e.Nests d) : Same u d (filterTo depth e) (filterTo (depth + k) e) := by
  induction depth generalizing e with
  | zero =>
    cases k with
    | zero => exact .refl _
    | succ k =>
      rw [Nat.zero_add]
      exact same_filterWith (fun _ _ h => absurd h Expr.Nests.not_zero)
        (fun _ _ h => absurd h Expr.Nests.not_zero) e he hdepth hd
  | succ depth ih =>
    rw [Nat.succ_add]
    refine same_filterWith (fun symbol p hp hp' hissued => ?_) (fun symbol p hp hp' hissued => ?_)
      e he hdepth hd
    all_goals
      obtain ⟨_, heq, hcodes⟩ := hp.of_pattern
      obtain rfl := Nat.succ.inj heq
      obtain ⟨_, rfl, hcodes'⟩ := hp'.of_pattern
    · exact (traces_lowerPattern hissued).bind fun l hl =>
        (traces_filterTo depth hl.1 (hl.2.1.nests _ hcodes)
          ((hl.2.1.nests _ hcodes').mono (Nat.le_succ _))).imp
          fun done hdone => ⟨hdone.1, l, hl.2.2, hdone.2⟩
    · exact .bind (traces_lowerPattern hissued) (.refl _) fun l hl =>
        ih hl.1 (hl.2.1.nests _ hcodes) ((hl.2.1.nests _ hcodes').mono (Nat.le_succ _))

end Build

/-! ### Code of a store -/

/-- What the expression becomes when it is made ready for evaluation. -/
def Store.code (u : Store) (e : Expr) : Expr := ((Build.filter e).run u).1

/-- The free names that the store lists for the expression. -/
def Store.namesOf (u : Store) (e : Expr) : List Name := ((Build.freeNames e).run u).1

lemma Expr.FreeIn.mono {u' : Store} (h : e.FreeIn u x)
    (hu : ∀ n l, u.lowered.lookup n = some l → u'.lowered.lookup n = some l) : e.FreeIn u' x := by
  induction h with
  | intro l lowered _ takes ih => exact .intro l (fun p hp => hu _ _ (lowered p hp)) ih takes

/-- If each part lists its free names, then so do all together. -/
lemma Expr.Lists.exists_parts {items : List Expr} (h : ∀ a ∈ items, ∃ names, a.Lists u names) :
    ∃ lists : List (List Name), items.length = lists.length ∧
      ∀ (i : Nat) a names, items[i]? = some a → lists[i]? = some names → a.Lists u names := by
  induction items with
  | nil => exact ⟨[], rfl, fun i a names h => by simp at h⟩
  | cons e rest ih =>
    obtain ⟨⟨names, hnames⟩, hrest⟩ := List.forall_mem_cons.1 h
    obtain ⟨lists, hlength, heach⟩ := ih hrest
    refine ⟨names :: lists, congrArg Nat.succ hlength, ?_⟩
    rintro (_ | i) a ns ha hns
    · cases ha
      cases hns
      exact hnames
    · exact heach i a ns ha hns

/-- What was made ready lists free names in some order. -/
lemma Expr.Becomes.exists_lists {done : Expr} (h : e.Becomes u done) :
    ∃ names, e.Lists u names := by
  have hall {items items' : List Expr} (hlength : items.length = items'.length)
      (heach : ∀ (i : Nat) a a', items[i]? = some a → items'[i]? = some a' →
        ∃ names, a.Lists u names) : ∀ a ∈ items, ∃ names, a.Lists u names :=
    forall_mem_of_getElem? hlength.symm fun i a' a ha' ha => heach i a a' ha ha'
  induction h with
  | var kind => exact ⟨_, .var kind⟩
  | lit kind => exact ⟨_, .lit kind⟩
  | pattern kind lowered _ ih =>
    obtain ⟨names, hnames⟩ := ih
    exact ⟨names, .pattern kind lowered hnames⟩
  | function kind _ _ _ _ ih =>
    obtain ⟨names, hnames⟩ := ih
    exact ⟨_, .function kind hnames⟩
  | recFunction kind _ _ ih =>
    obtain ⟨names, hnames⟩ := ih
    exact ⟨_, .recFunction kind hnames⟩
  | tuple kind _ length _ ih =>
    obtain ⟨lists, hlists, heach⟩ := Lists.exists_parts (hall length ih)
    exact ⟨_, .parts (.inl kind) hlists heach⟩
  | op kind _ length _ ih =>
    obtain ⟨lists, hlists, heach⟩ := Lists.exists_parts (hall length ih)
    exact ⟨_, .parts (.inr ⟨_, kind⟩) hlists heach⟩
  | pos kind _ _ ih =>
    obtain ⟨names, hnames⟩ := ih
    exact ⟨names, .pos kind hnames⟩

namespace Store.Reaches

/-- The code of an expression is made of nodes that the store has then. -/
theorem becomes_code (h : Store.Reaches {} u) (he : e.Issued u) :
    (u.code e).Issued ((Build.filter e).run u).2 ∧
      e.Becomes ((Build.filter e).run u).2 (u.code e) := by
  have hgrows : u.Grows ((Build.filter e).run u).2 := Build.Adds.grows u
  have hu := h.traced (hgrows.recordedIn (Store.recordedIn_self _))
  exact (Build.traces_filter (he.mono hgrows.nodesIn) (he.nests hu.stacked) u hu
    (Store.recordedIn_self _)).2

/-- Code that an expression became stays its code. -/
theorem code_eq (h : Store.Reaches {} u) (he : e.Issued u) {e' : Expr} (hbecomes : e.Becomes u e')
    (he' : e'.Issued u) : u.code e = e' := by
  have hgrows : u.Grows ((Build.filter e).run u).2 := Build.Adds.grows u
  obtain ⟨hissued, hcode⟩ := h.becomes_code he
  have hcanonical := Store.Reaches.canonical (h.tail (.filter he)) Store.canonical_new
  exact hcode.eq hcanonical (hbecomes.mono hgrows.lowered) hissued (he'.mono hgrows.nodesIn)

/-- The free names of an expression are listed in order of first use. -/
theorem lists_namesOf (h : Store.Reaches {} u) (he : e.Issued u) :
    e.Lists ((Build.freeNames e).run u).2 (u.namesOf e) := by
  have hgrows : u.Grows ((Build.freeNames e).run u).2 := Build.Adds.grows u
  have hu := h.traced (hgrows.recordedIn (Store.recordedIn_self _))
  exact (Build.traces_listed (he.mono hgrows.nodesIn) (he.nests hu.stacked) u hu
    (Store.recordedIn_self _)).2

/-- If the order of the free names is known, then they are listed in it. -/
lemma namesOf_eq (h : Store.Reaches {} u) (he : e.Issued u) {names : List Name}
    (hnames : e.Lists u names) : u.namesOf e = names := by
  have hgrows : u.Grows ((Build.freeNames e).run u).2 := Build.Adds.grows u
  exact (h.lists_namesOf he).unique (hnames.mono hgrows.lowered)

/-- The free names of an expression are listed when the store is asked for them. -/
theorem mem_freeNames (h : Store.Reaches {} u) (he : e.Issued u) (hx : e.FreeIn u x) :
    x ∈ ((Build.freeNames e).run u).1 := by
  have hgrows : u.Grows ((Build.freeNames e).run u).2 := Build.Adds.grows u
  exact ((h.lists_namesOf he).mem_iff x).2 (hx.mono hgrows.lowered)

/-- Patterns are unfolded often enough. -/
lemma run_filterTo (h : Store.Reaches {} st) (he : e.Issued st) {depth : Nat}
    (hdepth : st.patterns.size < depth) :
    (Build.filterTo depth e).run st = (Build.filter e).run st := by
  have hgrows : st.Grows ((Build.filter e).run st).2 := Build.Adds.grows st
  have hst := h.traced (hgrows.recordedIn (Store.recordedIn_self _))
  have hnests := he.nests hst.stacked
  obtain ⟨k, rfl⟩ := Nat.exists_eq_add_of_lt hdepth
  rw [show st.patterns.size + k + 1 = st.patterns.size + 1 + k by omega]
  exact Build.same_filterTo (st.patterns.size + 1) k (he.mono hgrows.nodesIn)
    (hnests.mono (Nat.le_succ _)) hnests st hst (Store.recordedIn_self _)

/-- Filtering reaches a normal form, however often patterns are unfolded. What an expression becomes
has no pattern, and every function in it that is not recursive lists exactly its free names, in
ascending order. From then on it has the free names of the expression in the same order, and
filtering it gives the same node. The free names that a store once listed stay as they are. -/
theorem filter_normal (h : Store.Reaches {} st) (he : e.Issued st) :
    (∀ depth, st.patterns.size < depth →
      (Build.filterTo depth e).run st = (Build.filter e).run st) ∧
    (st.code e).Prefiltered ∧ (st.code e).Sorted ∧
    (∀ u, Store.Reaches ((Build.filter e).run st).2 u →
      u.namesOf (st.code e) = u.namesOf e ∧ u.code (st.code e) = st.code e) ∧
    ∀ u, Store.Reaches ((Build.freeNames e).run st).2 u → u.namesOf e = st.namesOf e := by
  obtain ⟨hcode, hbecomes⟩ := h.becomes_code he
  obtain ⟨hprefiltered, hsorted, -⟩ := hbecomes.readies
  refine ⟨fun depth => h.run_filterTo he, hprefiltered, hsorted, fun u hu => ?_, fun u hu => ?_⟩
  · have hreach : Store.Reaches {} u := (h.tail (.filter he)).trans hu
    have hgrows := hu.grows
    have hfilter : st.Grows ((Build.filter e).run st).2 := Build.Adds.grows st
    have he' : e.Issued u := he.mono (hfilter.trans hgrows).nodesIn
    have hcode' := hcode.mono hgrows.nodesIn
    obtain ⟨names, hnames⟩ := hbecomes.exists_lists
    refine ⟨?_, hreach.code_eq hcode' (hbecomes.self.mono hgrows.lowered) hcode'⟩
    rw [hreach.namesOf_eq hcode' ((hbecomes.lists hnames).mono hgrows.lowered),
      hreach.namesOf_eq he' (hnames.mono hgrows.lowered)]
  · have hreach : Store.Reaches {} u := (h.tail (.freeNames he)).trans hu
    have hnames : st.Grows ((Build.freeNames e).run st).2 := Build.Adds.grows st
    exact hreach.namesOf_eq (he.mono (hnames.trans hu.grows).nodesIn)
      ((h.lists_namesOf he).mono hu.grows.lowered)

end Store.Reaches

namespace GuardedPair

/-- The pattern as an expression, with the store that it was entered into. -/
@[irreducible]
def matcher : Expr × Store := (Expr.node 0 (.pattern tree)).enter.run store

lemma matcher_issued : Store.Reaches {} matcher.2 ∧ matcher.1.Issued matcher.2 := by
  have hstore : Store.Reaches {} store := .tail (.single (.name "x")) (.name "y")
  obtain ⟨hreach, he, -⟩ := Build.calls_enter (.node 0 (.pattern tree)) store
    (hstore.canonical Store.canonical_new)
  rw [matcher]
  exact ⟨hstore.trans hreach, he⟩

lemma namesOf_matcher :
    ((Build.filter matcher.1).run matcher.2).2.namesOf matcher.1 = [⟨2⟩] := by decide +kernel

end GuardedPair

open GuardedPair in
/-- The function that a pattern denotes takes a name from its guard. -/
theorem Store.Reaches.filter_normal_guard :
    (Store.Reaches {} matcher.2 ∧ matcher.1.Issued matcher.2) ∧
      ((matcher.2.code matcher.1).Prefiltered ∧ (matcher.2.code matcher.1).Sorted) ∧
      ((Build.filter matcher.1).run matcher.2).2.namesOf (matcher.2.code matcher.1) = [⟨2⟩] ∧
      ((Build.filter matcher.1).run matcher.2).2.code (matcher.2.code matcher.1) =
        matcher.2.code matcher.1 := by
  obtain ⟨-, hprefiltered, hsorted, hlater, -⟩ :=
    Store.Reaches.filter_normal matcher_issued.1 matcher_issued.2
  obtain ⟨hnames, hcode⟩ := hlater _ .refl
  exact ⟨matcher_issued, ⟨hprefiltered, hsorted⟩, hnames.trans namesOf_matcher, hcode⟩

end Residual
