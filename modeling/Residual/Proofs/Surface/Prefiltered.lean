import Residual.Proofs.Surface.Entering

/-!
Prefiltered code, its free names, and filtering.

Asking for the free names of listed code gives just these names, and making such code ready gives
prefiltered code with the same free names.
-/

namespace Residual

namespace Build

variable {t : Interner ExprKind}

/-! ### Asking for free names -/

lemma mem_addNames {out names bound : List Name} {x : Name} :
    x ∈ addNames out names bound ↔ x ∈ out ∨ (x ∈ names ∧ x ∉ bound) := by
  unfold addNames
  induction names generalizing out with
  | nil => simp
  | cons y rest ih =>
    rw [List.foldl_cons, ih]
    by_cases hx : x = y
    · subst hx
      split <;> rename_i h <;> simp only [Bool.or_eq_true, List.contains_iff_mem] at h <;> grind
    · split <;> simp [hx]

lemma does_of_adds {α : Type} (act : Build α) [h : Adds act] (Q : α → Prop) :
    Does False act fun a => False → Q a :=
  fun st _ => ⟨h.grows st, False.elim, False.elim⟩

section FreeNames

variable {unfold : Pattern → Build (List Name)}

instance [∀ p, Adds (unfold p)] (e : Expr) : Adds (freeNamesWith unfold e) :=
  Does.adds (does_freeNamesWith (fun p _ => does_of_adds (unfold p) _) e False.elim)

instance [∀ p, Adds (unfold p)] (out : List Name) (es : List Expr) :
    Adds (freeNamesOfAll unfold out es) :=
  Does.adds (does_freeNamesOfAll (fun p _ => does_of_adds (unfold p) _) out es
    False.elim False.elim)

mutual

lemma enters_freeNamesWith [hadds : ∀ p, Adds (unfold p)]
    (hu : ∀ p, (∀ c ∈ p.codes, c.Held t) → Enters t (unfold p) fun _ => True) (e : Expr)
    (he : e.Held t) :
    Enters t (freeNamesWith unfold e) fun names => e.Listed → ∀ x, x ∈ names ↔ e.Free x := by
  match e with
  | .node symbol kind =>
    intro st hst hext
    cases hl : st.freeNames.lookup symbol with
    | some names =>
      rw [run_freeNamesWith_of_hit hl]
      obtain ⟨c, hc, hsymbol, hnames⟩ := hst.freeNames _ (mem_of_lookup hl)
      obtain rfl : c = .node symbol kind := hc.eq he.mem hsymbol
      exact ⟨hst, hnames⟩
    | none =>
      rw [run_freeNamesWith_of_miss hl] at hext ⊢
      obtain ⟨hst', hnames⟩ := enters_freeNamesOfKind hu kind he.codes st hst hext
      exact ⟨⟨hst'.exprs, hst'.lowered, hst'.filtered,
        List.forall_mem_cons.2 ⟨⟨_, he.mem, rfl, hnames⟩, hst'.freeNames⟩⟩, hnames⟩
termination_by structural e

lemma enters_freeNamesOfKind [hadds : ∀ p, Adds (unfold p)]
    (hu : ∀ p, (∀ c ∈ p.codes, c.Held t) → Enters t (unfold p) fun _ => True) (kind : ExprKind)
    (hk : ∀ c ∈ kind.codes, c.Held t) :
    Enters t (freeNamesOfKind unfold kind) fun names =>
      kind.Listed → ∀ x, x ∈ names ↔ kind.Free x := by
  match kind with
  | .var y => exact .pure fun _ x => by rw [List.mem_singleton, ExprKind.Free]
  | .lit l => exact .pure fun _ x => by simp [ExprKind.Free]
  | .pattern p => exact (hu p hk).imp fun _ _ h => h.elim
  | .function param body =>
    refine (enters_freeNamesWith hu body (hk body (List.mem_singleton_self _))).bind
      fun names hnames => .pure fun h x => ?_
    rw [mem_addNames, hnames h, ExprKind.Free]
    simp [and_comm]
  | .filtered _ param body =>
    refine (enters_freeNamesWith hu body (hk body (List.mem_singleton_self _))).bind
      fun names hnames => .pure fun h x => ?_
    rw [mem_addNames, hnames h.2, ExprKind.Free]
    simp [and_comm]
  | .recFunction this param body =>
    refine (enters_freeNamesWith hu body (hk body (List.mem_singleton_self _))).bind
      fun names hnames => .pure fun h x => ?_
    rw [mem_addNames, hnames h, ExprKind.Free]
    simp [and_comm]
  | .tuple items =>
    refine (enters_freeNamesOfAll hu [] items hk).imp fun names h hl x => ?_
    simpa [ExprKind.Free] using h hl x
  | .op _ args =>
    refine (enters_freeNamesOfAll hu [] args hk).imp fun names h hl x => ?_
    simpa [ExprKind.Free] using h hl x
  | .pos _ e => exact enters_freeNamesWith hu e (hk e (List.mem_singleton_self _))
termination_by structural kind

lemma enters_freeNamesOfAll [hadds : ∀ p, Adds (unfold p)]
    (hu : ∀ p, (∀ c ∈ p.codes, c.Held t) → Enters t (unfold p) fun _ => True) (out : List Name)
    (es : List Expr) (hes : ∀ e ∈ es, e.Held t) :
    Enters t (freeNamesOfAll unfold out es) fun names =>
      Expr.AllListed es → ∀ x, x ∈ names ↔ x ∈ out ∨ Expr.AnyFree x es := by
  match es with
  | [] => exact .pure fun _ x => by simp [Expr.AnyFree]
  | e :: rest =>
    obtain ⟨he, hrest⟩ := List.forall_mem_cons.1 hes
    refine (enters_freeNamesWith hu e he).bind fun names hnames => ?_
    refine (enters_freeNamesOfAll hu _ rest hrest).imp fun all hall h x => ?_
    rw [hall h.2, mem_addNames, hnames h.1, Expr.AnyFree]
    simp [or_assoc]
termination_by structural es

end

end FreeNames

instance (depth : Nat) (e : Expr) : Adds (freeNamesTo depth e) :=
  Does.adds (does_freeNamesTo depth False.elim)

lemma enters_freeNamesTo (depth : Nat) {e : Expr} (he : e.Held t) :
    Enters t (freeNamesTo depth e) fun names => e.Listed → ∀ x, x ∈ names ↔ e.Free x := by
  induction depth generalizing e with
  | zero => exact enters_freeNamesWith (fun p _ => .pure trivial) e he
  | succ depth ih =>
    refine enters_freeNamesWith (fun p hp => ?_) e he
    exact (enters_lowerPattern hp).bind fun l hl => (ih hl).imp fun _ _ => trivial

/-- Asking for the free names of listed code gives just its free names. -/
theorem enters_freeNames {e : Expr} (he : e.Held t) :
    Enters t (freeNames e) fun names => e.Listed → ∀ x, x ∈ names ↔ e.Free x :=
  fun st hst hext => enters_freeNamesTo _ he st hst hext

lemma enters_freeNameSet {e : Expr} (he : e.Held t) :
    Enters t (freeNameSet e) fun names => e.Listed → ∀ x, x ∈ names ↔ e.Free x :=
  (enters_freeNames he).bind fun names hnames => .pure fun h x => by
    rw [List.mem_mergeSort]
    exact hnames h x

/-! ### Filtering -/

section Filter

variable {unfold : Pattern → Build Expr}

instance (e : Expr) : Adds (freeNames e) := Does.adds (does_freeNames False.elim)

instance (e : Expr) : Adds (freeNameSet e) := Does.adds (does_freeNameSet False.elim)

instance [∀ p, Adds (unfold p)] (e : Expr) : Adds (filterWith unfold e) :=
  Does.adds (does_filterWith (fun p _ => does_of_adds (unfold p) _) e False.elim)

instance [∀ p, Adds (unfold p)] (es : List Expr) : Adds (filterAll unfold es) :=
  Does.adds (does_filterAll (fun p _ => does_of_adds (unfold p) _) es False.elim)

mutual

lemma enters_filterWith [hadds : ∀ p, Adds (unfold p)]
    (hu : ∀ p, (∀ c ∈ p.codes, c.Held t) → Enters t (unfold p) (Expr.Held t)) (e : Expr)
    (he : e.Held t) :
    Enters t (filterWith unfold e) fun done => done.Held t ∧ (e.Listed → e.Readies done) := by
  match e with
  | .node symbol kind =>
    intro st hst hext
    cases hl : st.filtered.lookup symbol with
    | some done =>
      rw [run_filterWith_of_hit hl]
      obtain ⟨hheld, c, hc, hsymbol, hready⟩ := hst.filtered _ (mem_of_lookup hl)
      obtain rfl : c = .node symbol kind := hc.eq he.mem hsymbol
      exact ⟨hst, hheld, hready⟩
    | none =>
      rw [run_filterWith_of_miss hl] at hext ⊢
      obtain ⟨hst', hheld, hready⟩ := enters_filterKind hu symbol kind he st hst hext
      exact ⟨⟨hst'.exprs, hst'.lowered, List.forall_mem_cons.2
        ⟨⟨hheld, _, he.mem, rfl, hready⟩, hst'.filtered⟩, hst'.freeNames⟩, hheld, hready⟩
termination_by structural e

lemma enters_filterKind [hadds : ∀ p, Adds (unfold p)]
    (hu : ∀ p, (∀ c ∈ p.codes, c.Held t) → Enters t (unfold p) (Expr.Held t)) (symbol : Nat)
    (kind : ExprKind) (he : (Expr.node symbol kind).Held t) :
    Enters t (filterKind unfold symbol kind) fun done =>
      done.Held t ∧ (kind.Listed → (Expr.node symbol kind).Readies done) := by
  have hk := he.codes
  match kind with
  | .var x => exact .pure ⟨he, fun _ => ⟨trivial, fun _ => Iff.rfl⟩⟩
  | .lit l => exact .pure ⟨he, fun _ => ⟨trivial, fun _ => Iff.rfl⟩⟩
  | .pattern p => exact (hu p hk).imp fun _ h => ⟨h, False.elim⟩
  -- The captures are the free names of the function before its body was changed.
  | .function param body =>
    refine (enters_freeNameSet he).bind fun used hused =>
      (enters_filterWith hu body (hk body (List.mem_singleton_self _))).bind fun done hdone => ?_
    refine (enters_node (.filtered used param done) trivial
      (List.forall_mem_singleton.2 hdone.1)).imp ?_
    rintro ⟨_, _⟩ ⟨hheld, rfl⟩
    refine ⟨hheld, fun hl => ?_⟩
    obtain ⟨hready, hfree⟩ := hdone.2 hl
    refine ⟨⟨fun x => ?_, hready⟩, fun x => and_congr_right fun _ => hfree x⟩
    -- The changed body has the same free names.
    rw [hused hl x, hfree x]
    rfl
  | .filtered listed param body =>
    refine (enters_freeNameSet he).bind fun used hused =>
      (enters_filterWith hu body (hk body (List.mem_singleton_self _))).bind fun done hdone => ?_
    refine (enters_node (.filtered used param done) trivial
      (List.forall_mem_singleton.2 hdone.1)).imp ?_
    rintro ⟨_, _⟩ ⟨hheld, rfl⟩
    refine ⟨hheld, fun hl => ?_⟩
    obtain ⟨hready, hfree⟩ := hdone.2 hl.2
    refine ⟨⟨fun x => ?_, hready⟩, fun x => and_congr_right fun _ => hfree x⟩
    rw [hused hl x, hfree x]
    rfl
  | .recFunction this param body =>
    refine (enters_filterWith hu body (hk body (List.mem_singleton_self _))).bind
      fun done hdone => ?_
    refine (enters_node (.recFunction this param done) trivial
      (List.forall_mem_singleton.2 hdone.1)).imp ?_
    rintro ⟨_, _⟩ ⟨hheld, rfl⟩
    refine ⟨hheld, fun hl => ?_⟩
    obtain ⟨hready, hfree⟩ := hdone.2 hl
    exact ⟨hready, fun x => and_congr_right fun _ => hfree x⟩
  | .tuple items =>
    refine (enters_filterAll hu items hk).bind fun done hdone => ?_
    refine (enters_node (.tuple done) trivial hdone.1).imp ?_
    rintro ⟨_, _⟩ ⟨hheld, rfl⟩
    exact ⟨hheld, fun hl => ⟨(hdone.2 hl).1, (hdone.2 hl).2⟩⟩
  | .op o args =>
    refine (enters_filterAll hu args hk).bind fun done hdone => ?_
    refine (enters_node (.op o done) trivial hdone.1).imp ?_
    rintro ⟨_, _⟩ ⟨hheld, rfl⟩
    exact ⟨hheld, fun hl => ⟨(hdone.2 hl).1, (hdone.2 hl).2⟩⟩
  | .pos span e =>
    refine (enters_filterWith hu e (hk e (List.mem_singleton_self _))).bind fun done hdone => ?_
    -- A position that is there already is used again, so only the code in it is known.
    have hmark : Enters t (expr (.pos span done)) _ :=
      enters_kind (List.forall_mem_singleton.2 hdone.1)
    refine hmark.imp ?_
    rintro ⟨_, kind⟩ ⟨hheld, hagrees⟩
    cases kind <;> first | (cases hagrees; done) | skip
    obtain rfl : _ = done := hagrees
    exact ⟨hheld, fun hl => ⟨(hdone.2 hl).1, (hdone.2 hl).2⟩⟩
termination_by structural kind

lemma enters_filterAll [hadds : ∀ p, Adds (unfold p)]
    (hu : ∀ p, (∀ c ∈ p.codes, c.Held t) → Enters t (unfold p) (Expr.Held t)) (es : List Expr)
    (he : ∀ e ∈ es, e.Held t) :
    Enters t (filterAll unfold es) fun done => (∀ e ∈ done, e.Held t) ∧
      (Expr.AllListed es → Expr.AllPrefiltered done ∧
        ∀ x, Expr.AnyFree x done ↔ Expr.AnyFree x es) := by
  match es with
  | [] => exact .pure ⟨fun _ h => absurd h List.not_mem_nil, fun _ => ⟨trivial, fun _ => Iff.rfl⟩⟩
  | e :: rest =>
    obtain ⟨he, hrest⟩ := List.forall_mem_cons.1 he
    refine (enters_filterWith hu e he).bind fun first hfirst =>
      (enters_filterAll hu rest hrest).bind
      fun others hothers => .pure ⟨List.forall_mem_cons.2 ⟨hfirst.1, hothers.1⟩, fun hl => ?_⟩
    obtain ⟨hready, hfree⟩ := hfirst.2 hl.1
    obtain ⟨hreadies, hfrees⟩ := hothers.2 hl.2
    exact ⟨⟨hready, hreadies⟩, fun x => or_congr (hfree x) (hfrees x)⟩
termination_by structural es

end

end Filter

instance (depth : Nat) (e : Expr) : Adds (filterTo depth e) :=
  Does.adds (does_filterTo depth False.elim)

lemma enters_filterTo (depth : Nat) {e : Expr} (he : e.Held t) :
    Enters t (filterTo depth e) fun done => done.Held t ∧ (e.Listed → e.Readies done) := by
  induction depth generalizing e with
  | zero =>
    refine enters_filterWith (fun p hp => ?_) e he
    exact (enters_expr hp : Enters t (expr (.pattern p)) _)
  | succ depth ih =>
    refine enters_filterWith (fun p hp => ?_) e he
    exact (enters_lowerPattern hp).bind fun l hl => (ih hl).imp fun _ h => h.1

instance (e : Expr) : Adds (filter e) := Does.adds (does_filter False.elim)

/-- Filtering code of a store gives code of it. Of listed code it makes prefiltered code with the
same free names. -/
theorem enters_filter {e : Expr} (he : e.Held t) :
    Enters t (filter e) fun done => done.Held t ∧ (e.Listed → e.Readies done) :=
  fun st hst hext => enters_filterTo _ he st hst hext

end Build

end Residual
