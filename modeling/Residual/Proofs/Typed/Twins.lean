import Mathlib.Data.List.Forall2
import Residual.Proofs.Typed.MapKinds

/-!
Twins: values that differ at most in the forms of their environments.

Two types, terms or environments are twins if they have one canonical form and the maps in them
are of given kinds. Twins have the same head and twins as parts, and what is put together from
twins are twins again.
-/

namespace Residual

/-- Two values of one canonical form, with maps of the held kinds only. -/
structure Twin {α β : Type} (canon : α → β) (kinds : α → List MapKind) (held : MapKind → Prop)
    (a b : α) : Prop where
  same : canon a = canon b
  held : ∀ k ∈ kinds a, held k

abbrev Ty.Twin := Residual.Twin Ty.canon Ty.kinds

abbrev ForeignPart.Twin := Residual.Twin ForeignPart.canon ForeignPart.kinds

abbrev Var.Twin := Residual.Twin Var.canon fun v => v.ty.kinds

abbrev Term.Twin := Residual.Twin Term.canon Term.kinds

abbrev Env.Twin := Residual.Twin Env.canon Env.kinds

abbrev Fields.Twin := Residual.Twin Fields.canon Fields.kinds

variable {held held' : MapKind → Prop}

namespace Twin

variable {α β : Type} {canon : α → β} {kinds : α → List MapKind} {a b c : α}

lemma mono (h : Twin canon kinds held a b) (hheld : ∀ k, held k → held' k) :
    Twin canon kinds held' a b :=
  ⟨h.same, fun k hk => hheld k (h.held k hk)⟩

lemma refl (h : ∀ k ∈ kinds a, held k) : Twin canon kinds held a a := ⟨rfl, h⟩

/-- Lists of twins are twins. -/
theorem forall₂_iff {as bs : List α} :
    List.Forall₂ (Twin canon kinds held) as bs ↔
      as.map canon = bs.map canon ∧ ∀ k ∈ as.flatMap kinds, held k := by
  induction as generalizing bs with
  | nil => cases bs <;> simp
  | cons a as ih =>
    cases bs with
    | nil => simp
    | cons b bs =>
      rw [List.forall₂_cons, ih, List.map_cons, List.map_cons, List.cons.injEq, List.flatMap_cons,
        List.forall_mem_append]
      exact ⟨fun ⟨⟨h₁, h₂⟩, h₃, h₄⟩ => ⟨⟨h₁, h₃⟩, h₂, h₄⟩,
        fun ⟨⟨h₁, h₃⟩, h₂, h₄⟩ => ⟨⟨h₁, h₂⟩, h₃, h₄⟩⟩

/-- The elements at one place of related lists. -/
theorem getElem?_rel {R : α → α → Prop} {as bs : List α} (h : List.Forall₂ R as bs) (i : Nat) :
    Option.Rel R as[i]? bs[i]? := by
  induction h generalizing i with
  | nil => exact .none
  | cons hab _ ih =>
    cases i with
    | zero => exact .some hab
    | succ i => exact ih i

end Twin

/-- Two entries for one name, with related contents. -/
abbrev Fields.Entry {α : Type} (R : α → α → Prop) : Name × α → Name × α → Prop :=
  fun d e => d.1 = e.1 ∧ R d.2 e.2

/-- What a name is bound to in related maps. -/
theorem Fields.get?_rel {α : Type} {R : α → α → Prop} {m n : Fields α}
    (h : List.Forall₂ (Fields.Entry R) m n) (x : Name) :
    Option.Rel R (Fields.get? m x) (Fields.get? n x) := by
  induction h with
  | nil => exact .none
  | @cons d e m n hde _ ih =>
    obtain ⟨y, a⟩ := d
    obtain ⟨z, b⟩ := e
    obtain ⟨rfl, hab⟩ := hde
    rw [get?_cons, get?_cons]
    split
    · exact .some hab
    · exact ih

lemma Fields.entry_twin_eq {α β : Type} {canon : α → β} {kinds : α → List MapKind} :
    Fields.Entry (Residual.Twin canon kinds held) =
      Residual.Twin (fun e => (e.1, canon e.2)) (fun e => kinds e.2) held := by
  funext d e
  refine propext ⟨fun ⟨h, k⟩ => ⟨Prod.ext h k.same, k.held⟩, fun h => ?_⟩
  obtain ⟨hx, hsame⟩ := Prod.mk.inj h.same
  exact ⟨hx, hsame, h.held⟩

/-- The bindings of twins are twins, one after the other. -/
theorem Fields.twin_iff {m n : Fields Term} :
    Fields.Twin held m n ↔ List.Forall₂ (Fields.Entry (Term.Twin held)) m n := by
  rw [Fields.entry_twin_eq, Twin.forall₂_iff]
  exact ⟨fun h => ⟨h.same, h.held⟩, fun h => ⟨h.1, h.2⟩⟩

/-! ### Types -/

namespace Ty

variable {s t : Ty}

lemma twin_prim (p : Prim) : (prim p).Twin held (.prim p) :=
  .refl fun _ hk => absurd hk List.not_mem_nil

lemma twin_unit : unit.Twin held .unit :=
  .refl fun _ hk => absurd hk List.not_mem_nil

lemma twin_list_iff {ss ts : List Ty} :
    (Ty.list ss).Twin held (.list ts) ↔ List.Forall₂ (Ty.Twin held) ss ts := by
  rw [Twin.forall₂_iff]
  constructor
  · intro ⟨h, k⟩
    rw [kinds, kindsOfAll_eq] at k
    exact ⟨by simpa [canon] using h, k⟩
  · intro ⟨h, k⟩
    refine ⟨by simpa [canon] using h, ?_⟩
    rw [kinds, kindsOfAll_eq]
    exact k

lemma twin_union_iff {ss ts : List Ty} :
    (Ty.union ss).Twin held (.union ts) ↔ List.Forall₂ (Ty.Twin held) ss ts := by
  rw [Twin.forall₂_iff]
  constructor
  · intro ⟨h, k⟩
    rw [kinds, kindsOfAll_eq] at k
    exact ⟨by simpa [canon] using h, k⟩
  · intro ⟨h, k⟩
    refine ⟨by simpa [canon] using h, ?_⟩
    rw [kinds, kindsOfAll_eq]
    exact k

lemma twin_map_iff {m n : List (Name × Ty)} {k l : MapKind} :
    (Ty.map m k).Twin held (.map n l) ↔
      List.Forall₂ (Fields.Entry (Ty.Twin held)) m n ∧ k = l ∧ held k := by
  rw [Fields.entry_twin_eq, Twin.forall₂_iff]
  constructor
  · intro ⟨h, hk⟩
    rw [kinds, kindsOfFields_eq, List.forall_mem_cons] at hk
    simp only [canon, canonFields_eq, Ty.map.injEq] at h
    exact ⟨⟨h.1, hk.2⟩, h.2, hk.1⟩
  · intro ⟨⟨h, hk⟩, hkind, hheld⟩
    refine ⟨by simp only [canon, canonFields_eq, h, hkind], ?_⟩
    rw [kinds, kindsOfFields_eq, List.forall_mem_cons]
    exact ⟨hheld, hk⟩

lemma twin_layout_iff {l m : Layout} {d e : Env} {k j : MapKind} :
    (Ty.layout l d k).Twin held (.layout m e j) ↔ l = m ∧ d.Twin held e ∧ k = j ∧ held k := by
  constructor
  · intro ⟨h, hk⟩
    rw [kinds, List.forall_mem_cons] at hk
    simp only [canon, Ty.layout.injEq] at h
    exact ⟨h.1, ⟨h.2.1, hk.2⟩, h.2.2, hk.1⟩
  · rintro ⟨rfl, h, rfl, hk⟩
    refine ⟨by simp only [canon, h.same], ?_⟩
    rw [kinds, List.forall_mem_cons]
    exact ⟨hk, h.held⟩

lemma twin_closure_iff {a b c d : Ty} :
    (Ty.closure a b).Twin held (.closure c d) ↔ a.Twin held c ∧ b.Twin held d := by
  constructor
  · intro ⟨h, hk⟩
    rw [kinds, List.forall_mem_append] at hk
    simp only [canon, Ty.closure.injEq] at h
    exact ⟨⟨h.1, hk.1⟩, h.2, hk.2⟩
  · intro ⟨h₁, h₂⟩
    refine ⟨by simp only [canon, h₁.same, h₂.same], ?_⟩
    rw [kinds, List.forall_mem_append]
    exact ⟨h₁.held, h₂.held⟩

lemma twin_array_iff {p q : Storage} :
    (Ty.array p s).Twin held (.array q t) ↔ p = q ∧ s.Twin held t := by
  constructor
  · intro ⟨h, hk⟩
    simp only [canon, Ty.array.injEq] at h
    exact ⟨h.1, h.2, hk⟩
  · rintro ⟨rfl, h⟩
    exact ⟨by simp only [canon, h.same], h.held⟩

lemma twin_foreign {target : Target} {ps qs : List ForeignPart}
    (h : List.Forall₂ (ForeignPart.Twin held) ps qs) :
    (Ty.foreign target ps).Twin held (.foreign target qs) := by
  obtain ⟨h, hk⟩ := Twin.forall₂_iff.1 h
  refine ⟨by simp [canon, h], ?_⟩
  rw [kinds, ForeignPart.kindsOfAll_eq]
  exact hk

/-- The heads of twins. -/
inductive Heads (held : MapKind → Prop) : Ty → Ty → Prop
  | prim (p : Prim) : Heads held (.prim p) (.prim p)
  | list {ss ts : List Ty} (h : List.Forall₂ (Ty.Twin held) ss ts) : Heads
    held (.list ss) (.list ts)
  | lit (l : Literal) : Heads held (.lit l) (.lit l)
  | map {m n : List (Name × Ty)} {kind : MapKind}
    (h : List.Forall₂ (Fields.Entry (Ty.Twin held)) m n)
      (hkind : held kind) : Heads held (.map m kind) (.map n kind)
  | layout {l : Layout} {d e : Env} {kind : MapKind} (h : d.Twin held e) (hkind : held kind) :
      Heads held (.layout l d kind) (.layout l e kind)
  | closure {a b c d : Ty} (hdom : a.Twin held c) (hrange : b.Twin held d) :
      Heads held (.closure a b) (.closure c d)
  | union {ss ts : List Ty} (h : List.Forall₂ (Ty.Twin held) ss ts) :
      Heads held (.union ss) (.union ts)
  | recur (key : Key) : Heads held (.recur key) (.recur key)
  | array {p : Storage} {s t : Ty} (h : s.Twin held t) : Heads held (.array p s) (.array p t)
  | foreign (target : Target) (ps qs : List ForeignPart) :
      Heads held (.foreign target ps) (.foreign target qs)

lemma Twin.heads (h : s.Twin held t) : Heads held s t := by
  have hsame := h.same
  cases s <;> cases t <;> simp only [canon, reduceCtorEq] at hsame
  · cases hsame
    exact .prim _
  · exact .list (twin_list_iff.1 h)
  · cases hsame
    exact .lit _
  · obtain ⟨hm, rfl, hk⟩ := twin_map_iff.1 h
    exact .map hm hk
  · obtain ⟨rfl, he, rfl, hk⟩ := twin_layout_iff.1 h
    exact .layout he hk
  · obtain ⟨h₁, h₂⟩ := twin_closure_iff.1 h
    exact .closure h₁ h₂
  · exact .union (twin_union_iff.1 h)
  · cases hsame
    exact .recur _
  · obtain ⟨rfl, ht⟩ := twin_array_iff.1 h
    exact .array ht
  · rw [Ty.foreign.injEq] at hsame
    rw [hsame.1]
    exact .foreign ..

lemma Twin.isUnit (h : s.Twin held t) : s.isUnit = t.isUnit := isUnit_of_canon h.same

lemma Twin.mentions (h : s.Twin held t) (key : Key) : s.mentions key = t.mentions key := by
  rw [← mentions_canon, h.same, mentions_canon]

lemma Twin.prim? (h : s.Twin held t) : s.prim? = t.prim? := by
  cases h.heads <;> rfl

lemma Twin.ofUnit (h : s.Twin held t) : (Term.ofUnit s).Twin held (.ofUnit t) := by
  refine ⟨Term.ofUnit_of_canon h.same, ?_⟩
  rw [Term.kinds_ofUnit]
  exact h.held

lemma twin_unionOf {g g' : Ground} {ss ts : List Ty} (hs : ∀ s ∈ ss, s.Sound g)
    (ht : ∀ t ∈ ts, t.Sound g') (h : List.Forall₂ (Ty.Twin held) ss ts) :
    (unionOf ss).Twin held (unionOf ts) := by
  obtain ⟨hsame, hk⟩ := Residual.Twin.forall₂_iff.1 h
  refine ⟨unionOf_of_canon hs ht hsame, fun k hmem => ?_⟩
  obtain ⟨s, hs, hk'⟩ := kinds_unionOf hmem
  exact hk k (List.mem_flatMap.2 ⟨s, hs, hk'⟩)

end Ty

lemma Var.twin_iff {v w : Var} : v.Twin held w ↔ v.tag = w.tag ∧ v.ty.Twin held w.ty := by
  cases v
  cases w
  constructor
  · intro ⟨h, hk⟩
    rw [Var.canon, Var.canon, Var.mk.injEq] at h
    exact ⟨h.1, h.2, hk⟩
  · rintro ⟨rfl, h⟩
    exact ⟨by rw [Var.canon, Var.canon, h.same], h.held⟩

/-! ### Terms -/

namespace Term

variable {a b : Term}

lemma twin_type_iff {s t : Ty} : (Term.type s).Twin held (.type t) ↔ s.Twin held t :=
  ⟨fun h => ⟨Term.type.inj h.same, h.held⟩, fun h => ⟨congrArg Term.type h.same, h.held⟩⟩

lemma twin_var_iff {v w : Var} : (Term.var v).Twin held (.var w) ↔ v.Twin held w := by
  constructor
  · intro ⟨h, hk⟩
    rw [kinds_var] at hk
    exact ⟨Term.var.inj h, hk⟩
  · intro h
    refine ⟨congrArg Term.var h.same, ?_⟩
    rw [kinds_var]
    exact h.held

lemma twin_tuple_iff {as bs : List Term} :
    (Term.tuple as).Twin held (.tuple bs) ↔ List.Forall₂ (Term.Twin held) as bs := by
  rw [Twin.forall₂_iff]
  constructor
  · intro ⟨h, k⟩
    rw [kinds, kindsOfAll_eq] at k
    exact ⟨by simpa [canon] using h, k⟩
  · intro ⟨h, k⟩
    refine ⟨by simpa [canon] using h, ?_⟩
    rw [kinds, kindsOfAll_eq]
    exact k

lemma twin_map_iff {d e : Env} {k l : MapKind} :
    (Term.map d k).Twin held (.map e l) ↔ d.Twin held e ∧ k = l ∧ held k := by
  constructor
  · intro ⟨h, hk⟩
    rw [kinds, List.forall_mem_cons] at hk
    rw [canon, canon, Term.map.injEq] at h
    exact ⟨⟨h.1, hk.2⟩, h.2, hk.1⟩
  · rintro ⟨h, rfl, hk⟩
    refine ⟨by simp only [canon, h.same], ?_⟩
    rw [kinds, List.forall_mem_cons]
    exact ⟨hk, h.held⟩

lemma twin_box_iff {s t : Ty} :
    (Term.box a s).Twin held (.box b t) ↔ a.Twin held b ∧ s.Twin held t := by
  constructor
  · intro ⟨h, hk⟩
    rw [kinds, List.forall_mem_append] at hk
    rw [canon, canon, Term.box.injEq] at h
    exact ⟨⟨h.1, hk.1⟩, h.2, hk.2⟩
  · intro ⟨h₁, h₂⟩
    refine ⟨by simp only [canon, h₁.same, h₂.same], ?_⟩
    rw [kinds, List.forall_mem_append]
    exact ⟨h₁.held, h₂.held⟩

lemma twin_lit (l : Literal) : (Term.lit l).Twin held (.lit l) :=
  .refl fun _ h => absurd h List.not_mem_nil

lemma twin_op {o : Op} {as bs : List Term} {s t : Ty} (h : List.Forall₂ (Term.Twin held) as bs)
    (hty : s.Twin held t) : (Term.op o as s).Twin held (.op o bs t) := by
  obtain ⟨hsame, hk⟩ := Twin.forall₂_iff.1 h
  refine ⟨by simp [canon, hsame, hty.same], ?_⟩
  rw [kinds, kindsOfAll_eq, List.forall_mem_append]
  exact ⟨hk, hty.held⟩

lemma twin_miss (h : a.Twin held b) : (Term.miss a).Twin held (.miss b) :=
  twin_op (.cons h .nil) (.refl fun _ h => absurd h List.not_mem_nil)

/-- The heads of twins. -/
inductive Heads (held : MapKind → Prop) : Term → Term → Prop
  | type {s t : Ty} (h : s.Twin held t) : Heads held (.type s) (.type t)
  | var {v w : Var} (h : v.Twin held w) : Heads held (.var v) (.var w)
  | tuple {as bs : List Term} (h : List.Forall₂ (Term.Twin held) as bs) :
      Heads held (.tuple as) (.tuple bs)
  | map {d e : Env} {kind : MapKind} (h : d.Twin held e) (hkind : held kind) :
      Heads held (.map d kind) (.map e kind)
  | box {a b : Term} {s t : Ty} (h : a.Twin held b) (hty : s.Twin held t) :
      Heads held (.box a s) (.box b t)
  | lit (l : Literal) : Heads held (.lit l) (.lit l)
  | letIn (v w : Var) (a b c d : Term) (s t : Trace) : Heads held (.letIn v a c s) (.letIn w b d t)
  | state (a b c d : Term) (s t : Trace) : Heads held (.state a c s) (.state b d t)
  | op (o : Op) (as bs : List Term) (s t : Ty) : Heads held (.op o as s) (.op o bs t)
  | call (key : Key) (kind : PointKind) (vs ws : List Var) (s t : Ty) :
      Heads held (.call key kind vs s) (.call key kind ws t)

lemma Twin.heads (h : a.Twin held b) : Heads held a b := by
  have hsame := h.same
  cases a <;> cases b <;> simp only [canon, reduceCtorEq] at hsame
  · exact .type (twin_type_iff.1 h)
  · exact .var (twin_var_iff.1 h)
  · exact .tuple (twin_tuple_iff.1 h)
  · obtain ⟨hm, rfl, hk⟩ := twin_map_iff.1 h
    exact .map hm hk
  · obtain ⟨h, hty⟩ := twin_box_iff.1 h
    exact .box h hty
  · cases hsame
    exact .lit _
  · exact .letIn ..
  · exact .state ..
  · rw [Term.op.injEq] at hsame
    rw [hsame.1]
    exact .op ..
  · rw [Term.call.injEq] at hsame
    rw [hsame.1, hsame.2.1]
    exact .call ..

lemma Twin.ty (h : a.Twin held b) : a.ty.Twin held b.ty :=
  ⟨ty_of_canon h.same, fun k hk => h.held k (kinds_ty a hk)⟩

lemma Twin.lit? (h : a.Twin held b) : a.lit? = b.lit? := by
  rw [← lit?_canon, h.same, lit?_canon]

lemma Twin.bool? (h : a.Twin held b) : a.bool? = b.bool? := by
  rw [Term.bool?, Term.bool?, Twin.lit? h]

end Term

/-! ### Environments -/

namespace Fields

variable {m n : Fields Term}

lemma twin_nil : Fields.Twin held [] [] := .refl fun _ h => absurd h List.not_mem_nil

lemma twin_cons_iff {x y : Name} {s t : Term} :
    Fields.Twin held ((x, s) :: m) ((y, t) :: n) ↔
      (x = y ∧ s.Twin held t) ∧ Fields.Twin held m n := by
  rw [twin_iff, List.forall₂_cons, ← twin_iff]

lemma Twin.append {m' n' : Fields Term} (h : Fields.Twin held m n) (h' : Fields.Twin held m' n') :
    Fields.Twin held (m ++ m') (n ++ n') :=
  twin_iff.2 (List.rel_append (twin_iff.1 h) (twin_iff.1 h'))

lemma Twin.get? (h : Fields.Twin held m n) (x : Name) :
    Option.Rel (Term.Twin held) (Fields.get? m x) (Fields.get? n x) :=
  get?_rel (twin_iff.1 h) x

lemma Twin.ofList {l r : List (Name × Term)} (h : Fields.Twin held l r) :
    Fields.Twin held (ofList l) (ofList r) := by
  refine ⟨by rw [ofList_canon, ofList_canon, h.same], fun k hk => ?_⟩
  obtain ⟨e, he, hk⟩ := mem_kinds.1 hk
  exact h.held k (mem_kinds.2 ⟨e, mem_ofList he, hk⟩)

end Fields

namespace Env

variable {d e : Env}

lemma twin_iff : d.Twin held e ↔ Fields.Twin held d.visible e.visible := by
  constructor
  · intro ⟨h, hk⟩
    rw [kinds_eq] at hk
    exact ⟨canon_eq_iff.1 h, hk⟩
  · intro ⟨h, hk⟩
    refine ⟨canon_eq_iff.2 h, ?_⟩
    rw [kinds_eq]
    exact hk

lemma Twin.get? (h : d.Twin held e) (hd : d.Ascending) (he : e.Ascending) (x : Name) :
    Option.Rel (Term.Twin held) (d.get? x) (e.get? x) := by
  rw [hd.get?_eq, he.get?_eq]
  exact (twin_iff.1 h).get? x

end Env

/-! ### Tables -/

namespace Interner

variable {α : Type} [BEq α] {R : α → α → Prop}

/-- Related values get one symbol in related tables, and related representatives. -/
theorem intern_of_related (hR : ∀ {a a' b b'}, R a a' → R b b' → (a == b) = (a' == b'))
    {t t' : Interner α} (ht : List.Forall₂ R t.entries t'.entries) {a a' : α} (ha : R a a') :
    (t.intern a).1.symbol = (t'.intern a').1.symbol ∧
      R (t.intern a).1.value (t'.intern a').1.value ∧
      List.Forall₂ R (t.intern a).2.entries (t'.intern a').2.entries := by
  have hsymbol : t.symbol? a = t'.symbol? a' := by
    rw [symbol?, symbol?]
    generalize t.entries = es at ht
    generalize t'.entries = es' at ht
    induction ht with
    | nil => rfl
    | cons h _ ih => rw [List.findIdx?_cons, List.findIdx?_cons, hR h ha, ih]
  have hlength := ht.length_eq
  cases hs : t.symbol? a with
  | none =>
    rw [intern_of_symbol?_eq_none hs, intern_of_symbol?_eq_none (hsymbol ▸ hs)]
    exact ⟨hlength, ha, List.rel_append ht (.cons ha .nil)⟩
  | some s =>
    obtain ⟨htable, hget⟩ := intern_of_symbol?_eq_some hs
    obtain ⟨htable', hget'⟩ := intern_of_symbol?_eq_some (hsymbol ▸ hs)
    obtain ⟨hsym, hvalue⟩ := get?_eq_some_iff.1 hget
    obtain ⟨hsym', hvalue'⟩ := get?_eq_some_iff.1 hget'
    rw [htable, htable', hsym, hsym']
    obtain ⟨hlt, hvalue⟩ := List.getElem?_eq_some_iff.1 hvalue
    obtain ⟨hlt', hvalue'⟩ := List.getElem?_eq_some_iff.1 hvalue'
    refine ⟨rfl, ?_, ht⟩
    rw [← hvalue, ← hvalue']
    exact ht.get hlt hlt'

end Interner

lemma Fields.sameContent_of_twin {m m' n n' : Fields Term} (hm : Fields.Twin held m m')
    (hn : Fields.Twin held n n') : Fields.sameContent m n = Fields.sameContent m' n' := by
  rw [Bool.eq_iff_iff, Fields.sameContent_iff, Fields.sameContent_iff, ← Fields.code_canon m,
    ← Fields.code_canon n, hm.same, hn.same, Fields.code_canon, Fields.code_canon]

/-- Tables of environments with twins under each symbol. -/
abbrev EnvTable.Twin (held : MapKind → Prop) (t t' : EnvTable) : Prop :=
  List.Forall₂ (Fields.Twin held) t.entries t'.entries

lemma EnvTable.Twin.enter {t t' : EnvTable} (ht : EnvTable.Twin held t t') {m m' : Fields Term}
    (hm : Fields.Twin held m m') :
    (t.enter m).1.symbol = (t'.enter m').1.symbol ∧
      Fields.Twin held (t.enter m).1.value (t'.enter m').1.value ∧
      EnvTable.Twin held (t.enter m).2 (t'.enter m').2 :=
  letI : BEq (Fields Term) := ⟨Fields.sameContent⟩
  Interner.intern_of_related (fun h k => Fields.sameContent_of_twin h k) ht hm

end Residual
