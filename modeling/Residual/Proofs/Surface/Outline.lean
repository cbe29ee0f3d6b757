import Residual.Proofs.Surface.Building

/-!
The core language, and what its code computes.

An outline is an expression without what has no bearing on its value: symbols, positions, lists
of captures, and the operation that makes a value run-time data. The core consists of variables,
literals, functions, tuples, application, conditionals and the operations on literals and tuples.

A store that was made by entering nodes hands out one expression for each symbol. From such a
store the filter takes core code to code of the same outline.
-/

namespace Residual

/-- A function that has a name for itself is recursive. -/
inductive Outline where
  | var (x : Name)
  | lit (l : Literal)
  | function (this : Option Name) (param : Name) (body : Outline)
  | tuple (items : List Outline)
  | op (o : Op) (args : List Outline)
  | other

/-- Making a value run-time data does not change what it is. -/
def Outline.ofOp : Op → List Outline → Outline
  | .dynamize, [a] => a
  | o, args => .op o args

mutual

def Expr.outline : Expr → Outline
  | .node _ kind => kind.outline

def ExprKind.outline : ExprKind → Outline
  | .var x => .var x
  | .lit l => .lit l
  | .pattern _ => .other
  | .function param body => .function none param body.outline
  | .filtered _ param body => .function none param body.outline
  | .recFunction this param body => .function (some this) param body.outline
  | .tuple items => .tuple (Expr.outlines items)
  | .op o args => .ofOp o (Expr.outlines args)
  | .pos _ e => e.outline

def Expr.outlines : List Expr → List Outline
  | [] => []
  | e :: rest => e.outline :: Expr.outlines rest

end

/-- An operation of the core. -/
def Op.InCore : Op → Prop
  | .apply | .cond | .tuple _ => True
  | .prim op => op ≠ .convert
  | _ => False

mutual

/-- The outline is one of the core. -/
def Outline.Core : Outline → Prop
  | .var _ | .lit _ => True
  | .function _ _ body => body.Core
  | .tuple items => Outline.AllCore items
  | .op o args => o.InCore ∧ Outline.AllCore args
  | .other => False

def Outline.AllCore : List Outline → Prop
  | [] => True
  | o :: rest => o.Core ∧ Outline.AllCore rest

end

namespace Expr

lemma outlines_eq_map (es : List Expr) : outlines es = es.map outline := by
  induction es with
  | nil => rfl
  | cons e rest ih => rw [outlines, ih, List.map_cons]

end Expr

namespace Outline

lemma allCore_iff {os : List Outline} : AllCore os ↔ ∀ o ∈ os, o.Core := by
  induction os with
  | nil => simp [AllCore]
  | cons o rest ih => simp [AllCore, ih]

/-- What a node of a core operation is: its operands are core, and either it makes its only
operand run-time data or its outline is that of the operation. -/
theorem Core.ofOp {o : Op} {args : List Outline} (h : (ofOp o args).Core) :
    AllCore args ∧
      ((o = .dynamize ∧ ∃ a, args = [a] ∧ ofOp o args = a) ∨
        (o.InCore ∧ ofOp o args = .op o args)) := by
  unfold Outline.ofOp at h ⊢
  split at h
  · rename_i a
    exact ⟨⟨h, trivial⟩, .inl ⟨rfl, a, rfl, rfl⟩⟩
  · exact ⟨h.2, .inr ⟨h.1, rfl⟩⟩

end Outline

lemma Expr.allCore_outlines {es : List Expr} :
    Outline.AllCore (Expr.outlines es) ↔ ∀ e ∈ es, e.outline.Core := by
  rw [Outline.allCore_iff, Expr.outlines_eq_map, List.forall_mem_map]

/-! ### Nodes of a store -/

/-- Lists are equal if their items are as soon as they compare so. -/
theorem List.eq_of_beq_items {α : Type} [BEq α] {as bs : List α}
    (h : ∀ a ∈ as, ∀ b ∈ bs, (a == b) = true → a = b) (hbeq : (as == bs) = true) : as = bs := by
  induction as generalizing bs with
  | nil => cases bs with
    | nil => rfl
    | cons b bs => cases hbeq
  | cons a as ih =>
    cases bs with
    | nil => cases hbeq
    | cons b bs =>
      rw [List.cons_beq_cons, Bool.and_eq_true] at hbeq
      rw [h a (List.mem_cons_self ..) b (List.mem_cons_self ..) hbeq.1, ih (fun a ha b hb =>
        h a (List.mem_cons_of_mem _ ha) b (List.mem_cons_of_mem _ hb)) hbeq.2]

/-- The expressions that a node is built from, patterns apart. -/
def ExprKind.parts : ExprKind → List Expr
  | .function _ body | .filtered _ _ body | .recFunction _ _ body => [body]
  | .tuple es | .op _ es => es
  | .pos _ e => [e]
  | .var _ | .lit _ | .pattern _ => []

/-- The expression is the one that the table has under its symbol. -/
def Expr.In (e : Expr) (t : Interner ExprKind) : Prop := t.entries[e.symbol]? = some e.kind

/-- Nodes are built from expressions of the table. -/
def Interner.Closed (t : Interner ExprKind) : Prop :=
  ∀ kind ∈ t.entries, ∀ e ∈ kind.parts, e.In t

namespace Expr.In

variable {t u : Interner ExprKind} {a b e : Expr}

lemma mono (h : e.In t) (ht : t.Extends u) : e.In u := ht.getElem? h

/-- One symbol stands for one expression. -/
theorem eq (ha : a.In t) (hb : b.In t) (h : a.symbol = b.symbol) : a = b := by
  obtain ⟨s, k⟩ := a
  obtain ⟨s', k'⟩ := b
  have hs : s = s' := h
  subst hs
  have hk : some k = some k' := ha.symm.trans hb
  cases hk
  rfl

lemma eq_of_beq (ha : a.In t) (hb : b.In t) (h : (a == b) = true) : a = b :=
  ha.eq hb (by simpa [BEq.beq] using h)

lemma eq_of_beq_all {as bs : List Expr} (ha : ∀ a ∈ as, a.In t) (hb : ∀ b ∈ bs, b.In t)
    (h : (as == bs) = true) : as = bs :=
  List.eq_of_beq_items (fun a hin b hin' => (ha a hin).eq_of_beq (hb b hin')) h

lemma parts (h : e.In t) (ht : t.Closed) : ∀ p ∈ e.kind.parts, p.In t :=
  ht e.kind (List.mem_of_getElem? h)

end Expr.In

/-- Nodes that are built alike from expressions of one table have one outline. -/
lemma ExprKind.outline_eq_of_same {t : Interner ExprKind} {k l : ExprKind}
    (hk : ∀ e ∈ k.parts, e.In t) (hl : ∀ e ∈ l.parts, e.In t) (h : k.same l = true) :
    k.outline = l.outline := by
  unfold same at h
  split at h <;> try simp only [Bool.and_eq_true, beq_iff_eq] at h
  · rw [h]
  · rw [h]
  · rfl
  · rw [h.1, (hk _ (List.mem_singleton_self _)).eq_of_beq (hl _ (List.mem_singleton_self _)) h.2]
  · rw [outline, outline, h.1.2,
      (hk _ (List.mem_singleton_self _)).eq_of_beq (hl _ (List.mem_singleton_self _)) h.2]
  · rw [h.1.1, h.1.2,
      (hk _ (List.mem_singleton_self _)).eq_of_beq (hl _ (List.mem_singleton_self _)) h.2]
  · have hes := Expr.In.eq_of_beq_all hk hl h
    exact congrArg (outline ∘ tuple) hes
  · have hes := Expr.In.eq_of_beq_all hk hl h.2
    rw [h.1]
    exact congrArg (outline ∘ op _) hes
  · rw [outline, outline,
      (hk _ (List.mem_singleton_self _)).eq_of_beq (hl _ (List.mem_singleton_self _)) h]
  · cases h

lemma Interner.Closed.intern {t : Interner ExprKind} (ht : t.Closed) {kind : ExprKind}
    (hk : ∀ e ∈ kind.parts, e.In t) :
    (t.intern kind).2.Closed := by
  intro k hmem e he
  have hext : t.Extends (t.intern kind).2 := extends_intern t kind
  rcases entries_intern t kind k hmem with rfl | hmem
  · exact (hk e he).mono hext
  · exact (ht k hmem e he).mono hext

/-- The node that stands for a new one has its outline. -/
lemma Interner.outline_intern {t : Interner ExprKind} (ht : t.Closed) {kind : ExprKind}
    (hk : ∀ e ∈ kind.parts, e.In t) : (t.intern kind).1.value.outline = kind.outline := by
  cases hs : t.symbol? kind with
  | none => rw [intern_of_symbol?_eq_none hs]
  | some s =>
    have hget := (get?_eq_some_iff.1 (intern_of_symbol?_eq_some hs).2).2
    obtain ⟨hlt, hsame, -⟩ := List.findIdx?_eq_some_iff_getElem.1 hs
    rw [List.getElem?_eq_getElem hlt, Option.some.injEq] at hget
    rw [← hget]
    exact ExprKind.outline_eq_of_same (ht _ (List.getElem_mem hlt)) hk hsame

/-! ### Filtering -/

/-- The expressions of the store are built from one another, and what the filter made of core
code is code of the same outline. -/
structure Store.Faithful (st : Store) : Prop where
  closed : st.exprs.Closed
  filtered : ∀ {s done}, st.filtered.lookup s = some done → ∃ e : Expr, e.In st.exprs ∧
    e.symbol = s ∧ (e.outline.Core → done.In st.exprs ∧ done.outline = e.outline)

lemma Store.faithful_new (names : Names) : Store.Faithful { names } :=
  ⟨fun _ h => absurd h List.not_mem_nil, fun h => nomatch h⟩

namespace Build

/-- The work leaves the expressions of the store as they are, and what was filtered. -/
def Spares {α : Type} (act : Build α) : Prop :=
  ∀ st, (act.run st).2.exprs = st.exprs ∧ (act.run st).2.filtered = st.filtered

namespace Spares

variable {α β : Type}

protected lemma pure (a : α) : Spares (pure a) := fun _ => ⟨rfl, rfl⟩

protected lemma bind {act : Build α} {f : α → Build β} (ha : Spares act)
    (hf : ∀ a, Spares (f a)) : Spares (act >>= f) := by
  intro st
  obtain ⟨h1, h2⟩ := ha st
  obtain ⟨h3, h4⟩ := hf (act.run st).1 (act.run st).2
  exact ⟨h3.trans h1, h4.trans h2⟩

lemma faithful {act : Build α} (h : Spares act) {st : Store} (hst : st.Faithful) :
    (act.run st).2.Faithful := by
  obtain ⟨h1, h2⟩ := h st
  refine ⟨?_, ?_⟩
  · rw [h1]
    exact hst.closed
  · rw [h1, h2]
    exact hst.filtered

end Spares

section FreeNames

variable (unfold : Pattern → Build (List Name))

mutual

lemma spares_freeNamesWith (e : Expr) (he : e.outline.Core) :
    Spares (freeNamesWith unfold e) := by
  match e with
  | .node symbol kind =>
    intro st
    rw [freeNamesWith]
    simp only [StateT.run_bind, StateT.run_get, pure_bind]
    cases hl : st.freeNames.lookup symbol with
    | some names => exact ⟨rfl, rfl⟩
    | none => exact spares_freeNamesOfKind kind he st
termination_by structural e

lemma spares_freeNamesOfKind (kind : ExprKind) (hk : kind.outline.Core) :
    Spares (freeNamesOfKind unfold kind) := by
  match kind with
  | .var x => exact .pure _
  | .lit l => exact .pure _
  | .pattern p => exact hk.elim
  | .function param body => exact (spares_freeNamesWith body hk).bind fun _ => .pure _
  | .filtered _ param body => exact (spares_freeNamesWith body hk).bind fun _ => .pure _
  | .recFunction this param body => exact (spares_freeNamesWith body hk).bind fun _ => .pure _
  | .tuple items => exact spares_freeNamesOfAll [] items hk
  | .op _ args => exact spares_freeNamesOfAll [] args (Outline.Core.ofOp hk).1
  | .pos _ e => exact spares_freeNamesWith e hk
termination_by structural kind

lemma spares_freeNamesOfAll (out : List Name) (es : List Expr)
    (he : Outline.AllCore (Expr.outlines es)) : Spares (freeNamesOfAll unfold out es) := by
  match es with
  | [] => exact .pure _
  | e :: rest =>
    exact (spares_freeNamesWith e he.1).bind fun _ => spares_freeNamesOfAll _ rest he.2
termination_by structural es

end

end FreeNames

lemma spares_freeNameSet {e : Expr} (he : e.outline.Core) : Spares (freeNameSet e) :=
  fun st => spares_freeNamesWith _ e he st

/-- From a faithful store the work only adds expressions, and the store stays faithful. -/
def Keeps {α : Type} (st : Store) (act : Build α) (Q : α → Interner ExprKind → Prop) : Prop :=
  st.Faithful → st.exprs.Extends (act.run st).2.exprs ∧ (act.run st).2.Faithful ∧
    Q (act.run st).1 (act.run st).2.exprs

namespace Keeps

variable {α β : Type} {st : Store} {act : Build α} {f : α → Build β}
  {P P' : α → Interner ExprKind → Prop} {Q : β → Interner ExprKind → Prop}

protected lemma pure {a : α} (h : P a st.exprs) : Keeps st (pure a) P :=
  fun hst => ⟨.refl _, hst, h⟩

protected lemma bind (ha : Keeps st act P)
    (hf : ∀ a st', st.exprs.Extends st'.exprs → P a st'.exprs → Keeps st' (f a) Q) :
    Keeps st (act >>= f) Q := by
  intro hst
  obtain ⟨hext, hst', hP⟩ := ha hst
  obtain ⟨hext', hst'', hQ⟩ := hf _ _ hext hP hst'
  exact ⟨hext.trans hext', hst'', hQ⟩

lemma imp (ha : Keeps st act P) (h : ∀ a t, P a t → P' a t) : Keeps st act P' :=
  fun hst => let ⟨h1, h2, h3⟩ := ha hst; ⟨h1, h2, h _ _ h3⟩

lemma of_spares (h : Spares act) : Keeps st act fun _ _ => True := by
  intro hst
  refine ⟨?_, h.faithful hst, trivial⟩
  rw [(h st).1]
  exact .refl _

end Keeps

/-- An expression of the table with the given outline. -/
def Drawn (o : Outline) (e : Expr) (t : Interner ExprKind) : Prop := e.In t ∧ e.outline = o

lemma Drawn.mono {o : Outline} {e : Expr} {t u : Interner ExprKind} (h : Drawn o e t)
    (ht : t.Extends u) : Drawn o e u :=
  ⟨h.1.mono ht, h.2⟩

lemma keeps_expr {st : Store} (kind : ExprKind) (hk : ∀ e ∈ kind.parts, e.In st.exprs) :
    Keeps st (expr kind) (Drawn kind.outline) := by
  intro hst
  have hext : st.exprs.Extends (st.exprs.intern kind).2 := Interner.extends_intern ..
  have hget := Interner.get?_intern_symbol st.exprs kind
  refine ⟨hext, ⟨hst.closed.intern hk, fun {s done} hdone => ?_⟩, ?_, ?_⟩
  · obtain ⟨e, he, hs, hsound⟩ := hst.filtered hdone
    refine ⟨e, he.mono hext, hs, fun hcore => ?_⟩
    obtain ⟨hin, hout⟩ := hsound hcore
    exact ⟨hin.mono hext, hout⟩
  · exact (Interner.get?_eq_some_iff.1 hget).2
  · exact Interner.outline_intern hst.closed hk

section Filter

variable (unfold : Pattern → Build Expr)

/-- Expressions of the table with the given outlines. -/
def AllDrawn (os : List Outline) (es : List Expr) (t : Interner ExprKind) : Prop :=
  (∀ e ∈ es, e.In t) ∧ Expr.outlines es = os

mutual

lemma keeps_filterWith (e : Expr) (st : Store) (he : e.In st.exprs) (hcore : e.outline.Core) :
    Keeps st (filterWith unfold e) (Drawn e.outline) := by
  match e with
  | .node symbol kind =>
    intro hst
    rw [filterWith]
    simp only [StateT.run_bind, StateT.run_get, pure_bind]
    cases hl : st.filtered.lookup symbol with
    | some done =>
      obtain ⟨e, hin, hs, hsound⟩ := hst.filtered hl
      have heq : e = .node symbol kind := hin.eq he hs
      subst heq
      exact ⟨.refl _, hst, hsound hcore⟩
    | none =>
      obtain ⟨hext, hst', hdone⟩ := keeps_filterKind symbol kind st he hcore hst
      refine ⟨hext, ⟨hst'.closed, fun {s done} hdone' => ?_⟩, hdone⟩
      -- The new entry comes first; every other lookup finds what it found before.
      have hlookup : ((symbol, _) :: _ : List (Nat × Expr)).lookup s = some done := hdone'
      rw [List.lookup_cons] at hlookup
      split at hlookup
      · rename_i hs
        cases hlookup
        exact ⟨.node symbol kind, he.mono hext, (beq_iff_eq.1 hs).symm, fun _ => hdone⟩
      · exact hst'.filtered hlookup
termination_by structural e

lemma keeps_filterKind (symbol : Nat) (kind : ExprKind) (st : Store)
    (he : (Expr.node symbol kind).In st.exprs) (hcore : kind.outline.Core) :
    Keeps st (filterKind unfold symbol kind) (Drawn kind.outline) := by
  intro hst
  have hparts : ∀ e ∈ kind.parts, e.In st.exprs := he.parts hst.closed
  revert hst
  change Keeps st _ _
  match kind with
  | .var x => exact .pure ⟨he, rfl⟩
  | .lit l => exact .pure ⟨he, rfl⟩
  | .pattern p => exact hcore.elim
  -- Functions get their captures; the outline does not show them.
  | .function param body =>
    have hbody := hparts body (List.mem_singleton_self _)
    have hnames := spares_freeNameSet (e := .node symbol (.function param body)) hcore
    refine (Keeps.of_spares hnames).bind fun used st₁ hext _ => ?_
    refine (keeps_filterWith body st₁ (hbody.mono hext) hcore).bind fun b st₂ _ hb => ?_
    refine (keeps_expr (.filtered used param b) fun e he => ?_).imp fun e t he => ?_
    · rw [List.mem_singleton.1 he]
      exact hb.1
    · exact ⟨he.1, he.2.trans (congrArg (Outline.function none param) hb.2)⟩
  | .filtered listed param body =>
    have hbody := hparts body (List.mem_singleton_self _)
    have hnames := spares_freeNameSet (e := .node symbol (.filtered listed param body)) hcore
    refine (Keeps.of_spares hnames).bind fun used st₁ hext _ => ?_
    refine (keeps_filterWith body st₁ (hbody.mono hext) hcore).bind fun b st₂ _ hb => ?_
    refine (keeps_expr (.filtered used param b) fun e he => ?_).imp fun e t he => ?_
    · rw [List.mem_singleton.1 he]
      exact hb.1
    · exact ⟨he.1, he.2.trans (congrArg (Outline.function none param) hb.2)⟩
  | .recFunction this param body =>
    have hbody := hparts body (List.mem_singleton_self _)
    refine (keeps_filterWith body st hbody hcore).bind fun b st₂ _ hb => ?_
    refine (keeps_expr (.recFunction this param b) fun e he => ?_).imp fun e t he => ?_
    · rw [List.mem_singleton.1 he]
      exact hb.1
    · exact ⟨he.1, he.2.trans (congrArg (Outline.function (some this) param) hb.2)⟩
  -- The others keep their shape.
  | .tuple items =>
    refine (keeps_filterAll items st hparts hcore).bind fun es st₁ _ hes => ?_
    exact (keeps_expr (.tuple es) hes.1).imp fun e t he =>
      ⟨he.1, he.2.trans (congrArg Outline.tuple hes.2)⟩
  | .op o args =>
    refine (keeps_filterAll args st hparts (Outline.Core.ofOp hcore).1).bind fun es st₁ _ hes => ?_
    exact (keeps_expr (.op o es) hes.1).imp fun e t he =>
      ⟨he.1, he.2.trans (congrArg (Outline.ofOp o) hes.2)⟩
  | .pos span e =>
    have hin := hparts e (List.mem_singleton_self _)
    refine (keeps_filterWith e st hin hcore).bind fun b st₁ _ hb => ?_
    refine (keeps_expr (.pos span b) fun e he => ?_).imp fun e t he => ⟨he.1, he.2.trans hb.2⟩
    rw [List.mem_singleton.1 he]
    exact hb.1
termination_by structural kind

lemma keeps_filterAll (es : List Expr) (st : Store) (he : ∀ e ∈ es, e.In st.exprs)
    (hcore : Outline.AllCore (Expr.outlines es)) :
    Keeps st (filterAll unfold es) (AllDrawn (Expr.outlines es)) := by
  match es with
  | [] => exact .pure ⟨fun _ h => absurd h List.not_mem_nil, rfl⟩
  | e :: rest =>
    have hfirst := he e (List.mem_cons_self ..)
    have hrest : ∀ e ∈ rest, e.In st.exprs := fun e h => he e (List.mem_cons_of_mem _ h)
    refine (keeps_filterWith e st hfirst hcore.1).bind fun a st₁ hext ha => ?_
    refine (keeps_filterAll rest st₁ (fun e h => (hrest e h).mono hext) hcore.2).bind
      fun as st₂ hext' has => ?_
    refine .pure ⟨List.forall_mem_cons.2 ⟨ha.1.mono hext', has.1⟩, ?_⟩
    rw [Expr.outlines, Expr.outlines, ha.2, has.2]
termination_by structural es

end

end Filter

/-- The filter takes core code to code of the same outline. -/
theorem keeps_filter {e : Expr} {st : Store} (he : e.In st.exprs) (hcore : e.outline.Core) :
    Keeps st (filter e) (Drawn e.outline) :=
  keeps_filterWith _ e st he hcore

end Build

end Residual
