import Residual.Proofs.Surface.Lowering
import Residual.Proofs.Surface.Outline

/-!
Code of a store, and work that keeps to it.

The code of a store is built from the nodes of its table of expressions, down to the expressions
inside patterns. What is entered into a store, and what was worked out for its nodes, is made of
such code. The judgement `Enters` says so of work on a store. It speaks of the table that the store
ends with, so that code does not have to be carried from one table to the next.

Recorded lists of free names are right for code that is listed: no pattern is left to lower in it,
and where a function lists its captures, the list is right.
-/

namespace Residual

/-! ### Code of a table -/

/-- The expression is the one that the table has under its symbol, and so are all that it is built
from. -/
inductive Expr.Held (t : Interner ExprKind) : Expr → Prop
  | intro {e : Expr} (mem : e.In t) (codes : ∀ c ∈ e.kind.codes, Expr.Held t c) : Expr.Held t e

namespace Expr.Held

variable {t u : Interner ExprKind} {e : Expr}

lemma mem (h : e.Held t) : e.In t := by
  cases h
  assumption

lemma codes (h : e.Held t) : ∀ c ∈ e.kind.codes, c.Held t := by
  cases h
  assumption

lemma mono (h : e.Held t) (ht : t.Extends u) : e.Held u := by
  induction h with
  | intro hin _ ih => exact .intro (hin.mono ht) ih

end Expr.Held

/-- Two nodes that stand for each other: they are the same, but for the position of a mark. Of
patterns nothing is said. -/
def ExprKind.Agrees : ExprKind → ExprKind → Prop
  | .pattern _, .pattern _ => True
  | .pos _ e, .pos _ f => e = f
  | k, l => k = l

lemma ExprKind.Agrees.of_eq {k l : ExprKind} (h : k = l) : k.Agrees l := by
  subst h
  cases k <;> trivial

/-- The node is neither a pattern nor a mark. -/
def ExprKind.Plain : ExprKind → Prop
  | .pattern _ | .pos _ _ => False
  | _ => True

lemma ExprKind.Agrees.eq {k l : ExprKind} (h : k.Agrees l) (hl : l.Plain) : k = l := by
  cases k <;> cases l <;> first | exact h | exact hl.elim

lemma ExprKind.agrees_of_same {t : Interner ExprKind} {k l : ExprKind}
    (hk : ∀ e ∈ k.codes, e.In t) (hl : ∀ e ∈ l.codes, e.In t) (h : k.same l = true) :
    k.Agrees l := by
  have hbody : ∀ {e f : Expr}, (∀ c ∈ [e], c.In t) → (∀ c ∈ [f], c.In t) → (e == f) = true →
      e = f := fun he hf =>
    Expr.In.eq_of_beq (he _ (List.mem_singleton_self _)) (hf _ (List.mem_singleton_self _))
  unfold same at h
  split at h <;> try simp only [Bool.and_eq_true, beq_iff_eq] at h
  · exact .of_eq (by rw [h])
  · exact .of_eq (by rw [h])
  · trivial
  · exact .of_eq (by rw [h.1, hbody hk hl h.2])
  · exact .of_eq (by rw [h.1.1, h.1.2, hbody hk hl h.2])
  · exact .of_eq (by rw [h.1.1, h.1.2, hbody hk hl h.2])
  · exact .of_eq (congrArg tuple (Expr.In.eq_of_beq_all hk hl h))
  · refine .of_eq ?_
    rw [h.1]
    exact congrArg (op _) (Expr.In.eq_of_beq_all hk hl h.2)
  · exact hbody hk hl h
  · cases h

/-! ### Free names -/

mutual

/-- The expression takes the name from its surroundings. -/
def Expr.Free (x : Name) : Expr → Prop
  | .node _ kind => kind.Free x

def ExprKind.Free (x : Name) : ExprKind → Prop
  | .var y => x = y
  | .lit _ | .pattern _ => False
  | .function param body | .filtered _ param body => x ≠ param ∧ body.Free x
  | .recFunction this param body => (x ≠ this ∧ x ≠ param) ∧ body.Free x
  | .tuple items | .op _ items => Expr.AnyFree x items
  | .pos _ e => e.Free x

def Expr.AnyFree (x : Name) : List Expr → Prop
  | [] => False
  | e :: rest => e.Free x ∨ Expr.AnyFree x rest

end

mutual

/-- All patterns are lowered, and where a function lists its captures, the list is right. -/
def Expr.Listed : Expr → Prop
  | .node _ kind => kind.Listed

def ExprKind.Listed : ExprKind → Prop
  | .var _ | .lit _ => True
  | .pattern _ => False
  | .filtered used param body => (∀ x, x ∈ used ↔ x ≠ param ∧ body.Free x) ∧ body.Listed
  | .function _ body | .recFunction _ _ body => body.Listed
  | .tuple items | .op _ items => Expr.AllListed items
  | .pos _ e => e.Listed

def Expr.AllListed : List Expr → Prop
  | [] => True
  | e :: rest => e.Listed ∧ Expr.AllListed rest

end

lemma Expr.anyFree_iff {x : Name} {es : List Expr} :
    Expr.AnyFree x es ↔ ∃ e ∈ es, e.Free x := by
  induction es with
  | nil => simp [Expr.AnyFree]
  | cons e rest ih => simp [Expr.AnyFree, ih]

lemma Expr.allListed_iff {es : List Expr} : Expr.AllListed es ↔ ∀ e ∈ es, e.Listed := by
  induction es with
  | nil => simp [Expr.AllListed]
  | cons e rest ih => simp [Expr.AllListed, ih]

mutual

/-- All patterns are lowered, and every function that is not recursive lists its captures. -/
def Expr.Prefiltered : Expr → Prop
  | .node _ kind => kind.Prefiltered

def ExprKind.Prefiltered : ExprKind → Prop
  | .var _ | .lit _ => True
  | .pattern _ | .function _ _ => False
  | .filtered used param body => (∀ x, x ∈ used ↔ x ≠ param ∧ body.Free x) ∧ body.Prefiltered
  | .recFunction _ _ body => body.Prefiltered
  | .tuple items | .op _ items => Expr.AllPrefiltered items
  | .pos _ e => e.Prefiltered

def Expr.AllPrefiltered : List Expr → Prop
  | [] => True
  | e :: rest => e.Prefiltered ∧ Expr.AllPrefiltered rest

end

mutual

lemma Expr.Prefiltered.listed (e : Expr) (h : e.Prefiltered) : e.Listed := by
  match e with
  | .node _ kind => exact ExprKind.Prefiltered.listed kind h
termination_by structural e

lemma ExprKind.Prefiltered.listed (kind : ExprKind) (h : kind.Prefiltered) : kind.Listed := by
  match kind with
  | .var _ | .lit _ => trivial
  | .pattern _ | .function _ _ => exact h.elim
  | .filtered _ _ body => exact ⟨h.1, Expr.Prefiltered.listed body h.2⟩
  | .recFunction _ _ body => exact Expr.Prefiltered.listed body h
  | .tuple items => exact Expr.AllPrefiltered.listed items h
  | .op _ args => exact Expr.AllPrefiltered.listed args h
  | .pos _ e => exact Expr.Prefiltered.listed e h
termination_by structural kind

lemma Expr.AllPrefiltered.listed (es : List Expr) (h : Expr.AllPrefiltered es) :
    Expr.AllListed es := by
  match es with
  | [] => trivial
  | e :: rest => exact ⟨Expr.Prefiltered.listed e h.1, Expr.AllPrefiltered.listed rest h.2⟩
termination_by structural es

end

lemma Expr.allPrefiltered_iff {es : List Expr} :
    Expr.AllPrefiltered es ↔ ∀ e ∈ es, e.Prefiltered := by
  induction es with
  | nil => simp [Expr.AllPrefiltered]
  | cons e rest ih => simp [Expr.AllPrefiltered, ih]

/-- The code is what listed code `e` becomes when it is made ready: it is prefiltered, and takes
the same names from its surroundings. -/
structure Expr.Readies (e done : Expr) : Prop where
  prefiltered : done.Prefiltered
  free : ∀ x, done.Free x ↔ e.Free x

/-! ### Stores -/

/-- Everything in the store is made of code of the table. What was recorded for listed code is
right: its free names, and what it becomes when it is made ready. -/
structure Store.Within (t : Interner ExprKind) (st : Store) : Prop where
  exprs : ∀ kind ∈ st.exprs.entries, ∀ c ∈ kind.codes, c.Held t
  lowered : ∀ e ∈ st.lowered, e.2.Held t
  filtered : ∀ e ∈ st.filtered, e.2.Held t ∧ ∃ c : Expr, c.In t ∧ c.symbol = e.1 ∧
    (c.Listed → c.Readies e.2)
  freeNames : ∀ e ∈ st.freeNames, ∃ c : Expr, c.In t ∧ c.symbol = e.1 ∧
    (c.Listed → ∀ x, x ∈ e.2 ↔ c.Free x)

/-- The store is made of its own code. -/
abbrev Store.Coherent (st : Store) : Prop := st.Within st.exprs

lemma Store.Within.mono {t u : Interner ExprKind} {st : Store} (h : st.Within t)
    (ht : t.Extends u) : st.Within u := by
  refine ⟨fun k hk c hc => (h.exprs k hk c hc).mono ht, fun e he => (h.lowered e he).mono ht,
    fun e he => ?_, fun e he => ?_⟩
  · obtain ⟨hheld, c, hc, hsymbol, hready⟩ := h.filtered e he
    exact ⟨hheld.mono ht, c, hc.mono ht, hsymbol, hready⟩
  · obtain ⟨c, hc, hsymbol, hnames⟩ := h.freeNames e he
    exact ⟨c, hc.mono ht, hsymbol, hnames⟩

lemma Store.coherent_new (names : Names) : Store.Coherent { names } :=
  ⟨fun _ h => absurd h List.not_mem_nil, fun _ h => absurd h List.not_mem_nil,
    fun _ h => absurd h List.not_mem_nil, fun _ h => absurd h List.not_mem_nil⟩

namespace Build

variable {α β : Type} {t : Interner ExprKind}

/-! ### Work on a store of code -/

/-- Work that ends with a part of the table `t` makes a store of code of `t` from one, and its
result has the property. -/
def Enters (t : Interner ExprKind) (act : Build α) (Q : α → Prop) : Prop :=
  ∀ st : Store, st.Within t → (act.run st).2.exprs.Extends t →
    (act.run st).2.Within t ∧ Q (act.run st).1

namespace Enters

variable {act : Build α} {f : α → Build β} {P P' : α → Prop} {Q : β → Prop}

protected lemma pure {a : α} (h : P a) : Enters t (Pure.pure a) P := fun _ hst _ => ⟨hst, h⟩

/-- The table that the first work ends with is part of the one that the second ends with. -/
protected theorem bind [hadds : ∀ a, Adds (f a)] (ha : Enters t act P)
    (hf : ∀ a, P a → Enters t (f a) Q) : Enters t (act >>= f) Q := by
  intro st hst hext
  obtain ⟨hst', hP⟩ := ha st hst (((hadds _).grows _).exprs.trans hext)
  exact hf _ hP _ hst' hext

lemma imp (ha : Enters t act P) (h : ∀ a, P a → P' a) : Enters t act P' :=
  fun st hst hext => ⟨(ha st hst hext).1, h _ (ha st hst hext).2⟩

end Enters

lemma enters_fresh (hint : String) : Enters t (fresh hint) fun _ => True :=
  fun _ hst _ => ⟨⟨hst.exprs, hst.lowered, hst.filtered, hst.freeNames⟩, trivial⟩

lemma enters_name (s : String) : Enters t (name s) fun _ => True :=
  fun _ hst _ => ⟨⟨hst.exprs, hst.lowered, hst.filtered, hst.freeNames⟩, trivial⟩

/-- The node that is entered stands for the given one. -/
theorem enters_kind {kind : ExprKind} (hk : ∀ c ∈ kind.codes, c.Held t) :
    Enters t (expr kind) fun e => e.Held t ∧ e.kind.Agrees kind := by
  intro st hst hext
  have hmem := (Interner.get?_eq_some_iff.1 (Interner.get?_intern_symbol st.exprs kind)).2
  refine ⟨⟨fun k hmem c hc => ?_, hst.lowered, hst.filtered, hst.freeNames⟩,
    .intro (hext.getElem? hmem) fun c hc => ?_, ?_⟩
  · rcases Interner.entries_intern st.exprs kind k hmem with rfl | hmem
    · exact hk c hc
    · exact hst.exprs k hmem c hc
  · rcases Interner.intern_mem st.exprs kind with hv | hv
    · exact hk c (hv ▸ hc)
    · exact hst.exprs _ hv c hc
  · change (st.exprs.intern kind).1.value.Agrees kind
    cases hs : st.exprs.symbol? kind with
    | none =>
      rw [Interner.intern_of_symbol?_eq_none hs]
      exact .of_eq rfl
    | some s =>
      have hget := (Interner.get?_eq_some_iff.1 (Interner.intern_of_symbol?_eq_some hs).2).2
      obtain ⟨hlt, hsame, -⟩ := List.findIdx?_eq_some_iff_getElem.1 hs
      rw [List.getElem?_eq_getElem hlt, Option.some.injEq] at hget
      rw [← hget]
      refine ExprKind.agrees_of_same (fun c hc => ?_) (fun c hc => (hk c hc).mem) hsame
      exact (hst.exprs _ (List.getElem_mem hlt) c hc).mem

lemma enters_node (kind : ExprKind) (hplain : kind.Plain) (hk : ∀ c ∈ kind.codes, c.Held t) :
    Enters t (expr kind) fun e => e.Held t ∧ e.kind = kind :=
  (enters_kind hk).imp fun _ h => ⟨h.1, h.2.eq hplain⟩

lemma enters_expr {kind : ExprKind} (hk : ∀ c ∈ kind.codes, c.Held t) :
    Enters t (expr kind) (Expr.Held t) :=
  (enters_kind hk).imp fun _ h => h.1

lemma enters_var (x : Name) : Enters t (var x) (Expr.Held t) :=
  enters_expr fun _ h => absurd h List.not_mem_nil

lemma enters_lit (l : Literal) : Enters t (lit l) (Expr.Held t) :=
  enters_expr fun _ h => absurd h List.not_mem_nil

lemma enters_function {x : Name} {body : Expr} (hb : body.Held t) :
    Enters t (function x body) (Expr.Held t) :=
  enters_expr (List.forall_mem_singleton.2 hb)

/-! ### Lowering -/

/-- The patterns that stand in a table of patterns for a wildcard hold no expressions. -/
lemma enters_wildcard : Enters t (pattern .wildcard) fun p => p.codes = [] := by
  intro st hst _
  refine ⟨⟨hst.exprs, hst.lowered, hst.filtered, hst.freeNames⟩, ?_⟩
  change (st.patterns.intern .wildcard).1.value.codes = []
  cases hs : st.patterns.symbol? .wildcard with
  | none => rw [Interner.intern_of_symbol?_eq_none hs]; rfl
  | some s =>
    have hget := (Interner.get?_eq_some_iff.1 (Interner.intern_of_symbol?_eq_some hs).2).2
    obtain ⟨hlt, hsame, -⟩ := List.findIdx?_eq_some_iff_getElem.1 hs
    rw [List.getElem?_eq_getElem hlt, Option.some.injEq] at hget
    rw [← hget]
    have hkind : (st.patterns.entries[s]).same .wildcard = true := hsame
    cases hentry : st.patterns.entries[s] <;> rw [hentry] at hkind <;>
      first | rfl | cases hkind

lemma lowers_enters : Lowers (Expr.Held t) (Enters t) where
  pure := .pure
  bind := .bind
  fresh := enters_fresh
  var := enters_var
  lit := enters_lit
  function := enters_function
  unit := enters_expr fun _ h => absurd h List.not_mem_nil
  op h := enters_expr h
  wildcard := enters_wildcard.imp fun p hp c hc => by rw [hp] at hc; cases hc

lemma enters_lowerPattern {p : Pattern} (hp : ∀ c ∈ p.codes, c.Held t) :
    Enters t (lowerPattern p) (Expr.Held t) := by
  intro st hst hext
  cases hl : st.lowered.lookup p.symbol with
  | some e =>
    rw [run_lowerPattern_of_hit hl]
    exact ⟨hst, hst.lowered _ (mem_of_lookup hl)⟩
  | none =>
    rw [run_lowerPattern_of_miss hl] at hext ⊢
    obtain ⟨hst', he⟩ := lowers_enters.lowerTop hp st hst hext
    exact ⟨⟨hst'.exprs, List.forall_mem_cons.2 ⟨he, hst'.lowered⟩, hst'.filtered,
      hst'.freeNames⟩, he⟩

end Build

end Residual
