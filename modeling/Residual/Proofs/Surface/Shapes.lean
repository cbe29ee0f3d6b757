import Residual.Proofs.Surface.Identity

/-!
The shape of lowered patterns.

Lowered code is put together from a few forms: bindings, conditionals, splits, thunks and their
calls. `Pattern.Shape` says which of them matching a value against a pattern is, given the code for
success and for failure, and which names were made for it. Main statement: lowering a pattern gives
code of its shape.

The shape does not say whether a function lists its captures, and leaves open what stands for the
expressions inside the pattern, so it can be said of code that was made ready, too.
-/

namespace Residual

/-! ### Forms of code -/

/-- A function literal with one argument. -/
inductive Expr.IsFunction : Expr → Name → Expr → Prop where
  | plain {symbol : Nat} {x : Name} {b : Expr} : IsFunction (.node symbol (.function x b)) x b
  | filtered {symbol : Nat} {used : List Name} {x : Name} {b : Expr} :
    IsFunction (.node symbol (.filtered used x b)) x b

/-- A function literal that is applied at once: `let x = e in b`. -/
inductive Expr.IsLet : Expr → Name → Expr → Expr → Prop where
  | mk {symbol : Nat} {x : Name} {f e b : Expr} :
    f.IsFunction x b → IsLet (.node symbol (.op .apply [f, e])) x e b

/-- The call of the thunk that is bound to a name. -/
def Expr.IsForce (e : Expr) (k : Name) : Prop :=
  ∃ f unit : Expr, f.kind = .var k ∧ unit.kind = .tuple [] ∧ e.kind = .op .apply [f, unit]

namespace Names

/-- The text of the name starts with a space. -/
def Generated (t : Names) (x : Name) : Prop :=
  ∃ s, t.table.entries[x.index]? = some s ∧ s.toList.head? = some ' '

/-- The name was made for a place in lowered code, as number `i` of its store. -/
def Made (t : Names) (x : Name) (i : Nat) : Prop :=
  ∃ hint : String, t.table.entries[x.index]? = some s!" {hint}_{i}"

lemma Made.generated {t : Names} {x : Name} {i : Nat} (h : t.Made x i) : t.Generated x := by
  obtain ⟨hint, h⟩ := h
  exact ⟨_, h, by simp [toString]⟩

/-- The number of a made name can be read off its text: it stands after the last underscore. -/
lemma number_eq {hint other : String} {i j : Nat} (h : s!" {hint}_{i}" = s!" {other}_{j}") :
    i = j := by
  have hreverse : ∀ (hint : String) (i : Nat),
      (s!" {hint}_{i}").toList.reverse.takeWhile (· ≠ '_') = (Nat.toDigits 10 i).reverse := by
    intro hint i
    have hdigits : ∀ c ∈ (Nat.toDigits 10 i).reverse, decide (c ≠ '_') = true := by
      intro c hc
      have hdigit := Nat.isDigit_of_mem_toDigits (by decide) (by decide) (List.mem_reverse.1 hc)
      refine decide_eq_true ?_
      rintro rfl
      revert hdigit
      decide
    have htext : (s!" {hint}_{i}").toList = (' ' :: hint.toList) ++ '_' :: Nat.toDigits 10 i := by
      simp [toString, Nat.toList_repr]
    rw [htext, List.reverse_append, List.reverse_cons, List.append_assoc,
      List.takeWhile_append_of_pos hdigits]
    simp
  have hdigits : Nat.toDigits 10 i = Nat.toDigits 10 j :=
    List.reverse_inj.1 ((hreverse hint i).symm.trans (h ▸ hreverse other j))
  rw [← Nat.ofDigitChars_toDigits (b := 10) (n := i) (by decide) (by decide), hdigits,
    Nat.ofDigitChars_toDigits (by decide) (by decide)]

lemma Made.unique {t : Names} {x : Name} {i j : Nat} (h : t.Made x i) (h' : t.Made x j) :
    i = j := by
  obtain ⟨hint, h⟩ := h
  obtain ⟨other, h'⟩ := h'
  exact number_eq (Option.some.inj (h.symm.trans h'))

end Names

/-- A function literal that ignores its argument, whose name was made as number `n` or later. -/
def Expr.IsThunk (t : Names) (n : Nat) (e body : Expr) : Prop :=
  ∃ x i, n ≤ i ∧ t.Made x i ∧ e.IsFunction x body

lemma Expr.IsThunk.mono {t : Names} {m n : Nat} {e body : Expr} (h : e.IsThunk t n body)
    (hm : m ≤ n) : e.IsThunk t m body := by
  obtain ⟨x, i, hi, hx, hf⟩ := h
  exact ⟨x, i, Nat.le_trans hm hi, hx, hf⟩

/-! ### Shapes -/

/-- Matching the value of `v` against a part `p` of a pattern, by code with the shape `L`. -/
def Pattern.SplitShape (t : Names) (n : Nat) (v : Name) (p : Pattern)
    (L : Nat → Name → Expr → Prop) (e : Expr) : Prop :=
  if p.inspects then
    ∃ (part : Name) (i : Nat) (value f body : Expr), n ≤ i ∧ t.Made part i ∧ L (i + 1) part body ∧
      value.kind = .var v ∧ f.IsFunction part body ∧ e.kind = .op .case [value, f]
  else L n v e

/-- Code with the shape `L` that can fall through to `later`, which is bound as a thunk. -/
def Expr.FailingShape (t : Names) (n : Nat) (e later : Expr) (L : Nat → Expr → Expr → Prop) :
    Prop :=
  ∃ (k : Name) (i : Nat) (thunk next body : Expr), n ≤ i ∧ t.Made k i ∧ thunk.IsThunk t n later ∧
    next.IsForce k ∧ L (i + 1) next body ∧ e.IsLet k thunk body

/-- Code that goes on with `succ` if the shape `A` matches and the shape `B` does not. It calls the
thunk bound to `f` if both match, and goes on with `tryB` if `A` does not match. -/
def Expr.OnlyFirstShape (t : Names) (n : Nat) (f : Name) (e succ tryB : Expr)
    (A B : Nat → Expr → Expr → Expr → Prop) : Prop :=
  ∃ (s : Name) (j : Nat) (okThunk callOk callFail bMustFail afterA : Expr), n ≤ j ∧ t.Made s j ∧
    okThunk.IsThunk t n succ ∧ callOk.IsForce s ∧ callFail.IsForce f ∧
    B (j + 1) callFail callOk bMustFail ∧ afterA.IsLet s okThunk bMustFail ∧
    A (j + 1) afterA tryB e

variable (t : Names) (C : Expr → Expr → Prop)

mutual

/-- The code `e` matches the value of `v` against a pattern and goes on with `succ` or `fail`. It
binds names made as number `n` or later, and `C` says what stands for the expressions inside the
pattern. -/
def Pattern.Shape (n : Nat) (v : Name) (succ fail e : Expr) : Pattern → Prop
  | .node _ kind => kind.Shape n v succ fail e
termination_by structural x => x

def PatternKind.Shape (n : Nat) (v : Name) (succ fail e : Expr) : PatternKind → Prop
  | .wildcard => e = succ
  | .var x => ∃ value : Expr, value.kind = .var v ∧ e.IsLet x value succ
  | .lit l => ∃ value expected sameType sameValue inner : Expr, value.kind = .var v ∧
      expected.kind = .lit l ∧ sameType.kind = .op (.type .equal) [value, expected] ∧
      sameValue.kind = .op (.prim (.compare .eq)) [value, expected] ∧
      inner.kind = .op .cond [sameValue, succ, fail] ∧ e.kind = .op .cond [sameType, inner, fail]
  | .tuple items => ∃ value check matched : Expr, value.kind = .var v ∧
      Pattern.ElementsShape n v 0 succ fail matched items ∧
      check.kind = .op (.tuple (.lengthEq items.length)) [value] ∧
      e.kind = .op .cond [check, matched, fail]
  | .cons items rest => ∃ (others : Name) (i : Nat)
      (restMatch value slice withRest matched check : Expr), n ≤ i ∧ t.Made others i ∧
      rest.SplitShape t (i + 1) others (fun n x b => rest.Shape n x succ fail b) restMatch ∧
      value.kind = .var v ∧ slice.kind = .op (.tuple (.slice items.length)) [value] ∧
      withRest.IsLet others slice restMatch ∧
      Pattern.ElementsShape (i + 1) v 0 withRest fail matched items ∧
      check.kind = .op (.tuple (.lengthGe items.length)) [value] ∧
      e.kind = .op .cond [check, matched, fail]
  | .typeEq inner type => ∃ matched value type' check : Expr,
      inner.SplitShape t n v (fun n x b => inner.Shape n x succ fail b) matched ∧
      value.kind = .var v ∧ C type type' ∧ check.kind = .op (.type .equal) [value, type'] ∧
      e.kind = .op .cond [check, matched, fail]
  | .active f inner => ∃ (result : Name) (i : Nat) (matched value f' call : Expr), n ≤ i ∧
      t.Made result i ∧
      inner.SplitShape t (i + 1) result (fun n x b => inner.Shape n x succ fail b) matched ∧
      value.kind = .var v ∧ C f f' ∧ call.kind = .op .apply [f', value] ∧
      e.IsLet result call matched
  | .partialActive f inner => ∃ (result : Name) (i : Nat) (payload : Name) (j : Nat)
      (matched answer second bound flag branch value f' call : Expr), n ≤ i ∧ t.Made result i ∧
      i < j ∧ t.Made payload j ∧
      inner.SplitShape t (j + 1) payload (fun n x b => inner.Shape n x succ fail b) matched ∧
      answer.kind = .var result ∧ second.kind = .op (.tuple (.index 1)) [answer] ∧
      bound.IsLet payload second matched ∧ flag.kind = .op (.tuple (.index 0)) [answer] ∧
      branch.kind = .op .cond [flag, bound, fail] ∧ value.kind = .var v ∧ C f f' ∧
      call.kind = .op .apply [f', value] ∧ e.IsLet result call branch
  | .extension f inner => ∃ matched value f' check : Expr,
      inner.SplitShape t n v (fun n x b => inner.Shape n x succ fail b) matched ∧
      value.kind = .var v ∧ C f f' ∧ check.kind = .op .apply [f', value] ∧
      e.kind = .op .cond [check, matched, fail]
  | .or alternatives => Pattern.AlternativesShape n v succ fail e alternatives
  | .and parts => Pattern.PartsShape n v succ fail e parts
  | .guarded inner guard => ∃ guard' guarded : Expr, C guard guard' ∧
      guarded.kind = .op .cond [guard', succ, fail] ∧
      inner.SplitShape t n v (fun n x b => inner.Shape n x guarded fail b) e
  | .module m => m.Shape n v succ fail e
  | .clauses arms => Clause.ArmsShape n v succ fail e arms
termination_by structural x => x

def Pattern.AlternativesShape (n : Nat) (v : Name) (succ fail e : Expr) : List Pattern → Prop
  | [] => e = fail
  | p :: rest => ∃ later : Expr, Pattern.AlternativesShape n v succ fail later rest ∧
      e.FailingShape t n later fun n next b =>
        p.SplitShape t n v (fun n x b => p.Shape n x succ next b) b
termination_by structural x => x

def Clause.ArmsShape (n : Nat) (v : Name) (succ fail e : Expr) : List Clause → Prop
  | [] => e = fail
  | .mk p _ :: rest => ∃ later : Expr, Clause.ArmsShape n v succ fail later rest ∧
      e.FailingShape t n later fun n next b =>
        p.SplitShape t n v (fun n x b => p.Shape n x succ next b) b
termination_by structural x => x

def Pattern.PartsShape (n : Nat) (v : Name) (succ fail e : Expr) : List Pattern → Prop
  | [] => e = succ
  | p :: rest => ∃ later : Expr, Pattern.PartsShape n v succ fail later rest ∧
      p.SplitShape t n v (fun n x b => p.Shape n x later fail b) e
termination_by structural x => x

def Pattern.ElementsShape (n : Nat) (v : Name) (index : Nat) (succ fail e : Expr) :
    List Pattern → Prop
  | [] => e = succ
  | p :: rest => ∃ (later : Expr) (element : Name) (i : Nat) (matched value item : Expr),
      Pattern.ElementsShape n v (index + 1) succ fail later rest ∧ n ≤ i ∧ t.Made element i ∧
      p.SplitShape t (i + 1) element (fun n x b => p.Shape n x later fail b) matched ∧
      value.kind = .var v ∧ item.kind = .op (.tuple (.index index)) [value] ∧
      e.IsLet element item matched
termination_by structural x => x

def ModulePattern.Shape (n : Nat) (v : Name) (succ fail e : Expr) : ModulePattern → Prop
  | .member field bind => ∃ value has opened bound : Expr, value.kind = .var v ∧
      has.kind = .op (.module (.hasMember field)) [value] ∧
      opened.kind = .op (.module (.open field)) [value] ∧ bound.IsLet bind opened succ ∧
      e.kind = .op .cond [has, bound, fail]
  | .inner field p => ∃ (inner : Name) (i : Nat) (matched value has opened bound : Expr), n ≤ i ∧
      t.Made inner i ∧ p.SplitShape t (i + 1) inner (fun n x b => p.Shape n x succ fail b) matched ∧
      value.kind = .var v ∧ has.kind = .op (.module (.hasMember field)) [value] ∧
      opened.kind = .op (.module (.open field)) [value] ∧ bound.IsLet inner opened matched ∧
      e.kind = .op .cond [has, bound, fail]
  | .and parts => ModulePattern.PartsShape n v succ fail e parts
  | .or alternatives => ModulePattern.AlternativesShape n v succ fail e alternatives
  | .not m => ∃ (s : Name) (i : Nat) (thunk call body : Expr), n ≤ i ∧ t.Made s i ∧
      thunk.IsThunk t n succ ∧ call.IsForce s ∧ m.Shape (i + 1) v fail call body ∧
      e.IsLet s thunk body
  | .xor a b => ∃ (f : Name) (i : Nat) (failThunk callFail onlyB body : Expr), n ≤ i ∧
      t.Made f i ∧ failThunk.IsThunk t n fail ∧ callFail.IsForce f ∧
      b.Shape (i + 1) v succ callFail onlyB ∧
      (body.FailingShape t (i + 1) onlyB fun n tryB e => e.OnlyFirstShape t n f succ tryB
        (fun n succ fail e => a.Shape n v succ fail e)
        (fun n succ fail e => b.Shape n v succ fail e)) ∧
      e.IsLet f failThunk body
termination_by structural x => x

def ModulePattern.PartsShape (n : Nat) (v : Name) (succ fail e : Expr) :
    List ModulePattern → Prop
  | [] => e = succ
  | m :: rest => ∃ later : Expr, ModulePattern.PartsShape n v succ fail later rest ∧
      m.Shape n v later fail e
termination_by structural x => x

def ModulePattern.AlternativesShape (n : Nat) (v : Name) (succ fail e : Expr) :
    List ModulePattern → Prop
  | [] => e = fail
  | m :: rest => ∃ later : Expr, ModulePattern.AlternativesShape n v succ fail later rest ∧
      e.FailingShape t n later fun n next b => m.Shape n v succ next b
termination_by structural x => x

end

/-- The clauses of a match, each falling through to the later ones and the last to `miss`. -/
def Clause.MatchShape (n : Nat) (v : Name) (miss e : Expr) : List Clause → Prop
  | [] => e = miss
  | arm :: rest => ∃ later : Expr, Clause.MatchShape n v miss later rest ∧
      e.FailingShape t n later fun n next b =>
        ∃ body, C arm.body body ∧ arm.pattern.Shape t C n v body next b

/-- The clauses that a pattern stands for on its own. -/
def Pattern.Arms (p : Pattern) (arms : List Clause) : Prop :=
  p.kind = .clauses arms ∨ ((∀ arms, p.kind ≠ .clauses arms) ∧ ∃ (yes no : Expr) (w : Pattern),
    yes.kind = .lit (.bool true) ∧ no.kind = .lit (.bool false) ∧ w.kind = .wildcard ∧
    arms = [.mk p yes, .mk w no])

/-- The function that a pattern denotes. -/
def Pattern.FunctionShape (n : Nat) (p : Pattern) (e : Expr) : Prop :=
  ∃ (arms : List Clause) (arg : Name) (i : Nat) (scrutinee : Name) (j : Nat)
    (missed miss body inner value split : Expr), p.Arms arms ∧ n ≤ i ∧ t.Made arg i ∧ i < j ∧
    t.Made scrutinee j ∧ missed.kind = .var scrutinee ∧ miss.kind = .op .patternMiss [missed] ∧
    Clause.MatchShape t C (j + 1) scrutinee miss body arms ∧ inner.IsFunction scrutinee body ∧
    value.kind = .var arg ∧ split.kind = .op .case [value, inner] ∧ e.IsFunction arg split

/-! ### Lowering -/

/-- The nodes and the names of the first store are those of the second one. -/
structure Store.PartOf (st u : Store) : Prop where
  nodes : st.NodesIn u
  names : st.names.table.Extends u.names.table

lemma Store.Grows.partOf {st st' u : Store} (h : st.Grows st') (hu : st'.PartOf u) :
    st.PartOf u :=
  ⟨⟨h.exprs.trans hu.nodes.exprs, h.patterns.trans hu.nodes.patterns⟩, h.names.trans hu.names⟩

namespace Build

variable {α β : Type} {u : Store} {n : Nat}

/-- Work that ends with a part of the store `u` makes a store of nodes of `u` from one. If it starts
with the number `n` or later, its result has the property. -/
def Shapes (u : Store) (n : Nat) (act : Build α) (Q : α → Prop) : Prop :=
  ∀ st : Store, u.MadeOf st → n ≤ st.nextFresh → (act.run st).2.PartOf u →
    u.MadeOf (act.run st).2 ∧ st.nextFresh ≤ (act.run st).2.nextFresh ∧ Q (act.run st).1

namespace Shapes

variable {act : Build α} {f : α → Build β} {P P' : α → Prop} {Q : β → Prop}

protected lemma pure {a : α} (h : P a) : Shapes u n (Pure.pure a) P :=
  fun _ hst _ _ => ⟨hst, Nat.le_refl _, h⟩

protected lemma bind [hadds : ∀ a, Adds (f a)] (ha : Shapes u n act P)
    (hf : ∀ a, P a → Shapes u n (f a) Q) : Shapes u n (act >>= f) Q := by
  intro st hst hn hpart
  obtain ⟨hst', hle, hP⟩ := ha st hst hn (((hadds _).grows _).partOf hpart)
  obtain ⟨hst'', hle', hQ⟩ := hf _ hP _ hst' (Nat.le_trans hn hle) hpart
  exact ⟨hst'', Nat.le_trans hle hle', hQ⟩

lemma imp (ha : Shapes u n act P) (h : ∀ a, P a → P' a) : Shapes u n act P' :=
  fun st hst hn hpart => (ha st hst hn hpart).imp id (And.imp id (h _))

/-- What comes after a name is made starts with a later number than that of the name. -/
lemma fresh_bind {hint : String} {f : Name → Build β} [hadds : ∀ x, Adds (f x)]
    (hf : ∀ x i, n ≤ i → u.names.Made x i → Shapes u (i + 1) (f x) Q) :
    Shapes u n (fresh hint >>= f) Q := by
  intro st hst hn hpart
  have hname := Store.getElem?_name { st with nextFresh := st.nextFresh + 1 }
    s!" {hint}_{st.nextFresh}"
  have hlater : ((fresh hint).run st).2.PartOf u := ((hadds _).grows _).partOf hpart
  obtain ⟨hst', -⟩ := issues_fresh hint st hst hlater.nodes
  obtain ⟨hst'', hle, hQ⟩ := hf ((fresh hint).run st).1 st.nextFresh hn
    ⟨hint, hlater.names.getElem? hname⟩ _ hst' (Nat.le_refl _) hpart
  exact ⟨hst'', Nat.le_trans (Nat.le_succ _) hle, hQ⟩

end Shapes

lemma issues_node {kind : ExprKind} (hplain : kind.Plain) (hk : kind.Issued u) :
    Issues u (expr kind) fun e => e.Issued u ∧ e.kind = kind := by
  refine (issues_kind hk).imp fun e he => ⟨he.1, ?_⟩
  rcases he.2 with heq | hsame
  · exact heq
  · exact (ExprKind.agrees_of_same (fun c hc => (he.1.kind.codes c hc).mem)
      (fun c hc => (hk.codes c hc).mem) hsame).eq hplain

lemma shapes_node {kind : ExprKind} (hplain : kind.Plain) (hk : kind.Issued u) :
    Shapes u n (expr kind) fun e => e.Issued u ∧ e.kind = kind := by
  intro st hst _ hpart
  obtain ⟨hst', he⟩ := issues_node hplain hk st hst hpart.nodes
  exact ⟨hst', Nat.le_refl _, he⟩

lemma shapes_var (x : Name) : Shapes u n (var x) fun e => e.Issued u ∧ e.kind = .var x :=
  shapes_node trivial (.of_codes rfl fun _ h => absurd h List.not_mem_nil)

lemma shapes_lit (l : Literal) : Shapes u n (lit l) fun e => e.Issued u ∧ e.kind = .lit l :=
  shapes_node trivial (.of_codes rfl fun _ h => absurd h List.not_mem_nil)

lemma shapes_op {o : Op} {args : List Expr} (h : ∀ a ∈ args, a.Issued u) :
    Shapes u n (op o args) fun e => e.Issued u ∧ e.kind = .op o args :=
  shapes_node trivial (.of_codes rfl h)

lemma shapes_op₁ {o : Op} {a : Expr} (ha : a.Issued u) :
    Shapes u n (op o [a]) fun e => e.Issued u ∧ e.kind = .op o [a] :=
  shapes_op (List.forall_mem_singleton.2 ha)

lemma shapes_op₂ {o : Op} {a b : Expr} (ha : a.Issued u) (hb : b.Issued u) :
    Shapes u n (op o [a, b]) fun e => e.Issued u ∧ e.kind = .op o [a, b] :=
  shapes_op (List.forall_mem_cons.2 ⟨ha, List.forall_mem_singleton.2 hb⟩)

lemma shapes_cond {test yes no : Expr} (ht : test.Issued u) (hy : yes.Issued u)
    (hn : no.Issued u) :
    Shapes u n (cond test yes no) fun e => e.Issued u ∧ e.kind = .op .cond [test, yes, no] :=
  shapes_op (List.forall_mem_cons.2
    ⟨ht, List.forall_mem_cons.2 ⟨hy, List.forall_mem_singleton.2 hn⟩⟩)

lemma shapes_function {x : Name} {body : Expr} (hb : body.Issued u) :
    Shapes u n (function x body) fun e => e.Issued u ∧ e.IsFunction x body := by
  have hnode : Shapes u n (expr (.function x body)) _ :=
    shapes_node trivial (.of_codes rfl (List.forall_mem_singleton.2 hb))
  refine hnode.imp ?_
  rintro ⟨_, _⟩ ⟨he, rfl⟩
  exact ⟨he, .plain⟩

lemma shapes_letIn {x : Name} {bound rest : Expr} (hb : bound.Issued u) (hr : rest.Issued u) :
    Shapes u n (letIn x bound rest) fun e => e.Issued u ∧ e.IsLet x bound rest := by
  refine (shapes_function hr).bind fun f hf => (shapes_op₂ hf.1 hb).imp ?_
  rintro ⟨_, _⟩ ⟨he, rfl⟩
  exact ⟨he, .mk hf.2⟩

lemma shapes_thunk {body : Expr} (hb : body.Issued u) :
    Shapes u n (thunk body) fun e => e.Issued u ∧ e.IsThunk u.names n body :=
  .fresh_bind fun x i hi hx => ((shapes_function hb).imp fun _ he => ⟨he.1, x, i, hi, hx, he.2⟩ :
    Shapes u (i + 1) _ _)

lemma shapes_force (k : Name) :
    Shapes u n (force k) fun e => e.Issued u ∧ e.IsForce k := by
  have hunit : Shapes u n unit fun e => e.Issued u ∧ e.kind = .tuple [] :=
    shapes_node trivial (.of_codes rfl fun _ h => absurd h List.not_mem_nil)
  exact (shapes_var k).bind fun f hf => hunit.bind fun unit hu =>
    (shapes_op₂ hf.1 hu.1).imp fun _ he => ⟨he.1, f, unit, hf.2, hu.2, he.2⟩

lemma shapes_withFailure {later : Expr} {build : Expr → Build Expr} [∀ call, Adds (build call)]
    {L : Nat → Expr → Expr → Prop} (hl : later.Issued u)
    (hb : ∀ i next, n ≤ i → next.Issued u →
      Shapes u (i + 1) (build next) fun e => e.Issued u ∧ L (i + 1) next e) :
    Shapes u n (withFailure later build) fun e =>
      e.Issued u ∧ e.FailingShape u.names n later L := by
  refine .fresh_bind fun k i hi hk => (shapes_thunk hl).bind fun thunk ht => ?_
  refine (shapes_force k).bind fun next hn => (hb i next hi hn.1).bind fun body hbody => ?_
  exact (shapes_letIn ht.1 hbody.1).imp fun e he => ⟨he.1, k, i, thunk, next, body, hi, hk,
    ht.2.mono (by omega), hn.2, hbody.2, he.2⟩

lemma shapes_splitting {v : Name} {p : Pattern} {lower : Name → Build Expr}
    [∀ x, Adds (lower x)] {L : Nat → Name → Expr → Prop}
    (h : ∀ m x, n ≤ m → Shapes u m (lower x) fun e => e.Issued u ∧ L m x e) :
    Shapes u n (splitting v p lower) fun e => e.Issued u ∧ p.SplitShape u.names n v L e := by
  unfold splitting Pattern.SplitShape
  split
  · refine .fresh_bind fun part i hi hpart => (h (i + 1) part (by omega)).bind fun body hbody => ?_
    refine (shapes_function hbody.1).bind fun f hf => (shapes_var v).bind fun value hv => ?_
    exact (shapes_op₂ hv.1 hf.1).imp fun e he => ⟨he.1, part, i, value, f, body, hi, hpart,
      hbody.2, hv.2, hf.2, he.2⟩
  · exact h n v (Nat.le_refl _)

/-- Matching against a part of a pattern that is lowered in its shape. -/
lemma shapes_part {v : Name} {p : Pattern} {succ fail : Expr}
    (h : ∀ m x, Shapes u m (lowerAt x p succ fail) fun e =>
      e.Issued u ∧ p.Shape u.names Eq m x succ fail e) :
    Shapes u n (splitting v p fun x => lowerAt x p succ fail) fun e => e.Issued u ∧
      p.SplitShape u.names n v (fun m x e => p.Shape u.names Eq m x succ fail e) e :=
  shapes_splitting fun m x _ => h m x

-- Lowering `xor` is a long chain of work.
set_option synthInstance.maxSize 512 in
mutual

lemma shapes_lowerAt (n : Nat) (v : Name) (p : Pattern) (succ fail : Expr)
    (hp : ∀ c ∈ p.codes, c.Issued u) (hs : succ.Issued u) (hf : fail.Issued u) :
    Shapes u n (lowerAt v p succ fail) fun e =>
      e.Issued u ∧ p.Shape u.names Eq n v succ fail e := by
  match p with
  | .node _ kind => exact shapes_lowerKind n v kind succ fail hp hs hf
termination_by structural p

lemma shapes_lowerKind (n : Nat) (v : Name) (kind : PatternKind) (succ fail : Expr)
    (hk : ∀ c ∈ kind.codes, c.Issued u) (hs : succ.Issued u) (hf : fail.Issued u) :
    Shapes u n (lowerKind v kind succ fail) fun e =>
      e.Issued u ∧ kind.Shape u.names Eq n v succ fail e := by
  -- Each case follows the code it builds: first the names, then the parts, last the test.
  match kind with
  | .wildcard =>
    simp only [PatternKind.Shape]
    exact .pure ⟨hs, rfl⟩
  | .var x =>
    exact (shapes_var v).bind fun value hv => (shapes_letIn hv.1 hs).imp fun e he =>
      ⟨he.1, value, hv.2, he.2⟩
  | .lit l =>
    refine (shapes_var v).bind fun value hv => (shapes_lit l).bind fun expected hl => ?_
    refine (shapes_op₂ hv.1 hl.1).bind fun sameType ht => ?_
    refine (shapes_op₂ hv.1 hl.1).bind fun sameValue he => ?_
    refine (shapes_cond he.1 hs hf).bind fun inner hi => ?_
    exact (shapes_cond ht.1 hi.1 hf).imp fun e h =>
      ⟨h.1, value, expected, sameType, sameValue, inner, hv.2, hl.2, ht.2, he.2, hi.2, h.2⟩
  | .tuple items =>
    refine (shapes_lowerElements n v 0 items succ fail hk hs hf).bind fun matched hm => ?_
    refine (shapes_var v).bind fun value hv => (shapes_op₁ hv.1).bind fun check hc => ?_
    exact (shapes_cond hc.1 hm.1 hf).imp fun e h =>
      ⟨h.1, value, check, matched, hv.2, hm.2, hc.2, h.2⟩
  -- The rest is matched inside the elements, so its code is there first.
  | .cons items rest =>
    obtain ⟨hitems, hrest⟩ := List.forall_mem_append.1 hk
    refine .fresh_bind fun others i hi hothers => ?_
    refine (shapes_part fun m x => shapes_lowerAt m x rest succ fail hrest hs hf).bind
      fun restMatch hr => ?_
    refine (shapes_var v).bind fun value hv => (shapes_op₁ hv.1).bind fun slice hslice => ?_
    refine (shapes_letIn hslice.1 hr.1).bind fun withRest hw => ?_
    refine (shapes_lowerElements (i + 1) v 0 items withRest fail hitems hw.1 hf).bind
      fun matched hm => (shapes_op₁ hv.1).bind fun check hc => ?_
    exact (shapes_cond hc.1 hm.1 hf).imp fun e h => ⟨h.1, others, i, restMatch, value, slice,
      withRest, matched, check, hi, hothers, hr.2, hv.2, hslice.2, hw.2, hm.2, hc.2, h.2⟩
  -- Patterns with code of their own.
  | .typeEq inner type =>
    obtain ⟨htype, hinner⟩ := List.forall_mem_cons.1 hk
    refine (shapes_part fun m x => shapes_lowerAt m x inner succ fail hinner hs hf).bind
      fun matched hm => ?_
    refine (shapes_var v).bind fun value hv => (shapes_op₂ hv.1 htype).bind fun check hc => ?_
    exact (shapes_cond hc.1 hm.1 hf).imp fun e h =>
      ⟨h.1, matched, value, type, check, hm.2, hv.2, rfl, hc.2, h.2⟩
  | .active f inner =>
    obtain ⟨hfun, hinner⟩ := List.forall_mem_cons.1 hk
    refine .fresh_bind fun result i hi hresult => ?_
    refine (shapes_part fun m x => shapes_lowerAt m x inner succ fail hinner hs hf).bind
      fun matched hm => ?_
    refine (shapes_var v).bind fun value hv => (shapes_op₂ hfun hv.1).bind fun call hc => ?_
    exact (shapes_letIn hc.1 hm.1).imp fun e h =>
      ⟨h.1, result, i, matched, value, f, call, hi, hresult, hm.2, hv.2, rfl, hc.2, h.2⟩
  | .partialActive f inner =>
    obtain ⟨hfun, hinner⟩ := List.forall_mem_cons.1 hk
    refine .fresh_bind fun result i hi hresult => .fresh_bind fun payload j hj hpayload => ?_
    refine (shapes_part fun m x => shapes_lowerAt m x inner succ fail hinner hs hf).bind
      fun matched hm => ?_
    refine (shapes_var result).bind fun answer ha => (shapes_op₁ ha.1).bind fun second hsecond => ?_
    refine (shapes_letIn hsecond.1 hm.1).bind fun bound hb => (shapes_op₁ ha.1).bind
      fun flag hflag => ?_
    refine (shapes_cond hflag.1 hb.1 hf).bind fun branch hbranch => ?_
    refine (shapes_var v).bind fun value hv => (shapes_op₂ hfun hv.1).bind fun call hc => ?_
    exact (shapes_letIn hc.1 hbranch.1).imp fun e h => ⟨h.1, result, i, payload, j, matched, answer,
      second, bound, flag, branch, value, f, call, hi, hresult, hj, hpayload, hm.2, ha.2, hsecond.2,
      hb.2, hflag.2, hbranch.2, hv.2, rfl, hc.2, h.2⟩
  | .extension f inner =>
    obtain ⟨hfun, hinner⟩ := List.forall_mem_cons.1 hk
    refine (shapes_part fun m x => shapes_lowerAt m x inner succ fail hinner hs hf).bind
      fun matched hm => ?_
    refine (shapes_var v).bind fun value hv => (shapes_op₂ hfun hv.1).bind fun check hc => ?_
    exact (shapes_cond hc.1 hm.1 hf).imp fun e h =>
      ⟨h.1, matched, value, f, check, hm.2, hv.2, rfl, hc.2, h.2⟩
  -- Patterns made of other patterns, which thread the two exits.
  | .or alternatives => exact shapes_lowerAlternatives n v alternatives succ fail hk hs hf
  | .and parts => exact shapes_lowerParts n v parts succ fail hk hs hf
  | .guarded inner guard =>
    obtain ⟨hguard, hinner⟩ := List.forall_mem_cons.1 hk
    refine (shapes_cond hguard hs hf).bind fun guarded hg => ?_
    exact (shapes_part fun m x => shapes_lowerAt m x inner guarded fail hinner hg.1 hf).imp
      fun e h => ⟨h.1, guard, guarded, rfl, hg.2, h.2⟩
  | .module m => exact shapes_lowerModule n v m succ fail hk hs hf
  | .clauses arms => exact shapes_lowerArms n v arms succ fail hk hs hf
termination_by structural kind

lemma shapes_lowerAlternatives (n : Nat) (v : Name) (ps : List Pattern) (succ fail : Expr)
    (hp : ∀ c ∈ Pattern.codesOfAll ps, c.Issued u) (hs : succ.Issued u) (hf : fail.Issued u) :
    Shapes u n (lowerAlternatives v ps succ fail) fun e =>
      e.Issued u ∧ Pattern.AlternativesShape u.names Eq n v succ fail e ps := by
  match ps with
  | [] => exact .pure ⟨hf, rfl⟩
  | p :: rest =>
    obtain ⟨hp, hrest⟩ := List.forall_mem_append.1 hp
    refine (shapes_lowerAlternatives n v rest succ fail hrest hs hf).bind fun later hl => ?_
    refine (shapes_withFailure hl.1 fun i next _ hnext => ?_).imp fun e h => ⟨h.1, later, hl.2, h.2⟩
    exact shapes_part fun m x => shapes_lowerAt m x p succ next hp hs hnext
termination_by structural ps

lemma shapes_lowerArms (n : Nat) (v : Name) (arms : List Clause) (succ fail : Expr)
    (ha : ∀ c ∈ Clause.codesOfAll arms, c.Issued u) (hs : succ.Issued u) (hf : fail.Issued u) :
    Shapes u n (lowerArms v arms succ fail) fun e =>
      e.Issued u ∧ Clause.ArmsShape u.names Eq n v succ fail e arms := by
  match arms with
  | [] => exact .pure ⟨hf, rfl⟩
  | .mk p _ :: rest =>
    obtain ⟨harm, hrest⟩ := List.forall_mem_append.1 ha
    obtain ⟨-, hp⟩ := List.forall_mem_cons.1 harm
    refine (shapes_lowerArms n v rest succ fail hrest hs hf).bind fun later hl => ?_
    refine (shapes_withFailure hl.1 fun i next _ hnext => ?_).imp fun e h => ⟨h.1, later, hl.2, h.2⟩
    exact shapes_part fun m x => shapes_lowerAt m x p succ next hp hs hnext
termination_by structural arms

lemma shapes_lowerParts (n : Nat) (v : Name) (ps : List Pattern) (succ fail : Expr)
    (hp : ∀ c ∈ Pattern.codesOfAll ps, c.Issued u) (hs : succ.Issued u) (hf : fail.Issued u) :
    Shapes u n (lowerParts v ps succ fail) fun e =>
      e.Issued u ∧ Pattern.PartsShape u.names Eq n v succ fail e ps := by
  match ps with
  | [] => exact .pure ⟨hs, rfl⟩
  | p :: rest =>
    obtain ⟨hp, hrest⟩ := List.forall_mem_append.1 hp
    refine (shapes_lowerParts n v rest succ fail hrest hs hf).bind fun later hl => ?_
    exact (shapes_part fun m x => shapes_lowerAt m x p later fail hp hl.1 hf).imp
      fun e h => ⟨h.1, later, hl.2, h.2⟩
termination_by structural ps

lemma shapes_lowerElements (n : Nat) (v : Name) (index : Nat) (ps : List Pattern)
    (succ fail : Expr) (hp : ∀ c ∈ Pattern.codesOfAll ps, c.Issued u) (hs : succ.Issued u)
    (hf : fail.Issued u) :
    Shapes u n (lowerElements v index ps succ fail) fun e =>
      e.Issued u ∧ Pattern.ElementsShape u.names Eq n v index succ fail e ps := by
  match ps with
  | [] => exact .pure ⟨hs, rfl⟩
  | p :: rest =>
    obtain ⟨hp, hrest⟩ := List.forall_mem_append.1 hp
    refine (shapes_lowerElements n v (index + 1) rest succ fail hrest hs hf).bind
      fun later hl => ?_
    refine .fresh_bind fun element i hi helement => ?_
    refine (shapes_part fun m x => shapes_lowerAt m x p later fail hp hl.1 hf).bind
      fun matched hm => ?_
    refine (shapes_var v).bind fun value hv => (shapes_op₁ hv.1).bind fun item hitem => ?_
    exact (shapes_letIn hitem.1 hm.1).imp fun e h => ⟨h.1, later, element, i, matched, value,
      item, hl.2, hi, helement, hm.2, hv.2, hitem.2, h.2⟩
termination_by structural ps

lemma shapes_lowerModule (n : Nat) (v : Name) (m : ModulePattern) (succ fail : Expr)
    (hm : ∀ c ∈ m.codes, c.Issued u) (hs : succ.Issued u) (hf : fail.Issued u) :
    Shapes u n (lowerModule v m succ fail) fun e =>
      e.Issued u ∧ m.Shape u.names Eq n v succ fail e := by
  -- A field is tested for before it is opened; the connectives swap or share the exits.
  match m with
  | .member field bind =>
    refine (shapes_var v).bind fun value hv => (shapes_op₁ hv.1).bind fun has hhas => ?_
    refine (shapes_op₁ hv.1).bind fun opened hopened => ?_
    refine (shapes_letIn hopened.1 hs).bind fun bound hb => ?_
    exact (shapes_cond hhas.1 hb.1 hf).imp fun e h =>
      ⟨h.1, value, has, opened, bound, hv.2, hhas.2, hopened.2, hb.2, h.2⟩
  | .inner field p =>
    refine .fresh_bind fun inner i hi hinner => ?_
    refine (shapes_part fun m x => shapes_lowerAt m x p succ fail hm hs hf).bind
      fun matched hmatched => ?_
    refine (shapes_var v).bind fun value hv => (shapes_op₁ hv.1).bind fun has hhas => ?_
    refine (shapes_op₁ hv.1).bind fun opened hopened => ?_
    refine (shapes_letIn hopened.1 hmatched.1).bind fun bound hb => ?_
    exact (shapes_cond hhas.1 hb.1 hf).imp fun e h => ⟨h.1, inner, i, matched, value, has, opened,
      bound, hi, hinner, hmatched.2, hv.2, hhas.2, hopened.2, hb.2, h.2⟩
  | .and parts => exact shapes_lowerModules n v parts succ fail hm hs hf
  | .or alternatives => exact shapes_lowerModuleAlternatives n v alternatives succ fail hm hs hf
  -- The exits change places, and success stands twice, so it becomes a function.
  | .not inner =>
    refine .fresh_bind fun s i hi hmade => (shapes_thunk hs).bind fun thunk ht => ?_
    refine (shapes_force s).bind fun call hc => ?_
    refine (shapes_lowerModule (i + 1) v inner fail call hm hf hc.1).bind fun body hb => ?_
    exact (shapes_letIn ht.1 hb.1).imp fun e h => ⟨h.1, s, i, thunk, call, body, hi, hmade,
      ht.2.mono (by omega), hc.2, hb.2, h.2⟩
  -- `b` is lowered twice: for `a` failed and for `a` matched.
  | .xor a b =>
    obtain ⟨ha, hb⟩ := List.forall_mem_append.1 hm
    refine .fresh_bind fun f i hi hmade => (shapes_thunk hf).bind fun failThunk hft => ?_
    refine (shapes_force f).bind fun callFail hcf => ?_
    refine (shapes_lowerModule (i + 1) v b succ callFail hb hs hcf.1).bind fun onlyB honlyB => ?_
    refine (shapes_withFailure (L := fun n tryB e => e.OnlyFirstShape u.names n f succ tryB
      (fun n succ fail e => a.Shape u.names Eq n v succ fail e)
      (fun n succ fail e => b.Shape u.names Eq n v succ fail e)) honlyB.1
      fun k tryB _ htryB => ?_).bind fun body hbody => (shapes_letIn hft.1 hbody.1).imp fun e h =>
        ⟨h.1, f, i, failThunk, callFail, onlyB, body, hi, hmade, hft.2.mono (by omega), hcf.2,
          honlyB.2, hbody.2, h.2⟩
    refine .fresh_bind fun s j hj hs' => (shapes_thunk hs).bind fun okThunk hok => ?_
    refine (shapes_force s).bind fun callOk hco => (shapes_force f).bind fun callFail hcf => ?_
    refine (shapes_lowerModule (j + 1) v b callFail callOk hb hcf.1 hco.1).bind
      fun bMustFail hmust => (shapes_letIn hok.1 hmust.1).bind fun afterA hafter => ?_
    exact (shapes_lowerModule (j + 1) v a afterA tryB ha hafter.1 htryB).imp fun e h =>
      ⟨h.1, s, j, okThunk, callOk, callFail, bMustFail, afterA, hj, hs', hok.2.mono (by omega),
        hco.2, hcf.2, hmust.2, hafter.2, h.2⟩
termination_by structural m

lemma shapes_lowerModules (n : Nat) (v : Name) (ms : List ModulePattern) (succ fail : Expr)
    (hm : ∀ c ∈ ModulePattern.codesOfAll ms, c.Issued u) (hs : succ.Issued u)
    (hf : fail.Issued u) :
    Shapes u n (lowerModules v ms succ fail) fun e =>
      e.Issued u ∧ ModulePattern.PartsShape u.names Eq n v succ fail e ms := by
  match ms with
  | [] => exact .pure ⟨hs, rfl⟩
  | m :: rest =>
    obtain ⟨hm, hrest⟩ := List.forall_mem_append.1 hm
    exact (shapes_lowerModules n v rest succ fail hrest hs hf).bind fun later hl =>
      (shapes_lowerModule n v m later fail hm hl.1 hf).imp fun e h => ⟨h.1, later, hl.2, h.2⟩
termination_by structural ms

lemma shapes_lowerModuleAlternatives (n : Nat) (v : Name) (ms : List ModulePattern)
    (succ fail : Expr) (hm : ∀ c ∈ ModulePattern.codesOfAll ms, c.Issued u) (hs : succ.Issued u)
    (hf : fail.Issued u) :
    Shapes u n (lowerModuleAlternatives v ms succ fail) fun e =>
      e.Issued u ∧ ModulePattern.AlternativesShape u.names Eq n v succ fail e ms := by
  match ms with
  | [] => exact .pure ⟨hf, rfl⟩
  | m :: rest =>
    obtain ⟨hm, hrest⟩ := List.forall_mem_append.1 hm
    refine (shapes_lowerModuleAlternatives n v rest succ fail hrest hs hf).bind fun later hl => ?_
    refine (shapes_withFailure hl.1 fun i next _ hnext => ?_).imp fun e h => ⟨h.1, later, hl.2, h.2⟩
    exact shapes_lowerModule (i + 1) v m succ next hm hs hnext
termination_by structural ms

end

lemma shapes_lowerClauses (n : Nat) (v : Name) {miss : Expr} (hmiss : miss.Issued u)
    {arms : List Clause} (ha : ∀ c ∈ Clause.codesOfAll arms, c.Issued u) :
    Shapes u n (lowerClauses v miss arms) fun e =>
      e.Issued u ∧ Clause.MatchShape u.names Eq n v miss e arms := by
  induction arms with
  | nil => exact .pure ⟨hmiss, rfl⟩
  | cons arm rest ih =>
    obtain ⟨p, body⟩ := arm
    obtain ⟨harm, hrest⟩ := List.forall_mem_append.1 ha
    obtain ⟨hbody, hp⟩ := List.forall_mem_cons.1 harm
    refine (ih hrest).bind fun later hl => ?_
    refine (shapes_withFailure hl.1 fun i fail _ hfail => ?_).imp fun e h => ⟨h.1, later, hl.2, h.2⟩
    exact (shapes_lowerAt (i + 1) v p body fail hp hbody hfail).imp
      fun e h => ⟨h.1, body, rfl, h.2⟩

lemma shapes_clausesOf {p : Pattern} (hp : ∀ c ∈ p.codes, c.Issued u) :
    Shapes u n (clausesOf p) fun arms => p.Arms arms ∧
      ∀ c ∈ Clause.codesOfAll arms, c.Issued u := by
  have hdefault : (∀ arms, p.kind ≠ .clauses arms) → Shapes u n (do
      let yes ← lit (.bool true)
      let no ← lit (.bool false)
      let wildcard ← pattern .wildcard
      return [.mk p yes, .mk wildcard no]) fun arms => p.Arms arms ∧
        ∀ c ∈ Clause.codesOfAll arms, c.Issued u := by
    intro hkind
    have hpattern : Shapes u n (pattern .wildcard) fun w => w.kind = .wildcard := by
      intro st hst _ hpart
      have hissued : PatternKind.Issued u .wildcard :=
        ⟨fun _ h => absurd h List.not_mem_nil, fun _ h => absurd h List.not_mem_nil⟩
      obtain ⟨hst', -, hw⟩ := issues_pattern hissued st hst hpart.nodes
      exact ⟨hst', Nat.le_refl _, hw⟩
    refine (shapes_lit _).bind fun yes hy => (shapes_lit _).bind fun no hn => ?_
    refine hpattern.bind fun w hw => .pure ⟨.inr ⟨hkind, yes, no, w, hy.2, hn.2, hw, rfl⟩, ?_⟩
    obtain ⟨_, _⟩ := w
    cases hw
    refine List.forall_mem_append.2 ⟨List.forall_mem_cons.2 ⟨hy.1, hp⟩, ?_⟩
    exact List.forall_mem_singleton.2 hn.1
  obtain ⟨symbol, kind⟩ := p
  cases kind with
  | clauses arms => exact .pure ⟨.inl rfl, hp⟩
  | _ => exact hdefault fun _ h => nomatch h

/-- Lowering a pattern gives a function of its shape. -/
theorem shapes_lowerTop {p : Pattern} (hp : ∀ c ∈ p.codes, c.Issued u) :
    Shapes u n (lowerTop p) fun e => e.Issued u ∧ p.FunctionShape u.names Eq n e := by
  refine (shapes_clausesOf hp).bind fun arms ha => .fresh_bind fun arg i hi harg => ?_
  refine .fresh_bind fun scrutinee j hj hscrutinee =>
    (shapes_var scrutinee).bind fun missed hv => ?_
  refine (shapes_op₁ hv.1).bind fun miss hm => ?_
  refine (shapes_lowerClauses (j + 1) scrutinee hm.1 ha.2).bind fun body hb => ?_
  refine (shapes_function hb.1).bind fun inner hinner =>
    (shapes_var arg).bind fun value hvalue => ?_
  refine (shapes_op₂ hvalue.1 hinner.1).bind fun split hsplit => ?_
  exact (shapes_function hsplit.1).imp fun e h => ⟨h.1, arms, arg, i, scrutinee, j, missed, miss,
    body, inner, value, split, ha.1, hi, harg, hj, hscrutinee, hv.2, hm.2, hb.2, hinner.2, hvalue.2,
    hsplit.2, h.2⟩

end Build

end Residual
