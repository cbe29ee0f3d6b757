import Residual.Proofs.Surface.MadeReady

/-!
Free names in order of first use.

`Expr.Lists` says in which order an expression uses its free names first. A pattern stands for the
function that the store records for it. Main statement: code that was made ready lists its free
names in the order of the expression that it was made from.
-/

namespace Residual

open Build (addNames)

/-- The names of several lists, each where it comes first. -/
def firstUses (lists : List (List Name)) : List Name :=
  lists.foldl (fun out names => addNames out names []) []

/-- The expression is put together from the parts in order. -/
def Expr.HasParts (e : Expr) (items : List Expr) : Prop :=
  e.kind = .tuple items ∨ ∃ o, e.kind = .op o items

/-- The free names of the expression in order of first use. -/
inductive Expr.Lists (u : Store) : Expr → List Name → Prop
  | var {e : Expr} {x : Name} (kind : e.kind = .var x) : Expr.Lists u e [x]
  | lit {e : Expr} {l : Literal} (kind : e.kind = .lit l) : Expr.Lists u e []
  | pattern {e : Expr} {p : Pattern} {l : Expr} {names : List Name} (kind : e.kind = .pattern p)
    (lowered : u.lowered.lookup p.symbol = some l) (code : Expr.Lists u l names) :
    Expr.Lists u e names
  | function {e : Expr} {x : Name} {b : Expr} {names : List Name} (kind : e.IsFunction x b)
    (body : Expr.Lists u b names) : Expr.Lists u e (addNames [] names [x])
  | recFunction {e : Expr} {this x : Name} {b : Expr} {names : List Name}
    (kind : e.kind = .recFunction this x b) (body : Expr.Lists u b names) :
    Expr.Lists u e (addNames [] names [this, x])
  | parts {e : Expr} {items : List Expr} {lists : List (List Name)} (kind : e.HasParts items)
    (length : items.length = lists.length)
    (each : ∀ (i : Nat) a names, items[i]? = some a → lists[i]? = some names →
      Expr.Lists u a names) : Expr.Lists u e (firstUses lists)
  | pos {e a : Expr} {span : Span} {names : List Name} (kind : e.kind = .pos span a)
    (code : Expr.Lists u a names) : Expr.Lists u e names

variable {u v : Store} {x : Name} {e done : Expr} {names names' : List Name}

lemma nodup_foldl_addNames {lists : List (List Name)} {out : List Name} (h : out.Nodup) :
    (lists.foldl (fun out names => addNames out names []) out).Nodup := by
  induction lists generalizing out with
  | nil => exact h
  | cons names rest ih => exact ih (Build.nodup_addNames names [] h)

lemma mem_foldl_addNames {lists : List (List Name)} {out : List Name} :
    x ∈ lists.foldl (fun out names => addNames out names []) out ↔
      x ∈ out ∨ ∃ names ∈ lists, x ∈ names := by
  induction lists generalizing out with
  | nil => simp
  | cons names rest ih =>
    rw [List.foldl_cons, ih, Build.mem_addNames]
    simp [or_assoc]

lemma mem_firstUses {lists : List (List Name)} :
    x ∈ firstUses lists ↔ ∃ names ∈ lists, x ∈ names := by
  simp [firstUses, mem_foldl_addNames]

namespace Expr.Lists

/-- How an expression lists its names depends on its form. -/
lemma inv (h : e.Lists u names) : match e.kind with
    | .var x => names = [x]
    | .lit _ => names = []
    | .pattern p => ∃ l, u.lowered.lookup p.symbol = some l ∧ l.Lists u names
    | .function x b | .filtered _ x b => ∃ ns, names = addNames [] ns [x] ∧ b.Lists u ns
    | .recFunction this x b => ∃ ns, names = addNames [] ns [this, x] ∧ b.Lists u ns
    | .tuple items | .op _ items => ∃ lists, names = firstUses lists ∧
        items.length = lists.length ∧
        ∀ (i : Nat) a ns, items[i]? = some a → lists[i]? = some ns → a.Lists u ns
    | .pos _ a => a.Lists u names := by
  cases h with
  | var kind | lit kind => rw [kind]
  | pattern kind lowered code =>
    rw [kind]
    exact ⟨_, lowered, code⟩
  | function kind body => rcases kind.kind with hk | ⟨_, hk⟩ <;> rw [hk] <;> exact ⟨_, rfl, body⟩
  | recFunction kind body =>
    rw [kind]
    exact ⟨_, rfl, body⟩
  | parts kind length each =>
    rcases kind with hk | ⟨_, hk⟩ <;> rw [hk] <;> exact ⟨_, rfl, length, each⟩
  | pos kind code =>
    rw [kind]
    exact code

lemma of_function {b : Expr} (h : e.Lists u names) (he : e.IsFunction x b) :
    ∃ ns, names = addNames [] ns [x] ∧ b.Lists u ns := by
  have h := h.inv
  rcases he.kind with hk | ⟨_, hk⟩ <;> rw [hk] at h <;> exact h

lemma of_parts {items : List Expr} (h : e.Lists u names) (he : e.HasParts items) :
    ∃ lists, names = firstUses lists ∧ items.length = lists.length ∧
      ∀ (i : Nat) a ns, items[i]? = some a → lists[i]? = some ns → a.Lists u ns := by
  have h := h.inv
  rcases he with hk | ⟨_, hk⟩ <;> rw [hk] at h <;> exact h

/-- The order of first use is determined. -/
theorem unique (h : e.Lists u names) (h' : e.Lists u names') : names = names' := by
  induction h generalizing names' with
  | var kind | lit kind =>
    have h' := h'.inv
    rw [kind] at h'
    exact h'.symm
  | pattern kind lowered _ ih =>
    have h' := h'.inv
    rw [kind] at h'
    obtain ⟨l, hl, hcode⟩ := h'
    rw [lowered, Option.some.injEq] at hl
    exact ih (hl ▸ hcode)
  | function kind _ ih =>
    obtain ⟨ns, rfl, hbody⟩ := h'.of_function kind
    rw [ih hbody]
  | recFunction kind _ ih =>
    have h' := h'.inv
    rw [kind] at h'
    obtain ⟨ns, rfl, hbody⟩ := h'
    rw [ih hbody]
  | @parts e items lists kind length _ ih =>
    obtain ⟨lists', rfl, hlength, heach⟩ := h'.of_parts kind
    have hsame : lists = lists' := by
      refine List.ext_getElem (length.symm.trans hlength) fun i hi hi' => ?_
      have hitem : i < items.length := length ▸ hi
      exact ih i _ _ (List.getElem?_eq_getElem hitem) (List.getElem?_eq_getElem hi)
        (heach i _ _ (List.getElem?_eq_getElem hitem) (List.getElem?_eq_getElem hi'))
    rw [hsame]
  | pos kind _ ih =>
    have h' := h'.inv
    rw [kind] at h'
    exact ih h'

lemma nodup (h : e.Lists u names) : names.Nodup := by
  induction h with
  | var => exact List.pairwise_singleton ..
  | lit => exact List.nodup_nil
  | function | recFunction => exact Build.nodup_addNames _ _ List.nodup_nil
  | parts => exact nodup_foldl_addNames List.nodup_nil
  | pattern _ _ _ ih | pos _ _ ih => exact ih

/-- The names listed are those that are free. -/
theorem mem_iff (h : e.Lists u names) (x : Name) : x ∈ names ↔ e.FreeIn u x := by
  induction h with
  | var kind => rw [freeIn_iff, takes_iff, kind, List.mem_singleton, ExprKind.Takes]
  | lit kind => simp [freeIn_iff, takes_iff, kind, ExprKind.Takes]
  | @pattern e p l names kind lowered _ ih =>
    rw [ih, freeIn_iff (e := e), takes_iff, kind]
    refine ⟨fun h => ⟨l, lowered, h⟩, ?_⟩
    rintro ⟨l', hl', hfree⟩
    rw [lowered, Option.some.injEq] at hl'
    exact hl' ▸ hfree
  | @function e y b names kind _ ih =>
    rw [Build.mem_addNames, ih, freeIn_iff, freeIn_iff (e := e), kind.takes]
    simp [and_comm]
  | @recFunction e this y b names kind _ ih =>
    rw [Build.mem_addNames, ih, freeIn_iff, freeIn_iff (e := e), takes_iff (e := e), kind,
      ExprKind.Takes]
    simp [and_comm]
  | @parts e items lists kind length _ ih =>
    have hany : (∃ names ∈ lists, x ∈ names) ↔ ∃ a ∈ items, a.FreeIn u x :=
      exists_mem_iff_of_getElem? length ih
    rw [mem_firstUses, hany, freeIn_iff (e := e), takes_iff]
    rcases kind with hk | ⟨_, hk⟩ <;>
      simp only [hk, ExprKind.Takes, Expr.anyTakes_iff, freeIn_iff]
  | @pos e a span names kind _ ih =>
    rw [ih, freeIn_iff, freeIn_iff (e := e), takes_iff (e := e), kind, ExprKind.Takes]

/-- In a store with more lowered patterns the order is the same. -/
theorem mono (h : e.Lists u names)
    (hv : ∀ n l, u.lowered.lookup n = some l → v.lowered.lookup n = some l) : e.Lists v names := by
  induction h with
  | var kind => exact .var kind
  | lit kind => exact .lit kind
  | pattern kind lowered _ ih => exact .pattern kind (hv _ _ lowered) ih
  | function kind _ ih => exact .function kind ih
  | recFunction kind _ ih => exact .recFunction kind ih
  | parts kind length _ ih => exact .parts kind length ih
  | pos kind _ ih => exact .pos kind ih

end Expr.Lists

lemma Expr.IsFunction.of_filtered {used : Captures} {b : Expr}
    (h : e.kind = .filtered used x b) : e.IsFunction x b := by
  obtain ⟨_, _⟩ := e
  cases h
  exact .filtered

namespace Expr.Becomes

lemma lists_parts {items items' : List Expr} (h : e.Lists u names) (kind : e.HasParts items)
    (kind' : done.HasParts items') (length : items.length = items'.length)
    (each : ∀ (i : Nat) a a', items[i]? = some a → items'[i]? = some a' →
      ∀ {ns}, a.Lists u ns → a'.Lists u ns) : done.Lists u names := by
  obtain ⟨lists, rfl, hlength, hlists⟩ := h.of_parts kind
  refine .parts kind' (length.symm.trans hlength) fun i a' ns ha' hns => ?_
  obtain ⟨a, ha⟩ := exists_getElem? length ha'
  exact each i a a' ha ha' (hlists i a ns ha hns)

/-- Code that was made ready uses its free names in the order of the expression. -/
theorem lists (h : e.Becomes u done) (hnames : e.Lists u names) : done.Lists u names := by
  induction h generalizing names with
  | var | lit => exact hnames
  | pattern kind lowered _ ih =>
    have hnames := hnames.inv
    rw [kind] at hnames
    obtain ⟨l, hl, hcode⟩ := hnames
    rw [lowered, Option.some.injEq] at hl
    exact ih (hl ▸ hcode)
  | function kind kind' _ _ _ ih =>
    obtain ⟨ns, rfl, hbody⟩ := hnames.of_function kind
    exact .function (.of_filtered kind') (ih hbody)
  | recFunction kind kind' _ ih =>
    have hnames := hnames.inv
    rw [kind] at hnames
    obtain ⟨ns, rfl, hbody⟩ := hnames
    exact .recFunction kind' (ih hbody)
  | tuple kind kind' length _ ih => exact lists_parts hnames (.inl kind) (.inl kind') length ih
  | op kind kind' length _ ih =>
    exact lists_parts hnames (.inr ⟨_, kind⟩) (.inr ⟨_, kind'⟩) length ih
  | pos kind kind' _ ih =>
    have hnames := hnames.inv
    rw [kind] at hnames
    exact .pos kind' (ih hnames)

lemma self_part {items items' : List Expr} (length : items.length = items'.length)
    (each : ∀ (i : Nat) a a', items[i]? = some a → items'[i]? = some a' → a'.Becomes u a')
    {i : Nat} {a a' : Expr} (ha : items'[i]? = some a) (ha' : items'[i]? = some a') :
    a.Becomes u a' := by
  obtain rfl := Option.some.inj (ha.symm.trans ha')
  obtain ⟨c, hc⟩ := exists_getElem? length ha
  exact each i c a hc ha

/-- Code that was made ready becomes itself. -/
theorem self (h : e.Becomes u done) : done.Becomes u done := by
  induction h with
  | var kind => exact .var kind
  | lit kind => exact .lit kind
  | pattern _ _ _ ih => exact ih
  | @function e done used x b b' kind kind' ascending used_iff body ih =>
    refine .function (.of_filtered kind') kind' ascending (fun y => (used_iff y).trans ?_) ih
    rw [freeIn_iff, kind.takes, ← freeIn_iff, ← body.readies.2.2, ih.readies.2.2, freeIn_iff,
      freeIn_iff (e := done), (IsFunction.of_filtered kind').takes]
  | recFunction _ kind' _ ih => exact .recFunction kind' kind' ih
  | tuple _ kind' length _ ih =>
    exact .tuple kind' kind' rfl fun i a a' ha ha' => self_part length ih ha ha'
  | op _ kind' length _ ih =>
    exact .op kind' kind' rfl fun i a a' ha ha' => self_part length ih ha ha'
  | pos _ kind' _ ih => exact .pos kind' kind' ih

end Expr.Becomes

end Residual
