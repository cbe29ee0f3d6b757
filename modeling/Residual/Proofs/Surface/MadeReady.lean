import Residual.Proofs.Surface.TakenNames

/-!
Code that was made ready for evaluation.

`Expr.Becomes` says which code a store records for an expression when it is made ready: patterns are
replaced by the functions that they were lowered to, and functions list their captures. Main
statement: such code is prefiltered and sorted, and takes the free names of the expression.
-/

namespace Residual

/-! ### Free names of lowered code -/

section Takes

variable {P P' : Pattern → Prop} {x : Name}

mutual

lemma Expr.Takes.imp (hP : ∀ p, P p → P' p) (e : Expr) (h : e.Takes P x) : e.Takes P' x := by
  match e with
  | .node _ kind => exact ExprKind.Takes.imp hP kind h
termination_by structural e

lemma ExprKind.Takes.imp (hP : ∀ p, P p → P' p) (kind : ExprKind) (h : kind.Takes P x) :
    kind.Takes P' x := by
  match kind with
  | .var _ | .lit _ => exact h
  | .pattern p => exact hP p h
  | .function _ body | .filtered _ _ body | .recFunction _ _ body =>
    exact ⟨h.1, Expr.Takes.imp hP body h.2⟩
  | .tuple items | .op _ items => exact Expr.AnyTakes.imp hP items h
  | .pos _ e => exact Expr.Takes.imp hP e h
termination_by structural kind

lemma Expr.AnyTakes.imp (hP : ∀ p, P p → P' p) (es : List Expr) (h : Expr.AnyTakes P x es) :
    Expr.AnyTakes P' x es := by
  match es with
  | [] => exact h
  | e :: rest => exact Or.imp (Expr.Takes.imp hP e) (Expr.AnyTakes.imp hP rest) h
termination_by structural es

end

lemma Expr.anyTakes_iff {es : List Expr} :
    Expr.AnyTakes P x es ↔ ∃ e ∈ es, e.Takes P x := by
  induction es with
  | nil => simp [Expr.AnyTakes]
  | cons e rest ih => simp [Expr.AnyTakes, ih]

end Takes

/-- The name is free in the expression. A pattern stands for the function that `u` records for
it. -/
inductive Expr.FreeIn (u : Store) (x : Name) : Expr → Prop
  | intro {e : Expr} {P : Pattern → Prop} (l : Pattern → Expr)
    (lowered : ∀ p, P p → u.lowered.lookup p.symbol = some (l p))
    (free : ∀ p, P p → Expr.FreeIn u x (l p)) (takes : e.Takes P x) : Expr.FreeIn u x e

/-- The name is free in the function that `u` records for the pattern. -/
def Pattern.FreeIn (u : Store) (x : Name) (p : Pattern) : Prop :=
  ∃ l, u.lowered.lookup p.symbol = some l ∧ l.FreeIn u x

variable {u : Store} {x : Name} {e done : Expr}

lemma Expr.freeIn_iff : e.FreeIn u x ↔ e.Takes (Pattern.FreeIn u x) x := by
  constructor
  · rintro ⟨l, hlowered, hfree, htakes⟩
    exact htakes.imp (fun p hp => ⟨l p, hlowered p hp, hfree p hp⟩) e
  · intro h
    refine .intro (fun p => (u.lowered.lookup p.symbol).getD e) ?_ ?_ h
    · rintro p ⟨l, hl, -⟩
      rw [hl, Option.getD_some]
    · rintro p ⟨l, hl, hfree⟩
      rw [hl, Option.getD_some]
      exact hfree

/-! ### What expressions become -/

/-- The code that expressions become. A pattern becomes what the function becomes that the store
records for it. -/
inductive Expr.Becomes (u : Store) : Expr → Expr → Prop
  | var {e : Expr} {x : Name} (kind : e.kind = .var x) : Expr.Becomes u e e
  | lit {e : Expr} {l : Literal} (kind : e.kind = .lit l) : Expr.Becomes u e e
  | pattern {e done : Expr} {p : Pattern} {l : Expr} (kind : e.kind = .pattern p)
    (lowered : u.lowered.lookup p.symbol = some l) (code : Expr.Becomes u l done) :
    Expr.Becomes u e done
  | function {e done : Expr} {used : Captures} {x : Name} {b b' : Expr}
    (kind : e.IsFunction x b) (kind' : done.kind = .filtered used x b')
    (ascending : used.Ascending) (used_iff : ∀ y, y ∈ used ↔ e.FreeIn u y)
    (body : Expr.Becomes u b b') : Expr.Becomes u e done
  | recFunction {e done : Expr} {this x : Name} {b b' : Expr}
    (kind : e.kind = .recFunction this x b) (kind' : done.kind = .recFunction this x b')
    (body : Expr.Becomes u b b') : Expr.Becomes u e done
  | tuple {e done : Expr} {items items' : List Expr} (kind : e.kind = .tuple items)
    (kind' : done.kind = .tuple items') (length : items.length = items'.length)
    (parts : ∀ (i : Nat) a a', items[i]? = some a → items'[i]? = some a' → Expr.Becomes u a a') :
    Expr.Becomes u e done
  | op {e done : Expr} {o : Op} {args args' : List Expr} (kind : e.kind = .op o args)
    (kind' : done.kind = .op o args') (length : args.length = args'.length)
    (parts : ∀ (i : Nat) a a', args[i]? = some a → args'[i]? = some a' → Expr.Becomes u a a') :
    Expr.Becomes u e done
  | pos {e done a a' : Expr} {span span' : Span} (kind : e.kind = .pos span a)
    (kind' : done.kind = .pos span' a') (code : Expr.Becomes u a a') : Expr.Becomes u e done

/-- The parts of two lists correspond, if those at the same places do. -/
theorem exists_mem_iff_of_getElem? {α β : Type} {P : β → Prop} {Q : α → Prop} {l : List α}
    {l' : List β} (hlength : l.length = l'.length)
    (h : ∀ (i : Nat) a a', l[i]? = some a → l'[i]? = some a' → (P a' ↔ Q a)) :
    (∃ a ∈ l', P a) ↔ ∃ a ∈ l, Q a := by
  induction l generalizing l' with
  | nil =>
    obtain rfl := List.eq_nil_of_length_eq_zero hlength.symm
    simp
  | cons a rest ih =>
    cases l' with
    | nil => cases hlength
    | cons a' rest' =>
      simp only [List.mem_cons, exists_eq_or_imp]
      exact or_congr (h 0 a a' rfl rfl) (ih (Nat.succ.inj hlength) fun i => h (i + 1))

/-- Of two lists of one length the first has an element where the second has one. -/
theorem exists_getElem? {α : Type} {l l' : List α} (hlength : l.length = l'.length) {i : Nat}
    {a' : α} (h : l'[i]? = some a') : ∃ a, l[i]? = some a :=
  ⟨_, List.getElem?_eq_getElem (hlength ▸ (List.getElem?_eq_some_iff.1 h).1)⟩

lemma forall_mem_of_getElem? {α : Type} {P : α → Prop} {l l' : List α}
    (hlength : l.length = l'.length)
    (h : ∀ (i : Nat) a a', l[i]? = some a → l'[i]? = some a' → P a') : ∀ a ∈ l', P a := by
  intro a' ha'
  obtain ⟨i, hi⟩ := List.getElem?_of_mem ha'
  obtain ⟨a, ha⟩ := exists_getElem? hlength hi
  exact h i a a' ha hi

/-- Ascending lists of the same names are equal. -/
theorem Captures.Ascending.eq_of_mem_iff {used used' : Captures} (h : used.Ascending)
    (h' : used'.Ascending) (hmem : ∀ x, x ∈ used ↔ x ∈ used') : used = used' := by
  have hnodup : ∀ {l : Captures}, l.Ascending → l.Nodup := fun hl =>
    hl.imp fun hlt heq => absurd (heq ▸ hlt) (Nat.lt_irrefl _)
  refine List.Perm.eq_of_pairwise (fun a b _ _ hab hba => absurd hba (Nat.lt_asymm hab)) h h' ?_
  exact (List.perm_ext_iff_of_nodup (hnodup h) (hnodup h')).2 hmem

lemma Expr.bareAll_eq {es es' : List Expr} (hlength : es.length = es'.length)
    (h : ∀ (i : Nat) a a', es[i]? = some a → es'[i]? = some a' → a.bare = a'.bare) :
    Expr.bareAll es = Expr.bareAll es' := by
  induction es generalizing es' with
  | nil =>
    obtain rfl := List.eq_nil_of_length_eq_zero hlength.symm
    rfl
  | cons e rest ih =>
    cases es' with
    | nil => cases hlength
    | cons e' rest' =>
      rw [Expr.bareAll, Expr.bareAll, h 0 e e' rfl rfl,
        ih (Nat.succ.inj hlength) fun i => h (i + 1)]

lemma Expr.bare_eq_of_kind (h : e.kind.bare = done.kind.bare) : e.bare = done.bare := by
  obtain ⟨_, _⟩ := e
  obtain ⟨_, _⟩ := done
  exact congrArg (Expr.node 0) h

lemma Expr.IsFunction.eq {y z : Name} {b c : Expr} (h : e.IsFunction y b)
    (h' : e.IsFunction z c) : y = z ∧ b = c := by
  cases h <;> cases h' <;> exact ⟨rfl, rfl⟩

lemma Expr.IsFunction.kind {y : Name} {b : Expr} (h : e.IsFunction y b) :
    e.kind = .function y b ∨ ∃ used, e.kind = .filtered used y b := by
  cases h
  · exact .inl rfl
  · exact .inr ⟨_, rfl⟩

namespace Expr.Becomes

lemma of_var (h : e.Becomes u done) (he : e.kind = .var x) : done = e := by
  cases h with
  | var => rfl
  | lit => rfl
  | function kind => rcases kind.kind with hk | ⟨_, hk⟩ <;> rw [hk] at he <;> cases he
  | _ kind => rw [kind] at he; cases he

lemma of_lit {l : Literal} (h : e.Becomes u done) (he : e.kind = .lit l) : done = e := by
  cases h with
  | var => rfl
  | lit => rfl
  | function kind => rcases kind.kind with hk | ⟨_, hk⟩ <;> rw [hk] at he <;> cases he
  | _ kind => rw [kind] at he; cases he

lemma of_pattern {p : Pattern} (h : e.Becomes u done) (he : e.kind = .pattern p) :
    ∃ l, u.lowered.lookup p.symbol = some l ∧ l.Becomes u done := by
  cases h with
  | pattern kind lowered code =>
    rw [kind] at he
    cases he
    exact ⟨_, lowered, code⟩
  | function kind => rcases kind.kind with hk | ⟨_, hk⟩ <;> rw [hk] at he <;> cases he
  | _ kind => rw [kind] at he; cases he

lemma of_function {b : Expr} (h : e.Becomes u done) (he : e.IsFunction x b) :
    ∃ (used : Captures) (b' : Expr), done.kind = .filtered used x b' ∧ used.Ascending ∧
      (∀ y, y ∈ used ↔ e.FreeIn u y) ∧ b.Becomes u b' := by
  cases h with
  | function kind kind' ascending used_iff body =>
    obtain ⟨rfl, rfl⟩ := kind.eq he
    exact ⟨_, _, kind', ascending, used_iff, body⟩
  | _ kind => rcases he.kind with hk | ⟨_, hk⟩ <;> rw [hk] at kind <;> cases kind

lemma of_recFunction {this : Name} {b : Expr} (h : e.Becomes u done)
    (he : e.kind = .recFunction this x b) :
    ∃ b', done.kind = .recFunction this x b' ∧ b.Becomes u b' := by
  cases h with
  | recFunction kind kind' body =>
    rw [kind] at he
    cases he
    exact ⟨_, kind', body⟩
  | function kind => rcases kind.kind with hk | ⟨_, hk⟩ <;> rw [hk] at he <;> cases he
  | _ kind => rw [kind] at he; cases he

lemma of_tuple {items : List Expr} (h : e.Becomes u done) (he : e.kind = .tuple items) :
    ∃ items', done.kind = .tuple items' ∧ items.length = items'.length ∧
      ∀ (i : Nat) a a', items[i]? = some a → items'[i]? = some a' → a.Becomes u a' := by
  cases h with
  | tuple kind kind' length parts =>
    rw [kind] at he
    cases he
    exact ⟨_, kind', length, parts⟩
  | function kind => rcases kind.kind with hk | ⟨_, hk⟩ <;> rw [hk] at he <;> cases he
  | _ kind => rw [kind] at he; cases he

lemma of_op {o : Op} {args : List Expr} (h : e.Becomes u done) (he : e.kind = .op o args) :
    ∃ args', done.kind = .op o args' ∧ args.length = args'.length ∧
      ∀ (i : Nat) a a', args[i]? = some a → args'[i]? = some a' → a.Becomes u a' := by
  cases h with
  | op kind kind' length parts =>
    rw [kind] at he
    cases he
    exact ⟨_, kind', length, parts⟩
  | function kind => rcases kind.kind with hk | ⟨_, hk⟩ <;> rw [hk] at he <;> cases he
  | _ kind => rw [kind] at he; cases he

lemma of_pos {span : Span} {a : Expr} (h : e.Becomes u done) (he : e.kind = .pos span a) :
    ∃ span' a', done.kind = .pos span' a' ∧ a.Becomes u a' := by
  cases h with
  | pos kind kind' code =>
    rw [kind] at he
    cases he
    exact ⟨_, _, kind', code⟩
  | function kind => rcases kind.kind with hk | ⟨_, hk⟩ <;> rw [hk] at he <;> cases he
  | _ kind => rw [kind] at he; cases he

/-- What an expression becomes is determined, but for the positions of marks. -/
lemma bare_eq {done' : Expr} (h : e.Becomes u done) (h' : e.Becomes u done') :
    done.bare = done'.bare := by
  -- Induction on one of the two results; the other one has the same rule.
  induction h generalizing done' with
  | var kind => rw [h'.of_var kind]
  | lit kind => rw [h'.of_lit kind]
  | pattern kind lowered _ ih =>
    obtain ⟨l', hl', hcode⟩ := h'.of_pattern kind
    rw [lowered, Option.some.injEq] at hl'
    exact ih (hl' ▸ hcode)
  -- The lists of captured names are sorted and have the same members.
  | function kind kind' ascending used_iff _ ih =>
    obtain ⟨used', b', hkind', hasc, hused, hbody⟩ := h'.of_function kind
    obtain rfl := ascending.eq_of_mem_iff hasc fun x => (used_iff x).trans (hused x).symm
    exact bare_eq_of_kind (by rw [kind', hkind', ExprKind.bare, ExprKind.bare, ih hbody])
  | recFunction kind kind' _ ih =>
    obtain ⟨b', hkind', hbody⟩ := h'.of_recFunction kind
    exact bare_eq_of_kind (by rw [kind', hkind', ExprKind.bare, ExprKind.bare, ih hbody])
  | tuple kind kind' length _ ih =>
    obtain ⟨items', hkind', hlength, hparts⟩ := h'.of_tuple kind
    refine bare_eq_of_kind ?_
    rw [kind', hkind', ExprKind.bare, ExprKind.bare, bareAll_eq (length.symm.trans hlength)]
    intro i a a' ha ha'
    obtain ⟨c, hc⟩ := exists_getElem? length ha
    exact ih i c a hc ha (hparts i c a' hc ha')
  | op kind kind' length _ ih =>
    obtain ⟨args', hkind', hlength, hparts⟩ := h'.of_op kind
    refine bare_eq_of_kind ?_
    rw [kind', hkind', ExprKind.bare, ExprKind.bare, bareAll_eq (length.symm.trans hlength)]
    intro i a a' ha ha'
    obtain ⟨c, hc⟩ := exists_getElem? length ha
    exact ih i c a hc ha (hparts i c a' hc ha')
  | pos kind kind' _ ih =>
    obtain ⟨span', a', hkind', hcode⟩ := h'.of_pos kind
    exact bare_eq_of_kind (by rw [kind', hkind', ExprKind.bare, ExprKind.bare, ih hcode])

/-- A store has one node for what an expression becomes. -/
theorem eq (hu : u.Canonical) {done' : Expr} (h : e.Becomes u done)
    (h' : e.Becomes u done') (hd : done.Issued u) (hd' : done'.Issued u) : done = done' :=
  hd.mem.eq hd'.mem ((hu.expr_iff hd hd').2 (h.bare_eq h'))

end Expr.Becomes

lemma Expr.free_iff : e.Free x ↔ e.kind.Free x := by
  cases e
  exact Iff.rfl

lemma Expr.prefiltered_iff : e.Prefiltered ↔ e.kind.Prefiltered := by
  cases e
  exact Iff.rfl

lemma Expr.sorted_iff : e.Sorted ↔ e.kind.Sorted := by
  cases e
  exact Iff.rfl

/-- Code that was made ready is prefiltered and sorted, and has the same free names. -/
theorem Expr.Becomes.readies (h : e.Becomes u done) :
    done.Prefiltered ∧ done.Sorted ∧ ∀ x, done.Free x ↔ e.FreeIn u x := by
  induction h with
  | var kind | lit kind =>
    refine ⟨prefiltered_iff.2 (kind ▸ trivial), sorted_iff.2 (kind ▸ trivial), fun x => ?_⟩
    rw [free_iff, freeIn_iff, takes_iff, kind]
    exact Iff.rfl
  | @pattern e done p l kind lowered _ ih =>
    refine ⟨ih.1, ih.2.1, fun x => ?_⟩
    rw [ih.2.2, freeIn_iff (e := e), takes_iff, kind]
    refine ⟨fun h => ⟨l, lowered, h⟩, ?_⟩
    rintro ⟨l', hl', hfree⟩
    rw [lowered, Option.some.injEq] at hl'
    exact hl' ▸ hfree
  -- The one case with a list of captured names: they are the free ones.
  | @function e done used x b b' kind kind' ascending used_iff _ ih =>
    have hfree : ∀ y, done.Free y ↔ e.FreeIn u y := fun y => by
      rw [free_iff, kind', freeIn_iff, kind.takes, ExprKind.Free, ih.2.2, freeIn_iff]
    refine ⟨prefiltered_iff.2 (kind' ▸ ⟨fun y => ?_, ih.1⟩),
      sorted_iff.2 (kind' ▸ ⟨ascending, ih.2.1⟩),
      hfree⟩
    rw [used_iff, ← hfree, free_iff, kind', ExprKind.Free]
  | @recFunction e done this x b b' kind kind' _ ih =>
    refine ⟨prefiltered_iff.2 (kind' ▸ ih.1), sorted_iff.2 (kind' ▸ ih.2.1), fun y => ?_⟩
    rw [free_iff, kind', freeIn_iff, takes_iff, kind, ExprKind.Free, ExprKind.Takes, ih.2.2,
      freeIn_iff]
  -- Tuples and operations: part by part.
  | @tuple e done items items' kind kind' length _ ih =>
    refine ⟨prefiltered_iff.2 (kind' ▸ Expr.allPrefiltered_iff.2 ?_),
      sorted_iff.2 (kind' ▸ Expr.allSorted_iff.2 ?_), fun y => ?_⟩
    · exact forall_mem_of_getElem? length fun i a a' ha ha' => (ih i a a' ha ha').1
    · exact forall_mem_of_getElem? length fun i a a' ha ha' => (ih i a a' ha ha').2.1
    · rw [free_iff, kind', freeIn_iff, takes_iff, kind, ExprKind.Free, ExprKind.Takes,
        Expr.anyFree_iff, Expr.anyTakes_iff]
      exact exists_mem_iff_of_getElem? length fun i a a' ha ha' =>
        ((ih i a a' ha ha').2.2 y).trans freeIn_iff
  | @op e done o args args' kind kind' length _ ih =>
    refine ⟨prefiltered_iff.2 (kind' ▸ Expr.allPrefiltered_iff.2 ?_),
      sorted_iff.2 (kind' ▸ Expr.allSorted_iff.2 ?_), fun y => ?_⟩
    · exact forall_mem_of_getElem? length fun i a a' ha ha' => (ih i a a' ha ha').1
    · exact forall_mem_of_getElem? length fun i a a' ha ha' => (ih i a a' ha ha').2.1
    · rw [free_iff, kind', freeIn_iff, takes_iff, kind, ExprKind.Free, ExprKind.Takes,
        Expr.anyFree_iff, Expr.anyTakes_iff]
      exact exists_mem_iff_of_getElem? length fun i a a' ha ha' =>
        ((ih i a a' ha ha').2.2 y).trans freeIn_iff
  | @pos e done a a' span span' kind kind' _ ih =>
    refine ⟨prefiltered_iff.2 (kind' ▸ ih.1), sorted_iff.2 (kind' ▸ ih.2.1), fun y => ?_⟩
    rw [free_iff, kind', freeIn_iff, takes_iff, kind, ExprKind.Free, ExprKind.Takes, ih.2.2,
      freeIn_iff]

/-- In a store with more lowered patterns an expression becomes the same code. -/
theorem Expr.Becomes.mono {v : Store} (h : e.Becomes u done)
    (hv : ∀ n l, u.lowered.lookup n = some l → v.lowered.lookup n = some l) :
    e.Becomes v done := by
  induction h with
  | var kind => exact .var kind
  | lit kind => exact .lit kind
  | pattern kind lowered _ ih => exact .pattern kind (hv _ _ lowered) ih
  | @function e done used x b b' kind kind' ascending used_iff body ih =>
    refine .function kind kind' ascending (fun y => (used_iff y).trans ?_) ih
    rw [freeIn_iff, freeIn_iff, kind.takes, kind.takes, ← freeIn_iff, ← freeIn_iff,
      ← body.readies.2.2, ← ih.readies.2.2]
  | recFunction kind kind' _ ih => exact .recFunction kind kind' ih
  | tuple kind kind' length _ ih => exact .tuple kind kind' length ih
  | op kind kind' length _ ih => exact .op kind kind' length ih
  | pos kind kind' _ ih => exact .pos kind kind' ih

end Residual
