import Residual.Proofs.Surface.Shapes

/-!
The names that a pattern takes from its surroundings.

Which names these are can be read off the pattern: what follows a match sees the variables that the
match binds, and whatever stands elsewhere does not. Main statement: the function that a pattern
denotes takes these names and no others, and none of those that were made for it.
-/

namespace Residual

/-! ### Names that code takes -/

mutual

/-- The expression takes the name from its surroundings, if `P` says which of the patterns in it
do. -/
def Expr.Takes (P : Pattern → Prop) (x : Name) : Expr → Prop
  | .node _ kind => kind.Takes P x

def ExprKind.Takes (P : Pattern → Prop) (x : Name) : ExprKind → Prop
  | .var y => x = y
  | .lit _ => False
  | .pattern p => P p
  | .function param body | .filtered _ param body => x ≠ param ∧ body.Takes P x
  | .recFunction this param body => (x ≠ this ∧ x ≠ param) ∧ body.Takes P x
  | .tuple items | .op _ items => Expr.AnyTakes P x items
  | .pos _ e => e.Takes P x

def Expr.AnyTakes (P : Pattern → Prop) (x : Name) : List Expr → Prop
  | [] => False
  | e :: rest => e.Takes P x ∨ Expr.AnyTakes P x rest

end

/-! ### Names that patterns take -/

mutual

/-- The pattern takes the name `x` from its surroundings, if `F` says which of the expressions in it
do and `S` says whether what follows the match does. -/
def Pattern.Takes (x : Name) (F : Expr → Prop) (S : Prop) : Pattern → Prop
  | .node _ kind => kind.Takes x F S

def PatternKind.Takes (x : Name) (F : Expr → Prop) (S : Prop) : PatternKind → Prop
  | .wildcard | .lit _ => S
  | .var y => x ≠ y ∧ S
  | .tuple items | .and items => Pattern.AllTake x F S items
  | .cons items rest => Pattern.AllTake x F (rest.Takes x F S) items
  | .typeEq inner e | .active e inner | .partialActive e inner | .extension e inner =>
    F e ∨ inner.Takes x F S
  | .guarded inner guard => inner.Takes x F (F guard ∨ S)
  | .or alternatives => Pattern.AnyTakes x F S alternatives
  | .clauses arms => Clause.AnyTakes x F S arms
  | .module m => m.Takes x F S

/-- Of patterns that have to match one after another, each is followed by the later ones. -/
def Pattern.AllTake (x : Name) (F : Expr → Prop) (S : Prop) : List Pattern → Prop
  | [] => S
  | p :: rest => p.Takes x F (Pattern.AllTake x F S rest)

def Pattern.AnyTakes (x : Name) (F : Expr → Prop) (S : Prop) : List Pattern → Prop
  | [] => False
  | p :: rest => p.Takes x F S ∨ Pattern.AnyTakes x F S rest

/-- The bodies of clauses inside a pattern do not count. -/
def Clause.AnyTakes (x : Name) (F : Expr → Prop) (S : Prop) : List Clause → Prop
  | [] => False
  | .mk p _ :: rest => p.Takes x F S ∨ Clause.AnyTakes x F S rest

def ModulePattern.Takes (x : Name) (F : Expr → Prop) (S : Prop) : ModulePattern → Prop
  | .member _ bind => x ≠ bind ∧ S
  | .inner _ p => p.Takes x F S
  | .and parts => ModulePattern.AllTake x F S parts
  | .or alternatives => ModulePattern.AnyTakes x F S alternatives
  | .xor a b => a.Takes x F S ∨ b.Takes x F S
  | .not m => m.Takes x F False ∨ S

def ModulePattern.AllTake (x : Name) (F : Expr → Prop) (S : Prop) : List ModulePattern → Prop
  | [] => S
  | m :: rest => m.Takes x F (ModulePattern.AllTake x F S rest)

def ModulePattern.AnyTakes (x : Name) (F : Expr → Prop) (S : Prop) : List ModulePattern → Prop
  | [] => False
  | m :: rest => m.Takes x F S ∨ ModulePattern.AnyTakes x F S rest

end

/-- The names that clauses take, with their bodies. -/
def Clause.MatchTakes (x : Name) (F : Expr → Prop) (arms : List Clause) : Prop :=
  ∃ arm ∈ arms, arm.pattern.Takes x F (F arm.body)

/-- The function that the pattern denotes takes the name from its surroundings. Nothing follows the
match but the bodies of a list of clauses. -/
def Pattern.Free (x : Name) (F : Expr → Prop) (p : Pattern) : Prop :=
  match p.kind with
  | .clauses arms => Clause.MatchTakes x F arms
  | _ => p.Takes x F False

/-! ### What follows a match -/

/-- What follows counts unless the name is bound before, and so do some of the expressions
`codes`. -/
def Counts (codes : List Expr) (T : (Expr → Prop) → Prop → Prop) : Prop :=
  ∃ (A : Expr → Prop) (B : Prop), (∀ c, A c → c ∈ codes) ∧
    ∀ F S, T F S ↔ (∃ c, A c ∧ F c) ∨ (B ∧ S)

namespace Counts

variable {F F' : Expr → Prop} {codes codes' : List Expr} {T U : (Expr → Prop) → Prop → Prop}

lemma imp (h : Counts codes T) {S S' : Prop} (hF : ∀ c ∈ codes, F c → F' c) (hS : S → S')
    (hT : T F S) : T F' S' := by
  obtain ⟨A, B, hA, h⟩ := h
  exact (h F' S').2 (((h F S).1 hT).imp
    (fun ⟨c, hc, hFc⟩ => ⟨c, hc, hF c (hA c hc) hFc⟩) (And.imp id hS))

lemma mono (h : Counts codes T) {S S' : Prop} (hS : S → S') (hT : T F S) : T F S' :=
  h.imp (fun _ _ => id) hS hT

lemma or (h : Counts codes T) {S S' : Prop} (hT : T F (S ∨ S')) : T F S ∨ S' := by
  obtain ⟨A, B, -, h⟩ := h
  rcases (h _ _).1 hT with hA | ⟨hB, hS | hS⟩
  · exact .inl ((h F S).2 (.inl hA))
  · exact .inl ((h F S).2 (.inr ⟨hB, hS⟩))
  · exact .inr hS

lemma codes_or (h : Counts codes T) {S : Prop} (hT : T F S) : (∃ c ∈ codes, F c) ∨ S := by
  obtain ⟨A, B, hA, h⟩ := h
  exact ((h F S).1 hT).imp (fun ⟨c, hc, hF⟩ => ⟨c, hA c hc, hF⟩) And.right

lemma here : Counts codes fun _ S => S :=
  ⟨fun _ => False, True, fun _ => False.elim, fun F S => by simp⟩

lemma never : Counts codes fun _ _ => False :=
  ⟨fun _ => False, False, fun _ => False.elim, fun F S => by simp⟩

lemma bound (Q : Prop) : Counts codes fun _ S => Q ∧ S :=
  ⟨fun _ => False, Q, fun _ => False.elim, fun F S => by simp⟩

lemma congr (h : Counts codes T) (hT : ∀ F S, U F S ↔ T F S) : Counts codes U := by
  obtain ⟨A, B, hA, h⟩ := h
  exact ⟨A, B, hA, fun F S => (hT F S).trans (h F S)⟩

lemma subset (h : Counts codes T) (hsub : codes ⊆ codes') : Counts codes' T := by
  obtain ⟨A, B, hA, h⟩ := h
  exact ⟨A, B, fun c hc => hsub (hA c hc), h⟩

lemma comp (h : Counts codes T) (h' : Counts codes U) :
    Counts codes fun F S => T F (U F S) := by
  obtain ⟨A, B, hA, h⟩ := h
  obtain ⟨A', B', hA', h'⟩ := h'
  refine ⟨fun c => A c ∨ (B ∧ A' c), B ∧ B', fun c hc => hc.elim (hA c) fun hb => hA' c hb.2,
    fun F S => ?_⟩
  simp only [h, h']
  grind

lemma union (h : Counts codes T) (h' : Counts codes U) :
    Counts codes fun F S => T F S ∨ U F S := by
  obtain ⟨A, B, hA, h⟩ := h
  obtain ⟨A', B', hA', h'⟩ := h'
  refine ⟨fun c => A c ∨ A' c, B ∨ B', fun c hc => hc.elim (hA c) (hA' c), fun F S => ?_⟩
  simp only [h, h']
  grind

/-- One of the expressions stands before. -/
theorem code {e : Expr} (he : e ∈ codes) (h : Counts codes T) :
    Counts codes fun F S => F e ∨ T F S := by
  obtain ⟨A, B, hA, h⟩ := h
  refine ⟨fun c => c = e ∨ A c, B, fun c hc => hc.elim (fun heq => heq ▸ he) (hA c), fun F S => ?_⟩
  simp only [h]
  grind

end Counts

variable {x : Name}

mutual

lemma Pattern.counts (p : Pattern) : Counts p.codes fun F S => p.Takes x F S := by
  match p with
  | .node _ kind => exact PatternKind.counts kind
termination_by structural p

lemma PatternKind.counts (kind : PatternKind) :
    Counts kind.codes fun F S => kind.Takes x F S := by
  match kind with
  | .wildcard | .lit _ => exact .here
  | .var y => exact .bound _
  | .tuple items | .and items => exact Pattern.counts_all items
  | .cons items rest =>
    exact ((Pattern.counts_all items).subset (List.subset_append_left _ _)).comp
      (U := fun F S => rest.Takes x F S)
      ((Pattern.counts rest).subset (List.subset_append_right _ _))
  | .typeEq inner e | .active e inner | .partialActive e inner | .extension e inner =>
    exact ((Pattern.counts inner).subset (List.subset_cons_self _ _)).code (List.mem_cons_self ..)
  | .guarded inner guard =>
    exact ((Pattern.counts inner).subset (List.subset_cons_self _ _)).comp
      (U := fun F S => F guard ∨ S) (Counts.here.code (List.mem_cons_self ..))
  | .or alternatives => exact Pattern.counts_any alternatives
  | .clauses arms => exact Clause.counts_any arms
  | .module m => exact ModulePattern.counts m
termination_by structural kind

lemma Pattern.counts_all (ps : List Pattern) :
    Counts (Pattern.codesOfAll ps) fun F S => Pattern.AllTake x F S ps := by
  match ps with
  | [] => exact .here
  | p :: rest =>
    exact ((Pattern.counts p).subset (List.subset_append_left _ _)).comp
      (U := fun F S => Pattern.AllTake x F S rest)
      ((Pattern.counts_all rest).subset (List.subset_append_right _ _))
termination_by structural ps

lemma Pattern.counts_any (ps : List Pattern) :
    Counts (Pattern.codesOfAll ps) fun F S => Pattern.AnyTakes x F S ps := by
  match ps with
  | [] => exact .never
  | p :: rest =>
    exact ((Pattern.counts p).subset (List.subset_append_left _ _)).union
      ((Pattern.counts_any rest).subset (List.subset_append_right _ _))
termination_by structural ps

lemma Clause.counts_any (arms : List Clause) :
    Counts (Clause.codesOfAll arms) fun F S => Clause.AnyTakes x F S arms := by
  match arms with
  | [] => exact .never
  | .mk p body :: rest =>
    exact ((Pattern.counts p).subset fun c hc =>
        List.mem_append_left _ (List.mem_cons_of_mem _ hc)).union
      ((Clause.counts_any rest).subset (List.subset_append_right _ _))
termination_by structural arms

lemma ModulePattern.counts (m : ModulePattern) :
    Counts m.codes fun F S => m.Takes x F S := by
  match m with
  | .member _ bind => exact .bound _
  | .inner _ p => exact Pattern.counts p
  | .and parts => exact ModulePattern.counts_all parts
  | .or alternatives => exact ModulePattern.counts_any alternatives
  | .xor a b =>
    exact ((ModulePattern.counts a).subset (List.subset_append_left _ _)).union
      ((ModulePattern.counts b).subset (List.subset_append_right _ _))
  | .not m =>
    obtain ⟨A, B, hA, h⟩ : Counts m.codes fun F S => m.Takes x F S := ModulePattern.counts m
    refine ⟨A, True, hA, fun F S => ?_⟩
    have hnone : m.Takes x F False ↔ ∃ c, A c ∧ F c := (h F False).trans (by simp)
    rw [true_and]
    exact or_congr_left hnone
termination_by structural m

lemma ModulePattern.counts_all (ms : List ModulePattern) :
    Counts (ModulePattern.codesOfAll ms) fun F S => ModulePattern.AllTake x F S ms := by
  match ms with
  | [] => exact .here
  | m :: rest =>
    exact ((ModulePattern.counts m).subset (List.subset_append_left _ _)).comp
      (U := fun F S => ModulePattern.AllTake x F S rest)
      ((ModulePattern.counts_all rest).subset (List.subset_append_right _ _))
termination_by structural ms

lemma ModulePattern.counts_any (ms : List ModulePattern) :
    Counts (ModulePattern.codesOfAll ms) fun F S => ModulePattern.AnyTakes x F S ms := by
  match ms with
  | [] => exact .never
  | m :: rest =>
    exact ((ModulePattern.counts m).subset (List.subset_append_left _ _)).union
      ((ModulePattern.counts_any rest).subset (List.subset_append_right _ _))
termination_by structural ms

end

lemma Clause.counts_match (arms : List Clause) :
    Counts (Clause.codesOfAll arms) fun F _ => Clause.MatchTakes x F arms := by
  induction arms with
  | nil => exact Counts.never.congr fun F S => by simp [Clause.MatchTakes]
  | cons arm rest ih =>
    obtain ⟨p, body⟩ := arm
    have hbody : Counts (Clause.codesOfAll (.mk p body :: rest)) fun F _ => F body ∨ False :=
      Counts.never.code (List.mem_append_left _ (List.mem_cons_self ..))
    have hp := (Pattern.counts (x := x) p).subset fun c hc =>
      List.mem_append_left (Clause.codesOfAll rest) (List.mem_cons_of_mem body hc)
    refine ((hp.comp hbody).union (ih.subset (List.subset_append_right _ _))).congr fun F S => ?_
    simp [Clause.MatchTakes, Clause.pattern, Clause.body]

/-- Nothing else counts in a pattern than the expressions inside it. -/
theorem Pattern.counts_free (p : Pattern) : Counts p.codes fun F _ => p.Free x F := by
  obtain ⟨symbol, kind⟩ := p
  cases kind with
  | clauses arms => exact Clause.counts_match arms
  | _ => exact (Pattern.counts (x := x) (.node symbol _)).comp (U := fun _ _ => False) .never

/-! ### Names that lowered code takes -/

section Code

variable {t : Names} {P : Pattern → Prop} {F : Expr → Prop} {e : Expr} {y : Name}

lemma Expr.takes_iff : e.Takes P x ↔ e.kind.Takes P x := by
  cases e
  exact Iff.rfl

lemma Expr.anyTakes_cons {es : List Expr} :
    Expr.AnyTakes P x (e :: es) ↔ e.Takes P x ∨ Expr.AnyTakes P x es :=
  Iff.rfl

lemma Expr.not_anyTakes_nil : ¬ Expr.AnyTakes P x [] := id

lemma Expr.takes_var (h : e.kind = .var y) : e.Takes P x ↔ x = y := by
  rw [takes_iff, h]
  exact Iff.rfl

lemma Expr.takes_lit {l : Literal} (h : e.kind = .lit l) : ¬ e.Takes P x := by
  rw [takes_iff, h]
  exact id

lemma Expr.takes_op {o : Op} {args : List Expr} (h : e.kind = .op o args) :
    e.Takes P x ↔ Expr.AnyTakes P x args := by
  rw [takes_iff, h]
  exact Iff.rfl

lemma Expr.takes_tuple {items : List Expr} (h : e.kind = .tuple items) :
    e.Takes P x ↔ Expr.AnyTakes P x items := by
  rw [takes_iff, h]
  exact Iff.rfl

lemma Expr.takes_op₁ {o : Op} {a : Expr} (h : e.kind = .op o [a]) :
    e.Takes P x ↔ a.Takes P x := by
  rw [takes_op h, anyTakes_cons, iff_false_intro not_anyTakes_nil, or_false]

lemma Expr.takes_op₂ {o : Op} {a b : Expr} (h : e.kind = .op o [a, b]) :
    e.Takes P x ↔ a.Takes P x ∨ b.Takes P x := by
  rw [takes_op h, anyTakes_cons, anyTakes_cons, iff_false_intro not_anyTakes_nil, or_false]

lemma Expr.takes_op₃ {o : Op} {a b c : Expr} (h : e.kind = .op o [a, b, c]) :
    e.Takes P x ↔ a.Takes P x ∨ b.Takes P x ∨ c.Takes P x := by
  rw [takes_op h, anyTakes_cons, anyTakes_cons, anyTakes_cons, iff_false_intro not_anyTakes_nil,
    or_false]

lemma Expr.IsFunction.takes {b : Expr} (h : e.IsFunction y b) :
    e.Takes P x ↔ x ≠ y ∧ b.Takes P x := by
  cases h <;> rfl

lemma Expr.IsLet.takes {b rest : Expr} (h : e.IsLet y b rest) :
    e.Takes P x ↔ (x ≠ y ∧ rest.Takes P x) ∨ b.Takes P x := by
  obtain ⟨hf⟩ := h
  rw [takes_op₂ rfl, hf.takes]

lemma Expr.IsForce.takes (h : e.IsForce y) : e.Takes P x ↔ x = y := by
  obtain ⟨f, unit, hf, hunit, he⟩ := h
  rw [takes_op₂ he, takes_var hf, takes_tuple hunit, iff_false_intro not_anyTakes_nil, or_false]

lemma Names.Made.ne {i : Nat} (h : t.Made y i) (hx : ¬ t.Generated x) : x ≠ y := by
  rintro rfl
  exact hx h.generated

lemma Expr.IsThunk.takes_body {n : Nat} {b : Expr} (h : e.IsThunk t n b) (he : e.Takes P x) :
    b.Takes P x := by
  obtain ⟨_, _, _, _, hf⟩ := h
  exact (hf.takes.1 he).2

lemma Expr.IsThunk.takes {n : Nat} {b : Expr} (h : e.IsThunk t n b) (hx : ¬ t.Generated x)
    (hb : b.Takes P x) : e.Takes P x := by
  obtain ⟨_, _, _, hmade, hf⟩ := h
  exact hf.takes.2 ⟨hmade.ne hx, hb⟩

/-- The code takes the name if `T` holds, unless the name was made for lowered code, and apart from
that only if `W` holds. -/
structure Expr.Between (t : Names) (P : Pattern → Prop) (x : Name) (e : Expr) (W T : Prop) :
    Prop where
  upper : e.Takes P x → T ∨ W
  lower : ¬ t.Generated x → T → e.Takes P x

namespace Expr.Between

variable {W W' T U : Prop} {codes : List Expr}

lemma self : e.Between t P x W (e.Takes P x) := ⟨.inl, fun _ => id⟩

lemma weaken (h : e.Between t P x W T) (hW : W → W') : e.Between t P x W' T :=
  ⟨fun he => (h.upper he).imp id hW, h.lower⟩

/-- What follows a match, in place of the code that it is. -/
theorem after {succ : Expr} {T : (Expr → Prop) → Prop → Prop}
    (h : e.Between t P x W (T (fun c => c.Takes P x) (succ.Takes P x))) (hT : Counts codes T)
    (hs : succ.Between t P x W U) : e.Between t P x W (T (fun c => c.Takes P x) U) := by
  refine ⟨fun he => ?_, fun hx hTU => h.lower hx (hT.mono (hs.lower hx) hTU)⟩
  rcases h.upper he with hsucc | hW
  · exact hT.or (hT.mono hs.upper hsucc)
  · exact .inr hW

/-- A conditional that goes on with `matched`. -/
theorem cond {check matched fail : Expr} (h : matched.Between t P x W T)
    (hc : check.Between t P x W U) (hf : fail.Takes P x → W)
    (he : e.kind = .op .cond [check, matched, fail]) : e.Between t P x W (U ∨ T) := by
  refine ⟨fun htakes => ?_, fun hx hT => (takes_op₃ he).2 ?_⟩
  · rcases (takes_op₃ he).1 htakes with hc' | hm | hfail
    · exact (hc.upper hc').imp .inl id
    · exact (h.upper hm).imp .inr id
    · exact .inr (hf hfail)
  · exact hT.imp (hc.lower hx) fun hT => .inl (h.lower hx hT)

/-- A binding of a name that was made. -/
theorem bind {bound rest : Expr} {i : Nat} (h : rest.Between t P x (W ∨ x = y) T) (hy : t.Made y i)
    (hb : bound.Between t P x W U) (he : e.IsLet y bound rest) : e.Between t P x W (U ∨ T) := by
  refine ⟨fun htakes => ?_, fun hx hT => he.takes.2 ?_⟩
  · rcases he.takes.1 htakes with ⟨hne, hr⟩ | hbound
    · exact (h.upper hr).imp .inr fun hW => hW.resolve_right hne
    · exact (hb.upper hbound).imp .inl id
  · exact hT.symm.imp (fun hT => ⟨hy.ne hx, h.lower hx hT⟩) (hb.lower hx)

lemma congr (h : e.Between t P x W T) (hT : T ↔ U) : e.Between t P x W U := by
  rwa [← propext hT]

/-- A test without expressions of the pattern adds nothing. -/
theorem drop (h : e.Between t P x W (False ∨ T)) : e.Between t P x W T := h.congr (by rw [false_or])

/-- Code that takes no name but such as `W` allows. -/
theorem only (h : e.Takes P x → W) :
    e.Between t P x W False := ⟨fun he => .inr (h he), fun _ => False.elim⟩

lemma thunk {n : Nat} {b : Expr} (h : b.Between t P x W T) (he : e.IsThunk t n b) :
    e.Between t P x W T :=
  ⟨fun htakes => h.upper (he.takes_body htakes), fun hx hT => he.takes hx (h.lower hx hT)⟩

/-- Code that only looks at the matched value. -/
theorem look {v : Name} {o : Op} {value : Expr} (hv : value.kind = .var v)
    (he : e.kind = .op o [value]) : e.Between t P x (W ∨ x = v) False :=
  only fun h => .inr ((takes_var hv).1 ((takes_op₁ he).1 h))

/-- Code that looks at the matched value with an expression of the pattern. -/
lemma look_right {v : Name} {o : Op} {value c : Expr} (hv : value.kind = .var v)
    (he : e.kind = .op o [value, c]) : e.Between t P x (W ∨ x = v) (c.Takes P x) :=
  ⟨fun h => ((takes_op₂ he).1 h).symm.imp id fun h => .inr ((takes_var hv).1 h),
    fun _ hc => (takes_op₂ he).2 (.inr hc)⟩

lemma look_left {v : Name} {o : Op} {value c : Expr} (hv : value.kind = .var v)
    (he : e.kind = .op o [c, value]) : e.Between t P x (W ∨ x = v) (c.Takes P x) :=
  ⟨fun h => ((takes_op₂ he).1 h).imp id fun h => .inr ((takes_var hv).1 h),
    fun _ hc => (takes_op₂ he).2 (.inl hc)⟩

end Expr.Between

variable {n : Nat} {v : Name} {W T U : Prop}

lemma Pattern.SplitShape.between {p : Pattern} {L : Nat → Name → Expr → Prop}
    (h : p.SplitShape t n v L e) (hL : ∀ m z b, L m z b → b.Between t P x (W ∨ x = z) T) :
    e.Between t P x (W ∨ x = v) T := by
  unfold SplitShape at h
  split at h
  · obtain ⟨part, i, value, f, body, _, hpart, hbody, hvalue, hf, he⟩ := h
    have hb := hL _ _ _ hbody
    have htakes : e.Takes P x ↔ x = v ∨ (x ≠ part ∧ body.Takes P x) := by
      rw [Expr.takes_op₂ he, Expr.takes_var hvalue, hf.takes]
    refine ⟨fun h => ?_, fun hx hT => htakes.2 (.inr ⟨hpart.ne hx, hb.lower hx hT⟩)⟩
    rcases htakes.1 h with hv | ⟨hne, h⟩
    · exact .inr (.inr hv)
    · exact (hb.upper h).imp id fun hW => .inl (hW.resolve_right hne)
  · exact hL _ _ _ h

lemma Expr.FailingShape.between {later : Expr} {L : Nat → Expr → Expr → Prop}
    (h : e.FailingShape t n later L) (hlater : later.Between t P x W U)
    (hL : ∀ m next b, L m next b → b.Between t P x (next.Takes P x ∨ W) T) :
    e.Between t P x W (T ∨ U) := by
  obtain ⟨k, i, thunk, next, body, _, hk, hthunk, hnext, hbody, he⟩ := h
  have hb : body.Between t P x (W ∨ x = k) T := (hL _ _ _ hbody).weaken fun hW =>
    hW.symm.imp id hnext.takes.1
  exact (hb.bind hk (hlater.thunk hthunk) he).congr or_comm

lemma Expr.OnlyFirstShape.between {f : Name} {succ tryB : Expr}
    {A B : Nat → Expr → Expr → Expr → Prop} {TA TB : (Expr → Prop) → Prop → Prop}
    {codes codes' : List Expr} (h : e.OnlyFirstShape t n f succ tryB A B)
    (hA : ∀ m succ fail b, A m succ fail b → b.Between t P x (fail.Takes P x ∨ x = v)
      (TA (fun c => c.Takes P x) (succ.Takes P x)))
    (hB : ∀ m succ fail b, B m succ fail b → b.Between t P x (fail.Takes P x ∨ x = v)
      (TB (fun c => c.Takes P x) (succ.Takes P x)))
    (hTA : Counts codes TA) (hTB : Counts codes' TB) :
    e.Between t P x (tryB.Takes P x ∨ x = v ∨ x = f) (TA (fun c => c.Takes P x)
      (succ.Takes P x ∨ TB (fun c => c.Takes P x) False)) := by
  obtain ⟨s, j, okThunk, callOk, callFail, bMustFail, afterA, _, hs, hokThunk, hcallOk, hcallFail,
    hmust, hafter, he⟩ := h
  have hnone : bMustFail.Between t P x ((tryB.Takes P x ∨ x = v ∨ x = f) ∨ x = s)
      (TB (fun c => c.Takes P x) False) :=
    ((hB _ _ _ _ hmust).weaken (Or.rec (fun hc => .inr (hcallOk.takes.1 hc))
      fun hv => .inl (.inr (.inl hv)))).after hTB
      (.only fun hc => .inl (.inr (.inr (hcallFail.takes.1 hc))))
  exact ((hA _ _ _ _ he).weaken (Or.imp id .inl)).after hTA
    (hnone.bind hs (Expr.Between.self.thunk hokThunk) hafter)

mutual

lemma Pattern.Shape.between (p : Pattern) {n : Nat} {v : Name} {succ fail e : Expr}
    (h : p.Shape t Eq n v succ fail e) : e.Between t P x (fail.Takes P x ∨ x = v)
      (p.Takes x (fun c => c.Takes P x) (succ.Takes P x)) := by
  match p with
  | .node _ kind => exact PatternKind.Shape.between kind h
termination_by structural p

lemma PatternKind.Shape.between (kind : PatternKind) {n : Nat} {v : Name} {succ fail e : Expr}
    (h : kind.Shape t Eq n v succ fail e) : e.Between t P x (fail.Takes P x ∨ x = v)
      (kind.Takes x (fun c => c.Takes P x) (succ.Takes P x)) := by
  -- A test of the value takes no name but the value's own, which is generated.
  match kind with
  | .wildcard =>
    obtain rfl : e = succ := h
    exact .self
  | .var y =>
    obtain ⟨value, hvalue, he⟩ := h
    refine ⟨fun htakes => ?_, fun _ hT => he.takes.2 (.inl hT)⟩
    exact (he.takes.1 htakes).imp id fun hv => .inr ((Expr.takes_var hvalue).1 hv)
  | .lit l =>
    obtain ⟨value, expected, sameType, sameValue, inner, hvalue, hexpected, htype, hequal, hinner,
      he⟩ := h
    have hlook : ∀ {check : Expr} {o : Op}, check.kind = .op o [value, expected] →
        check.Between t P x (fail.Takes P x ∨ x = v) False := fun hcheck =>
      (Expr.Between.look_right hvalue hcheck).congr (iff_false_intro (Expr.takes_lit hexpected))
    have hi := Expr.Between.self.cond (hlook hequal) .inl hinner
    exact (hi.cond (hlook htype) .inl he).congr (by rw [false_or, false_or]; exact Iff.rfl)
  | .tuple items =>
    obtain ⟨value, check, matched, hvalue, hm, hcheck, he⟩ := h
    exact ((Pattern.ElementsShape.between items hm).cond (.look hvalue hcheck) .inl he).drop
  | .cons items rest =>
    obtain ⟨others, i, restMatch, value, slice, withRest, matched, check, _, hothers, hr, hvalue,
      hslice, hwith, hm, hcheck, he⟩ := h
    have hrest := hr.between fun m z b => Pattern.Shape.between rest
    have hall : withRest.Between t P x (fail.Takes P x ∨ x = v) _ :=
      (hrest.weaken (Or.imp .inl id)).bind hothers (.look hvalue hslice) hwith
    have hmatched := (Pattern.ElementsShape.between items hm).after (Pattern.counts_all items)
      hall.drop
    exact (hmatched.cond (.look hvalue hcheck) .inl he).drop
  | .typeEq inner type =>
    obtain ⟨matched, value, _, check, hm, hvalue, rfl, hcheck, he⟩ := h
    exact (hm.between fun m z b => Pattern.Shape.between inner).cond (.look_right hvalue hcheck)
      .inl he
  -- The code inside takes its names where the value is looked at.
  | .active f inner =>
    obtain ⟨result, i, matched, value, _, call, _, hresult, hm, hvalue, rfl, hcall, he⟩ := h
    have hmatched := hm.between fun m z b => Pattern.Shape.between inner
    exact (hmatched.weaken (Or.imp .inl id)).bind hresult (.look_left hvalue hcall) he
  | .partialActive f inner =>
    obtain ⟨result, i, payload, j, matched, answer, second, bound, flag, branch, value, _, call, _,
      hresult, _, hpayload, hm, hanswer, hsecond, hbound, hflag, hbranch,
        hvalue, rfl, hcall, he⟩ := h
    -- Two generated names are in scope here: the answer and what it carries.
    have hmatched : matched.Between t P x
        (((fail.Takes P x ∨ x = v) ∨ x = result) ∨ x = payload) _ :=
      (hm.between fun m z b => Pattern.Shape.between inner).weaken
        (Or.imp (fun hf => .inl (.inl hf)) id)
    have hb : bound.Between t P x ((fail.Takes P x ∨ x = v) ∨ x = result) _ :=
      (hmatched.bind hpayload (.look hanswer hsecond) hbound).drop
    have hrest := (hb.cond (.look hanswer hflag) (fun hf => .inl (.inl hf)) hbranch).drop
    exact hrest.bind hresult (.look_left hvalue hcall) he
  | .extension f inner =>
    obtain ⟨matched, value, _, check, hm, hvalue, rfl, hcheck, he⟩ := h
    exact (hm.between fun m z b => Pattern.Shape.between inner).cond (.look_left hvalue hcheck)
      .inl he
  | .or alternatives => exact Pattern.AlternativesShape.between alternatives h
  | .and parts => exact Pattern.PartsShape.between parts h
  | .guarded inner guard =>
    obtain ⟨_, guarded, rfl, hguarded, hm⟩ := h
    have hg : guarded.Between t P x (fail.Takes P x ∨ x = v) (guard.Takes P x ∨ succ.Takes P x) :=
      Expr.Between.self.cond .self .inl hguarded
    exact (hm.between fun m z b => Pattern.Shape.between inner).after (Pattern.counts inner) hg
  | .module m => exact ModulePattern.Shape.between m h
  | .clauses arms => exact Clause.ArmsShape.between arms h
termination_by structural kind

lemma Pattern.AlternativesShape.between (ps : List Pattern) {n : Nat} {v : Name}
    {succ fail e : Expr} (h : Pattern.AlternativesShape t Eq n v succ fail e ps) :
    e.Between t P x (fail.Takes P x ∨ x = v)
      (Pattern.AnyTakes x (fun c => c.Takes P x) (succ.Takes P x) ps) := by
  match ps with
  | [] =>
    obtain rfl : e = fail := h
    exact .only .inl
  | p :: rest =>
    obtain ⟨later, hlater, he⟩ := h
    refine he.between (Pattern.AlternativesShape.between rest hlater) fun m next b hb => ?_
    exact (hb.between fun m z b => Pattern.Shape.between p).weaken (Or.imp id .inr)
termination_by structural ps

lemma Clause.ArmsShape.between (arms : List Clause) {n : Nat} {v : Name} {succ fail e : Expr}
    (h : Clause.ArmsShape t Eq n v succ fail e arms) : e.Between t P x (fail.Takes P x ∨ x = v)
      (Clause.AnyTakes x (fun c => c.Takes P x) (succ.Takes P x) arms) := by
  match arms with
  | [] =>
    obtain rfl : e = fail := h
    exact .only .inl
  | .mk p _ :: rest =>
    obtain ⟨later, hlater, he⟩ := h
    refine he.between (Clause.ArmsShape.between rest hlater) fun m next b hb => ?_
    exact (hb.between fun m z b => Pattern.Shape.between p).weaken (Or.imp id .inr)
termination_by structural arms

lemma Pattern.PartsShape.between (ps : List Pattern) {n : Nat} {v : Name} {succ fail e : Expr}
    (h : Pattern.PartsShape t Eq n v succ fail e ps) : e.Between t P x (fail.Takes P x ∨ x = v)
      (Pattern.AllTake x (fun c => c.Takes P x) (succ.Takes P x) ps) := by
  match ps with
  | [] =>
    obtain rfl : e = succ := h
    exact .self
  | p :: rest =>
    obtain ⟨later, hlater, he⟩ := h
    exact (he.between fun m z b => Pattern.Shape.between p).after (Pattern.counts p)
      (Pattern.PartsShape.between rest hlater)
termination_by structural ps

lemma Pattern.ElementsShape.between (ps : List Pattern) {n : Nat} {v : Name} {index : Nat}
    {succ fail e : Expr} (h : Pattern.ElementsShape t Eq n v index succ fail e ps) :
    e.Between t P x (fail.Takes P x ∨ x = v)
      (Pattern.AllTake x (fun c => c.Takes P x) (succ.Takes P x) ps) := by
  match ps with
  | [] =>
    obtain rfl : e = succ := h
    exact .self
  | p :: rest =>
    obtain ⟨later, element, i, matched, value, item, hlater, _, helement,
      hm, hvalue, hitem, he⟩ := h
    have hrest := Pattern.ElementsShape.between rest hlater
    have hmatched := ((hm.between fun m z b => Pattern.Shape.between p).weaken
      (Or.imp .inl id)).after (Pattern.counts p) (hrest.weaken .inl)
    exact (hmatched.bind helement (.look hvalue hitem) he).drop
termination_by structural ps

lemma ModulePattern.Shape.between (m : ModulePattern) {n : Nat} {v : Name} {succ fail e : Expr}
    (h : m.Shape t Eq n v succ fail e) : e.Between t P x (fail.Takes P x ∨ x = v)
      (m.Takes x (fun c => c.Takes P x) (succ.Takes P x)) := by
  match m with
  | .member field y =>
    obtain ⟨value, has, opened, bound, hvalue, hhas, hopened, hbound, he⟩ := h
    have hb : bound.Between t P x (fail.Takes P x ∨ x = v) (x ≠ y ∧ succ.Takes P x) := by
      refine ⟨fun htakes => (hbound.takes.1 htakes).imp id fun ho => ?_,
        fun _ hT => hbound.takes.2 (.inl hT)⟩
      exact .inr ((Expr.takes_var hvalue).1 ((Expr.takes_op₁ hopened).1 ho))
    exact (hb.cond (.look hvalue hhas) .inl he).drop
  | .inner field p =>
    obtain ⟨inner, i, matched, value, has, opened, bound, _, hinner, hm, hvalue, hhas, hopened,
      hbound, he⟩ := h
    have hmatched := (hm.between fun m z b => Pattern.Shape.between p).weaken
      (Or.imp (Or.inl (b := x = v)) id)
    have hb := (hmatched.bind hinner (.look hvalue hopened) hbound).drop
    exact (hb.cond (.look hvalue hhas) .inl he).drop
  | .and parts => exact ModulePattern.PartsShape.between parts h
  | .or alternatives => exact ModulePattern.AlternativesShape.between alternatives h
  | .not m =>
    obtain ⟨s, i, thunk, call, body, _, hs, hthunk, hcall, hbody, he⟩ := h
    have hb : body.Between t P x ((fail.Takes P x ∨ x = v) ∨ x = s) _ :=
      (ModulePattern.Shape.between m hbody).weaken
        (Or.rec (fun hc => .inr (hcall.takes.1 hc)) fun hv => .inl (.inr hv))
    have hnone := hb.after (ModulePattern.counts m) (.only fun hf => .inl (.inl hf))
    exact (hnone.bind hs (Expr.Between.self.thunk hthunk) he).congr or_comm
  | .xor a b =>
    obtain ⟨f, i, failThunk, callFail, onlyB, body, _, hf, hfailThunk, hcallFail, honlyB, hbody,
      he⟩ := h
    -- Inside the binding of the thunk for failure, its name may be taken, too.
    have hfirst : onlyB.Between t P x (x = v ∨ x = f) _ :=
      (ModulePattern.Shape.between b honlyB).weaken
        (Or.rec (fun hc => .inr (hcallFail.takes.1 hc)) .inl)
    have hboth := hbody.between hfirst fun m tryB e h =>
      (h.between (fun _ _ _ _ => ModulePattern.Shape.between a)
        (fun _ _ _ _ => ModulePattern.Shape.between b) (ModulePattern.counts a)
        (ModulePattern.counts b))
    have hfail : fail.Between t P x (fail.Takes P x ∨ x = v) False := .only .inl
    have hall := (hboth.weaken (Or.imp .inr id)).bind hf (hfail.thunk hfailThunk) he
    refine hall.drop.congr ⟨?_, Or.imp ((ModulePattern.counts a).mono .inl) id⟩
    rintro (h | h)
    · exact ((ModulePattern.counts a).or h).imp id ((ModulePattern.counts b).mono False.elim)
    · exact .inr h
termination_by structural m

lemma ModulePattern.PartsShape.between (ms : List ModulePattern) {n : Nat} {v : Name}
    {succ fail e : Expr} (h : ModulePattern.PartsShape t Eq n v succ fail e ms) :
    e.Between t P x (fail.Takes P x ∨ x = v)
      (ModulePattern.AllTake x (fun c => c.Takes P x) (succ.Takes P x) ms) := by
  match ms with
  | [] =>
    obtain rfl : e = succ := h
    exact .self
  | m :: rest =>
    obtain ⟨later, hlater, he⟩ := h
    exact (ModulePattern.Shape.between m he).after (ModulePattern.counts m)
      (ModulePattern.PartsShape.between rest hlater)
termination_by structural ms

lemma ModulePattern.AlternativesShape.between (ms : List ModulePattern) {n : Nat} {v : Name}
    {succ fail e : Expr} (h : ModulePattern.AlternativesShape t Eq n v succ fail e ms) :
    e.Between t P x (fail.Takes P x ∨ x = v)
      (ModulePattern.AnyTakes x (fun c => c.Takes P x) (succ.Takes P x) ms) := by
  match ms with
  | [] =>
    obtain rfl : e = fail := h
    exact .only .inl
  | m :: rest =>
    obtain ⟨later, hlater, he⟩ := h
    refine he.between (ModulePattern.AlternativesShape.between rest hlater) fun m' next b hb => ?_
    exact (ModulePattern.Shape.between m hb).weaken (Or.imp id .inr)
termination_by structural ms

end

/-- The clauses of a match take the names that their patterns and bodies tell. -/
theorem Clause.MatchShape.between {miss : Expr} (hmiss : miss.Takes P x → x = v)
    (arms : List Clause) {n : Nat} {e : Expr} (h : Clause.MatchShape t Eq n v miss e arms) :
    e.Between t P x (x = v) (Clause.MatchTakes x (fun c => c.Takes P x) arms) := by
  induction arms generalizing e with
  | nil =>
    obtain rfl : e = miss := h
    exact (Expr.Between.only hmiss).congr (by simp [Clause.MatchTakes])
  | cons arm rest ih =>
    obtain ⟨later, hlater, he⟩ := h
    have hall : e.Between t P x (x = v) (arm.pattern.Takes x (fun c => c.Takes P x)
        (arm.body.Takes P x) ∨ Clause.MatchTakes x (fun c => c.Takes P x) rest) := by
      refine he.between (ih hlater) fun m next b hb => ?_
      obtain ⟨_, rfl, hshape⟩ := hb
      exact Pattern.Shape.between arm.pattern hshape
    exact hall.congr (by simp [Clause.MatchTakes])

/-- The expressions inside a pattern are those inside its clauses, but for two literals. -/
lemma Pattern.Arms.matchTakes_iff {p : Pattern} {arms : List Clause} (h : p.Arms arms)
    (hlit : ∀ (c : Expr) (l : Literal), c.kind = .lit l → ¬ F c) :
    Clause.MatchTakes x F arms ↔ p.Free x F := by
  obtain ⟨symbol, kind⟩ := p
  rcases h with hkind | ⟨hkind, yes, no, w, hyes, hno, hw, rfl⟩
  · obtain rfl : kind = .clauses arms := hkind
    exact Iff.rfl
  · have hfree : (Pattern.node symbol kind).Free x F ↔
      (Pattern.node symbol kind).Takes x F False := by
      cases kind <;> first | exact Iff.rfl | exact absurd rfl (hkind _)
    have hw' : ¬ w.Takes x F (F no) := by
      obtain ⟨_, _⟩ := w
      cases hw
      exact hlit no _ hno
    rw [hfree]
    refine ⟨?_, fun h => ⟨_, List.mem_cons_self .., (Pattern.counts _).mono False.elim h⟩⟩
    rintro ⟨arm, harm, h⟩
    rcases List.mem_cons.1 harm with rfl | harm
    · exact (Pattern.counts _).mono (hlit yes _ hyes) h
    · obtain rfl := List.mem_singleton.1 harm
      exact absurd h hw'

/-- The function that a pattern denotes takes a name if the pattern does. -/
theorem Pattern.FunctionShape.takes_iff {p : Pattern} (h : p.FunctionShape t Eq n e)
    (hx : ∀ c ∈ p.codes, c.Takes P x → ¬ t.Generated x) :
    e.Takes P x ↔ p.Free x fun c => c.Takes P x := by
  obtain ⟨arms, arg, i, scrutinee, j, missed, miss, body, inner, value, split, harms, _, harg, _,
    hscrutinee, hmissed, hmiss, hbody, hinner, hvalue, hsplit, he⟩ := h
  have hmatch := Clause.MatchShape.between (P := P) (x := x)
    (fun h => (Expr.takes_var hmissed).1 ((Expr.takes_op₁ hmiss).1 h)) arms hbody
  have htakes : e.Takes P x ↔ x ≠ arg ∧ (x = arg ∨ (x ≠ scrutinee ∧ body.Takes P x)) := by
    rw [he.takes, Expr.takes_op₂ hsplit, Expr.takes_var hvalue, hinner.takes]
  rw [htakes, ← harms.matchTakes_iff fun c l hl => Expr.takes_lit hl]
  constructor
  · rintro ⟨hne, hv | ⟨hs, hb⟩⟩
    · exact absurd hv hne
    · exact (hmatch.upper hb).resolve_right hs
  · intro htaken
    obtain ⟨c, hc, hF⟩ := (p.counts_free.codes_or (S := False) ((harms.matchTakes_iff
      fun c l hl => Expr.takes_lit hl).1 htaken)).resolve_right id
    exact ⟨harg.ne (hx c hc hF), .inr ⟨hscrutinee.ne (hx c hc hF),
      hmatch.lower (hx c hc hF) htaken⟩⟩

end Code

end Residual
