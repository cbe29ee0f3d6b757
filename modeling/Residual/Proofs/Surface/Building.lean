import Residual.Proofs.Surface.Sorted

/-!
Work on a store: entering nodes, lowering patterns, listing free names and filtering.

`Does strict act Q` says that `act` only adds to the store, that its result has the property `Q`,
and, if `strict` is asked for, that a sorted store stays sorted.
-/

namespace Residual.Build

variable {strict : Prop} {α β : Type}

/-- The work adds to the store, keeps a sorted store sorted if that is asked for, and has a
result with the property. -/
def Does (strict : Prop) (act : Build α) (Q : α → Prop) : Prop :=
  ∀ st : Store, (strict → st.Sorted) →
    st.Grows (act.run st).2 ∧ (strict → (act.run st).2.Sorted) ∧ Q (act.run st).1

namespace Does

protected lemma pure {Q : α → Prop} {a : α} (h : Q a) : Does strict (Pure.pure a) Q :=
  fun st hst => ⟨.refl st, hst, h⟩

protected lemma bind {act : Build α} {f : α → Build β} {P : α → Prop} {Q : β → Prop}
    (ha : Does strict act P) (hf : ∀ a, P a → Does strict (f a) Q) :
    Does strict (act >>= f) Q := by
  intro st hst
  obtain ⟨hgrow, hsorted, hP⟩ := ha st hst
  obtain ⟨hgrow', hsorted', hQ⟩ := hf _ hP _ hsorted
  exact ⟨hgrow.trans hgrow', hsorted', hQ⟩

/-- Work whose result is kept: it is looked up, or worked out and recorded. What was recorded
before stays, although the work itself may record a result for the same node. -/
theorem memo {act work : Build α} {Q : α → Prop} (hwork : Does strict work Q)
    (found : Store → Option α) (record : α → Store → Store)
    (hhit : ∀ st a, found st = some a → act.run st = (a, st))
    (hmiss : ∀ st, found st = none →
      act.run st = ((work.run st).1, record (work.run st).1 (work.run st).2))
    (hfound : ∀ st a, (strict → st.Sorted) → found st = some a → Q a)
    (hgrows : ∀ st st' a, found st = none → st.Grows st' → st.Grows (record a st'))
    (hsorted : ∀ st a, Q a → strict → st.Sorted → (record a st).Sorted) :
    Does strict act Q := by
  intro st hst
  cases hf : found st with
  | some a =>
    rw [hhit st a hf]
    exact ⟨.refl st, hst, hfound st a hst hf⟩
  | none =>
    rw [hmiss st hf]
    obtain ⟨hgrow, hsort, hQ⟩ := hwork st hst
    exact ⟨hgrows st _ _ hf hgrow, fun h => hsorted _ _ hQ h (hsort h), hQ⟩

end Does

/-! ### What is kept -/

lemma run_lowerPattern_of_hit {p : Pattern} {st : Store} {e : Expr}
    (h : st.lowered.lookup p.symbol = some e) : (lowerPattern p).run st = (e, st) := by
  simp only [lowerPattern, StateT.run_bind, StateT.run_get, pure_bind, h]
  rfl

lemma run_lowerPattern_of_miss {p : Pattern} {st : Store}
    (h : st.lowered.lookup p.symbol = none) :
    (lowerPattern p).run st = (((lowerTop p).run st).1,
      { ((lowerTop p).run st).2 with
        lowered := (p.symbol, ((lowerTop p).run st).1) :: ((lowerTop p).run st).2.lowered }) := by
  simp only [lowerPattern, StateT.run_bind, StateT.run_get, pure_bind, h]
  rfl

section FreeNames

variable {unfold : Pattern → Build (List Name)}

lemma run_freeNamesWith_of_hit {symbol : Nat} {kind : ExprKind} {st : Store}
    {names : List Name} (h : st.freeNames.lookup symbol = some names) :
    (freeNamesWith unfold (.node symbol kind)).run st = (names, st) := by
  rw [freeNamesWith]
  simp only [StateT.run_bind, StateT.run_get, pure_bind, h]
  rfl

lemma run_freeNamesWith_of_miss {symbol : Nat} {kind : ExprKind} {st : Store}
    (h : st.freeNames.lookup symbol = none) :
    (freeNamesWith unfold (.node symbol kind)).run st =
      (((freeNamesOfKind unfold kind).run st).1,
        { ((freeNamesOfKind unfold kind).run st).2 with
          freeNames := (symbol, ((freeNamesOfKind unfold kind).run st).1) ::
            ((freeNamesOfKind unfold kind).run st).2.freeNames }) := by
  rw [freeNamesWith]
  simp only [StateT.run_bind, StateT.run_get, pure_bind, h]
  rfl

end FreeNames

section Filter

variable {unfold : Pattern → Build Expr}

lemma run_filterWith_of_hit {symbol : Nat} {kind : ExprKind} {st : Store} {done : Expr}
    (h : st.filtered.lookup symbol = some done) :
    (filterWith unfold (.node symbol kind)).run st = (done, st) := by
  rw [filterWith]
  simp only [StateT.run_bind, StateT.run_get, pure_bind, h]
  rfl

lemma run_filterWith_of_miss {symbol : Nat} {kind : ExprKind} {st : Store}
    (h : st.filtered.lookup symbol = none) :
    (filterWith unfold (.node symbol kind)).run st =
      (((filterKind unfold symbol kind).run st).1,
        { ((filterKind unfold symbol kind).run st).2 with
          filtered := (symbol, ((filterKind unfold symbol kind).run st).1) ::
            ((filterKind unfold symbol kind).run st).2.filtered }) := by
  rw [filterWith]
  simp only [StateT.run_bind, StateT.run_get, pure_bind, h]
  rfl

end Filter

/-- The property that code made here has. -/
def Fine (strict : Prop) (e : Expr) : Prop := strict → e.Sorted

lemma does_name (s : String) : Does strict (name s) fun _ => True := by
  intro st hst
  refine ⟨⟨Interner.extends_intern .., .refl _, .refl _, fun _ _ h => h, fun _ _ h => h,
    fun _ _ h => h⟩, fun h => ?_, trivial⟩
  obtain ⟨h1, h2, h3, h4, h5⟩ := hst h
  exact ⟨h1, h2, h3, h4, h5⟩

lemma does_fresh (hint : String) : Does strict (fresh hint) fun _ => True := by
  intro st hst
  refine ⟨⟨Interner.extends_intern .., .refl _, .refl _, fun _ _ h => h, fun _ _ h => h,
    fun _ _ h => h⟩, fun h => ?_, trivial⟩
  obtain ⟨h1, h2, h3, h4, h5⟩ := hst h
  exact ⟨h1, h2, h3, h4, h5⟩

lemma does_expr (kind : ExprKind) (hk : strict → kind.Sorted) :
    Does strict (expr kind) (Fine strict) := by
  intro st hst
  refine ⟨⟨.refl _, Interner.extends_intern .., .refl _, fun _ _ h => h, fun _ _ h => h,
    fun _ _ h => h⟩, fun h => ?_, fun h => ?_⟩
  · obtain ⟨h1, h2, h3, h4, h5⟩ := hst h
    refine ⟨fun k hmem => ?_, h2, h3, h4, h5⟩
    rcases Interner.entries_intern st.exprs kind k hmem with rfl | hmem
    · exact hk h
    · exact h1 k hmem
  · change (st.exprs.intern kind).1.value.Sorted
    rcases Interner.intern_mem st.exprs kind with hv | hv
    · rw [hv]
      exact hk h
    · exact (hst h).exprs _ hv

lemma does_pattern (kind : PatternKind) (hk : strict → kind.Sorted) :
    Does strict (pattern kind) fun p => strict → p.Sorted := by
  intro st hst
  refine ⟨⟨.refl _, .refl _, Interner.extends_intern .., fun _ _ h => h, fun _ _ h => h,
    fun _ _ h => h⟩, fun h => ?_, fun h => ?_⟩
  · obtain ⟨h1, h2, h3, h4, h5⟩ := hst h
    refine ⟨h1, fun k hmem => ?_, h3, h4, h5⟩
    rcases Interner.entries_intern st.patterns kind k hmem with rfl | hmem
    · exact hk h
    · exact h2 k hmem
  · change (st.patterns.intern kind).1.value.Sorted
    rcases Interner.intern_mem st.patterns kind with hv | hv
    · rw [hv]
      exact hk h
    · exact (hst h).patterns _ hv

lemma does_var (x : Name) : Does strict (var x) (Fine strict) := does_expr _ fun _ => trivial

lemma does_lit (l : Literal) : Does strict (lit l) (Fine strict) := does_expr _ fun _ => trivial

lemma does_function {x : Name} {body : Expr} (hb : Fine strict body) :
    Does strict (function x body) (Fine strict) :=
  does_expr _ hb

lemma does_tuple {items : List Expr} (h : strict → Expr.AllSorted items) :
    Does strict (tuple items) (Fine strict) :=
  does_expr _ h

lemma does_op {o : Op} {args : List Expr} (h : strict → Expr.AllSorted args) :
    Does strict (op o args) (Fine strict) :=
  does_expr _ h

lemma does_op₁ {o : Op} {a : Expr} (ha : Fine strict a) :
    Does strict (op o [a]) (Fine strict) :=
  does_op fun h => ⟨ha h, trivial⟩

lemma does_op₂ {o : Op} {a b : Expr} (ha : Fine strict a) (hb : Fine strict b) :
    Does strict (op o [a, b]) (Fine strict) :=
  does_op fun h => ⟨ha h, hb h, trivial⟩

lemma does_cond {test yes no : Expr} (ht : Fine strict test) (hy : Fine strict yes)
    (hn : Fine strict no) : Does strict (cond test yes no) (Fine strict) :=
  does_op fun h => ⟨ht h, hy h, hn h, trivial⟩

lemma does_letIn {x : Name} {bound rest : Expr} (hb : Fine strict bound)
    (hr : Fine strict rest) : Does strict (letIn x bound rest) (Fine strict) :=
  (does_function hr).bind fun _ hf => does_op₂ hf hb

lemma does_thunk {body : Expr} (hb : Fine strict body) :
    Does strict (thunk body) (Fine strict) :=
  (does_fresh "_").bind fun _ _ => does_function hb

lemma does_unit : Does strict unit (Fine strict) := does_tuple fun _ => trivial

lemma does_force (x : Name) : Does strict (force x) (Fine strict) :=
  (does_var x).bind fun _ hf => does_unit.bind fun _ hu => does_op₂ hf hu

/-! ### Lowering -/

lemma does_withFailure {failure : Expr} {build : Expr → Build Expr}
    (hf : Fine strict failure)
    (hb : ∀ call, Fine strict call → Does strict (build call) (Fine strict)) :
    Does strict (withFailure failure build) (Fine strict) :=
  (does_fresh "fail").bind fun k _ => (does_thunk hf).bind fun _ ht =>
    (does_force k).bind fun call hc => (hb call hc).bind fun _ hbody => does_letIn ht hbody

lemma does_splitting {v : Name} {p : Pattern} {at_ : Name → Build Expr}
    (h : ∀ x, Does strict (at_ x) (Fine strict)) :
    Does strict (splitting v p at_) (Fine strict) := by
  unfold splitting
  split
  · exact (does_fresh "part").bind fun part _ => (h part).bind fun _ hbody =>
      (does_function hbody).bind fun _ hf => (does_var v).bind fun _ hv => does_op₂ hv hf
  · exact h v

mutual

lemma does_lowerAt (v : Name) (p : Pattern) (succ fail : Expr) (hp : strict → p.Sorted)
    (hs : Fine strict succ) (hf : Fine strict fail) :
    Does strict (lowerAt v p succ fail) (Fine strict) := by
  match p with
  | .node _ kind => exact does_lowerKind v kind succ fail hp hs hf
termination_by structural p

lemma does_lowerKind (v : Name) (kind : PatternKind) (succ fail : Expr)
    (hk : strict → kind.Sorted) (hs : Fine strict succ) (hf : Fine strict fail) :
    Does strict (lowerKind v kind succ fail) (Fine strict) := by
  -- Each piece of code is made of the exits, of new names and of parts of the pattern.
  match kind with
  | .wildcard => exact .pure hs
  | .var x => exact (does_var v).bind fun _ hv => does_letIn hv hs
  | .lit l =>
    exact (does_var v).bind fun _ hv => (does_lit l).bind fun _ hl =>
      (does_op₂ hv hl).bind fun _ htype => (does_op₂ hv hl).bind fun _ hvalue =>
      (does_cond hvalue hs hf).bind fun _ hinner => does_cond htype hinner hf
  | .tuple items =>
    exact (does_lowerElements v 0 items succ fail hk hs hf).bind fun _ hm =>
      (does_var v).bind fun _ hv => (does_op₁ hv).bind fun _ hc => does_cond hc hm hf
  | .cons items rest =>
    have hrest := fun x => does_lowerAt x rest succ fail (fun h => (hk h).2) hs hf
    refine (does_fresh "rest").bind fun others _ => (does_splitting hrest).bind fun _ hr => ?_
    refine (does_var v).bind fun _ hv => (does_op₁ hv).bind fun _ hslice => ?_
    refine (does_letIn hslice hr).bind fun withRest hw => ?_
    refine (does_lowerElements v 0 items withRest fail (fun h => (hk h).1) hw hf).bind
      fun _ hm => ?_
    exact (does_op₁ hv).bind fun _ hc => does_cond hc hm hf
  | .typeEq inner type =>
    have hinner := fun x => does_lowerAt x inner succ fail (fun h => (hk h).1) hs hf
    exact (does_splitting hinner).bind fun _ hm => (does_var v).bind fun _ hv =>
      (does_op₂ hv fun h => (hk h).2).bind fun _ hc => does_cond hc hm hf
  | .active f inner =>
    have hinner := fun x => does_lowerAt x inner succ fail (fun h => (hk h).2) hs hf
    exact (does_fresh "active").bind fun result _ => (does_splitting hinner).bind fun _ hm =>
      (does_var v).bind fun _ hv => (does_op₂ (fun h => (hk h).1) hv).bind fun _ hc =>
      does_letIn hc hm
  | .partialActive f inner =>
    have hinner := fun x => does_lowerAt x inner succ fail (fun h => (hk h).2) hs hf
    refine (does_fresh "partial").bind fun result _ => (does_fresh "payload").bind
      fun payload _ => (does_splitting hinner).bind fun _ hm => ?_
    refine (does_var result).bind fun _ ha => (does_op₁ ha).bind fun _ hsecond => ?_
    refine (does_letIn hsecond hm).bind fun _ hb => (does_op₁ ha).bind fun _ hflag => ?_
    refine (does_cond hflag hb hf).bind fun _ hbranch => (does_var v).bind fun _ hv => ?_
    exact (does_op₂ (fun h => (hk h).1) hv).bind fun _ hc => does_letIn hc hbranch
  | .extension f inner =>
    have hinner := fun x => does_lowerAt x inner succ fail (fun h => (hk h).2) hs hf
    exact (does_splitting hinner).bind fun _ hm => (does_var v).bind fun _ hv =>
      (does_op₂ (fun h => (hk h).1) hv).bind fun _ hc => does_cond hc hm hf
  | .or alternatives => exact does_lowerAlternatives v alternatives succ fail hk hs hf
  | .and parts => exact does_lowerParts v parts succ fail hk hs hf
  | .guarded inner guard =>
    exact (does_cond (fun h => (hk h).2) hs hf).bind fun guarded hg =>
      does_splitting fun x => does_lowerAt x inner guarded fail (fun h => (hk h).1) hg hf
  | .module m => exact does_lowerModule v m succ fail hk hs hf
  | .clauses arms => exact does_lowerArms v arms succ fail hk hs hf
termination_by structural kind

lemma does_lowerAlternatives (v : Name) (ps : List Pattern) (succ fail : Expr)
    (hp : strict → Pattern.AllSorted ps) (hs : Fine strict succ) (hf : Fine strict fail) :
    Does strict (lowerAlternatives v ps succ fail) (Fine strict) := by
  match ps with
  | [] => exact .pure hf
  | p :: rest =>
    exact (does_lowerAlternatives v rest succ fail (fun h => (hp h).2) hs hf).bind fun _ hl =>
      does_withFailure hl fun next hn => does_splitting fun x =>
        does_lowerAt x p succ next (fun h => (hp h).1) hs hn
termination_by structural ps

lemma does_lowerArms (v : Name) (arms : List Clause) (succ fail : Expr)
    (ha : strict → Clause.AllSorted arms) (hs : Fine strict succ) (hf : Fine strict fail) :
    Does strict (lowerArms v arms succ fail) (Fine strict) := by
  match arms with
  | [] => exact .pure hf
  | .mk p body :: rest =>
    exact (does_lowerArms v rest succ fail (fun h => (ha h).2) hs hf).bind fun _ hl =>
      does_withFailure hl fun next hn => does_splitting fun x =>
        does_lowerAt x p succ next (fun h => (ha h).1.1) hs hn
termination_by structural arms

lemma does_lowerParts (v : Name) (ps : List Pattern) (succ fail : Expr)
    (hp : strict → Pattern.AllSorted ps) (hs : Fine strict succ) (hf : Fine strict fail) :
    Does strict (lowerParts v ps succ fail) (Fine strict) := by
  match ps with
  | [] => exact .pure hs
  | p :: rest =>
    exact (does_lowerParts v rest succ fail (fun h => (hp h).2) hs hf).bind fun later hl =>
      does_splitting fun x => does_lowerAt x p later fail (fun h => (hp h).1) hl hf
termination_by structural ps

lemma does_lowerElements (v : Name) (i : Nat) (ps : List Pattern) (succ fail : Expr)
    (hp : strict → Pattern.AllSorted ps) (hs : Fine strict succ) (hf : Fine strict fail) :
    Does strict (lowerElements v i ps succ fail) (Fine strict) := by
  match ps with
  | [] => exact .pure hs
  | p :: rest =>
    refine (does_lowerElements v (i + 1) rest succ fail (fun h => (hp h).2) hs hf).bind
      fun later hl => ?_
    have hpart := fun x => does_lowerAt x p later fail (fun h => (hp h).1) hl hf
    exact (does_fresh "elem").bind fun element _ => (does_splitting hpart).bind fun _ hm =>
      (does_var v).bind fun _ hv => (does_op₁ hv).bind fun _ hi => does_letIn hi hm
termination_by structural ps

lemma does_lowerModule (v : Name) (m : ModulePattern) (succ fail : Expr)
    (hm : strict → m.Sorted) (hs : Fine strict succ) (hf : Fine strict fail) :
    Does strict (lowerModule v m succ fail) (Fine strict) := by
  match m with
  | .member field bind =>
    exact (does_var v).bind fun _ hv => (does_op₁ hv).bind fun _ hhas =>
      (does_op₁ hv).bind fun _ hopened => (does_letIn hopened hs).bind fun _ hbound =>
      does_cond hhas hbound hf
  | .inner field p =>
    have hinner := fun x => does_lowerAt x p succ fail hm hs hf
    exact (does_fresh "field").bind fun inner _ => (does_splitting hinner).bind fun _ hmatched =>
      (does_var v).bind fun _ hv => (does_op₁ hv).bind fun _ hhas =>
      (does_op₁ hv).bind fun _ hopened => (does_letIn hopened hmatched).bind fun _ hbound =>
      does_cond hhas hbound hf
  | .and parts => exact does_lowerModules v parts succ fail hm hs hf
  | .or alternatives => exact does_lowerModuleAlternatives v alternatives succ fail hm hs hf
  | .not inner =>
    exact (does_fresh "not").bind fun s _ => (does_thunk hs).bind fun _ ht =>
      (does_force s).bind fun call hc => (does_lowerModule v inner fail call hm hf hc).bind
      fun _ hb => does_letIn ht hb
  | .xor a b =>
    refine (does_fresh "xor_fail").bind fun f _ => (does_thunk hf).bind fun _ hfailThunk => ?_
    refine (does_force f).bind fun callFail hcallFail => ?_
    refine (does_lowerModule v b succ callFail (fun h => (hm h).2) hs hcallFail).bind
      fun onlyB honlyB => ?_
    refine (does_withFailure honlyB fun tryB htryB => ?_).bind fun _ hbody =>
      does_letIn hfailThunk hbody
    refine (does_fresh "xor_ok").bind fun s _ => (does_thunk hs).bind fun _ hokThunk => ?_
    refine (does_force s).bind fun callOk hcallOk => (does_force f).bind
      fun callFail hcallFail => ?_
    refine (does_lowerModule v b callFail callOk (fun h => (hm h).2) hcallFail hcallOk).bind
      fun _ hmust => (does_letIn hokThunk hmust).bind fun afterA hafterA => ?_
    exact does_lowerModule v a afterA tryB (fun h => (hm h).1) hafterA htryB
termination_by structural m

lemma does_lowerModules (v : Name) (ms : List ModulePattern) (succ fail : Expr)
    (hm : strict → ModulePattern.AllSorted ms) (hs : Fine strict succ) (hf : Fine strict fail) :
    Does strict (lowerModules v ms succ fail) (Fine strict) := by
  match ms with
  | [] => exact .pure hs
  | m :: rest =>
    exact (does_lowerModules v rest succ fail (fun h => (hm h).2) hs hf).bind fun later hl =>
      does_lowerModule v m later fail (fun h => (hm h).1) hl hf
termination_by structural ms

lemma does_lowerModuleAlternatives (v : Name) (ms : List ModulePattern) (succ fail : Expr)
    (hm : strict → ModulePattern.AllSorted ms) (hs : Fine strict succ) (hf : Fine strict fail) :
    Does strict (lowerModuleAlternatives v ms succ fail) (Fine strict) := by
  match ms with
  | [] => exact .pure hf
  | m :: rest =>
    exact (does_lowerModuleAlternatives v rest succ fail (fun h => (hm h).2) hs hf).bind
      fun _ hl => does_withFailure hl fun next hn =>
        does_lowerModule v m succ next (fun h => (hm h).1) hs hn
termination_by structural ms

end

lemma does_lowerClauses (v : Name) {miss : Expr} (hmiss : Fine strict miss)
    {arms : List Clause} (ha : strict → Clause.AllSorted arms) :
    Does strict (lowerClauses v miss arms) (Fine strict) := by
  induction arms with
  | nil => exact .pure hmiss
  | cons arm rest ih =>
    obtain ⟨p, body⟩ := arm
    exact (ih fun h => (ha h).2).bind fun _ hl => does_withFailure hl fun fail hf =>
      does_lowerAt v p body fail (fun h => (ha h).1.1) (fun h => (ha h).1.2) hf

lemma does_clausesOf {p : Pattern} (hp : strict → p.Sorted) :
    Does strict (clausesOf p) fun arms => strict → Clause.AllSorted arms := by
  have hdefault : Does strict (do
      let yes ← lit (.bool true)
      let no ← lit (.bool false)
      let wildcard ← pattern .wildcard
      return [.mk p yes, .mk wildcard no]) fun arms => strict → Clause.AllSorted arms :=
    (does_lit _).bind fun _ hy => (does_lit _).bind fun _ hn =>
      (does_pattern .wildcard fun _ => trivial).bind fun _ hw =>
      .pure fun h => ⟨⟨hp h, hy h⟩, ⟨hw h, hn h⟩, trivial⟩
  obtain ⟨symbol, kind⟩ := p
  cases kind with
  | clauses arms => exact .pure hp
  | _ => exact hdefault

lemma does_lowerTop {p : Pattern} (hp : strict → p.Sorted) :
    Does strict (lowerTop p) (Fine strict) := by
  refine (does_clausesOf hp).bind fun arms ha => (does_fresh "arg").bind fun arg _ => ?_
  refine (does_fresh "scrutinee").bind fun scrutinee _ => (does_var scrutinee).bind
    fun _ hv => (does_op₁ hv).bind fun _ hmiss => ?_
  refine (does_lowerClauses scrutinee hmiss ha).bind fun _ hbody => ?_
  exact (does_function hbody).bind fun _ hf => (does_var arg).bind fun _ hv =>
    (does_op₂ hv hf).bind fun _ hsplit => does_function hsplit

lemma does_lowerPattern {p : Pattern} (hp : strict → p.Sorted) :
    Does strict (lowerPattern p) (Fine strict) := by
  refine (does_lowerTop hp).memo (fun st => st.lowered.lookup p.symbol)
    (fun e st => { st with lowered := (p.symbol, e) :: st.lowered })
    (fun st e => run_lowerPattern_of_hit) (fun st => run_lowerPattern_of_miss) ?_ ?_ ?_
  · exact fun st e hst he h => (hst h).lowered _ (mem_of_lookup he)
  · intro st st' e hnone hgrow
    exact { hgrow with lowered := lookup_cons_of_lookup hnone hgrow.lowered }
  · intro st e he h hst
    refine { hst with lowered := fun d hd => ?_ }
    rcases List.mem_cons.1 hd with rfl | hd
    · exact he h
    · exact hst.lowered d hd

/-! ### Free names -/

lemma nodup_addNames {out : List Name} (names bound : List Name) (h : out.Nodup) :
    (addNames out names bound).Nodup := by
  unfold addNames
  induction names generalizing out with
  | nil => exact h
  | cons x rest ih =>
    rw [List.foldl_cons]
    split
    · exact ih h
    · rename_i hx
      refine ih (List.nodup_append.2 ⟨h, by simp, ?_⟩)
      rintro y hy z hz rfl
      rw [List.mem_singleton] at hz
      subst hz
      simp_all

section FreeNames

variable {unfold : Pattern → Build (List Name)}

mutual

lemma does_freeNamesWith
    (hu : ∀ p, (strict → p.Sorted) → Does strict (unfold p) (strict → ·.Nodup)) (e : Expr)
    (he : strict → e.Sorted) :
    Does strict (freeNamesWith unfold e) (strict → ·.Nodup) := by
  match e with
  | .node symbol kind =>
    refine (does_freeNamesOfKind hu kind he).memo (fun st => st.freeNames.lookup symbol)
      (fun names st => { st with freeNames := (symbol, names) :: st.freeNames })
      (fun st names => run_freeNamesWith_of_hit) (fun st => run_freeNamesWith_of_miss) ?_ ?_ ?_
    · exact fun st e hst he h => (hst h).freeNames _ (mem_of_lookup he)
    · intro st st' e hnone hgrow
      exact { hgrow with freeNames := lookup_cons_of_lookup hnone hgrow.freeNames }
    · intro st e he h hst
      refine { hst with freeNames := fun d hd => ?_ }
      rcases List.mem_cons.1 hd with rfl | hd
      · exact he h
      · exact hst.freeNames d hd
termination_by structural e

lemma does_freeNamesOfKind
    (hu : ∀ p, (strict → p.Sorted) → Does strict (unfold p) (strict → ·.Nodup)) (kind : ExprKind)
    (hk : strict → kind.Sorted) :
    Does strict (freeNamesOfKind unfold kind) (strict → ·.Nodup) := by
  match kind with
  | .var x => exact .pure fun _ => by simp
  | .lit _ => exact .pure fun _ => List.nodup_nil
  | .pattern p => exact hu p hk
  | .function param body =>
    exact (does_freeNamesWith hu body hk).bind fun names _ =>
      .pure fun _ => nodup_addNames names _ List.nodup_nil
  | .filtered _ param body =>
    exact (does_freeNamesWith hu body fun h => (hk h).2).bind fun names _ =>
      .pure fun _ => nodup_addNames names _ List.nodup_nil
  | .recFunction this param body =>
    exact (does_freeNamesWith hu body hk).bind fun names _ =>
      .pure fun _ => nodup_addNames names _ List.nodup_nil
  | .tuple items => exact does_freeNamesOfAll hu [] items (fun _ => List.nodup_nil) hk
  | .op _ args => exact does_freeNamesOfAll hu [] args (fun _ => List.nodup_nil) hk
  | .pos _ e => exact does_freeNamesWith hu e hk
termination_by structural kind

lemma does_freeNamesOfAll
    (hu : ∀ p, (strict → p.Sorted) → Does strict (unfold p) (strict → ·.Nodup)) (out : List Name)
    (es : List Expr) (ho : strict → out.Nodup) (he : strict → Expr.AllSorted es) :
    Does strict (freeNamesOfAll unfold out es) (strict → ·.Nodup) := by
  match es with
  | [] => exact .pure ho
  | e :: rest =>
    refine (does_freeNamesWith hu e fun h => (he h).1).bind fun names _ => ?_
    exact does_freeNamesOfAll hu _ rest (fun h => nodup_addNames names [] (ho h)) fun h => (he h).2
termination_by structural es

end

end FreeNames

lemma does_freeNamesTo (depth : Nat) {e : Expr} (he : strict → e.Sorted) :
    Does strict (freeNamesTo depth e) (strict → ·.Nodup) := by
  induction depth generalizing e with
  | zero => exact does_freeNamesWith (fun _ _ => .pure fun _ => List.nodup_nil) e he
  | succ depth ih =>
    exact does_freeNamesWith (fun p hp => (does_lowerPattern hp).bind fun _ hl => ih hl) e he

lemma does_freeNames {e : Expr} (he : strict → e.Sorted) :
    Does strict (freeNames e) (strict → ·.Nodup) :=
  fun st hst => does_freeNamesTo (st.patterns.size + 1) he st hst

/-- Different names in ascending order. -/
theorem ascending_mergeSort {names : List Name} (h : names.Nodup) :
    Captures.Ascending (names.mergeSort fun a b => a.index ≤ b.index) := by
  have hsorted : (names.mergeSort fun a b => a.index ≤ b.index).Pairwise
      fun a b => decide (a.index ≤ b.index) = true :=
    List.pairwise_mergeSort (fun a b c => by simp only [decide_eq_true_eq]; omega)
      (fun a b => by simp only [Bool.or_eq_true, decide_eq_true_eq]; omega) names
  have hnodup : (names.mergeSort fun a b => a.index ≤ b.index).Nodup :=
    (List.mergeSort_perm names _).nodup_iff.2 h
  refine (hsorted.and hnodup).imp fun {a b} hab => ?_
  obtain ⟨hle, hne⟩ := hab
  have hindex : a.index ≠ b.index := fun heq => hne (by cases a; cases b; simp_all)
  simp only [decide_eq_true_eq] at hle
  omega

lemma does_freeNameSet {e : Expr} (he : strict → e.Sorted) :
    Does strict (freeNameSet e) fun used => strict → Captures.Ascending used :=
  (does_freeNames he).bind fun _ hn => .pure fun h => ascending_mergeSort (hn h)

/-! ### Filtering -/

section Filter

variable {unfold : Pattern → Build Expr}

mutual

lemma does_filterWith (hu : ∀ p, (strict → p.Sorted) → Does strict (unfold p) (Fine strict))
    (e : Expr) (he : strict → e.Sorted) :
    Does strict (filterWith unfold e) (Fine strict) := by
  match e with
  | .node symbol kind =>
    refine (does_filterKind hu symbol kind he).memo (fun st => st.filtered.lookup symbol)
      (fun done st => { st with filtered := (symbol, done) :: st.filtered })
      (fun st done => run_filterWith_of_hit) (fun st => run_filterWith_of_miss) ?_ ?_ ?_
    · exact fun st e hst he h => (hst h).filtered _ (mem_of_lookup he)
    · intro st st' e hnone hgrow
      exact { hgrow with filtered := lookup_cons_of_lookup hnone hgrow.filtered }
    · intro st e he h hst
      refine { hst with filtered := fun d hd => ?_ }
      rcases List.mem_cons.1 hd with rfl | hd
      · exact he h
      · exact hst.filtered d hd
termination_by structural e

lemma does_filterKind (hu : ∀ p, (strict → p.Sorted) → Does strict (unfold p) (Fine strict))
    (symbol : Nat) (kind : ExprKind) (hk : strict → kind.Sorted) :
    Does strict (filterKind unfold symbol kind) (Fine strict) := by
  match kind with
  | .var x => exact .pure hk
  | .lit l => exact .pure hk
  | .pattern p => exact hu p hk
  | .function param body =>
    exact (does_freeNameSet (e := .node symbol (.function param body)) hk).bind fun _ hused =>
      (does_filterWith hu body hk).bind fun _ hb => does_expr _ fun h => ⟨hused h, hb h⟩
  | .filtered listed param body =>
    exact (does_freeNameSet (e := .node symbol (.filtered listed param body)) hk).bind
      fun _ hused => (does_filterWith hu body fun h => (hk h).2).bind
      fun _ hb => does_expr _ fun h => ⟨hused h, hb h⟩
  | .recFunction this param body =>
    exact (does_filterWith hu body hk).bind fun _ hb => does_expr _ hb
  | .tuple items => exact (does_filterAll hu items hk).bind fun _ hi => does_tuple hi
  | .op o args => exact (does_filterAll hu args hk).bind fun _ ha => does_op ha
  | .pos span e => exact (does_filterWith hu e hk).bind fun _ he => does_expr _ he
termination_by structural kind

lemma does_filterAll (hu : ∀ p, (strict → p.Sorted) → Does strict (unfold p) (Fine strict))
    (es : List Expr) (he : strict → Expr.AllSorted es) :
    Does strict (filterAll unfold es) fun es => strict → Expr.AllSorted es := by
  match es with
  | [] => exact .pure fun _ => trivial
  | e :: rest =>
    exact (does_filterWith hu e fun h => (he h).1).bind fun _ hfirst =>
      (does_filterAll hu rest fun h => (he h).2).bind fun _ hrest =>
      .pure fun h => ⟨hfirst h, hrest h⟩
termination_by structural es

end

end Filter

lemma does_filterTo (depth : Nat) {e : Expr} (he : strict → e.Sorted) :
    Does strict (filterTo depth e) (Fine strict) := by
  induction depth generalizing e with
  | zero => exact does_filterWith (fun p hp => does_expr (.pattern p) hp) e he
  | succ depth ih =>
    exact does_filterWith (fun p hp => (does_lowerPattern hp).bind fun _ hl => ih hl) e he

lemma does_filter {e : Expr} (he : strict → e.Sorted) :
    Does strict (filter e) (Fine strict) :=
  fun st hst => does_filterTo (st.patterns.size + 1) he st hst

end Residual.Build
