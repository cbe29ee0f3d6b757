import Residual.Proofs.Eval.Splits
import Residual.Proofs.Eval.Steps

/-!
Evaluation as a whole keeps to a discipline: splits with their second tries, every operation,
one step, and by induction on the nesting all of evaluation.
-/

namespace Residual

/-! ### Second tries -/

namespace Eval

/-- What becomes of a split after its branches told a type. -/
theorem exec_retry (bodies : List (Option Term)) (acts : List (Eval Term)) (fault : Fault)
    (p : Point) (ty : Ty) (w : World) :
    exec (do
      setPendingType p (some ty)
      let mark := (← getSession).finished.length
      match ← secondRun bodies acts with
      | .ok bodies => return bodies
      | .error _ =>
        modifySession (·.forgetSince mark)
        setPendingType p none
        throw (.failed fault)) w =
      match exec (secondRun bodies acts) (w.setPending p (some ty)) with
      | (.ok (.ok bodies), w') => (.ok bodies, w')
      | (.ok (.error _), w') =>
        (.error (.failed fault), w'.retract p w.session.finished.length)
      | (.error s, w') => (.error s, w') := by
  rw [exec_bind_of_ok (exec_setPendingType p (some ty) w),
    exec_bind_of_ok (exec_getSession _), exec_bind]
  rcases exec (secondRun bodies acts) (w.setPending p (some ty)) with ⟨s | (_ | _), w'⟩ <;> rfl

/-- The statements of a branch go into its body, so a second run adds none. -/
theorem stmts_secondRun (bodies : List (Option Term)) (acts : List (Eval Term)) (w : World) :
    (exec (secondRun bodies acts) w).2.scope.stmts = w.scope.stmts := by
  induction bodies generalizing acts w with
  | nil => rfl
  | cons b bodies ih =>
    have hcons : ∀ (body : Term) (branches : List (Eval Term)) (w : World),
        (exec (do
          match ← secondRun bodies branches with
          | .ok rest => return (.ok (body :: rest) : Except Fault (List Term))
          | .error fault => return .error fault) w).2.scope.stmts = w.scope.stmts := by
      intro body branches w
      rw [exec_bind, ← ih branches w]
      rcases exec (secondRun bodies branches) w with ⟨_ | (_ | _), w'⟩ <;> rfl
    match b, acts with
    | some body, [] | none, [] => rfl
    | some body, _ :: branches => exact hcons body branches w
    | none, branch :: branches =>
      have hfirst := stmts_attempt_inBranch branch w
      rw [secondRun, exec_bind]
      rcases hrun : exec (attempt (inBranch branch)) w with ⟨_ | (fault | body), w'⟩ <;>
        rw [hrun] at hfirst
      · exact hfirst
      · exact hfirst
      · exact (hcons body branches w').trans hfirst

end Eval

lemma Session.forgetSince_formed {s : Session} (h : s.Formed) (mark : Nat) :
    (s.forgetSince mark).Formed := by
  have hpoints : ∀ (ps : List Point) (t : PointTable),
      ∀ e ∈ ps.foldl PointTable.erase t, e ∈ t := by
    intro ps
    induction ps with
    | nil => exact fun t e he => he
    | cons p rest ih => exact fun t e he => (List.mem_filter.1 (ih _ e he)).1
  exact ⟨h.store, h.envs, fun e he => h.points e (hpoints _ _ e he),
    fun e he => h.recTypes e (List.mem_filter.1 he).1⟩

lemma World.setPending_formed {w : World} (h : w.Formed) (p : Point) (ty : Option Ty)
    (hty : ∀ t ∈ ty, t.Formed) : (w.setPending p ty).Formed := by
  refine ⟨⟨h.session.store, h.session.envs, fun e he => ?_, h.session.recTypes⟩, h.env,
    h.sharing⟩
  obtain ⟨⟨q, entry⟩, hq, rfl⟩ := List.mem_map.1 he
  dsimp only
  split
  · cases ty with
    | none => trivial
    | some ty => exact hty ty rfl
  · exact h.session.points _ hq

namespace Term

lemma sites_retypeMiss (ty : Ty) (t : Term) : (t.retypeMiss ty).sites = t.sites := by
  fun_induction Term.retypeMiss ty t with
  | case1 bind bound rest trace ih => simp [Term.sites, ih]
  | case2 stmt rest trace ih => simp [Term.sites, ih]
  | case3 args ty' => rfl
  | case4 => rfl

end Term

namespace Discipline

open Eval

variable {D : Discipline} {i : D.Index} {w : World} {ev ev' : Expr → Eval Term}

lemma code_of_firstType? {bodies : List Term} (h : ∀ t ∈ bodies, D.Code i w t) {ty : Ty}
    (hty : firstType? bodies = some ty) : D.Shape ty := by
  obtain ⟨body, hbody, rfl⟩ := Option.map_eq_some_iff.1 hty
  exact fun hs => (h body (List.mem_of_find?_eq_some hbody) hs).1

lemma does_retry {α : Type} {l : List α} {g g' : α → Eval Term}
    (hg : ∀ a ∈ l, ∀ w', D.Does (D.within i w.scope.stmts) w' (g a) (g' a) fun t _ => D.Value t)
    {bodies : List (Option Term)} (hbodies : D.Bodies i w bodies) (fault : Fault) {p : Point}
    (hp : w.scope.owner = some p) (hguesses : D.Guesses i w p) {ty : Ty} (hty : D.Shape ty) :
    D.Does i w
      (do
        setPendingType p (some ty)
        let mark := (← getSession).finished.length
        match ← secondRun bodies (l.map g) with
        | .ok bodies => return bodies
        | .error _ =>
          modifySession (·.forgetSince mark)
          setPendingType p none
          throw (.failed fault))
      (do
        setPendingType p (some ty)
        let mark := (← getSession).finished.length
        match ← secondRun bodies (l.map g') with
        | .ok bodies => return bodies
        | .error _ =>
          modifySession (·.forgetSince mark)
          setPendingType p none
          throw (.failed fault))
      fun ts w' => ∀ t ∈ ts, D.Code i w' t := by
  intro hw
  obtain ⟨hinv, hle⟩ := D.guess ty hw.1 hp hguesses
  have hguess : D.Good i (w.setPending p (some ty)) :=
    ⟨hinv, fun hs => World.setPending_formed (hw.2 hs) p (some ty) fun t ht => by
      cases ht; exact hty hs⟩
  have hbodies' : D.Bodies i (w.setPending p (some ty)) bodies :=
    fun b hb t ht => (hbodies b hb t ht).le hinv hle
  obtain ⟨hagree, hgood, hle', hres⟩ :=
    does_secondRun (w := w.setPending p (some ty)) hg rfl hbodies' hguess
  rw [exec_retry, exec_retry]
  refine ⟨hagree.map (fun r => match r with
    | (.ok (.ok bodies), w') => (.ok bodies, w')
    | (.ok (.error _), w') => (.error (.failed fault), w'.retract p w.session.finished.length)
    | (.error s, w') => (.error s, w')) fun _ => rfl, ?_⟩
  -- The three outcomes: a limit was reached, the guess was wrong, or all bodies are there.
  rcases hrun : exec (secondRun bodies (l.map g)) (w.setPending p (some ty)) with
    ⟨s | (f | ts), w₂⟩ <;> rw [hrun] at hgood hle' hres
  · exact ⟨hgood, D.le_trans hle hle', fun a ha => by cases ha⟩
  · have hstmts : w₂.scope.stmts = w.scope.stmts := by
      have h := stmts_secondRun bodies (l.map g) (w.setPending p (some ty))
      rwa [hrun] at h
    obtain ⟨hinv₂, hle₂⟩ := D.retract hw.1 hp hguesses hgood.1 hle' hstmts
    refine ⟨⟨hinv₂, fun hs => ?_⟩, hle₂, fun a ha => by cases ha⟩
    have hforget : { w₂ with session :=
        w₂.session.forgetSince w.session.finished.length : World }.Formed :=
      ⟨Session.forgetSince_formed (hgood.2 hs).session _, (hgood.2 hs).env, (hgood.2 hs).sharing⟩
    exact World.setPending_formed hforget p none fun t ht => by cases ht
  · refine ⟨hgood, D.le_trans hle hle', fun a ha => ?_⟩
    cases ha
    exact hres (.ok ts) rfl ts rfl

/-- A split may go into its branches, and may guess the type of the body after a first run of
them. -/
structure Branching (D : Discipline) (i : D.Index) (ev ev' : Expr → Eval Term)
    (acts : List (Eval Term)) (w : World) : Prop where
  pair : D.Pair (D.within i w.scope.stmts) ev ev'
  guesses : ∀ {bodies fault p w' ty}, exec (firstRun acts) w = (.ok (bodies, some (fault, p)), w') →
    firstType? (bodies.filterMap id) = some ty → D.Guesses i w' p

lemma does_branches {α : Type} {l : List α} {g g' : α → Eval Term}
    (hg : ∀ a ∈ l, ∀ w', D.Does (D.within i w.scope.stmts) w' (g a) (g' a) fun t _ => D.Value t)
    (hguesses : ∀ {bodies fault p w' ty},
      exec (firstRun (l.map g)) w = (.ok (bodies, some (fault, p)), w') →
      firstType? (bodies.filterMap id) = some ty → D.Guesses i w' p) :
    D.Does i w (branches (l.map g)) (branches (l.map g')) fun ts w' =>
      ∀ t ∈ ts, D.Code i w' t := by
  refine (does_firstRun hg rfl).ran.bind fun r w₁ hw₁ _ hr => ?_
  obtain ⟨bodies, recursed⟩ := r
  obtain ⟨⟨hbodies, howner, hstmts⟩, hrun⟩ := hr
  have hcodes : ∀ t ∈ bodies.filterMap id, D.Code i w₁ t := by
    intro t ht
    obtain ⟨b, hb, hbt⟩ := List.mem_filterMap.1 ht
    exact hbodies b hb t hbt
  cases recursed with
  | none => exact .pure fun _ => hcodes
  | some r =>
    obtain ⟨fault, p⟩ := r
    dsimp only
    cases hty : firstType? (bodies.filterMap id) with
    | none => exact .throw _
    | some ty =>
      rw [← hstmts] at hg
      exact does_retry hg hbodies fault (howner fault p rfl) (hguesses hrun hty)
        (code_of_firstType? hcodes hty)

lemma does_merge (op : Op) {bodies : List Term} (h : ∀ t ∈ bodies, D.Code i w t) :
    D.Does i w (merge op bodies) (merge op bodies) fun r w' =>
      (∀ t ∈ r.1, D.strict → ∀ c ∈ t.sites, D.Known i w'.session c.1 c.2) ∧
        ∀ ty ∈ r.2, D.Shape ty := by
  unfold merge
  split
  · refine .pure fun _ => ⟨fun t ht hs => (h t ht hs).2, fun ty hty => ?_⟩
    cases hty
  · rename_i ty hty
    split
    · exact .fail _
    · refine .pure fun _ => ⟨fun t ht hs c hc => ?_, fun t ht => ?_⟩
      · obtain ⟨b, hb, rfl⟩ := List.mem_map.1 ht
        have hb' := (h b hb hs).2
        split at hc
        · rw [Term.sites_retypeMiss] at hc
          exact hb' c hc
        · exact hb' c hc
      · cases ht
        exact code_of_firstType? h hty

lemma value_miss {t : Term} (h : D.Value t) : D.Value (.miss t) :=
  fun hs => ⟨rfl, ⟨h hs, trivial⟩, trivial⟩

lemma does_finishSplit (op : Op) {arrange : List Term → List Term} {bodies : List Term}
    (h : ∀ t ∈ bodies, D.Code i w t)
    (harrange : ∀ bodies, ∀ t ∈ arrange bodies, t ∈ bodies ∨ D.Value t) :
    D.Does i w (finishSplit op arrange bodies) (finishSplit op arrange bodies)
      fun v _ => D.Value v := by
  refine (does_merge op h).bind fun r w' _ _ hr => ?_
  obtain ⟨bodies, ty⟩ := r
  have hsites : ∀ ty, D.strict → ∀ c ∈ (Term.op op (arrange bodies) ty).sites,
      D.Known i w'.session c.1 c.2 := by
    intro ty hs c hc
    obtain ⟨t, ht, hc⟩ := Term.mem_sitesOfAll.1 hc
    rcases harrange bodies t ht with ht | ht
    · exact hr.1 t ht hs c hc
    · rw [(ht hs).sites_eq] at hc
      cases hc
  cases ty with
  | some ty => exact does_bindResult (hsites ty) (hr.2 ty rfl)
  | none =>
    refine (does_pushStmt (.state (.op op (arrange bodies) .unit)) fun hs _ => hsites .unit hs).bind
      fun _ _ _ _ _ => .pure fun _ => value_miss fun _ => trivial

/-! ### Operations -/

/-- A conditional whose test is left for later. -/
theorem does_split {t : Term} (ht : D.Value t) {yes no : Expr}
    (hsplit : D.Branching i ev ev' [ev yes, ev no] w) (h : D.strict → yes.Sorted ∧ no.Sorted) :
    D.Does i w (do finishSplit .cond (t :: ·) (← branches [ev yes, ev no]))
      (do finishSplit .cond (t :: ·) (← branches [ev' yes, ev' no])) fun v _ => D.Value v := by
  have hg : ∀ e ∈ [yes, no], ∀ w', D.Does (D.within i w.scope.stmts) w' (ev e) (ev' e)
      fun v _ => D.Value v := by
    intro e he w'
    refine hsplit.pair.here e w' fun hs => ?_
    simp only [List.mem_cons, List.not_mem_nil, or_false] at he
    rcases he with rfl | rfl
    · exact (h hs).1
    · exact (h hs).2
  refine (does_branches hg hsplit.guesses).bind fun bodies w' _ _ hbodies => ?_
  refine does_finishSplit .cond hbodies fun bodies u hu => ?_
  rcases List.mem_cons.1 hu with rfl | hu
  · exact .inr ht
  · exact .inl hu

lemma does_cond (hev : D.Pair i ev ev') {symbol : Nat} {args : List Expr}
    (hsplit : ∀ acts w', Splits ev (.node symbol (.op .cond args)) w acts w' →
      D.Branching i ev ev' acts w')
    (h : D.strict → Expr.AllSorted args) :
    D.Does i w (cond ev args) (cond ev' args) fun v _ => D.Value v := by
  match args with
  | [test, yes, no] =>
    refine (hev.here test w fun hs => (h hs).1).ran.bind fun t w' _ _ ⟨ht, hrun⟩ => ?_
    cases htaken : t.bool? with
    | some taken =>
      dsimp only
      refine hev.here _ w' fun hs => ?_
      cases taken
      · exact (h hs).2.2.1
      · exact (h hs).2.1
    | none =>
      dsimp only
      split
      · exact Does.bind (P := fun _ _ => False) (.fail _) fun _ _ _ _ h => h.elim
      · rename_i hty
        have hty' : (t.ty == .bool) = true := by simpa using hty
        exact does_split ht (hsplit _ _ (.cond hrun htaken hty'))
          fun hs => ⟨(h hs).2.1, (h hs).2.2.1⟩
  | [] | [_] | [_, _] | _ :: _ :: _ :: _ :: _ => exact .fail _

lemma mem_caseArgs {value : Term} {binders : List Var} {bodies : List Term} {t : Term}
    (h : t ∈ caseArgs value binders bodies) :
    t = value ∨ (∃ v ∈ binders, t = .var v) ∨ t ∈ bodies := by
  rcases List.mem_cons.1 h with rfl | h
  · exact .inl rfl
  · obtain ⟨⟨v, b⟩, hmem, ht⟩ := List.mem_flatMap.1 h
    have hzip := List.of_mem_zip hmem
    simp only [List.mem_cons, List.not_mem_nil, or_false] at ht
    rcases ht with rfl | rfl
    · exact .inr (.inl ⟨v, hzip.1, rfl⟩)
    · exact .inr (.inr hzip.2)

lemma does_case (hev : D.Pair i ev ev') {value f : Term}
    (hsplit : ∀ {v members w₁ binders w₂}, value = .var v →
      (∃ ts, v.ty = .union ts) ∨ (∃ key, v.ty = .recur key) →
      exec (unionMembers v.ty) w = (.ok members, w₁) →
      exec (members.mapM freshVar) w₁ = (.ok binders, w₂) →
      D.Branching i ev ev'
        (binders.map fun b => apply ev f (if b.ty.isUnit then .ofUnit b.ty else .var b)) w₂)
    (hv : D.Value value) (hf : D.Value f) :
    D.Does i w (case ev value f) (case ev' value f) fun v _ => D.Value v := by
  -- A split by union member: the binders are new variables, so each branch applies `f` to a value.
  have hmembers : ∀ v, value = .var v → (∃ ts, v.ty = .union ts) ∨ (∃ key, v.ty = .recur key) →
      D.Value (.var v) → D.Does i w
      (do
        let members ← unionMembers v.ty
        let binders ← members.mapM freshVar
        let bodies ← branches (binders.map fun b =>
          apply ev f (if b.ty.isUnit then .ofUnit b.ty else .var b))
        finishSplit .case (caseArgs (.var v) binders) bodies)
      (do
        let members ← unionMembers v.ty
        let binders ← members.mapM freshVar
        let bodies ← branches (binders.map fun b =>
          apply ev' f (if b.ty.isUnit then .ofUnit b.ty else .var b))
        finishSplit .case (caseArgs (.var v) binders) bodies)
      fun u _ => D.Value u := by
    rintro v rfl hunion hv
    refine (does_unionMembers hv.var_ty).ran.bind fun members _ _ _ ⟨hmembers, hrun⟩ => ?_
    have hfresh : ∀ ty ∈ members, ∀ w, D.Does i w (freshVar ty) (freshVar ty)
        fun b _ => D.Value (.var b) :=
      fun ty hty w => (does_freshVar (hmembers ty hty)).imp fun b _ hb => hb.2.1
    refine (Does.mapM hfresh).ran.bind fun binders _ _ _ ⟨hbinders, hrun'⟩ => ?_
    have hbranching := hsplit rfl hunion hrun hrun'
    refine (does_branches (fun b hb w => does_apply hbranching.pair hf ?_)
      hbranching.guesses).bind fun bodies _ _ _ hbodies => ?_
    · split
      · exact (hbinders b hb).var_ty.ofUnit
      · exact hbinders b hb
    · refine does_finishSplit .case hbodies fun bodies t ht => ?_
      rcases mem_caseArgs ht with rfl | ⟨b, hb, rfl⟩ | ht
      · exact .inr hv
      · exact .inr (hbinders b hb)
      · exact .inl ht
  unfold case
  -- Only a variable of a union or of a recursive type is split.
  split
  · exact does_apply hev hf fun hs => (hv hs).1
  · rename_i v
    split
    · rename_i ts hts
      exact hmembers v rfl (.inl ⟨ts, hts⟩) hv
    · rename_i key hkey
      exact hmembers v rfl (.inr ⟨key, hkey⟩) hv
    · exact does_apply hev hf hv
  · exact does_apply hev hf hv

lemma does_patternMiss {t : Term} (ht : D.Value t) :
    D.Does i w (patternMiss t) (patternMiss t) fun v _ => D.Value v := by
  refine .getScope ?_
  split
  · exact .fail _
  · exact .pure fun _ => value_miss ht

lemma does_annotate (hev : D.Pair i ev ev') {args : List Expr}
    (h : D.strict → Expr.AllSorted args) :
    D.Does i w (annotate ev args) (annotate ev' args) fun v _ => D.Value v := by
  match args with
  | [value, annot] =>
    -- The type is compared after both were evaluated.
    have hdeclared : D.Does i w
        (do
          let value ← ev value
          let annot ← ev annot
          if value.ty == annot.ty then return value else fail (.declared annot.ty value.ty))
        (do
          let value ← ev' value
          let annot ← ev' annot
          if value.ty == annot.ty then return value else fail (.declared annot.ty value.ty))
        fun v _ => D.Value v := by
      refine (hev.here value w fun hs => (h hs).1).bind fun v w₁ _ _ hv => ?_
      refine (hev.here annot w₁ fun hs => (h hs).2.1).bind fun t _ _ _ _ => ?_
      split
      · exact .pure fun _ => hv
      · exact .fail _
    have hunwrap : D.strict → value.unwrapPos.Sorted := fun hs => (h hs).1.unwrapPos
    unfold annotate
    dsimp only
    split
    · -- A method join point gets its type in advance.
      rename_i symbol inner heq
      split
      · rename_i body
        refine (hev.here annot w fun hs => (h hs).2.1).bind fun t _ _ _ ht => ?_
        refine does_enterPoint hev .method (fun hs => ?_) fun ty hty => by
          cases hty; exact ht.ty
        have hsorted := hunwrap hs
        rw [heq] at hsorted
        exact hsorted.1
      · exact .fail _
    · exact hdeclared
  | [] | [_] | _ :: _ :: _ :: _ => exact .fail _

lemma does_raise (t : Term) :
    D.Does i w (raise t) (raise t) fun v _ => D.Value v := by
  unfold raise
  split <;> exact .fail _

lemma does_args (hev : D.Pair i ev ev') {args : List Expr}
    (h : D.strict → Expr.AllSorted args) :
    D.Does i w (args.mapM ev) (args.mapM ev') fun ts _ => ∀ t ∈ ts, D.Value t :=
  Does.mapM fun e he w => hev.here e w fun hs => Expr.allSorted_iff.1 (h hs) e he

lemma does_evalOp (hev : D.Pair i ev ev') {symbol : Nat} (op : Op) {args : List Expr}
    (hsplit : ∀ acts w', Splits ev (.node symbol (.op op args)) w acts w' →
      D.Branching i ev ev' acts w')
    (h : D.strict → Expr.AllSorted args) :
    D.Does i w (evalOp ev op args) (evalOp ev' op args) fun v _ => D.Value v := by
  -- Three operations decide themselves what is evaluated; the others start from their operands.
  cases op with
  | cond => exact does_cond hev hsplit h
  | annotate => exact does_annotate hev h
  | entry entry =>
    match args with
    | [body] =>
      exact does_enterPoint hev entry (fun hs => (h hs).1) fun ty hty => by cases hty
    | [] | _ :: _ :: _ => exact .fail _
  | apply =>
    exact (does_args hev h).bind fun ts _ _ _ hts => (does_operands₂ _ hts).bind
      fun r _ _ _ hr => does_apply hev hr.1 hr.2
  | case =>
    refine (does_args hev h).ran.bind fun ts _ _ _ ⟨hts, hargs⟩ => ?_
    match ts with
    | [value, f] =>
      refine does_case hev (fun hvar hunion hmembers hbinders => ?_) (hts _ (by simp))
        (hts _ (by simp))
      exact hsplit _ _ (.case (hvar ▸ hargs) hunion hmembers hbinders)
    | [] | [_] | _ :: _ :: _ :: _ => exact .fail _
  | dynamize =>
    exact (does_args hev h).bind fun ts _ _ _ hts => (does_operand _ hts).bind
      fun t w' _ _ ht => does_toRuntime t w' ht
  | patternMiss =>
    exact (does_args hev h).bind fun ts _ _ _ hts => (does_operand _ hts).bind
      fun t _ _ _ ht => does_patternMiss ht
  | errorType =>
    exact (does_args hev h).bind fun ts _ _ _ hts => (does_operand _ hts).bind
      fun t _ _ _ _ => does_raise t
  | closure => exact (does_args hev h).bind fun ts _ _ _ hts => does_closureOp hev hts
  | prim op => exact (does_args hev h).bind fun ts _ _ _ hts => does_primOp op hts
  | tuple op => exact (does_args hev h).bind fun ts _ _ _ hts => does_tupleOp op hts
  | module op => exact (does_args hev h).bind fun ts _ _ _ hts => does_moduleOp hev op hts
  | layout op => exact (does_args hev h).bind fun ts _ _ _ hts => does_layoutOp op hts
  | array op => exact (does_args hev h).bind fun ts _ _ _ hts => does_arrayOp op hts
  | type op => exact (does_args hev h).bind fun ts _ _ _ hts => does_typeOp op hts
  | foreign target =>
    exact (does_args hev h).bind fun ts _ _ _ hts => does_foreignOp target hts

/-! ### Evaluation -/

lemma does_close {used : Captures} (hused : D.strict → used.Ascending) {kind : MapKind}
    (hkind : D.strict → kind.Sorted) :
    D.Does i w (close used kind) (close used kind) fun v _ => D.Value v := by
  refine .given fun hw => .getScope (.pure fun _ hs => ?_)
  have henv := (hw.2 hs).env.visible
  exact ⟨⟨henv.1, henv.2, hused hs⟩, hkind hs⟩

lemma does_step (hev : D.Pair i ev ev') {e : Expr}
    (hsplit : ∀ acts w', Splits ev e w acts w' → D.Branching i ev ev' acts w')
    (he : D.strict → e.Sorted) :
    D.Does i w (step ev e) (step ev' e) fun v _ => D.Value v := by
  obtain ⟨symbol, kind⟩ := e
  cases kind with
  | var x =>
    refine .given fun hw => .getScope ?_
    cases hx : w.scope.env.get? x with
    | some t => exact .pure fun _ hs => (hw.2 hs).env.get? hx
    | none => exact .fail _
  | lit l => exact .pure fun _ => value_lit l
  | pattern p =>
    exact (does_build (Build.does_lowerPattern he)).bind fun f w' _ _ hf => hev.here f w' hf
  | function param body =>
    exact (does_build (Build.does_freeNameSet he)).bind fun used _ _ _ hused =>
      does_close hused he
  | filtered used param body => exact does_close (fun hs => (he hs).1) fun hs => (he hs).2
  | recFunction this param body =>
    exact (does_build (Build.does_freeNameSet he)).bind fun used _ _ _ hused =>
      does_close hused he
  | tuple items =>
    exact (does_args hev he).bind fun ts _ _ _ hts => .pure fun _ => value_tuple hts
  | op op args => exact does_evalOp hev op hsplit he
  | pos span e =>
    refine .getSession ?_
    split
    · exact does_withSpan span fun w => hev.here e w he
    · exact hev.here e w he

lemma does_eval [D.Unguarded] (fuel : Nat) {e : Expr} (he : D.strict → e.Sorted) :
    D.Does i w (eval fuel e) (eval fuel e) fun v _ => D.Value v := by
  induction fuel generalizing i e w with
  | zero => exact .throw _
  | succ fuel ih =>
    have hpair : ∀ i, D.Pair i (eval fuel) (eval fuel) := fun i =>
      ⟨fun e w he => ih he, fun p e w he => ih he, fun _ _ _ _ _ _ => Unguarded.ends _ _⟩
    exact does_step (hpair i) (fun _ _ _ => ⟨hpair _, fun _ _ => Unguarded.guesses _ _ _⟩) he

end Discipline

end Residual
