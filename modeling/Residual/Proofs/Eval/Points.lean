import Residual.Proofs.Eval.Values

/-!
Requests for join points and the evaluation of their bodies keep to a discipline.
-/

namespace Residual

namespace Eval

/-! ### What becomes of a body -/

lemma exec_evalBody (ev : Expr → Eval Term) (p : Point) (body : Expr) (captured : Captured)
    (w : World) :
    exec (evalBody ev p body captured) w =
      ((exec (ev body) (w.setScope (w.bodyScope p captured))).1.map
          ((exec (ev body) (w.setScope (w.bodyScope p captured))).2.bodyTerm p),
        (exec (ev body) (w.setScope (w.bodyScope p captured))).2.setScope w.scope) := by
  unfold evalBody
  rw [exec_bind_of_ok (exec_getScope w), exec_inScope]
  change ((exec _ (w.setScope (w.bodyScope p captured))).1,
    (exec _ (w.setScope (w.bodyScope p captured))).2.setScope w.scope) = _
  rw [exec_bind]
  rcases exec (ev body) (w.setScope (w.bodyScope p captured)) with ⟨_ | v, w'⟩
  · rfl
  · by_cases hk : p.kind = .type
    · simp [World.bodyTerm, hk, Except.map]
    · simp only [hk, if_false, World.bodyTerm, Except.map]
      rw [exec_bind_of_ok (exec_getScope w')]
      rfl

/-- The join point is done, but its evaluation is not left yet. -/
lemma exec_finish (p : Point) (term : Term) (captured : Captured) (w : World) :
    exec (finish p term captured) w =
      (.ok (p.bodyTy term), { w.complete p term captured with
        session := { (w.complete p term captured).session with depth := w.session.depth } }) := by
  by_cases hr : p.kind = .type ∧ term.ty.mentions p.key = true
  · simp only [finish, hr, and_self, if_true, World.complete, Point.bodyTy]
    rfl
  · simp only [finish, hr, if_false, World.complete, Point.bodyTy]
    rfl

lemma exec_specializeBody (ev : Expr → Eval Term) (p : Point) (body : Expr)
    (captured : Captured) (w : World) :
    exec (specializeBody ev p body captured) w =
      match exec (ev body) (w.setScope (w.bodyScope p captured)) with
      | (.error s, w') => (.error s, w'.setScope w.scope)
      | (.ok v, w') =>
        match exec (checkBody p (w'.bodyTerm p v)) (w'.setScope w.scope) with
        | (.error s, w'') => (.error s, w'')
        | (.ok (), w'') => exec (finish p (w'.bodyTerm p v) captured) w'' := by
  unfold specializeBody
  rw [exec_bind, exec_evalBody]
  rcases exec (ev body) (w.setScope (w.bodyScope p captured)) with ⟨_ | v, w'⟩
  · rfl
  · simp only [Except.map]
    rw [exec_bind]
    rcases exec (checkBody p (w'.bodyTerm p v)) (w'.setScope w.scope) with ⟨_ | ⟨⟩, w''⟩ <;> rfl

/-- The checks of a finished body, but for the first one. -/
lemma reads_checkResult (p : Point) (ty : Ty) :
    Reads (do
      match ← expectedType p with
      | some expected =>
        if !(expected == ty) then fail (.pointResult p.kind expected ty)
      | none => pure ()
      if p.kind = .kernel ∧ !ty.isUnit then fail (.kernelResult ty)) := by
  have hexpected : Reads (expectedType p) := by
    refine reads_getSession.bind fun s => ?_
    split <;> exact reads_pure _
  have hlast : Reads (if p.kind = .kernel ∧ (!ty.isUnit) = true then
      fail (.kernelResult ty) else pure () : Eval Unit) := by
    split
    · exact reads_fail _
    · exact reads_pure _
  refine hexpected.bind fun expected => ?_
  cases expected with
  | none => exact hlast
  | some expected =>
    dsimp only
    split
    · exact (reads_fail _).bind fun _ => hlast
    · exact hlast

/-- The check of a body changes nothing. -/
lemma exec_checkBody (p : Point) (term : Term) (w : World) :
    (exec (checkBody p term) w).2 = w := by
  revert w
  unfold checkBody
  dsimp only
  split
  · exact (reads_fail _).bind fun _ => reads_checkResult p term.ty
  · exact reads_checkResult p term.ty

/-- A body that is evaluated and checked is recorded; one that fails leaves no entry. -/
theorem exec_specializeNew (ev : Expr → Eval Term) (p : Point) (body : Expr)
    (captured : Captured) (annot : Option Ty) (w : World) :
    exec (specializeNew ev p body captured annot) w =
      if w.session.settings.maxDepth ≤ w.session.depth then
        exec (fail (.tooDeep w.session.settings.maxDepth)) w
      else
        match exec (ev body) (w.atBody p captured annot) with
        | (.error s, w') => (.error s, (w'.setScope w.scope).abandon p)
        | (.ok v, w') =>
          match (exec (checkBody p (w'.bodyTerm p v)) (w'.setScope w.scope)).1 with
          | .error s => (.error s, (w'.setScope w.scope).abandon p)
          | .ok () =>
            (.ok (p.bodyTy (w'.bodyTerm p v)),
              (w'.setScope w.scope).complete p (w'.bodyTerm p v) captured) := by
  unfold specializeNew
  rw [exec_bind_of_ok (exec_getSession w), exec_bind_of_ok (exec_getSession w)]
  split
  · exact exec_bind_of_error rfl
  · dsimp only
    rw [exec_bind_of_ok (exec_getScope w), exec_bind_of_ok (exec_modifyPoints _ w),
      exec_bind_of_ok (exec_modifySession _ _)]
    rcases hbody : exec (specializeBody ev p body captured) (w.start p annot) with ⟨r, w₁⟩
    have hobserve : exec (observe (specializeBody ev p body captured)) (w.start p annot) =
        (.ok r, w₁) := by
      rw [exec_observe, hbody]
    refine (exec_bind_of_ok hobserve).trans ?_
    rw [exec_bind_of_ok (exec_modifySession _ w₁)]
    have hstart := hbody.symm.trans (exec_specializeBody ev p body captured (w.start p annot))
    change (r, w₁) = match exec (ev body) (w.atBody p captured annot) with
      | (.error s, w') => (.error s, w'.setScope w.scope)
      | (.ok v, w') =>
        match exec (checkBody p (w'.bodyTerm p v)) (w'.setScope w.scope) with
        | (.error s, w'') => (.error s, w'')
        | (.ok (), w'') => exec (finish p (w'.bodyTerm p v) captured) w'' at hstart
    -- The body fails, or it has a value that passes the checks or not.
    rcases hev : exec (ev body) (w.atBody p captured annot) with ⟨s | v, w'⟩
    · rw [hev] at hstart
      cases hstart
      rfl
    · rw [hev] at hstart
      have hcheck := exec_checkBody p (w'.bodyTerm p v) (w'.setScope w.scope)
      dsimp only at hstart ⊢
      rcases hc : exec (checkBody p (w'.bodyTerm p v)) (w'.setScope w.scope) with ⟨s | ⟨⟩, w''⟩
      · rw [hc] at hcheck hstart
        cases hstart
        cases hcheck
        rfl
      · rw [hc] at hcheck hstart
        cases hcheck
        dsimp only at hstart
        rw [exec_finish] at hstart
        cases hstart
        rfl

end Eval

namespace Discipline

open Eval

variable {D : Discipline} {i : D.Index} {w : World} {ev ev' : Expr → Eval Term}

/-! ### Requests -/

lemma does_lookupAll {env : Env} (h : D.strict → env.Formed) (names : List Name) :
    D.Does i w (lookupAll env names) (lookupAll env names) fun values _ =>
      ∀ e ∈ values, D.Value e.2 := by
  induction names with
  | nil => exact .pure fun _ e he => by cases he
  | cons x rest ih =>
    unfold lookupAll
    cases hx : env.get? x with
    | none => exact .fail _
    | some t =>
      refine ih.bind fun values _ _ _ hvalues => .pure fun _ => ?_
      exact List.forall_mem_cons.2 ⟨fun hs => (h hs).get? hx, hvalues⟩

lemma grows_renameCaptures (values : List (Name × Term)) (arg : Option ClosureArg) :
    Rename.Grows (renameCaptures values arg) := by
  refine Rename.Grows.bind (Rename.Grows.mapM fun e _ => ?_) fun captures => ?_
  · exact (Rename.grows_term e.2).bind fun _ => Rename.grows_pure _
  · cases arg with
    | none => exact Rename.grows_pure _
    | some arg =>
      exact (Rename.grows_freshTag.bind fun _ => Rename.grows_pure _).bind
        fun _ => Rename.grows_pure _

lemma keeps_renameCaptures {values : List (Name × Term)} {arg : Option ClosureArg}
    (hv : ∀ e ∈ values, e.2.Formed) (ha : ∀ a ∈ arg, a.dom.Formed) :
    Rename.Keeps (renameCaptures values arg) fun r => Fields.Formed r.1 := by
  have hall : Rename.Keeps (values.mapM fun e => do return (e.1, ← Rename.term e.2))
      fun (captures : List (Name × Term)) => ∀ e ∈ captures, e.2.Formed :=
    Rename.Keeps.mapM fun e he => (Rename.keeps_term e.2 (hv e he)).bind
      fun t ht => Rename.keeps_pure ht
  refine hall.bind fun captures hc => ?_
  cases arg with
  | none => exact Rename.keeps_pure (Fields.formed_ofList hc)
  | some arg =>
    have hdom := ha arg rfl
    refine (Rename.keeps_freshVar hdom).bind fun v hv => Rename.keeps_pure ?_
    refine Fields.formed_ofList fun e he => ?_
    rcases List.mem_append.1 he with he | he
    · exact hc e he
    · rw [List.mem_singleton.1 he]
      dsimp only
      split
      · exact Term.formed_ofUnit _ hdom
      · exact hv

lemma does_capture {env : Env} (henv : D.strict → env.Formed) {body : Expr}
    (hbody : D.strict → body.Sorted) {arg : Option ClosureArg}
    (harg : ∀ a ∈ arg, D.Shape a.dom) :
    D.Does i w (capture env body arg) (capture env body arg) fun c _ =>
      (D.strict → Fields.Formed c.env) ∧ ∀ v ∈ c.args, D.Value (.var v) := by
  refine (does_build (Build.does_freeNames hbody)).bind fun free _ _ _ _ => ?_
  refine (does_lookupAll henv _).bind fun values _ _ _ hvalues => ?_
  refine (does_rename (fun _ => ⟨rfl, rfl, rfl⟩) (grows_renameCaptures values arg)
    fun hs => keeps_renameCaptures (fun e he => hvalues e he hs)
      fun a ha => harg a ha hs).bind fun r w₁ _ _ hr => ?_
  obtain ⟨⟨captures, closureParam⟩, r⟩ := r
  obtain ⟨-, henvs, -, hformed⟩ := hr
  have hset : D.Does i w₁
      (modifySession fun s => { s with envs := (r.envs.enter captures).2 })
      (modifySession fun s => { s with envs := (r.envs.enter captures).2 })
      fun _ _ => True := by
    refine .of_exec (exec_modifySession _ w₁) fun hw => ?_
    have hext : w₁.session.envs.Extends (r.envs.enter captures).2 := by
      rw [henvs]
      exact EnvTable.extends_enter r.envs captures
    obtain ⟨hgood, hle⟩ := does_setEnvs hext
      (fun hs => ((hformed hs).2.envs.enter (hformed hs).1).1) hw
    exact ⟨hgood, hle, trivial⟩
  refine hset.bind fun _ _ _ _ _ => .pure fun _ => ⟨fun hs => ?_, fun v hv hs => ?_⟩
  · exact ((hformed hs).2.envs.enter (hformed hs).1).2
  · exact (hformed hs).2.args v hv

lemma does_enterKey (data : KeyData) :
    D.Does i w
      (modifyGet fun w =>
        let (key, session) := w.session.enterKey data
        (key, { w with session }) : Eval Key)
      (modifyGet fun w =>
        let (key, session) := w.session.enterKey data
        (key, { w with session }))
      fun _ _ => True := by
  have hrun : exec (modifyGet fun w =>
      let (key, session) := w.session.enterKey data
      (key, { w with session }) : Eval Key) w =
      (.ok (w.session.enterKey data).1, { w with session := (w.session.enterKey data).2 }) := rfl
  refine .of_exec hrun fun hw => ?_
  have hq : w.session.Quiet (w.session.enterKey data).2 :=
    ⟨⟨.refl _, .refl _, Interner.extends_intern ..⟩, rfl, rfl⟩
  obtain ⟨hgood, hle⟩ := good_quiet hw hq fun hs => by
    obtain ⟨h1, h2, h3, h4⟩ := (hw.2 hs).session
    exact ⟨h1, h2, h3, h4⟩
  exact ⟨hgood, hle, trivial⟩

lemma does_request {env : Env} (henv : D.strict → env.Formed) {body : Expr}
    (hbody : D.strict → body.Sorted) {arg : Option ClosureArg}
    (harg : ∀ a ∈ arg, D.Shape a.dom) :
    D.Does i w (request env body arg) (request env body arg) fun r _ =>
      (D.strict → Fields.Formed r.2.env) ∧ ∀ v ∈ r.2.args, D.Value (.var v) := by
  refine (does_capture henv hbody harg).bind fun captured w₁ _ _ hc => ?_
  exact (does_enterKey _).bind fun _ _ _ _ _ => .pure fun _ => hc

/-! ### Bodies -/

lemma mem_of_find? {t : PointTable} {p : Point} {e : Entry}
    (h : t.get? p = some e) : (p, e) ∈ t := by
  obtain ⟨before, after, rfl, -⟩ := List.lookup_eq_some_iff.1 h
  simp

lemma does_reuse {p : Point} {args : List Var} {entry : Entry}
    (hentry : w.session.find? p = some entry) :
    D.Does i w (reuse p args entry.progress) (reuse p args entry.progress) fun spec w' =>
      spec.key = p.key ∧ D.Shape spec.ty ∧ (p.kind ≠ .type →
        ∀ callTy, p.kind.Expects callTy spec.ty → D.Known i w'.session p callTy) := by
  obtain ⟨progress, trace⟩ := entry
  refine .given fun hw => ?_
  have hformed : D.strict → progress.Formed := fun hs =>
    (hw.2 hs).session.points (p, ⟨progress, trace⟩) (mem_of_find? hentry)
  cases progress with
  | done body =>
    refine (does_modifyStats _ fun _ => by rfl).bind fun _ w' hw' hle _ => .pure fun _ => ?_
    exact ⟨rfl, hformed,
      fun hk _ hc => D.known_le hw'.1 hle (D.known_done hw.1 hk hentry hc)⟩
  | pending ty =>
    cases ty with
    | some ty =>
      refine (does_modifyStats _ fun _ => by rfl).bind fun _ w' hw' hle _ => .pure fun _ => ?_
      exact ⟨rfl, hformed,
        fun hk _ hc => D.known_le hw'.1 hle (D.known_pending hw.1 hk hentry hc)⟩
    | none =>
      refine (does_modifyStats _ fun _ => by rfl).bind fun _ w' hw' hle _ => ?_
      split
      · rename_i hkind
        exact .pure fun _ => ⟨rfl, fun _ => trivial, fun h => absurd hkind h⟩
      · exact .getScope (.throw _)

/-- A world that is formed is so at the start of a body too. -/
theorem formed_atBody {w : World} (h : w.Formed) {p : Point} {captured : Captured}
    (hc : Fields.Formed captured.env) {annot : Option Ty} (ha : ∀ ty ∈ annot, ty.Formed) :
    (w.atBody p captured annot).Formed := by
  refine ⟨⟨h.session.store, h.session.envs, fun e he => ?_, h.session.recTypes⟩, hc,
    fun e he => by cases he⟩
  rcases List.mem_cons.1 he with rfl | he
  · cases annot with
    | none => trivial
    | some ty => exact ha ty rfl
  · exact h.session.points e he

lemma formed_bodyTy {p : Point} {term : Term} (h : term.ty.Formed) : (p.bodyTy term).Formed := by
  unfold Point.bodyTy
  split
  · trivial
  · exact h

lemma formed_complete {w w' : World} (h : w.Formed) (h' : w'.Formed) {p : Point} {term : Term}
    (hterm : term.ty.Formed) (captured : Captured) :
    ((w'.setScope w.scope).complete p term captured).Formed := by
  refine ⟨⟨h'.session.store, h'.session.envs, fun e he => ?_, fun e he => ?_⟩, h.env, h.sharing⟩
  · obtain ⟨⟨q, entry⟩, hq, rfl⟩ := List.mem_map.1 he
    dsimp only
    split
    · exact formed_bodyTy hterm
    · exact h'.session.points _ hq
  · change e ∈ (if p.kind = .type ∧ term.ty.mentions p.key then
      (p.key, term.ty) :: w'.session.recTypes.filter fun e => e.1 ≠ p.key
      else w'.session.recTypes) at he
    split at he
    · rcases List.mem_cons.1 he with rfl | he
      · exact hterm
      · exact h'.session.recTypes e (List.mem_filter.1 he).1
    · exact h'.session.recTypes e he

lemma formed_abandon {w w' : World} (h : w.Formed) (h' : w'.Formed) (p : Point) :
    ((w'.setScope w.scope).abandon p).Formed :=
  ⟨⟨h'.session.store, h'.session.envs,
    fun e he => h'.session.points e (List.mem_filter.1 he).1, h'.session.recTypes⟩, h.env,
    h.sharing⟩

lemma bodyTerm_ty (w : World) (p : Point) (value : Term) :
    (w.bodyTerm p value).ty = value.ty := by
  unfold World.bodyTerm
  split
  · rfl
  · exact Stmt.ty_close _ _

/-- The calls in a body are those of its statements. -/
lemma sites_bodyTerm {value : Term} (hw : D.Good i w) (hv : D.Value value) (p : Point) :
    D.strict → ∀ c ∈ (w.bodyTerm p value).sites, D.Known i w.session c.1 c.2 := by
  intro hs c hc
  unfold World.bodyTerm at hc
  split at hc
  · cases hc
  · rw [Stmt.sites_close, (hv hs).sites_eq, List.append_nil] at hc
    obtain ⟨s, hmem, hc⟩ := List.mem_flatMap.1 hc
    exact D.known_stmts hs hw.1 s hmem c hc

lemma does_specializeNew (hev : D.Pair i ev ev') {p : Point} {body : Expr}
    (hbody : D.strict → body.Sorted) {captured : Captured}
    (hcaptured : D.strict → Fields.Formed captured.env) {annot : Option Ty}
    (hannot : ∀ ty ∈ annot, D.Shape ty) (hnone : w.session.find? p = none)
    (hasked : w.session.Asked D.strict p captured) :
    D.Does i w (specializeNew ev p body captured annot) (specializeNew ev' p body captured annot)
      fun ty w' => D.Shape ty ∧
        (p.kind ≠ .type → ∀ callTy, p.kind.Expects callTy ty → D.Known i w'.session p callTy) := by
  intro hw
  rw [exec_specializeNew, exec_specializeNew]
  split
  · exact ⟨.refl _, hw, D.le_refl w, fun a ha => by cases ha⟩
  · rename_i hdepth
    have hstart : D.Inv (D.inner i p) (w.atBody p captured annot) :=
      D.start hw.1 hnone (Nat.not_le.1 hdepth) hasked
    obtain ⟨hagree, hgood, hle, hvalue⟩ := hev.inside p body (w.atBody p captured annot) hbody
      ⟨hstart, fun hs => formed_atBody (hw.2 hs) (hcaptured hs) fun ty hty => hannot ty hty hs⟩
    refine ⟨hagree.map (fun r => match r with
      | (.error s, w') => (.error s, (w'.setScope w.scope).abandon p)
      | (.ok v, w') =>
        match (exec (checkBody p (w'.bodyTerm p v)) (w'.setScope w.scope)).1 with
        | .error s => (.error s, (w'.setScope w.scope).abandon p)
        | .ok () =>
          (.ok (p.bodyTy (w'.bodyTerm p v)),
            (w'.setScope w.scope).complete p (w'.bodyTerm p v) captured)) fun _ => rfl, ?_⟩
    rcases hrun : exec (ev body) (w.atBody p captured annot) with ⟨r, w'⟩
    rw [hrun] at hgood hle hvalue
    -- If the evaluation or a check fails, the join point is given up.
    have habandon : D.Good i ((w'.setScope w.scope).abandon p) ∧
        D.Le w ((w'.setScope w.scope).abandon p) :=
      ⟨⟨(D.abandon hw.1 hnone hgood.1 hle).1,
        fun hs => formed_abandon (hw.2 hs) (hgood.2 hs) p⟩,
        (D.abandon hw.1 hnone hgood.1 hle).2⟩
    cases r with
    | error s => exact ⟨habandon.1, habandon.2, fun a ha => by cases ha⟩
    | ok v =>
      have hv := hvalue v rfl
      dsimp only
      rcases hc : (exec (checkBody p (w'.bodyTerm p v)) (w'.setScope w.scope)).1 with s | ⟨⟩
      · exact ⟨habandon.1, habandon.2, fun a ha => by cases ha⟩
      · -- The body is done: all that it calls is known in the inner invariant.
        have hty : D.Shape (w'.bodyTerm p v).ty := by
          rw [bodyTerm_ty]
          exact hv.ty
        obtain ⟨hinv, hle', hknown⟩ := D.complete hw.1 hnone hasked hgood.1 hle
          (sites_bodyTerm hgood hv p) hc (hev.ends p body _ v hstart (by rw [hrun]))
        refine ⟨⟨hinv, fun hs => formed_complete (hw.2 hs) (hgood.2 hs) (hty hs) captured⟩,
          hle', fun a ha => ?_⟩
        cases ha
        exact ⟨fun hs => formed_bodyTy (hty hs), hknown⟩

lemma does_specialize (hev : D.Pair i ev ev') {env : Env} (henv : D.strict → env.Formed)
    {kind : PointKind} {body : Expr} (hbody : D.strict → body.Sorted) {annot : Option Ty}
    (hannot : ∀ ty ∈ annot, D.Shape ty) {arg : Option ClosureArg}
    (harg : ∀ a ∈ arg, D.Shape a.dom) (hkind : kind = .closure ↔ arg.isSome) :
    D.Does i w (specialize ev env kind body annot arg) (specialize ev' env kind body annot arg)
      fun spec w' => D.Shape spec.ty ∧
        (kind ≠ .type → ∀ callTy, kind.Expects callTy spec.ty →
          D.Known i w'.session ⟨kind, spec.key⟩ callTy) := by
  refine .given fun hw => ?_
  refine (does_request henv hbody harg).ran.bind fun r w₁ hw₁ hle hr => .getSession ?_
  obtain ⟨⟨hc, -⟩, hrun⟩ := hr
  cases hfind : w₁.session.find? ⟨kind, r.1⟩ with
  | some entry =>
    dsimp only
    exact (does_reuse hfind).imp fun spec w' h => ⟨h.2.1, fun hk => h.1 ▸ h.2.2 hk⟩
  | none =>
    dsimp only
    have hasked : w₁.session.Asked D.strict ⟨kind, r.1⟩ r.2 :=
      ⟨w, env, body, arg, w₁, fun hs => ⟨hw.2 hs, henv hs, hbody hs⟩, hkind, hrun, .refl _⟩
    exact (does_specializeNew hev hbody hc hannot hfind hasked).bind fun ty w' _ _ h =>
      .pure fun _ => h

lemma does_enterPoint (hev : D.Pair i ev ev') (op : EntryOp) {body : Expr}
    (hbody : D.strict → body.Sorted) {annot : Option Ty}
    (hannot : ∀ ty ∈ annot, D.Shape ty) :
    D.Does i w (enterPoint ev op body annot) (enterPoint ev' op body annot)
      fun v _ => D.Value v := by
  refine .given fun hw => .getScope ?_
  have hkind : op.kind = .closure ↔ (none : Option ClosureArg).isSome := by
    cases op <;> simp [EntryOp.kind]
  refine (does_specialize hev (fun hs => (hw.2 hs).env) hbody hannot
    (fun a ha => by cases ha) hkind).bind fun spec w' _ _ hspec => ?_
  split
  · exact .pure fun _ => hspec.1.type
  · rename_i hop
    have hne : op.kind ≠ .type := by cases op <;> simp_all [EntryOp.kind]
    refine does_bindResult (fun hs c hc => ?_) hspec.1
    rw [List.mem_singleton.1 hc]
    exact hspec.2 hne spec.ty (by cases op <;> rfl)

/-- A function is committed to a domain. -/
theorem does_closureOf (hev : D.Pair i ev ev') {f : Term} (hf : D.Value f) {dom : Ty}
    (hdom : D.Shape dom) {range : Option Ty} (hrange : ∀ ty ∈ range, D.Shape ty) :
    D.Does i w (closureOf ev f dom range) (closureOf ev' f dom range)
      fun v _ => D.Value v := by
  have hmain : ∀ (env : Env) (param : Name) (body : Expr), (D.strict → env.Formed) →
      (D.strict → body.Sorted) → D.Does i w
        (do
          let spec ← specialize ev env .closure body range (some ⟨param, dom⟩)
          bindResult (.call spec.key .closure spec.args (.closure dom spec.ty))
            (.closure dom spec.ty))
        (do
          let spec ← specialize ev' env .closure body range (some ⟨param, dom⟩)
          bindResult (.call spec.key .closure spec.args (.closure dom spec.ty))
            (.closure dom spec.ty))
        fun v _ => D.Value v := by
    intro env param body henv hbody
    refine (does_specialize hev henv hbody hrange (fun a ha => by cases ha; exact hdom)
      (by simp)).bind fun spec w' _ _ hspec => ?_
    refine does_bindResult (fun hs c hc => ?_) fun hs => ⟨hdom hs, hspec.1 hs⟩
    rw [List.mem_singleton.1 hc]
    exact hspec.2 (by decide) _ ⟨dom, rfl⟩
  unfold closureOf
  split
  · exact hmain _ _ _ (fun hs => (hf hs).1) fun hs => (hf hs).2
  · exact hmain _ _ _ (fun hs => (hf hs).1.bind _ (hf hs)) fun hs => (hf hs).2
  · exact Does.bind (P := fun _ _ => False) (.fail _) fun _ _ _ _ h => h.elim

lemma does_closureOp (hev : D.Pair i ev ev') {args : List Term} (h : ∀ t ∈ args, D.Value t) :
    D.Does i w (closureOp ev args) (closureOp ev' args) fun v _ => D.Value v := by
  unfold closureOp
  split
  · exact does_closureOf hev (h _ (by simp)) (h _ (by simp) |>.ty) fun ty hty => by cases hty
  · refine (does_operands₃ _ h).bind fun r _ _ _ hr => ?_
    exact does_closureOf hev hr.1 hr.2.1.ty fun ty hty => by cases hty; exact hr.2.2.ty

end Discipline

end Residual
