import Residual.Proofs.Eval.AlikeSteps
import Residual.Proofs.Eval.Points

/-!
Evaluation does the same with other source positions.

Main statement: `does_eval`. Only the step at a position mark looks at a position, and all it
does with it is to extend the current trace; a run that records no traces passes over the mark.
-/

namespace Residual.Comparison

open Eval

variable {m : Comparison} {α β γ δ : Type}

/-! ### Splits -/

lemma does_pendingRecursion {f f' : Fault} (hf : m.Faults f f') :
    m.Maps id (pendingRecursion f) (pendingRecursion f') := by
  unfold pendingRecursion
  rw [hf.pending]
  cases f.pending with
  | none => exact .pure rfl
  | some p =>
    refine does_getScope fun u u' hu => ?_
    rw [hu.owner]
    split
    · exact .pure rfl
    · refine does_getSession fun s s' hs => ?_
      have hfind := hs.find? p
      generalize s.find? p = e at hfind
      generalize s'.find? p = e' at hfind
      cases hfind with
      | none => exact .pure rfl
      | @some e e' he =>
        obtain ⟨progress, trace⟩ := e
        obtain ⟨progress', trace'⟩ := e'
        obtain ⟨hp, -⟩ := he
        cases hp with
        | pending ty =>
          cases ty with
          | none => exact .pure rfl
          | some ty => exact .pure rfl
        | done hb => exact .pure rfl

lemma does_setPendingType (p : Point) (ty : Option Ty) :
    m.Maps id (setPendingType p ty) (setPendingType p (ty.map (Ty.moved m.toMove))) :=
  does_modifySession fun _ _ hs => hs.setPoints (hs.points.setProgress p (.pending ty))

/-- The branches of a split, one after the other. -/
abbrev Branches (m : Comparison) : List (Eval Term) → List (Eval Term) → Prop :=
  List.Forall₂ (m.Maps (Term.moved m.toMove))

/-- What a first run found out about the branches. -/
structure FirstRuns (m : Comparison) (r r' : List (Option Term) × Option (Fault × Point)) :
    Prop where
  bodies : List.Forall₂ (Option.Rel m.Code) r.1 r'.1
  recursed : Option.Rel (fun a b => m.Faults a.1 b.1 ∧ b.2 = a.2) r.2 r'.2

lemma does_firstRun {acts acts' : List (Eval Term)} (h : m.Branches acts acts') :
    m.Does m.FirstRuns (firstRun acts) (firstRun acts') := by
  induction h with
  | nil => exact .pure ⟨.nil, .none⟩
  | cons hact _ ih =>
    refine (does_attempt (does_inBranch hact)).bind fun o o' ho => ?_
    cases ho with
    | ok hbody =>
      exact ih.bind fun r r' hr => .pure ⟨.cons (.some hbody) hr.bodies, hr.recursed⟩
    | error hf =>
      refine (does_pendingRecursion hf).andThen fun p => ?_
      cases p with
      | none => exact .throw (.failed hf)
      | some p =>
        exact ih.bind fun r r' hr => .pure ⟨.cons .none hr.bodies, .some ⟨hf, rfl⟩⟩

lemma does_secondRun {bodies bodies' : List (Option Term)} {acts acts' : List (Eval Term)}
    (hb : List.Forall₂ (Option.Rel m.Code) bodies bodies') (h : m.Branches acts acts') :
    m.Does (m.Attempts (List.Forall₂ m.Code)) (secondRun bodies acts)
      (secondRun bodies' acts') := by
  induction hb generalizing acts acts' with
  | nil => exact .pure (.ok .nil)
  | cons hbody _ ih =>
    cases h with
    | nil =>
      cases hbody with
      | none => exact .pure (.ok .nil)
      | some _ => exact .pure (.ok .nil)
    | cons hact hacts =>
      cases hbody with
      | some hbody =>
        refine (ih hacts).bind fun o o' ho => ?_
        cases ho with
        | ok hrest => exact .pure (.ok (.cons hbody hrest))
        | error hf => exact .pure (.error hf)
      | none =>
        refine (does_attempt (does_inBranch hact)).bind fun o o' ho => ?_
        cases ho with
        | error hf => exact .pure (.error hf)
        | ok hbody =>
          refine (ih hacts).bind fun o o' ho => ?_
          cases ho with
          | ok hrest => exact .pure (.ok (.cons hbody hrest))
          | error hf => exact .pure (.error hf)

lemma filterMap_id_alike {bodies bodies' : List (Option Term)}
    (h : List.Forall₂ (Option.Rel m.Code) bodies bodies') :
    List.Forall₂ m.Code (bodies.filterMap id) (bodies'.filterMap id) := by
  induction h with
  | nil => exact .nil
  | cons hbody _ ih =>
    cases hbody with
    | none => exact ih
    | some hbody => exact .cons hbody ih

lemma firstType?_alike {bodies bodies' : List Term} (h : List.Forall₂ m.Code bodies bodies') :
    firstType? bodies' = (firstType? bodies).map (Ty.moved m.toMove) := by
  unfold firstType?
  induction h with
  | nil => rfl
  | cons hbody _ ih =>
    rw [List.find?_cons, List.find?_cons, hbody.same.endsInMiss]
    split
    · exact congrArg some hbody.ty
    · exact ih

lemma does_branches {acts acts' : List (Eval Term)} (h : m.Branches acts acts') :
    m.Does (List.Forall₂ m.Code) (branches acts) (branches acts') := by
  refine (does_firstRun h).bind fun r r' hr => ?_
  obtain ⟨bodies, recursed⟩ := r
  obtain ⟨bodies', recursed'⟩ := r'
  obtain ⟨hbodies, hrecursed⟩ := hr
  cases hrecursed with
  | none => exact .pure (filterMap_id_alike hbodies)
  | @some a b hab =>
    obtain ⟨fault, p⟩ := a
    obtain ⟨fault', p'⟩ := b
    obtain ⟨hf, rfl⟩ := hab
    dsimp only
    rw [firstType?_alike (filterMap_id_alike hbodies)]
    cases firstType? (bodies.filterMap id) with
    | none => exact .throw (.failed hf)
    | some ty =>
      refine (does_setPendingType p' (some ty)).andThen fun _ => does_getSession fun s s' hs => ?_
      rw [hs.finished]
      refine (does_secondRun hbodies h).bind fun o o' ho => ?_
      cases ho with
      | ok hbodies => exact .pure hbodies
      | error _ =>
        refine (does_modifySession fun _ _ hs => hs.forgetSince _).andThen fun _ => ?_
        exact (does_setPendingType p' none).andThen fun _ => .throw (.failed hf)

lemma find?_alike {bodies bodies' : List Term} (h : List.Forall₂ m.Code bodies bodies')
    (ty : Ty) :
    Option.Rel m.Code (bodies.find? fun body => !body.endsInMiss && !(body.ty == ty))
      (bodies'.find? fun body => !body.endsInMiss && !(body.ty == ty.moved m.toMove)) := by
  induction h with
  | nil => exact .none
  | cons hbody _ ih =>
    rw [List.find?_cons, List.find?_cons, hbody.same.endsInMiss, hbody.ty,
      Ty.eq_moved m.faithful]
    split
    · exact .some hbody
    · exact ih

/-- Merged bodies look alike; their types are those of the split. -/
theorem does_merge (op : Op) {bodies bodies' : List Term}
    (h : List.Forall₂ m.Code bodies bodies') :
    m.Does (fun r r' => List.Forall₂ m.Same r.1 r'.1 ∧ r'.2 = r.2.map (Ty.moved m.toMove))
      (merge op bodies) (merge op bodies') := by
  unfold merge
  rw [firstType?_alike h]
  cases firstType? bodies with
  | none => exact .pure ⟨h.imp fun _ _ hbody => hbody.same, rfl⟩
  | some ty =>
    dsimp only [Option.map_some]
    have hfind := find?_alike h ty
    generalize (bodies.find? fun body => !body.endsInMiss && !(body.ty == ty)) = o at hfind
    generalize (bodies'.find? fun body =>
      !body.endsInMiss && !(body.ty == ty.moved m.toMove)) = o' at hfind
    cases hfind with
    | some hbody => exact .fail (congrArg (Cause.branches op _) hbody.ty)
    | none =>
      refine .pure ⟨?_, rfl⟩
      rw [List.forall₂_map_left_iff, List.forall₂_map_right_iff]
      refine h.imp fun body body' hbody => ?_
      rw [hbody.same.endsInMiss]
      split
      · exact hbody.retypeMiss ty
      · exact hbody.same

lemma does_finishSplit (op : Op) {arrange arrange' : List Term → List Term}
    {bodies bodies' : List Term} (h : List.Forall₂ m.Code bodies bodies')
    (ha : ∀ bodies bodies', List.Forall₂ m.Same bodies bodies' →
      List.Forall₂ m.Same (arrange bodies) (arrange' bodies')) :
    m.Maps (Term.moved m.toMove) (finishSplit op arrange bodies)
      (finishSplit op arrange' bodies') := by
  refine (does_merge op h).bind fun r r' hr => ?_
  obtain ⟨bodies, ty⟩ := r
  obtain ⟨bodies', ty'⟩ := r'
  obtain ⟨hbodies, rfl⟩ := hr
  have hargs := ha _ _ hbodies
  cases ty with
  | some ty => exact does_bindResult (.op op hargs ty) ty
  | none =>
    exact (does_pushStmt fun _ _ hs => moved_state (.op op hargs .unit) hs).andThen fun _ =>
      .pure rfl

section

variable {ev ev' : Expr → Eval Term} (hev : m.Evaluators ev ev')
include hev

lemma does_cond (args : List Expr) :
    m.Maps (Term.moved m.toMove) (cond ev args) (cond ev' (args.map (Expr.moved m.span))) := by
  rcases args with _ | ⟨test, _ | ⟨yes, _ | ⟨no, _ | ⟨e, rest⟩⟩⟩⟩
  · exact .fail rfl
  · exact .fail rfl
  · exact .fail rfl
  · refine (hev test).andThen fun test => ?_
    rw [Term.bool?_moved]
    -- The test is known in both runs or in neither.
    cases test.bool? with
    | some taken =>
      cases taken with
      | true => exact hev yes
      | false => exact hev no
    | none =>
      -- A test that is left for later has to be a truth value, as its type tells.
      have hbool : ((test.moved m.toMove).ty == .bool) = (test.ty == .bool) := by
        rw [Term.ty_moved]
        exact Ty.eq_moved m.faithful test.ty .bool
      have hrest : m.Maps (Term.moved m.toMove)
          (do
            let bodies ← branches [ev yes, ev no]
            finishSplit .cond (test :: ·) bodies)
          (do
            let bodies ← branches [ev' (yes.moved m.span), ev' (no.moved m.span)]
            finishSplit .cond (test.moved m.toMove :: ·) bodies) :=
        (does_branches (.cons (hev yes) (.cons (hev no) .nil))).bind fun bodies bodies' hb =>
          does_finishSplit .cond hb fun _ _ h => .cons (same_value test) h
      dsimp only
      rw [hbool]
      split
      · exact (Does.fail (congrArg Cause.condition (Term.ty_moved _ test))).bind
          fun _ _ (_ : True) => hrest
      · exact hrest
  · exact .fail (by simp [Cause.moved])

omit hev in
lemma caseArgs_alike (value : Term) (binders : List Var) {bodies bodies' : List Term}
    (h : List.Forall₂ m.Same bodies bodies') :
    List.Forall₂ m.Same (caseArgs value binders bodies)
      (caseArgs (value.moved m.toMove) (binders.map (Var.moved m.toMove)) bodies') := by
  refine .cons (same_value value) ?_
  induction h generalizing binders with
  | nil => cases binders <;> exact .nil
  | cons hbody _ ih =>
    cases binders with
    | nil => exact .nil
    | cons b rest => exact .cons (same_value (.var b)) (.cons hbody (ih rest))

lemma does_case (value f : Term) :
    m.Maps (Term.moved m.toMove) (case ev value f)
      (case ev' (value.moved m.toMove) (f.moved m.toMove)) := by
  -- A split by union member: the binders of the branches are moved with the value.
  have hsplit : ∀ v : Var, m.Maps (Term.moved m.toMove)
      (do
        let members ← unionMembers v.ty
        let binders ← members.mapM freshVar
        let bodies ← branches (binders.map fun b =>
          apply ev f (if b.ty.isUnit then .ofUnit b.ty else .var b))
        finishSplit .case (caseArgs (.var v) binders) bodies)
      (do
        let members ← unionMembers (v.ty.moved m.toMove)
        let binders ← members.mapM freshVar
        let bodies ← branches (binders.map fun b =>
          apply ev' (f.moved m.toMove) (if b.ty.isUnit then .ofUnit b.ty else .var b))
        finishSplit .case (caseArgs (.var (v.moved m.toMove)) binders) bodies) := by
    intro v
    refine (does_unionMembers v.ty).andThen fun members => ?_
    refine (Does.mapM_map fun t _ => does_freshVar t).andThen fun binders => ?_
    refine (does_branches ?_).bind fun bodies bodies' hb =>
      does_finishSplit .case hb fun _ _ h => caseArgs_alike (.var v) binders h
    rw [Branches, List.map_map, List.forall₂_map_left_iff, List.forall₂_map_right_iff]
    refine List.forall₂_same.2 fun b _ => ?_
    have harg : (if (b.moved m.toMove).ty.isUnit then .ofUnit (b.moved m.toMove).ty
        else .var (b.moved m.toMove) : Term) =
        (if b.ty.isUnit then .ofUnit b.ty else .var b : Term).moved m.toMove := by
      rw [Var.ty_moved, Ty.isUnit_moved, Term.ofUnit_moved]
      split <;> rfl
    dsimp only [Function.comp]
    rw [harg]
    exact does_apply hev f _
  -- All but the variables of a union are applied as they are.
  cases value with
  | box inner ty => exact does_apply hev f inner
  | var v =>
    obtain ⟨tag, ty⟩ := v
    cases ty with
    | union members => exact hsplit ⟨tag, .union members⟩
    | recur key => exact hsplit ⟨tag, .recur key⟩
    | _ => exact does_apply hev f _
  | _ => exact does_apply hev f _

omit hev in
lemma does_patternMiss (t : Term) :
    m.Maps (Term.moved m.toMove) (patternMiss t) (patternMiss (t.moved m.toMove)) := by
  refine does_getScope fun s s' hs => ?_
  rw [hs.dynamicDepth]
  split
  · exact .fail (congrArg Cause.noClause (Term.ty_moved _ t))
  · exact .pure rfl

/-! ### Requests for join points -/

omit hev in
lemma does_lookupAll (env : Env) (xs : List Name) :
    m.Maps (Fields.moved m.toMove) (lookupAll env xs) (lookupAll (env.moved m.toMove) xs) := by
  induction xs with
  | nil => exact .pure rfl
  | cons x rest ih =>
    rw [lookupAll, lookupAll, Env.get?_moved]
    cases env.get? x with
    | some t => exact ih.andThen fun others => .pure rfl
    | none => exact .fail rfl

/-- The argument of a closure, with other positions. -/
def movedArg (m : Comparison) (a : ClosureArg) : ClosureArg := ⟨a.name, a.dom.moved m.toMove⟩

/-- Captured values, with other positions. -/
def movedCaptured (m : Comparison) (c : Captured) : Captured :=
  { c with
    env := Fields.moved m.toMove c.env
    args := c.args.map (Var.moved m.toMove)
    params := c.params.map (Var.moved m.toMove)
    closureParam := c.closureParam.map (Var.moved m.toMove) }

omit hev in
lemma moves_renameCaptures (values : List (Name × Term)) (arg : Option ClosureArg) :
    Rename.Moves m.toMove
      (fun r : Fields Term × Option Var =>
        (Fields.moved m.toMove r.1, r.2.map (Var.moved m.toMove)))
      (renameCaptures values arg)
      (renameCaptures (Fields.moved m.toMove values) (arg.map m.movedArg)) := by
  have hvalue : ∀ e : Name × Term, Rename.Moves m.toMove
      (fun e : Name × Term => (e.1, e.2.moved m.toMove))
      (do return (e.1, ← Rename.term e.2)) (do return (e.1, ← Rename.term (e.2.moved m.toMove))) :=
    fun e => (Rename.moves_term m.faithful e.2).bind fun t => .pure rfl
  have hvalues : Rename.Moves m.toMove
      (List.map fun e : Name × Term => (e.1, e.2.moved m.toMove))
      (values.mapM fun e => do return (e.1, ← Rename.term e.2))
      ((Fields.moved m.toMove values).mapM fun e => do return (e.1, ← Rename.term e.2)) :=
    Rename.Moves.mapM (fun e => hvalue e) values
  refine hvalues.bind fun captures => ?_
  cases arg with
  | none =>
    refine .pure ?_
    rw [Fields.ofList_map]
    rfl
  -- The argument comes after all captures.
  | some a =>
    obtain ⟨x, dom⟩ := a
    refine (Rename.moves_freshVar dom).bind fun v => .pure ?_
    have hvalue : (if (dom.moved m.toMove).isUnit then .ofUnit (dom.moved m.toMove)
        else .var (v.moved m.toMove) : Term) =
        (if dom.isUnit then .ofUnit dom else .var v : Term).moved m.toMove := by
      rw [Ty.isUnit_moved, Term.ofUnit_moved]
      split <;> rfl
    dsimp only [movedArg]
    rw [hvalue, Option.map_some, Fields.moved, ← Fields.ofList_map, List.map_append]
    rfl

omit hev in
lemma does_setEnvs (envs : EnvTable) : m.Maps id (modifySession fun s => { s with envs })
    (modifySession fun s => { s with envs := envs.moved m.toMove }) :=
  does_modifySession fun _ _ hs => { hs with envs := rfl }

omit hev in
lemma does_capture (env : Env) (body : Expr) (arg : Option ClosureArg) :
    m.Maps m.movedCaptured (capture env body arg)
      (capture (env.moved m.toMove) (body.moved m.span) (arg.map m.movedArg)) := by
  refine (does_build (Build.moves_freeNames body)).andThen fun free => ?_
  have hfree : (free.filter fun x => !(arg.map m.movedArg).any fun a => a.name == x) =
      free.filter fun x => !arg.any fun a => a.name == x := by
    cases arg <;> rfl
  rw [id, hfree]
  refine (does_lookupAll env _).andThen fun values => ?_
  refine (does_rename (fun _ => rfl) (moves_renameCaptures values arg)).andThen fun r => ?_
  obtain ⟨⟨captures, closureParam⟩, r⟩ := r
  have henter := EnvTable.enter_moved m.faithful r.envs captures
  dsimp only [Renaming.moved]
  rw [henter]
  exact (does_setEnvs (r.envs.enter captures).2).andThen fun _ => .pure rfl

omit hev in
lemma does_request (env : Env) (body : Expr) (arg : Option ClosureArg) :
    m.Maps (fun r : Key × Captured => (r.1, m.movedCaptured r.2)) (request env body arg)
      (request (env.moved m.toMove) (body.moved m.span) (arg.map m.movedArg)) := by
  refine (does_capture env body arg).andThen fun captured => ?_
  have hkey : m.Maps id
      (modifyGet fun w : World =>
        let r := w.session.enterKey ⟨body, captured.envSymbol, captured.env⟩
        (r.1, { w with session := r.2 }))
      (modifyGet fun w : World =>
        let r := w.session.enterKey ⟨body.moved m.span,
          (m.movedCaptured captured).envSymbol, (m.movedCaptured captured).env⟩
        (r.1, { w with session := r.2 })) := by
    intro w w' hw
    have hintern := Interner.intern_map (KeyData.beq_moved m.toMove) w.session.keys
      ⟨body, captured.envSymbol, captured.env⟩
    rw [← hw.session.keys, KeyData.moved] at hintern
    refine ⟨.ok ?_, { hw.session with keys := ?_ }, hw.scope⟩
    · exact congrArg (fun r => Key.mk r.1.symbol) hintern
    · exact congrArg Prod.snd hintern
  exact hkey.andThen fun key => .pure rfl

/-- What a call of a join point needs, with other positions. -/
def movedSpecialized (m : Comparison) (spec : Specialized) : Specialized :=
  ⟨spec.key, spec.args.map (Var.moved m.toMove), spec.ty.moved m.toMove⟩

omit hev in
lemma does_reuse (p : Point) (args : List Var) {progress progress' : Progress}
    (h : m.Progresses progress progress') :
    m.Maps m.movedSpecialized (reuse p args progress)
      (reuse p (args.map (Var.moved m.toMove)) progress') := by
  cases h with
  | done hb =>
    refine (does_modifyStats _).andThen fun _ => .pure ?_
    rw [hb.ty]
    rfl
  | pending ty =>
    cases ty with
    | some ty => exact (does_modifyStats _).andThen fun _ => .pure rfl
    | none =>
      refine (does_modifyStats _).andThen fun _ => ?_
      split
      · exact .pure rfl
      · exact does_getScope fun s s' hs => .throw (.failed ⟨rfl, hs.trace, rfl⟩)

/-! ### Bodies of join points -/

omit hev in
lemma does_expectedType (p : Point) :
    m.Maps (Option.map (Ty.moved m.toMove)) (expectedType p) (expectedType p) := by
  refine does_getSession fun s s' hs => ?_
  have hfind := hs.find? p
  generalize s.find? p = e at hfind
  generalize s'.find? p = e' at hfind
  cases hfind with
  | none => exact .pure rfl
  | @some e e' he =>
    obtain ⟨progress, trace⟩ := e
    obtain ⟨progress', trace'⟩ := e'
    obtain ⟨hp, -⟩ := he
    cases hp with
    | pending ty => exact .pure rfl
    | done hb => exact .pure rfl

omit hev in
lemma does_checkKernel (p : Point) (a : Ty) :
    m.Maps id
      (if p.kind = .kernel ∧ !a.isUnit then fail (.kernelResult a) else pure () : Eval Unit)
      (if p.kind = .kernel ∧ !(a.moved m.toMove).isUnit then fail (.kernelResult (a.moved m.toMove))
        else pure ()) := by
  rw [Ty.isUnit_moved]
  split
  · exact .fail rfl
  · exact .pure rfl

omit hev in
/-- What is checked of the type of a body. -/
lemma does_checkType (p : Point) (a : Ty) :
    m.Maps id
      (do
        match ← expectedType p with
        | some expected => if !(expected == a) then fail (.pointResult p.kind expected a)
        | none => pure ()
        if p.kind = .kernel ∧ !a.isUnit then fail (.kernelResult a) : Eval Unit)
      (do
        match ← expectedType p with
        | some expected =>
          if !(expected == a.moved m.toMove) then
            fail (.pointResult p.kind expected (a.moved m.toMove))
        | none => pure ()
        if p.kind = .kernel ∧ !(a.moved m.toMove).isUnit then
          fail (.kernelResult (a.moved m.toMove))) := by
  refine (does_expectedType p).andThen fun expected => ?_
  cases expected with
  | none => exact does_checkKernel p a
  | some expected =>
    dsimp only [Option.map_some]
    rw [Ty.eq_moved m.faithful]
    split
    · exact Does.bind (R := fun _ _ => False) (.fail rfl) fun _ _ h => h.elim
    · exact does_checkKernel p a

omit hev in
lemma does_checkBody (p : Point) {term term' : Term} (h : m.Code term term') :
    m.Maps id (checkBody p term) (checkBody p term') := by
  unfold checkBody
  rw [h.same.endsInMiss, h.ty]
  dsimp only
  split
  · exact Does.bind (R := fun _ _ => False) (.fail rfl) fun _ _ h => h.elim
  · exact does_checkType p term.ty

omit hev in
lemma Worlds.atBody {w w' : World} (hw : m.Worlds w w') (p : Point) (captured : Captured)
    (annot : Option Ty) :
    m.Worlds (w.atBody p captured annot)
      (w'.atBody p (m.movedCaptured captured) (annot.map (Ty.moved m.toMove))) := by
  refine ⟨{ hw.session with
    points := hw.session.points.insert p ⟨.pending annot, hw.scope.trace⟩
    depth := congrArg (· + 1) hw.session.depth }, ?_, rfl, rfl, rfl, hw.scope.trace, rfl, rfl⟩
  change Env.consed _ _ = Env.moved _ (.consed _ _)
  rw [Env.moved, Env.movedFields_eq]
  rfl

omit hev in
lemma Worlds.abandon {w w' v v' : World} (hw : m.Worlds w w') (hv : m.Worlds v v') (p : Point) :
    m.Worlds ((v.setScope w.scope).abandon p) ((v'.setScope w'.scope).abandon p) :=
  ⟨{ hv.session with
      points := hv.session.points.erase p
      depth := congrArg (· - 1) hv.session.depth }, hw.scope⟩

omit hev in
lemma code_bodyTerm {w w' : World} (hw : m.Worlds w w') (p : Point) (value : Term) :
    m.Code (w.bodyTerm p value) (w'.bodyTerm p (value.moved m.toMove)) := by
  unfold World.bodyTerm
  split
  · rw [Term.ty_moved]
    exact code_value (.type value.ty)
  · exact .close hw.scope.stmts value

omit hev in
lemma bodyTy_alike (p : Point) {term term' : Term} (h : m.Code term term') :
    p.bodyTy term' = (p.bodyTy term).moved m.toMove := by
  unfold Point.bodyTy
  rw [h.ty, Ty.mentions_moved]
  split <;> rfl

omit hev in
lemma Worlds.complete {w w' v v' : World} (hw : m.Worlds w w') (hv : m.Worlds v v') (p : Point)
    {term term' : Term} (h : m.Code term term') (captured : Captured) :
    m.Worlds ((v.setScope w.scope).complete p term captured)
      ((v'.setScope w'.scope).complete p term' (m.movedCaptured captured)) := by
  refine ⟨{ hv.session with
    points := hv.session.points.setProgress p (.done ⟨h, bodyTy_alike p h, rfl, rfl⟩)
    recTypes := ?_
    finished := congrArg (· ++ [p]) hv.session.finished
    stats := congrArg (fun stats => { stats with bodies := stats.bodies + 1 }) hv.session.stats
    depth := congrArg (· - 1) hv.session.depth }, hw.scope⟩
  dsimp only [World.complete, World.setScope]
  rw [h.ty, Ty.mentions_moved, hv.session.recTypes]
  split
  · rw [List.map_cons, List.filter_map]
    rfl
  · rfl

lemma does_specializeNew (p : Point) (body : Expr) (captured : Captured) (annot : Option Ty) :
    m.Maps (Ty.moved m.toMove) (specializeNew ev p body captured annot)
      (specializeNew ev' p (body.moved m.span) (m.movedCaptured captured)
        (annot.map (Ty.moved m.toMove))) := by
  intro w w' hw
  have hlimit : w'.session.settings.maxDepth = w.session.settings.maxDepth := by
    rw [hw.session.settings]
  rw [exec_specializeNew, exec_specializeNew, hlimit, hw.session.depth]
  split
  · have hfail : m.Maps (Ty.moved m.toMove) (fail (.tooDeep w.session.settings.maxDepth))
        (fail (.tooDeep w.session.settings.maxDepth)) := .fail rfl
    exact hfail w w' hw
  · obtain ⟨hout, hworlds⟩ := hev body _ _ (hw.atBody p captured annot)
    generalize exec (ev body) (w.atBody p captured annot) = x at hout hworlds
    generalize exec (ev' (body.moved m.span)) (w'.atBody p (m.movedCaptured captured)
      (annot.map (Ty.moved m.toMove))) = x' at hout hworlds
    obtain ⟨r, v⟩ := x
    obtain ⟨r', v'⟩ := x'
    cases hout with
    | error h => exact ⟨.error h, hw.abandon hworlds p⟩
    | @ok a b hab =>
      subst hab
      have hcode := code_bodyTerm hworlds p a
      obtain ⟨hcheck, -⟩ := does_checkBody p hcode (v.setScope w.scope) (v'.setScope w'.scope)
        ⟨hworlds.session, hw.scope⟩
      dsimp only
      generalize (exec (checkBody p (v.bodyTerm p a)) (v.setScope w.scope)).1 = c at hcheck
      generalize (exec (checkBody p (v'.bodyTerm p (a.moved m.toMove)))
        (v'.setScope w'.scope)).1 = c' at hcheck
      cases hcheck with
      | error h => exact ⟨.error h, hw.abandon hworlds p⟩
      | ok _ => exact ⟨.ok (bodyTy_alike p hcode), hw.complete hworlds p hcode captured⟩

lemma does_specialize (env : Env) (kind : PointKind) (body : Expr) (annot : Option Ty)
    (arg : Option ClosureArg) :
    m.Maps m.movedSpecialized (specialize ev env kind body annot arg)
      (specialize ev' (env.moved m.toMove) kind (body.moved m.span)
        (annot.map (Ty.moved m.toMove)) (arg.map m.movedArg)) := by
  refine (does_request env body arg).andThen fun r => does_getSession fun s s' hs => ?_
  obtain ⟨key, captured⟩ := r
  dsimp only
  have hfind := hs.find? ⟨kind, key⟩
  generalize s.find? ⟨kind, key⟩ = e at hfind
  generalize s'.find? ⟨kind, key⟩ = e' at hfind
  cases hfind with
  | some he => exact does_reuse _ captured.args he.progress
  | none => exact (does_specializeNew hev _ body captured annot).andThen fun ty => .pure rfl

omit hev in
lemma same_call (key : Key) (kind : PointKind) (args : List Var) (ty : Ty) :
    m.Same (.call key kind args ty)
      (.call key kind (args.map (Var.moved m.toMove)) (ty.moved m.toMove)) := by
  have h := same_value (m := m) (.call key kind args ty)
  rwa [Term.moved, Var.movedAll_eq] at h

lemma does_enterPoint (op : EntryOp) (body : Expr) (annot : Option Ty) :
    m.Maps (Term.moved m.toMove) (enterPoint ev op body annot)
      (enterPoint ev' op (body.moved m.span) (annot.map (Ty.moved m.toMove))) := by
  refine does_getScope fun s s' hs => ?_
  rw [hs.env]
  refine (does_specialize hev s.env op.kind body annot none).andThen fun spec => ?_
  split
  · exact .pure rfl
  · exact does_bindResult (same_call spec.key op.kind spec.args spec.ty) spec.ty

lemma does_closureOf (f : Term) (dom : Ty) (range : Option Ty) :
    m.Maps (Term.moved m.toMove) (closureOf ev f dom range)
      (closureOf ev' (f.moved m.toMove) (dom.moved m.toMove)
        (range.map (Ty.moved m.toMove))) := by
  -- What is specialized, once the function is known.
  have hmain : ∀ (env : Env) (param : Name) (body : Expr), m.Maps (Term.moved m.toMove)
      (do
        let spec ← specialize ev env .closure body range (some ⟨param, dom⟩)
        bindResult (.call spec.key .closure spec.args (.closure dom spec.ty))
          (.closure dom spec.ty))
      (do
        let spec ← specialize ev' (env.moved m.toMove) .closure (body.moved m.span)
          (range.map (Ty.moved m.toMove)) (some ⟨param, dom.moved m.toMove⟩)
        bindResult (.call spec.key .closure spec.args (.closure (dom.moved m.toMove) spec.ty))
          (.closure (dom.moved m.toMove) spec.ty)) := by
    intro env param body
    refine (does_specialize hev env .closure body range (some ⟨param, dom⟩)).andThen
      fun spec => ?_
    exact does_bindResult (same_call spec.key .closure spec.args (.closure dom spec.ty))
      (.closure dom spec.ty)
  -- What is no function fails in both runs before anything is specialized.
  have hfail : ∀ {rest rest' : Env × Name × Expr → Eval Term}, m.Maps (Term.moved m.toMove)
      (do
        let r ← fail (.notCallable f.ty)
        rest r)
      (do
        let r ← fail (.notCallable (f.moved m.toMove).ty)
        rest' r) :=
    Does.bind (R := fun _ _ => False) (.fail (congrArg Cause.notCallable (Term.ty_moved _ f)))
      fun _ _ h => h.elim
  cases f with
  | map env kind =>
    cases kind with
    | function param body => exact hmain env param body
    | recFunction this param body =>
      have h := hmain (env.bind this (.map env (.recFunction this param body))) param body
      rwa [Env.bind_moved] at h
    | module => exact hfail
  | _ => exact hfail

lemma does_closureOp (args : List Term) :
    m.Maps (Term.moved m.toMove) (closureOp ev args)
      (closureOp ev' (args.map (Term.moved m.toMove))) := by
  have hthree : m.Maps (Term.moved m.toMove)
      (operands₃ .closure args >>= fun r => closureOf ev r.1 r.2.1.ty (some r.2.2.ty))
      (operands₃ .closure (args.map (Term.moved m.toMove)) >>= fun r =>
        closureOf ev' r.1 r.2.1.ty (some r.2.2.ty)) := by
    refine (does_operands₃ _ args).andThen fun r => ?_
    dsimp only
    rw [Term.ty_moved, Term.ty_moved]
    exact does_closureOf hev r.1 r.2.1.ty (some r.2.2.ty)
  rcases args with _ | ⟨f, _ | ⟨dom, _ | ⟨range, rest⟩⟩⟩
  · exact hthree
  · exact hthree
  · have h := does_closureOf hev f dom.ty none
    rw [← Term.ty_moved] at h
    exact h
  · exact hthree

/-! ### Steps -/

omit hev in
lemma does_close (used : Captures) (kind : MapKind) :
    m.Maps (Term.moved m.toMove) (close used kind) (close used (kind.moved m.toMove)) := by
  refine does_getScope fun s s' hs => .pure ?_
  rw [hs.env, Env.visible_moved, Term.moved, Env.moved, Env.movedFields_eq]

lemma does_annotate (args : List Expr) :
    m.Maps (Term.moved m.toMove) (annotate ev args)
      (annotate ev' (args.map (Expr.moved m.span))) := by
  rcases args with _ | ⟨value, _ | ⟨annot, _ | ⟨e, rest⟩⟩⟩
  · exact .fail rfl
  · exact .fail rfl
  · -- The value is evaluated before its declared type, unless it is a method join point.
    have hplain : m.Maps (Term.moved m.toMove)
        (do
          let value ← ev value
          let annot ← ev annot
          if value.ty == annot.ty then return value else fail (.declared annot.ty value.ty))
        (do
          let value ← ev' (value.moved m.span)
          let annot ← ev' (annot.moved m.span)
          if value.ty == annot.ty then return value else fail (.declared annot.ty value.ty)) := by
      refine (hev value).andThen fun value => (hev annot).andThen fun annot => ?_
      rw [Term.ty_moved, Term.ty_moved, Ty.eq_moved m.faithful]
      split
      · exact .pure rfl
      · exact .fail rfl
    rw [List.map_cons, List.map_cons, List.map_nil]
    unfold annotate
    dsimp only
    rw [Expr.unwrapPos_moved]
    generalize value.unwrapPos = u
    obtain ⟨symbol, kind⟩ := u
    cases kind with
    | op o inner =>
      cases o with
      | entry entry =>
        cases entry with
        | method =>
          dsimp only [Expr.moved, ExprKind.moved]
          rw [Expr.movedAll_eq]
          rcases inner with _ | ⟨body, _ | ⟨e, rest⟩⟩
          · exact .fail rfl
          · refine (hev annot).andThen fun annot => ?_
            rw [Term.ty_moved]
            exact does_enterPoint hev .method body (some annot.ty)
          · exact .fail (by simp [Cause.moved])
        | _ => exact hplain
      | _ => exact hplain
    | _ => exact hplain
  · exact .fail (by simp [Cause.moved])

omit hev in
lemma does_raise (t : Term) :
    m.Maps (Term.moved m.toMove) (raise t) (raise (t.moved m.toMove)) := by
  unfold raise
  rw [Term.string?_moved]
  cases t.string? with
  | some s => exact .fail rfl
  | none => exact .fail (congrArg (fun ty => Cause.raised (.type ty)) (Term.ty_moved _ t))

lemma does_evalOp (op : Op) (args : List Expr) :
    m.Maps (Term.moved m.toMove) (evalOp ev op args)
      (evalOp ev' op (args.map (Expr.moved m.span))) := by
  have hargs : m.Maps (List.map (Term.moved m.toMove)) (args.mapM ev)
      ((args.map (Expr.moved m.span)).mapM ev') := Does.mapM_map fun e _ => hev e
  cases op with
  | cond => exact does_cond hev args
  | annotate => exact does_annotate hev args
  | entry entry =>
    rcases args with _ | ⟨body, _ | ⟨e, rest⟩⟩
    · exact .fail rfl
    · exact does_enterPoint hev entry body none
    · exact .fail (by simp [Cause.moved])
  | apply =>
    exact hargs.andThen fun ts => (does_operands₂ _ ts).andThen fun r => does_apply hev r.1 r.2
  | case =>
    exact hargs.andThen fun ts => (does_operands₂ _ ts).andThen fun r => does_case hev r.1 r.2
  | dynamize => exact hargs.andThen fun ts => (does_operand _ ts).andThen does_toRuntime
  | patternMiss => exact hargs.andThen fun ts => (does_operand _ ts).andThen does_patternMiss
  | errorType => exact hargs.andThen fun ts => (does_operand _ ts).andThen does_raise
  | closure => exact hargs.andThen (does_closureOp hev)
  | prim op => exact hargs.andThen (does_primOp op)
  | tuple op => exact hargs.andThen (does_tupleOp op)
  | module op => exact hargs.andThen (does_moduleOp hev op)
  | layout op => exact hargs.andThen (does_layoutOp op)
  | array op => exact hargs.andThen (does_arrayOp op)
  | type op => exact hargs.andThen (does_typeOp op)
  | foreign target => exact hargs.andThen (does_foreignOp target)

/-- The only step that looks at a position. -/
lemma does_pos (span span' : Span) (e : Expr) :
    m.Maps (Term.moved m.toMove)
      (do if (← getSession).settings.traces then withSpan span (ev e) else ev e)
      (do
        if (← getSession).settings.traces then withSpan span' (ev' (e.moved m.span))
        else ev' (e.moved m.span)) := by
  refine does_getSession fun s s' hs => ?_
  rcases hs.quiet with hblind | ⟨hoff, hoff'⟩
  · obtain ⟨hboth, hfirst, hsecond⟩ := does_withSpan hblind (hev e) span span'
    cases s.settings.traces <;> cases s'.settings.traces
    · exact hev e
    · exact hsecond
    · exact hfirst
    · exact hboth
  · rw [hoff, hoff']
    exact hev e

lemma does_step (e : Expr) :
    m.Maps (Term.moved m.toMove) (step ev e) (step ev' (e.moved m.span)) := by
  obtain ⟨symbol, kind⟩ := e
  cases kind with
  | var x =>
    refine does_getScope fun s s' hs => ?_
    rw [hs.env, Env.get?_moved]
    cases s.env.get? x with
    | some t => exact .pure rfl
    | none => exact .fail rfl
  | lit l => exact .pure rfl
  | pattern p => exact (does_build (Build.moves_lowerPattern p)).andThen hev
  | function param body =>
    exact (does_build (Build.moves_freeNameSet (.node symbol (.function param body)))).andThen
      fun used => does_close used (.function param body)
  | filtered used param body => exact does_close used (.function param body)
  | recFunction this param body =>
    exact (does_build (Build.moves_freeNameSet
      (.node symbol (.recFunction this param body)))).andThen
      fun used => does_close used (.recFunction this param body)
  | tuple items =>
    rw [Expr.moved, ExprKind.moved, Expr.movedAll_eq]
    refine (Does.mapM_map fun e _ => hev e).andThen fun items => .pure ?_
    rw [Term.moved, Term.movedAll_eq]
  | op o args =>
    rw [Expr.moved, ExprKind.moved, Expr.movedAll_eq]
    exact does_evalOp hev o args
  | pos span e => exact does_pos hev span (m.span span) e

end

/-- Evaluation does the same with other positions. -/
theorem does_eval (m : Comparison) (fuel : Nat) : m.Evaluators (eval fuel) (eval fuel) := by
  induction fuel with
  | zero => exact fun _ => .throw .outOfFuel
  | succ fuel ih => exact fun e => does_step ih e

end Residual.Comparison
