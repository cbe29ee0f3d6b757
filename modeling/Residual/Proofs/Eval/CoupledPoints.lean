import Residual.Proofs.Eval.CoupledParts

/-!
Coupled runs request and evaluate join points alike.

The free names of a body say what it captures. So requests from environments that agree on them
have one key, and the body is evaluated for captures that belong together again. What is captured
has to be admitted.
-/

namespace Residual

namespace Coupling

open Eval
open Region (lax)

variable {c : Coupling} {Γ Δ : List Stmt} {p q r : Runs} {g g' : Ground}
  {ev ev' : Expr → Eval Term} {evs : List Stmt → Expr → Eval Term}

/-! ### Requests -/

/-- The values of the given names, where each is bound to akin values or not at all. -/
lemma paired_lookupAll {d e : Env} {names : List Name}
    (h : ∀ x ∈ names, Option.Rel p.Kin (d.get? x) (e.get? x)) :
    c.Paired Γ p (lookupAll d names) (lookupAll e names) fun q m n => q.KinFields m n ∧
      m.map Prod.fst = names := by
  induction names generalizing p with
  | nil => exact .pure ⟨.nil, rfl⟩
  | cons x rest ih =>
    obtain ⟨hx, hrest⟩ := List.forall_mem_cons.1 h
    rw [lookupAll, lookupAll]
    generalize d.get? x = found at hx
    generalize e.get? x = found' at hx
    cases hx with
    | none => exact .fail rfl
    | some hst =>
      exact (ih hrest).bind fun _ _ q hq hvalues =>
        .pure ⟨.cons ⟨rfl, hq.kin hst⟩ hvalues.1, congrArg (x :: ·) hvalues.2⟩

lemma argNames_eq {arg arg' : Option ClosureArg} (h : Option.Rel p.SameArg arg arg')
    (names : List Name) :
    (names.filter fun x => !arg.any fun a => a.name == x) =
      names.filter fun x => !arg'.any fun a => a.name == x := by
  cases h with
  | none => rfl
  | some h =>
    simp only [Option.any_some]
    rw [h.1]

lemma sameFields_of_kin {m n : Fields Term} (h : p.KinFields m n)
    (hm : ∀ e ∈ m, lax.Value p.left e.2) (hn : ∀ e ∈ n, lax.Value p.right e.2) :
    p.SameFields m n := by
  induction h with
  | nil => exact .nil
  | cons hde _ ih =>
    obtain ⟨hd, hm⟩ := List.forall_mem_cons.1 hm
    obtain ⟨he, hn⟩ := List.forall_mem_cons.1 hn
    exact .cons ⟨hde.1, hde.2, hd, he⟩ (ih hm hn)

section Laws

variable (hc : c.Laws)
include hc

/-- What a body captures. -/
lemma together_captures {d e : Env} {kind kind' : MapKind} (hd : lax.Value p.left (.map d kind))
    (he : lax.Value p.right (.map e kind')) {body : Expr} (hbody : p.Reads d e body)
    {arg arg' : Option ClosureArg} (harg : Option.Rel p.SameArg arg arg') :
    c.Together Γ p (captures d body arg) (captures e body arg') fun q m n => q.SameFields m n ∧
      (m.map Prod.fst).Nodup ∧ ∀ a ∈ arg, a.name ∉ m.map Prod.fst := by
  refine .given fun hp => ?_
  have hsorted := hbody.sorted hp.left.session.store
  refine Together.bind (hc.build (P := fun _ names => body.Listed → ∀ x, x ∈ names ↔ body.Free x)
    (Build.does_freeNames fun _ => hsorted) fun t ht => Build.enters_freeNames (hbody.held.mono ht))
    ?_
  rintro names _ q hq ⟨rfl, hnodup, hnames⟩
  have hget := (hbody.mono hq.toGrows).get? hd.formed.1.ascending he.formed.1.ascending hnames
  have harg' : Option.Rel q.SameArg arg arg' :=
    optionRel_imp (fun _ _ h => ⟨h.1, h.2.mono hq⟩) harg
  rw [argNames_eq harg']
  refine (Together.of_paired (paired_lookupAll fun x hx => hget x (List.mem_filter.1 hx).1)
    (Region.does_lookupAll (hd.mono hq.left) _) (Region.does_lookupAll (he.mono hq.right) _)).imp ?_
  rintro r m n - ⟨⟨hkin, hfst⟩, hm, hn⟩
  refine ⟨sameFields_of_kin hkin hm hn, ?_, fun a ha hmem => ?_⟩
  · rw [hfst]
    exact (hnodup trivial).filter _
  · rw [hfst, ← argNames_eq harg'] at hmem
    have hkeep := (List.mem_filter.1 hmem).2
    rw [Option.mem_def.1 ha] at hkeep
    simp at hkeep

lemma matches_request {d e : Env} {kind kind' : MapKind} (hd : lax.Value p.left (.map d kind))
    (he : lax.Value p.right (.map e kind')) {body : Expr} (hbody : p.Reads d e body)
    {arg arg' : Option ClosureArg} (harg : Option.Rel p.SameArg arg arg')
    (hadmits : ∀ values v, exec (captures e body arg') p.right = (.ok values, v) →
      c.admits (Γ ++ v.scope.stmts) values = true) :
    c.Matches Γ p (request d body arg) (request e body arg') c.Requests := by
  rw [request_eq, request_eq]
  refine Together.bind_matches (Moves.ran (together_captures hc hd he hbody harg))
    fun m n q hq ⟨⟨hmn, hnodup, hfresh⟩, hrun⟩ => ?_
  exact hc.entered hmn hnodup (optionRel_imp (fun _ _ h => ⟨h.1, h.2.mono hq⟩) harg) hfresh
    (hadmits n _ hrun)

/-- What a call needs, alike. -/
structure Calls (p : Runs) (s s' : Specialized) : Prop where
  key : s.key = s'.key
  args : List.Forall₂ p.KinVar s.args s'.args
  ty : p.Tys s.ty s'.ty

omit hc in
/-- Other counts change alike. -/
lemma paired_modifyStats (f : Stats → Stats)
    (hf : ∀ (s : Stats) (n : Nat), f { s with sharingHits := n } = { f s with sharingHits := n }) :
    c.Paired Γ p (modifyStats f) (modifyStats f) fun _ _ _ => True := by
  have hhits : ∀ s : Stats, (f s).sharingHits = s.sharingHits := by
    intro s
    have hset := congrArg Stats.sharingHits (hf s s.sharingHits)
    exact hset
  refine Paired.of_exec (q := ⟨p.tags, p.left.setStats (f p.left.session.stats),
    p.right.setStats (f p.right.session.stats)⟩) (exec_modifyStats f _) (exec_modifyStats f _)
    fun hp => ⟨⟨le_refl _, .refl _⟩,
      ⟨{ hp.session with counts := ?_, rest := ?_ }, hp.scope⟩, trivial⟩
  · change ({ f p.left.session.stats with sharingHits := 0 } : Stats) =
      { f p.right.session.stats with sharingHits := 0 }
    rw [← hf, ← hf, hp.session.counts]
  · have htables : ∀ w : World, (w.setStats (f w.session.stats)).session.tables =
        w.session.tables := fun w => congrArg (Session.Tables.mk _ _ _) (hhits _)
    rw [htables, htables]
    exact hp.session.rest

omit hc in
lemma paired_reuse {point : Point} {args args' : List Var} (h : List.Forall₂ p.KinVar args args')
    {d e : Entry} (hde : d.Coupled c.exact p.held e) :
    c.Paired Γ p (reuse point args d.progress) (reuse point args' e.progress) Calls := by
  obtain ⟨progress, trace⟩ := d
  obtain ⟨progress', trace'⟩ := e
  obtain ⟨hprogress, -⟩ := hde
  dsimp only at hprogress
  unfold reuse
  cases hprogress with
  | done hbody =>
    refine (paired_modifyStats _ ?_).bind fun _ _ q hq _ =>
      .pure ⟨rfl, h.imp fun _ _ => hq.kinVar, hq.tys hbody.ty⟩
    exact fun _ _ => rfl
  | pending hty =>
    cases hty with
    | some hty =>
      refine (paired_modifyStats _ ?_).bind fun _ _ q hq _ =>
        .pure ⟨rfl, h.imp fun _ _ => hq.kinVar, hq.tys hty⟩
      exact fun _ _ => rfl
    | none =>
      refine (paired_modifyStats _ ?_).bind fun _ _ q hq _ => ?_
      · exact fun _ _ => rfl
      split
      · exact .pure ⟨rfl, h.imp fun _ _ => hq.kinVar, .refl fun _ hk => absurd hk List.not_mem_nil⟩
      · refine .given fun hlinked => .getScope (Paired.throw ?_)
        rw [Stop.canon, Stop.canon, Fault.canon, Fault.canon, hlinked.scope.trace]

/-! ### Bodies -/

lemma bodyTerm_coupled (hp : c.Linked Γ p) (point : Point) {a b : Term} (h : p.Kin a b) :
    (p.left.bodyTerm point a).Coupled c.exact p.held (p.right.bodyTerm point b) := by
  unfold World.bodyTerm
  split
  · exact ⟨h.ty, rfl, fun _ => congrArg Term.type h.ty.same⟩
  · refine ⟨?_, ?_, fun hexact => ?_⟩
    · rw [Stmt.ty_close, Stmt.ty_close]
      exact h.ty
    · rw [Stmt.endsInMiss_close, Stmt.endsInMiss_close, h.endsInMiss]
    · have hstmts : p.left.scope.stmts.map Stmt.canon = p.right.scope.stmts.map Stmt.canon :=
        hc.exact_stmts hexact hp.scope.rest
      rw [Stmt.canon_close, Stmt.canon_close, hc.kin_canon hp h hexact, hstmts]

omit hc in
/-- The type that is promised is the same on both sides. -/
lemma paired_expectedType {point : Point}
    (hl : ∀ e ∈ p.left.session.points, e.2.progress.Sound g)
    (hr : ∀ e ∈ p.right.session.points, e.2.progress.Sound g') :
    c.Paired Γ p (expectedType point) (expectedType point) fun q s t =>
      Option.Rel (fun s t => q.Tys s t ∧ s.Sound g ∧ t.Sound g') s t := by
  refine .given fun hp => .getSession ?_
  have hfind := hp.session.points.get? point
  rw [Session.find?, Session.find?]
  cases hd : p.left.session.points.get? point with
  -- The join point is in both tables or in neither, and at the same stage.
  | none =>
    rw [hd] at hfind
    generalize p.right.session.points.get? point = found at hfind
    cases hfind
    exact Paired.pure .none
  | some d =>
    have hsound := hl _ (Discipline.mem_of_find? hd)
    cases he : p.right.session.points.get? point with
    | none =>
      rw [hd, he] at hfind
      cases hfind
    | some e =>
      have hsound' := hr _ (Discipline.mem_of_find? he)
      rw [hd, he] at hfind
      cases hfind with
      | some hde =>
        obtain ⟨progress, trace⟩ := d
        obtain ⟨progress', trace'⟩ := e
        obtain ⟨hprogress, -⟩ := hde
        dsimp only at hprogress hsound hsound'
        cases hprogress with
        | done => exact Paired.pure .none
        | pending hty =>
          cases hty with
          | none => exact Paired.pure .none
          | some hty => exact Paired.pure (.some ⟨hty, hsound, hsound'⟩)

omit hc in
lemma paired_checkKernel {point : Point} {s t : Ty} (hty : p.Tys s t) :
    c.Paired Γ p (if point.kind = .kernel ∧ !s.isUnit then fail (.kernelResult s) else pure ())
      (if point.kind = .kernel ∧ !t.isUnit then fail (.kernelResult t) else pure ())
      fun _ _ _ => True := by
  rw [hty.isUnit]
  split
  · exact .fail (congrArg Cause.kernelResult hty.same)
  · exact .pure trivial

omit hc in
lemma paired_checkBody {point : Point} {a b : Term} (h : a.Coupled c.exact p.held b)
    (ha : a.ty.Sound g) (hb : b.ty.Sound g')
    (hl : ∀ e ∈ p.left.session.points, e.2.progress.Sound g)
    (hr : ∀ e ∈ p.right.session.points, e.2.progress.Sound g') :
    c.Paired Γ p (checkBody point a) (checkBody point b) fun _ _ _ => True := by
  unfold checkBody
  rw [h.miss]
  dsimp only
  split
  · exact Paired.bind (R := fun _ _ _ => False) (.fail rfl) fun _ _ _ _ h => h.elim
  · refine (paired_expectedType hl hr).bind fun s t q hq hst => ?_
    have hty := hq.tys h.ty
    cases hst with
    | none => exact paired_checkKernel hty
    | some hst =>
      obtain ⟨hst, hs, ht⟩ := hst
      dsimp only
      rw [Ty.beq_of_canon hs ha ht hb hst.same hty.same]
      split
      · exact Paired.bind (R := fun _ _ _ => False)
          (.fail (congrArg₂ (Cause.pointResult point.kind) hst.same hty.same))
          fun _ _ _ _ h => h.elim
      · exact paired_checkKernel hty

/-- Both runs enter the body of a join point, of whose captures `T` is known. -/
abbrev atBody (p : Runs) (T : Tagging) (point : Point) (r r' : Captured)
    (annot annot' : Option Ty) : Runs :=
  ⟨T, p.left.atBody point r annot, p.right.atBody point r' annot'⟩

/-- Both runs return to their scopes. -/
abbrev back (p q : Runs) : Runs :=
  ⟨p.tags, q.left.setScope p.left.scope, q.right.setScope p.right.scope⟩

omit hc in
lemma alike_atBody (hp : c.Alike Γ p) {point : Point} {T : Tagging} {r r' : Captured}
    (hscope : c.Scopes [] p.left.session.store T (.start r.tags) (.start r'.tags))
    (hl : lax.Captures p.left r) (hr : lax.Captures p.right r') {annot annot' : Option Ty}
    (hannot : Option.Rel p.SameTy annot annot') :
    c.Alike [] (atBody p T point r r' annot annot') := by
  refine ⟨⟨{ hp.session with
    points := .cons ⟨rfl, .pending (optionRel_imp (fun _ _ h => h.twin) hannot), hp.scope.trace⟩
      hp.session.points
    depth := congrArg (· + 1) hp.session.depth }, ⟨hp.scope.trace, rfl, rfl, hscope⟩⟩, ?_, ?_⟩
  · refine .relax (i := lax.inside r) rfl False.elim
      (hl.ready hp.left (fun _ => trivial) fun ty hty => ?_)
    cases hannot with
    | none => cases hty
    | some h => cases hty; exact h.left
  · refine .relax (i := lax.inside r') rfl False.elim
      (hr.ready hp.right (fun _ => trivial) fun ty hty => ?_)
    cases hannot with
    | none => cases hty
    | some h => cases hty; exact h.right

lemma linked_back (hp : c.Linked Γ p) (h : c.Linked Δ q)
    (hstore : p.left.session.store.Grows q.left.session.store) : c.Linked Γ (back p q) :=
  ⟨h.session, { hp.scope with rest := hc.scopes_mono hp.scope.rest hstore }⟩

omit hc in
lemma linked_abandon (h : c.Linked Γ q) (point : Point) :
    c.Linked Γ ⟨q.tags, q.left.abandon point, q.right.abandon point⟩ :=
  ⟨{ h.session with
    points := h.session.points.erase point
    depth := congrArg (· - 1) h.session.depth }, h.scope⟩

omit hc in
lemma linked_complete (h : c.Linked Γ q) (point : Point) {r r' : Captured}
    (hparams : c.exact → r.params.map Var.canon = r'.params.map Var.canon)
    (hclosure : c.exact → r.closureParam.map Var.canon = r'.closureParam.map Var.canon)
    {a b : Term} (hab : a.Coupled c.exact q.held b) :
    c.Linked Γ ⟨q.tags, q.left.complete point a r, q.right.complete point b r'⟩ ∧
      q.Tys (point.bodyTy a) (point.bodyTy b) := by
  have hbodyTy : q.Tys (point.bodyTy a) (point.bodyTy b) := by
    unfold Point.bodyTy
    rw [hab.ty.mentions]
    split
    · exact .refl fun _ hk => absurd hk List.not_mem_nil
    · exact hab.ty
  have hcounts := congrArg (fun s : Stats => { s with bodies := s.bodies + 1 }) h.session.counts
  refine ⟨⟨{ h.session with
    points := h.session.points.setProgress point fun d e hde => ⟨.done ⟨hbodyTy, ?_⟩, hde.trace⟩
    recTypes := ?_
    finished := congrArg (· ++ [point]) h.session.finished
    counts := hcounts
    depth := congrArg (· - 1) h.session.depth }, h.scope⟩, hbodyTy⟩
  · intro hexact
    simp only [Body.canon, hab.same hexact, hbodyTy.same, hparams hexact, hclosure hexact]
  · dsimp only [World.complete]
    rw [hab.ty.mentions]
    split
    · exact .cons ⟨rfl, hab.ty⟩ (filter_rel h.session.recTypes fun key => decide (key ≠ point.key))
    · exact h.session.recTypes

lemma matches_specializeNew (hev : c.Uniform [] ev ev') {point : Point} {body : Expr}
    (hbody : body.Held p.left.session.store.exprs) {r r' : Key × Captured}
    (hr : c.Requests p r r') (hl : lax.Captures p.left r.2) (hl' : lax.Captures p.right r'.2)
    {annot annot' : Option Ty} (hannot : Option.Rel p.SameTy annot annot') :
    c.Matches Γ p (specializeNew ev point body r.2 annot) (specializeNew ev' point body r'.2 annot')
      Runs.Tys := by
  intro hp
  rw [exec_specializeNew, exec_specializeNew, hp.session.maxDepth, hp.session.depth]
  split
  · exact Matches.fail (R := Runs.Tys) rfl hp
  · -- The bodies are evaluated in scopes that hold nothing but the captures.
    obtain ⟨T, henv, hscope⟩ := hr.body
    have hreads : (atBody p T point r.2 r'.2 annot annot').ReadsHere body := ⟨hbody, .inl henv⟩
    rcases Uniform.together hev hreads (alike_atBody hp hscope hl hl' hannot) with hlimit |
      ⟨q, hql, hqr, hq, halike, hout⟩
    · refine .inl (hlimit.map (fun hrun => ?_) fun s _ hrun => ?_)
      · rw [(Prod.ext hrun rfl : exec (ev body) (p.left.atBody point r.2 annot) =
          (.error .tagsExhausted, _))]
      · rw [(Prod.ext hrun rfl : exec (ev' body) (p.right.atBody point r'.2 annot') =
          (.error s, _))]
    · have hgrows : p.Grows (back p q) := ⟨le_refl _, hq.store⟩
      have hback := linked_back hc hp.toLinked halike.toLinked hq.store
      have habandon : p.Grows ⟨p.tags, (back p q).left.abandon point,
          (back p q).right.abandon point⟩ := ⟨le_refl _, hq.store⟩
      rcases hrun : exec (ev body) (p.left.atBody point r.2 annot) with ⟨x, v⟩
      rcases hrun' : exec (ev' body) (p.right.atBody point r'.2 annot') with ⟨x', v'⟩
      rw [hrun] at hql hout
      rw [hrun'] at hqr hout
      subst hql hqr
      cases hout with
      -- Both bodies fail, and both join points are given up.
      | error h => exact .inr ⟨_, rfl, rfl, habandon, linked_abandon hback point, .error h⟩
      -- Both bodies have values; the checks on them agree.
      | @ok a b hab =>
        have hterm := bodyTerm_coupled hc halike.toLinked point hab.kin
        have hsound : (q.left.bodyTerm point a).ty.Sound (lax.ground q.left) := by
          rw [Discipline.bodyTerm_ty]
          exact hab.left.ty.sound
        have hsound' : (q.right.bodyTerm point b).ty.Sound (lax.ground q.right) := by
          rw [Discipline.bodyTerm_ty]
          exact hab.right.ty.sound
        have hchecked : c.Paired Γ (back p q) (checkBody point (q.left.bodyTerm point a))
            (checkBody point (q.right.bodyTerm point b)) fun _ _ _ => True :=
          paired_checkBody hterm hsound hsound' halike.left.sound.points halike.right.sound.points
        dsimp only
        rcases hchecked hback with hlimit | ⟨_, _, _, _, _, hcheck⟩
        · refine .inl (hlimit.map (fun hs => ?_) fun s _ hs => ?_)
          · rw [hs]
          · rw [hs]
        · refine .inr ?_
          generalize (exec (checkBody point (q.left.bodyTerm point a)) (back p q).left).1 = s
            at hcheck ⊢
          generalize (exec (checkBody point (q.right.bodyTerm point b)) (back p q).right).1 = s'
            at hcheck ⊢
          cases hcheck with
          | error h => exact ⟨_, rfl, rfl, habandon, linked_abandon hback point, .error h⟩
          | ok _ =>
            obtain ⟨hlinked, hbodyTy⟩ :=
              linked_complete hback point hr.params hr.closureParam hterm
            have hcomplete : p.Grows ⟨p.tags, (back p q).left.complete point
                (q.left.bodyTerm point a) r.2, (back p q).right.complete point
                (q.right.bodyTerm point b) r'.2⟩ := ⟨le_refl _, hq.store⟩
            exact ⟨_, rfl, rfl, hcomplete, hlinked, .ok hbodyTy⟩

/-! ### Calls -/

lemma matches_specialize (hev : c.Uniform [] ev ev') {d e : Env} {kind kind' : MapKind}
    (hd : lax.Value p.left (.map d kind)) (he : lax.Value p.right (.map e kind'))
    {pointKind : PointKind} {body : Expr} (hbody : p.Reads d e body) {annot annot' : Option Ty}
    (hannot : Option.Rel p.SameTy annot annot') {arg arg' : Option ClosureArg}
    (harg : Option.Rel p.SameArg arg arg')
    (hadmits : ∀ values v, exec (captures e body arg') p.right = (.ok values, v) →
      c.admits (Γ ++ v.scope.stmts) values = true) :
    c.Matches Γ p (specialize ev d pointKind body annot arg)
      (specialize ev' e pointKind body annot' arg') Calls := by
  refine .given fun hp => ?_
  have hsorted := hbody.sorted hp.left.session.store
  refine (Together.of_matches (matches_request hc hd he hbody harg hadmits)
    (Region.does_request hd hsorted fun a ha => ?_)
    (Region.does_request he hsorted fun a ha => ?_)).bind_matches ?_
  · cases harg with
    | none => cases ha
    | some h => cases ha; exact h.2.left
  · cases harg with
    | none => cases ha
    | some h => cases ha; exact h.2.right
  rintro ⟨key, r⟩ ⟨key', r'⟩ q hq ⟨hr, hl, hl'⟩
  obtain rfl : key = key' := hr.key
  refine .given fun hpq => .getSession ?_
  -- The requests have one key, which is there on both sides or on neither.
  have hfind := hpq.session.points.get? ⟨pointKind, key⟩
  rw [Session.find?, Session.find?]
  cases hentry : q.left.session.points.get? ⟨pointKind, key⟩ with
  | some d =>
    rw [hentry] at hfind
    generalize q.right.session.points.get? ⟨pointKind, key⟩ = found at hfind
    cases hfind with
    | some hde => exact Matches.of_paired (paired_reuse hr.args hde)
  | none =>
    cases hentry' : q.right.session.points.get? ⟨pointKind, key⟩ with
    | some e =>
      rw [hentry, hentry'] at hfind
      cases hfind
    | none =>
      have hannot' : Option.Rel q.SameTy annot annot' :=
        optionRel_imp (fun _ _ h => h.mono hq) hannot
      refine Matches.bind_paired (matches_specializeNew hc hev
        (hbody.held.mono hq.store.exprs) hr hl hl' hannot') fun s t x hx hst =>
          .pure ⟨rfl, hr.args.imp fun _ _ => hx.kinVar, hst⟩

lemma matches_enterPoint (hev : c.Uniform [] ev ev') (op : EntryOp) {body : Expr}
    (hbody : p.ReadsHere body) {annot annot' : Option Ty}
    (hannot : Option.Rel p.SameTy annot annot')
    (hadmits : ∀ values v, exec (captures p.right.scope.env body none) p.right = (.ok values, v) →
      c.admits (Γ ++ v.scope.stmts) values = true) :
    c.Matches Γ p (enterPoint ev op body annot) (enterPoint ev' op body annot') Runs.Kin := by
  refine .given fun hp => .getScope ?_
  refine Matches.bind_paired (matches_specialize hc hev hp.left.env hp.right.env hbody hannot
    .none hadmits) fun s s' q _ hs => .given fun hlinked => ?_
  obtain ⟨hkey, hargs, hty⟩ := hs
  split
  · exact Paired.pure (Term.akin_type_iff.2 hty)
  · refine hc.bindResult (fun hexact => ?_) hty
    rw [hkey]
    exact hc.call_canon hlinked hexact hargs hty

lemma matches_enterPointAdmitting (hev : ∀ Γ, c.Uniform Γ ev (evs Γ)) (op : EntryOp)
    {body : Expr} (hbody : p.ReadsHere body) {annot annot' : Option Ty}
    (hannot : Option.Rel p.SameTy annot annot') :
    c.Matches Γ p (enterPoint ev op body annot)
      (enterPointAdmitting c.admits Γ evs op body annot') Runs.Kin :=
  .admitting hc fun hadmits => matches_enterPoint hc (hev []) op hbody hannot hadmits

/-- A function is committed to a domain. -/
lemma matches_closureOf (hev : c.Uniform [] ev ev') {f f' : Term} (hf : p.Same f f')
    {dom dom' : Ty} (hdom : p.SameTy dom dom') {range range' : Option Ty}
    (hrange : Option.Rel p.SameTy range range')
    (hadmits : ∀ values v, exec (functionCaptures f' dom') p.right = (.ok values, v) →
      c.admits (Γ ++ v.scope.stmts) values = true) :
    c.Matches Γ p (closureOf ev f dom range) (closureOf ev' f' dom' range') Runs.Kin := by
  -- What is specialized, once the functions are known.
  have hmain : ∀ (d e : Env) (kind kind' : MapKind) (param : Name) (body : Expr),
      lax.Value p.left (.map d kind) → lax.Value p.right (.map e kind') → p.Reads d e body →
      (∀ values v, exec (captures e body (some ⟨param, dom'⟩)) p.right = (.ok values, v) →
        c.admits (Γ ++ v.scope.stmts) values = true) → c.Matches Γ p
        (do
          let spec ← specialize ev d .closure body range (some ⟨param, dom⟩)
          bindResult (.call spec.key .closure spec.args (.closure dom spec.ty))
            (.closure dom spec.ty))
        (do
          let spec ← specialize ev' e .closure body range' (some ⟨param, dom'⟩)
          bindResult (.call spec.key .closure spec.args (.closure dom' spec.ty))
            (.closure dom' spec.ty)) Runs.Kin := by
    intro d e kind kind' param body hde hde' hbody hadmits
    refine Matches.bind_paired (matches_specialize hc hev hde hde' hbody hrange
      (.some ⟨rfl, hdom⟩) hadmits) fun s s' q hq hs => .given fun hlinked => ?_
    obtain ⟨hkey, hargs, hty⟩ := hs
    have hclosure : q.Tys (.closure dom s.ty) (.closure dom' s'.ty) :=
      Ty.twin_closure_iff.2 ⟨hq.tys hdom.twin, hty⟩
    refine hc.bindResult (fun hexact => ?_) hclosure
    rw [hkey]
    exact hc.call_canon hlinked hexact hargs hclosure
  -- What is no function fails on both sides before anything is specialized.
  have hfail : c.Matches Γ p (closureOf ev f dom range) (closureOf ev' f' dom' range') Runs.Kin ∨
      ∃ d e kind, f = .map d kind ∧ f' = .map e kind ∧ kind ≠ .module := by
    have hcause : (Cause.notCallable f.ty).canon = (Cause.notCallable f'.ty).canon :=
      congrArg Cause.notCallable hf.kin.ty.same
    cases hf.kin.heads with
    | @map d e kind _ _ =>
      cases kind with
      | module =>
        exact .inl (Matches.bind_paired (R := fun _ _ _ => False) (.fail hcause)
          fun _ _ _ _ h => h.elim)
      | function _ _ | recFunction _ _ _ => exact .inr ⟨d, e, _, rfl, rfl, by simp⟩
    | _ =>
      exact .inl (Matches.bind_paired (R := fun _ _ _ => False) (.fail hcause)
        fun _ _ _ _ h => h.elim)
  rcases hfail with hfail | ⟨d, e, kind, rfl, rfl, hkind⟩
  · exact hfail
  · obtain ⟨hde, -, hbacked⟩ := Term.akin_map_iff.1 hf.kin
    cases kind with
    | module => exact absurd rfl hkind
    | function param body =>
      exact hmain d e _ _ param body hf.left hf.right ⟨hbacked, .inl hde⟩ hadmits
    -- A recursive function sees itself.
    | recFunction this param body =>
      exact hmain _ _ _ _ param body (hf.left.bind this hf.left) (hf.right.bind this hf.right)
        ⟨hbacked, .inl (hde.bind this hf.kin)⟩ hadmits

lemma matches_closureOp (hev : c.Uniform [] ev ev') {as bs : List Term}
    (h : List.Forall₂ p.Same as bs)
    (hadmits : ∀ values v, exec (closureCaptures bs) p.right = (.ok values, v) →
      c.admits (Γ ++ v.scope.stmts) values = true) :
    c.Matches Γ p (closureOp ev as) (closureOp ev' bs) Runs.Kin := by
  match h with
  | .nil | .cons _ .nil => exact Matches.fail rfl
  | .cons hf (.cons hdom .nil) => exact matches_closureOf hc hev hf hdom.ty .none hadmits
  | .cons hf (.cons hdom (.cons hrange .nil)) =>
    exact matches_closureOf hc hev hf hdom.ty (.some hrange.ty) hadmits
  | .cons hf (.cons hdom (.cons hrange (.cons ht hrest))) =>
    exact Matches.fail (congrArg (Cause.arity .closure 3)
      (List.Forall₂.cons hf (.cons hdom (.cons hrange (.cons ht hrest)))).length_eq)

lemma matches_closureOpAdmitting (hev : ∀ Γ, c.Uniform Γ ev (evs Γ)) {as bs : List Term}
    (h : List.Forall₂ p.Same as bs) :
    c.Matches Γ p (closureOp ev as) (closureOpAdmitting c.admits Γ evs bs) Runs.Kin :=
  .admitting hc fun hadmits => matches_closureOp hc (hev []) h hadmits

end Laws

end Coupling

end Residual
