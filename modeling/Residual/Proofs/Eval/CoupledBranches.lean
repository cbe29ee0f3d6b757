import Residual.Proofs.Eval.CouplingLaws

/-!
Coupled runs split alike.

Each branch of a split ends alike in both runs, with the same fault or with bodies of twin types.
So the same branches are tried again under the same guess, and what a failed second try forgets is
the same.
-/

namespace Residual.Coupling

open Eval
open Region (lax)

variable {c : Coupling} {Γ Δ : List Stmt} {p q r : Runs} {α : Type}

/-! ### One branch -/

/-- Both runs enter a branch. -/
abbrev enterBranch (p : Runs) : Runs := ⟨p.tags, p.left.enterBranch, p.right.enterBranch⟩

/-- Both runs leave a branch that they ended at `q`. What was learned of its tags is forgotten. -/
abbrev leaveBranch (p q : Runs) : Runs :=
  ⟨p.tags, p.left.leaveBranch q.left, p.right.leaveBranch q.right⟩

lemma same_enterBranch {a b : Term} (h : p.Same a b) : (enterBranch p).Same a b :=
  ⟨h.kin, .relax (i := lax.branch p.left []) rfl False.elim
      (h.left.le (Region.le_enterBranch lax p.left [])),
    .relax (i := lax.branch p.right []) rfl False.elim
      (h.right.le (Region.le_enterBranch lax p.right []))⟩

/-- Bodies of branches that are coupled. -/
structure SameBranch (c : Coupling) (p : Runs) (t t' : Term) : Prop where
  body : t.Coupled c.exact p.held t'
  ty : p.SameTy t.ty t'.ty

lemma SameBranch.mono {t t' : Term} (h : SameBranch c p t t') (hq : p.Later q) :
    SameBranch c q t t' :=
  ⟨h.body.mono hq.held, h.ty.mono hq⟩

section Laws

variable (hc : c.Laws)
include hc

/-- The branch comes after the statements that are there. -/
lemma alike_enterBranch (hp : c.Alike Γ p) :
    c.Alike (Γ ++ p.right.scope.stmts) (enterBranch p) := by
  refine ⟨⟨hp.session, ⟨hp.scope.trace, congrArg (· + 1) hp.scope.dynamicDepth, hp.scope.owner,
    hc.enterBranch hp.scope.rest⟩⟩, ?_, ?_⟩
  · exact .relax (i := lax.branch p.left []) rfl False.elim (hp.left.enterBranch Region.fresh_nil)
  · exact .relax (i := lax.branch p.right []) rfl False.elim
      (hp.right.enterBranch Region.fresh_nil)

lemma alike_leaveBranch (hp : c.Alike Γ p) (h : c.Alike Δ q) (hq : (enterBranch p).Later q) :
    c.Alike Γ (leaveBranch p q) := by
  have hscope := h.scope
  refine ⟨⟨h.session, ⟨hp.scope.trace, congrArg (· - 1) hscope.dynamicDepth, hscope.owner, ?_⟩⟩,
    ?_, ?_⟩
  · have hl : (p.left.leaveBranch q.left).scope.output =
        { p.left.scope.output with tags := q.left.scope.tags } :=
      congrArg (Scope.Output.mk _ _) hq.left.sharing_leaveBranch
    have hr : (p.right.leaveBranch q.right).scope.output =
        { p.right.scope.output with tags := q.right.scope.tags } :=
      congrArg (Scope.Output.mk _ _) hq.right.sharing_leaveBranch
    rw [hl, hr]
    exact hc.drawn (hc.scopes_mono hp.scope.rest hq.store) hscope.rest hq.tags hq.left.tags
      hq.right.tags
  · exact hp.left.leaveBranch
      (.relax (i := lax) (j := lax.branch p.left []) rfl False.elim h.left) hq.left
  · exact hp.right.leaveBranch
      (.relax (i := lax) (j := lax.branch p.right []) rfl False.elim h.right) hq.right

omit hc in
lemma later_leaveBranch (hq : (enterBranch p).Later q) : p.Later (leaveBranch p q) :=
  ⟨⟨le_refl _, hq.store⟩, hq.left.leaveBranch, hq.right.leaveBranch⟩

lemma together_inBranch {m m' : Eval Term}
    (h : c.Together (Γ ++ p.right.scope.stmts) (enterBranch p) m m' Runs.Same) :
    c.Together Γ p (inBranch m) (inBranch m') (SameBranch c) := by
  intro hp
  rw [exec_inBranch, exec_inBranch]
  refine (h (alike_enterBranch hc hp)).imp ?_ ?_
  · exact fun hlimit => hlimit.map (fun hrun => by rw [hrun]; rfl) fun s _ hrun => by rw [hrun]; rfl
  · rintro ⟨q, hl, hr, hq, halike, hout⟩
    rcases hrun : exec m (enterBranch p).left with ⟨x, v⟩
    rcases hrun' : exec m' (enterBranch p).right with ⟨x', v'⟩
    rw [hrun] at hl hout
    rw [hrun'] at hr hout
    subst hl hr
    refine ⟨leaveBranch p q, ?_, ?_, later_leaveBranch hq, alike_leaveBranch hc hp halike hq, ?_⟩
    · cases x <;> rfl
    · cases x' <;> rfl
    cases hout with
    | error h => exact .error h
    | @ok a b hab =>
      refine .ok ⟨⟨?_, ?_, fun hexact => ?_⟩, ?_⟩
      · rw [Stmt.ty_close, Stmt.ty_close]
        exact hab.kin.ty
      · rw [Stmt.endsInMiss_close, Stmt.endsInMiss_close, hab.kin.endsInMiss]
      · have hstmts : q.left.scope.stmts.map Stmt.canon = q.right.scope.stmts.map Stmt.canon :=
          hc.exact_stmts hexact halike.scope.rest
        rw [Stmt.canon_close, Stmt.canon_close, hc.kin_canon halike.toLinked hab.kin hexact, hstmts]
      · rw [Stmt.ty_close, Stmt.ty_close]
        exact ⟨hab.kin.ty, ⟨hab.left.ty.formed, hab.left.ty.sound⟩,
          ⟨hab.right.ty.formed, hab.right.ty.sound⟩⟩

/-- What two attempts found: results with the property, or one fault. -/
inductive Tries {α : Type} (R : α → α → Prop) : Except Fault α → Except Fault α → Prop
  | ok {a a' : α} (h : R a a') : Tries R (.ok a) (.ok a')
  | error {f f' : Fault} (h : f.canon = f'.canon) : Tries R (.error f) (.error f')

omit hc in
lemma together_attempt {m m' : Eval α} {R : Runs → α → α → Prop} (h : c.Together Γ p m m' R) :
    c.Together Γ p (attempt m) (attempt m') fun q => Tries (R q) := by
  intro hp
  rw [exec_attempt, exec_attempt]
  refine (h hp).imp (fun hlimit => ?_) ?_
  · refine hlimit.map (fun hrun => by rw [hrun]) fun s hs hrun => ?_
    rw [hrun]
    cases s with
    | failed => exact hs.elim
    | tagsExhausted => rfl
    | outOfFuel => rfl
  · rintro ⟨q, hl, hr, hq, halike, hout⟩
    rcases hrun : exec m p.left with ⟨x, v⟩
    rcases hrun' : exec m' p.right with ⟨x', v'⟩
    rw [hrun] at hl hout
    rw [hrun'] at hr hout
    subst hl hr
    cases hout with
    | ok h => exact ⟨q, rfl, rfl, hq, halike, .ok (.ok h)⟩
    | @error s s' h =>
      cases s <;> cases s' <;> first | cases h | skip
      · exact ⟨q, rfl, rfl, hq, halike, .ok (.error (Stop.failed.inj h))⟩
      · exact ⟨q, rfl, rfl, hq, halike, .error rfl⟩
      · exact ⟨q, rfl, rfl, hq, halike, .error rfl⟩

omit hc in
/-- A fault says the same of pending join points in coupled worlds. -/
lemma paired_pendingRecursion {f f' : Fault} (h : f.canon = f'.canon) :
    c.Paired Γ p (pendingRecursion f) (pendingRecursion f') fun _ d e => d = e := by
  have hpending : f.canon.pending = f'.canon.pending := congrArg Fault.pending h
  change f.pending = f'.pending at hpending
  refine .given fun hp => ?_
  unfold pendingRecursion
  rw [hpending]
  cases f'.pending with
  | none => exact Paired.pure rfl
  | some point =>
    refine .getScope ?_
    rw [hp.scope.owner]
    split
    · exact Paired.pure rfl
    · refine .getSession ?_
      have hfind := hp.session.points.get? point
      rw [Session.find?, Session.find?]
      generalize p.left.session.points.get? point = found at hfind
      generalize p.right.session.points.get? point = found' at hfind
      cases hfind with
      | none => exact Paired.pure rfl
      | @some d e hde =>
        obtain ⟨progress, trace⟩ := d
        obtain ⟨progress', trace'⟩ := e
        obtain ⟨hprogress, -⟩ := hde
        dsimp only at hprogress
        cases hprogress with
        | done => exact Paired.pure rfl
        | pending hty => cases hty <;> exact Paired.pure rfl

/-! ### All branches -/

/-- Branches that end alike wherever they are started from `p` on, after the statements of `p`. -/
abbrev Branching (c : Coupling) (Γ : List Stmt) (p : Runs) (acts acts' : List (Eval Term)) : Prop :=
  List.Forall₂ (fun m m' => ∀ q, p.Later q → q.right.scope.stmts = p.right.scope.stmts →
    c.Together (Γ ++ p.right.scope.stmts) (enterBranch q) m m' Runs.Same) acts acts'

omit hc in
lemma Branching.mono {acts acts' : List (Eval Term)} (h : Branching c Γ p acts acts')
    (hq : p.Later q) (hstmts : q.right.scope.stmts = p.right.scope.stmts) :
    Branching c Γ q acts acts' :=
  h.imp fun _ _ h r hr hr' => hstmts ▸ h r (hq.trans hr) (hr'.trans hstmts)

/-- The next of the branches, which leaves the statements as they are. -/
lemma together_branch {m m' : Eval Term}
    (hm : ∀ q, p.Later q → q.right.scope.stmts = p.right.scope.stmts →
      c.Together (Γ ++ p.right.scope.stmts) (enterBranch q) m m' Runs.Same) :
    c.Together Γ p (attempt (inBranch m)) (attempt (inBranch m')) fun q r r' =>
      Tries (SameBranch c q) r r' ∧ q.right.scope.stmts = p.right.scope.stmts := by
  refine (together_attempt (together_inBranch hc (hm p (.refl p) rfl))).ran.imp
    fun q r r' _ ⟨hr, hrun⟩ => ⟨hr, ?_⟩
  have hstmts := stmts_attempt_inBranch m' p.right
  rwa [hrun] at hstmts

abbrev SameBodies (c : Coupling) (p : Runs) : List (Option Term) → List (Option Term) → Prop :=
  List.Forall₂ (Option.Rel (SameBranch c p))

omit hc in
lemma SameBodies.mono {bs bs' : List (Option Term)} (h : SameBodies c p bs bs')
    (hq : p.Later q) : SameBodies c q bs bs' :=
  h.imp fun _ _ h => optionRel_imp (fun _ _ h => h.mono hq) h

omit hc in
lemma SameBodies.filterMap {bs bs' : List (Option Term)} (h : SameBodies c p bs bs') :
    List.Forall₂ (SameBranch c p) (bs.filterMap id) (bs'.filterMap id) := by
  induction h with
  | nil => exact .nil
  | cons h _ ih =>
    cases h with
    | none => exact ih
    | some h => exact .cons h ih

lemma together_firstRun {acts acts' : List (Eval Term)} (h : Branching c Γ p acts acts') :
    c.Together Γ p (firstRun acts) (firstRun acts') fun q r r' => (SameBodies c q r.1 r'.1 ∧
      Option.Rel (fun d e => d.1.canon = e.1.canon ∧ d.2 = e.2) r.2 r'.2) ∧
        q.right.scope.stmts = p.right.scope.stmts := by
  induction acts generalizing p acts' with
  | nil =>
    cases h
    exact .pure ⟨⟨.nil, .none⟩, rfl⟩
  | cons m acts ih =>
    cases h with
    | @cons _ m' _ acts' hm hrest =>
      refine (together_branch hc hm).bind fun r r' q hq ⟨hr, hstmts⟩ => ?_
      have hlater := ih (Branching.mono hrest hq hstmts)
      cases hr with
      | @ok b b' hb =>
        refine hlater.bind fun r r' x hx ⟨hr, hx'⟩ => .pure ?_
        exact ⟨⟨.cons (.some (hb.mono hx)) hr.1, hr.2⟩, hx'.trans hstmts⟩
      | @error f f' hf =>
        refine (Together.of_paired (paired_pendingRecursion hf)
          (Region.does_pendingRecursion f) (Region.does_pendingRecursion f')).bind
          fun d e x hx hde => ?_
        obtain ⟨rfl, -, hsame, -⟩ := hde
        cases d with
        | none => exact .throw (congrArg Stop.failed hf)
        | some point =>
          have hstmts' : x.right.scope.stmts = p.right.scope.stmts := by rw [hsame, hstmts]
          refine (ih (Branching.mono hrest (hq.trans hx) hstmts')).bind fun r r' y _ hr => .pure ?_
          exact ⟨⟨.cons .none hr.1.1, .some ⟨hf, rfl⟩⟩, hr.2.trans hstmts'⟩

lemma together_secondRun {bodies bodies' : List (Option Term)} {acts acts' : List (Eval Term)}
    (hb : SameBodies c p bodies bodies') (h : Branching c Γ p acts acts') :
    c.Together Γ p (secondRun bodies acts) (secondRun bodies' acts') fun q =>
      Tries (List.Forall₂ (SameBranch c q)) := by
  induction acts generalizing p bodies bodies' acts' with
  | nil =>
    cases h
    unfold secondRun
    cases hb with
    | nil => exact .pure (.ok .nil)
    | cons hb _ => cases hb <;> exact .pure (.ok .nil)
  | cons m acts ih =>
    cases h with
    | @cons _ m' _ acts' hm hrest =>
      cases hb with
      | nil => exact .pure (.ok .nil)
      | cons hb hbodies =>
        cases hb with
        -- A body that is there is kept.
        | @some b b' hb =>
          refine (ih hbodies hrest).bind fun r r' q hq hr => ?_
          cases hr with
          | ok hts => exact .pure (.ok (.cons (hb.mono hq) hts))
          | error hf => exact .pure (.error hf)
        -- A branch that is tried again: its fault ends the second run on both sides.
        | none =>
          refine (together_branch hc hm).bind fun r r' q hq hbranch => ?_
          obtain ⟨hr, hstmts⟩ := hbranch
          cases hr with
          | error hf => exact .pure (.error hf)
          | @ok b b' hb =>
            refine (ih (SameBodies.mono hbodies hq) (Branching.mono hrest hq hstmts)).bind
              fun r r' x hx hr => ?_
            cases hr with
            | ok hts => exact .pure (.ok (.cons (hb.mono hx) hts))
            | error hf => exact .pure (.error hf)

/-! ### Second tries -/

omit hc in
lemma firstType?_same {ts ts' : List Term} (h : List.Forall₂ (SameBranch c p) ts ts') :
    Option.Rel p.SameTy (firstType? ts) (firstType? ts') := by
  unfold firstType?
  induction h with
  | nil => exact .none
  | @cons t t' ts ts' ht _ ih =>
    rw [List.find?_cons, List.find?_cons, ht.body.miss]
    split
    · exact .some ht.ty
    · exact ih

omit hc in
lemma together_setPendingType (point : Point) {ty ty' : Option Ty}
    (h : Option.Rel p.SameTy ty ty') :
    c.Together Γ p (setPendingType point ty) (setPendingType point ty') fun q _ _ =>
      q.right.scope.stmts = p.right.scope.stmts := by
  intro hp
  have hl := hp.left.setPending (p := point) (fun _ => trivial) fun t (ht : t ∈ ty) => by
    cases h with
    | none => cases ht
    | some h => cases ht; exact h.left
  have hr := hp.right.setPending (p := point) (fun _ => trivial) fun t (ht : t ∈ ty') => by
    cases h with
    | none => cases ht
    | some h => cases ht; exact h.right
  rw [exec_setPendingType, exec_setPendingType]
  refine .inr ⟨⟨p.tags, _, _⟩, rfl, rfl, ⟨⟨le_refl _, .refl _⟩, hl.2, hr.2⟩,
    ⟨⟨{ hp.session with points := ?_ }, hp.scope⟩, hl.1, hr.1⟩, .ok rfl⟩
  exact hp.session.points.setProgress point fun d e hde =>
    ⟨.pending (optionRel_imp (fun _ _ h => h.twin) h), hde.trace⟩

omit hc in
lemma together_forgetSince (mark : Nat) :
    c.Together Γ p (modifySession (·.forgetSince mark)) (modifySession (·.forgetSince mark))
      fun _ _ _ => True := by
  intro hp
  have hs := hp.session
  refine .inr ⟨⟨p.tags, _, _⟩, rfl, rfl, ⟨⟨le_refl _, .refl _⟩,
    .of_scope ⟨⟨.refl _, .refl _, .refl _⟩, rfl⟩ rfl rfl,
    .of_scope ⟨⟨.refl _, .refl _, .refl _⟩, rfl⟩ rfl rfl⟩,
    ⟨⟨{ hs with points := ?_, recTypes := ?_, finished := ?_ }, hp.scope⟩,
      hp.left.forgetSince mark, hp.right.forgetSince mark⟩, .ok trivial⟩
  · change PointTable.Rel _ ((p.left.session.finished.drop mark).foldl PointTable.erase _)
      ((p.right.session.finished.drop mark).foldl PointTable.erase _)
    rw [hs.finished]
    exact PointTable.Rel.foldl_erase hs.points _
  · change List.Forall₂ _ (p.left.session.recTypes.filter fun e =>
      !(p.left.session.finished.drop mark).any fun point => point.key == e.1)
      (p.right.session.recTypes.filter fun e =>
      !(p.right.session.finished.drop mark).any fun point => point.key == e.1)
    rw [hs.finished]
    exact filter_rel hs.recTypes fun key =>
      !(p.right.session.finished.drop mark).any fun point => point.key == key
  · change p.left.session.finished.take mark = p.right.session.finished.take mark
    rw [hs.finished]

lemma together_branches {acts acts' : List (Eval Term)} (h : Branching c Γ p acts acts') :
    c.Together Γ p (branches acts) (branches acts') fun q => List.Forall₂ (SameBranch c q) := by
  refine (together_firstRun hc h).bind ?_
  rintro ⟨bodies, recursed⟩ ⟨bodies', recursed'⟩ q hq ⟨⟨hbodies, hrec⟩, hstmts⟩
  cases hrec with
  | none => exact .pure hbodies.filterMap
  | @some d e hde =>
    obtain ⟨fault, point⟩ := d
    obtain ⟨fault', point'⟩ := e
    obtain ⟨hfault, rfl⟩ := hde
    have hthrow : (Stop.failed fault).canon = (Stop.failed fault').canon :=
      congrArg Stop.failed hfault
    have hty := firstType?_same hbodies.filterMap
    dsimp only
    generalize firstType? (bodies.filterMap id) = ty at hty
    generalize firstType? (bodies'.filterMap id) = ty' at hty
    cases hty with
    | none => exact .throw hthrow
    | some hty =>
      refine (together_setPendingType point (.some hty)).bind fun _ _ x hx hx' => ?_
      refine .given fun hpx => .getSession ?_
      rw [hpx.session.finished]
      refine (together_secondRun hc (SameBodies.mono hbodies hx)
        (Branching.mono h (hq.trans hx) (hx'.trans hstmts))).bind fun r r' y _ hr => ?_
      cases hr with
      | ok hts => exact .pure hts
      | error _ =>
        exact (together_forgetSince _).bind fun _ _ _ _ _ =>
          (together_setPendingType point .none).bind fun _ _ _ _ _ => .throw hthrow

/-! ### One split -/

omit hc in
lemma paired_merge (op : Op) {ts ts' : List Term} (h : List.Forall₂ (SameBranch c p) ts ts') :
    c.Paired Γ p (merge op ts) (merge op ts') fun q r r' =>
      (c.exact → r.1.map Term.canon = r'.1.map Term.canon) ∧ Option.Rel q.Tys r.2 r'.2 := by
  have hsame : c.exact → ts.map Term.canon = ts'.map Term.canon := by
    intro hexact
    induction h with
    | nil => rfl
    | cons h _ ih => rw [List.map_cons, List.map_cons, h.body.same hexact, ih]
  have hty := firstType?_same h
  unfold merge
  generalize firstType? ts = ty at hty
  generalize firstType? ts' = ty' at hty
  cases hty with
  -- All bodies end in a miss.
  | none => exact .pure ⟨hsame, .none⟩
  | @some s t hst =>
    dsimp only
    -- The first body of another type is in the same place on both sides.
    have hfind : Option.Rel (SameBranch c p)
        (ts.find? fun body => !body.endsInMiss && !(body.ty == s))
        (ts'.find? fun body => !body.endsInMiss && !(body.ty == t)) := by
      clear hsame
      induction h with
      | nil => exact .none
      | @cons b b' bs bs' hb _ ih =>
        rw [List.find?_cons, List.find?_cons, hb.body.miss, hb.ty.beq hst]
        split
        · exact .some hb
        · exact ih
    generalize ts.find? (fun body => !body.endsInMiss && !(body.ty == s)) = found at hfind
    generalize ts'.find? (fun body => !body.endsInMiss && !(body.ty == t)) = found' at hfind
    cases hfind with
    | some hb => exact .fail (congrArg₂ (Cause.branches op) hst.twin.same hb.ty.twin.same)
    | none =>
      -- The misses take the type of the others.
      refine .pure ⟨fun hexact => ?_, .some hst.twin⟩
      clear hsame
      induction h with
      | nil => rfl
      | @cons b b' bs bs' hb _ ih =>
        rw [List.map_cons, List.map_cons, List.map_cons, List.map_cons, ih, hb.body.miss]
        split
        · rw [Term.retypeMiss_canon, Term.retypeMiss_canon, hb.body.same hexact, hst.twin.same]
        · rw [hb.body.same hexact]

lemma paired_finishSplit (op : Op) {arrange arrange' : List Term → List Term}
    (harrange : c.exact → ∀ bs bs' : List Term, bs.map Term.canon = bs'.map Term.canon →
      (arrange bs).map Term.canon = (arrange' bs').map Term.canon)
    {ts ts' : List Term} (h : List.Forall₂ (SameBranch c p) ts ts') :
    c.Paired Γ p (finishSplit op arrange ts) (finishSplit op arrange' ts') Runs.Kin := by
  refine (paired_merge op h).bind ?_
  rintro ⟨bs, ty⟩ ⟨bs', ty'⟩ q _ ⟨hbs, hty⟩
  have hop : c.exact → ∀ s t : Ty, s.canon = t.canon →
      (Term.op op (arrange bs) s).canon = (Term.op op (arrange' bs') t).canon := by
    intro hexact s t hst
    rw [Term.canon, Term.canon, Term.canonAll_eq, Term.canonAll_eq,
      harrange hexact bs bs' (hbs hexact), hst]
  cases hty with
  | none =>
    exact Paired.bind (hc.pushState fun hexact => hop hexact .unit .unit rfl) fun _ _ r _ _ =>
      .pure (Term.akin_miss (Term.akin_ofUnit (s := .unit) (t := .unit)
        (.refl fun _ hk => absurd hk List.not_mem_nil)))
  | some hty => exact hc.bindResult (fun hexact => hop hexact _ _ hty.same) hty

end Laws

end Residual.Coupling
