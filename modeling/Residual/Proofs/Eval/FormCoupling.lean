import Residual.Proofs.Eval.CoupledEvaluation
import Residual.Proofs.Eval.Layouts
import Residual.Proofs.Typed.RenameTwins

/-!
Runs that see different forms of environments.

The two runs draw the same tags, emit the same code and enter the same values, up to the forms of
the environments in them. So they are coupled, and as nothing is refused and no limit forgiven, all
of evaluation matches itself in environments that agree on what the expression reads.
-/

namespace Residual

open Eval
open Region (lax)

variable {held : MapKind → Prop}

/-! ### The coupling -/

/-- The sessions are set alike, and their tables differ at most in the forms of environments. -/
structure Session.Tables.Twin (held : MapKind → Prop) (t t' : Session.Tables) : Prop where
  envs : EnvTable.Twin held t.envs t'.envs
  keys : t.keys.entries.map KeyData.canon = t'.keys.entries.map KeyData.canon
  settings : t.settings = t'.settings
  hits : t.hits = t'.hits

/-- The same was emitted, up to the forms of environments. -/
structure Scope.Output.Twin (held : MapKind → Prop) (o o' : Scope.Output) : Prop where
  tags : o.tags = o'.tags
  stmts : o.stmts.map Stmt.canon = o'.stmts.map Stmt.canon
  sharing : o.sharing.Twin held o'.sharing

/-- The coupling of runs that see different forms of environments. -/
def Coupling.forms : Coupling where
  exact := True
  lenient := False
  admits _ _ := true
  Sessions st := Session.Tables.Twin (MapKind.Backed st)
  Scopes _ st T o o' := T = .same ∧ o.Twin (MapKind.Backed st) o'

lemma forall₂_map_iff {α β : Type} {f : α → β} {l l' : List α} :
    List.Forall₂ (fun a b => f a = f b) l l' ↔ l.map f = l'.map f := by
  rw [← List.forall₂_eq_eq_eq, List.forall₂_map_left_iff, List.forall₂_map_right_iff]

lemma Entry.coupled_iff {e e' : Entry} : e.Coupled True held e' ↔ e.Twin held e' := by
  obtain ⟨progress, trace⟩ := e
  obtain ⟨progress', trace'⟩ := e'
  constructor
  · rintro ⟨hprogress, rfl⟩
    cases hprogress with
    | pending h =>
      cases h with
      | none => exact .refl fun _ hk => absurd hk List.not_mem_nil
      | some h =>
        refine ⟨?_, fun k hk => h.held k (by simpa [Progress.kinds] using hk)⟩
        simp only [Entry.canon, Progress.canon, Option.map_some, h.same]
    | done h => exact ⟨by simp only [Entry.canon, Progress.canon, h.same trivial], h.ty.held⟩
  · intro h
    have hprogress : progress.canon = progress'.canon := congrArg Entry.progress h.same
    have htrace : trace = trace' := congrArg Entry.trace h.same
    have hheld : ∀ k ∈ progress.kinds, held k := h.held
    refine ⟨?_, htrace⟩
    cases progress <;> cases progress' <;> first | cases hprogress | skip
    · rename_i ty ty'
      have hty : ty.map Ty.canon = ty'.map Ty.canon := Progress.pending.inj hprogress
      cases ty <;> cases ty' <;> first | cases hty | skip
      · exact .pending .none
      · refine .pending (.some ⟨Option.some.inj hty, fun k hk => hheld k ?_⟩)
        simpa [Progress.kinds] using hk
    · have hsame := Progress.done.inj hprogress
      exact .done ⟨⟨congrArg Body.ty hsame, hheld⟩, fun _ => hsame⟩

namespace Coupling.Forms

variable {Γ : List Stmt} {p q : Runs} {α : Type} {m m' : Eval α}

/-- Runs are linked if their tags are the same and their worlds are twins. -/
theorem linked_iff : forms.Linked Γ p ↔ p.tags = .same ∧ Twinned p.left p.right := by
  obtain ⟨T, w, w'⟩ := p
  constructor
  · rintro ⟨hs, hscope⟩
    have hstats : w.session.stats = w'.session.stats := by
      have hcounts := hs.counts
      have hhits : w.session.stats.sharingHits = w'.session.stats.sharingHits := hs.rest.hits
      generalize w.session.stats = s at hcounts hhits
      generalize w'.session.stats = s' at hcounts hhits
      cases s
      cases s'
      simp_all
    exact ⟨hscope.rest.1, hs.coherent,
      ⟨hs.store, hs.rest.envs, hs.rest.keys, hs.points.imp fun _ _ h =>
        ⟨h.1, Entry.coupled_iff.1 h.2⟩,
        hs.recTypes, hs.finished, hs.rest.settings, hstats, hs.depth⟩,
      ⟨hscope.rest.2.tags, hscope.rest.2.stmts, hscope.rest.2.sharing, hscope.trace,
        hscope.dynamicDepth, hscope.owner⟩⟩
  · rintro ⟨rfl, hcoherent, hs, hscope⟩
    exact ⟨⟨hcoherent, hs.store, hs.points.imp fun _ _ h => ⟨h.1, Entry.coupled_iff.2 h.2⟩,
        hs.recTypes, hs.finished,
          congrArg (fun s : Settings => { s with sharing := false }) hs.settings,
        congrArg (fun s : Stats => { s with sharingHits := 0 }) hs.stats, hs.depth,
        ⟨hs.envs, hs.keys, hs.settings, congrArg Stats.sharingHits hs.stats⟩⟩,
      ⟨hscope.trace, hscope.dynamicDepth, hscope.owner,
        rfl, hscope.tags, hscope.stmts, hscope.sharing⟩⟩

section Same

variable (hT : p.tags = .same)
include hT

lemma kin_iff {a b : Term} : p.Kin a b ↔ a.Twin p.held b := by
  rw [Runs.Kin, hT, Term.akin_same_iff]

lemma kinVar_iff {v w : Var} : p.KinVar v w ↔ v.Twin p.held w := by
  rw [Runs.KinVar, hT, Var.akin_same_iff]

lemma kinFields_iff {m n : Fields Term} : p.KinFields m n ↔ Fields.Twin p.held m n := by
  rw [Runs.KinFields, hT, Fields.akin_same_iff]

lemma kinEnv_iff {d e : Env} : p.KinEnv d e ↔ d.Twin p.held e := by
  rw [Runs.KinEnv, hT, Env.akin_same_iff]

end Same

/-! ### Changes of the world -/

/-- Steps that succeed and leave the worlds `v` and `v'` behind. -/
theorem of_exec {R : Runs → α → α → Prop} {v v' : World} {a a' : α}
    (hm : exec m p.left = (.ok a, v)) (hm' : exec m' p.right = (.ok a', v'))
    (hstore : v.session.store = p.left.session.store)
    (h : World.Twin p.held p.left p.right → World.Twin p.held v v' ∧ R ⟨.same, v, v'⟩ a a') :
    forms.Paired Γ p m m' R := by
  refine Paired.of_exec (q := ⟨.same, v, v'⟩) hm hm' fun hp => ?_
  obtain ⟨hT, hcoherent, htwin⟩ := linked_iff.1 hp
  obtain ⟨htwin', hR⟩ := h htwin
  refine ⟨⟨le_of_eq hT, ?_⟩, linked_iff.2 ⟨rfl, ?_, ?_⟩, hR⟩
  · rw [hstore]
    exact .refl _
  · rw [hstore]
    exact hcoherent
  · rw [hstore]
    exact htwin'

lemma modifyScope {f f' : Scope → Scope}
    (h : Scope.Twin p.held p.left.scope p.right.scope →
      Scope.Twin p.held (f p.left.scope) (f' p.right.scope)) :
    forms.Paired Γ p (modifyScope f) (modifyScope f') fun q _ _ => q.held = p.held :=
  of_exec (exec_modifyScope f _) (exec_modifyScope f' _) rfl fun hp =>
    ⟨⟨hp.session, h hp.scope⟩, rfl⟩

lemma freshVar {s t : Ty} (h : p.Tys s t) :
    forms.Paired Γ p (freshVar s) (freshVar t) Runs.KinVar := by
  refine Moves.given fun hp => ?_
  have htags := (linked_iff.1 hp).2.twin.scope.tags
  by_cases hroom : p.left.scope.tags.next < Tags.limit
  · refine of_exec (exec_freshVar s hroom) (exec_freshVar t (htags ▸ hroom)) rfl
      fun hp => ⟨⟨hp.session, { hp.scope with tags := ?_ }⟩,
        (kinVar_iff rfl).2 (Var.twin_iff.2 ⟨?_, h⟩)⟩
    · exact congrArg (fun t : Tags => Tags.mk (t.next + 1)) htags
    · exact congrArg Tags.next htags
  · exact .of_outcome (exec_freshVar_of_full s (Nat.not_lt.1 hroom))
      (exec_freshVar_of_full t (Nat.not_lt.1 (htags ▸ hroom))) id (.refl p) fun _ => .error rfl

lemma pushStmt {mk mk' : Trace → Stmt} (h : ∀ trace, (mk trace).canon = (mk' trace).canon) :
    forms.Paired Γ p (pushStmt mk) (pushStmt mk') fun q _ _ => q.held = p.held :=
  modifyScope fun hp => by
    refine { hp with stmts := ?_ }
    rw [List.map_append, List.map_append, hp.stmts, List.map_singleton, List.map_singleton, h,
      hp.trace]

/-- Code that is the same is bound to new variables, which are akin from then on. -/
lemma bindNew {a b : Term} (hsame : a.canon = b.canon) {s t : Ty} (h : p.Tys s t)
    {f f' : Var → Eval Term} (hf : ∀ v v' q, p.Grows q → q.KinVar v v' →
      forms.Paired Γ q (f v) (f' v') Runs.Kin) :
    forms.Paired Γ p (do let v ← Eval.freshVar s; Eval.pushStmt (.letIn v a); f v)
      (do let v ← Eval.freshVar t; Eval.pushStmt (.letIn v b); f' v) Runs.Kin := by
  refine Paired.bind (freshVar h) fun v v' q hq hv => Moves.given fun hlinked => ?_
  have hvar := (kinVar_iff (linked_iff.1 hlinked).1).1 hv
  refine Paired.bind (pushStmt fun trace => ?_) fun _ _ r hr _ =>
    hf v v' r (hq.trans hr) (hr.kinVar hv)
  rw [Stmt.canon, Stmt.canon, hsame, hvar.same]

lemma bindResult {a b : Term} (hsame : a.canon = b.canon) {s t : Ty} (h : p.Tys s t) :
    forms.Paired Γ p (bindResult a s) (bindResult b t) Runs.Kin := by
  unfold Eval.bindResult
  rw [h.isUnit]
  split
  · refine Paired.bind (pushStmt fun trace => ?_) fun _ _ q hq _ =>
      .pure (Term.akin_ofUnit (hq.tys h))
    rw [Stmt.canon, Stmt.canon, hsame]
  · exact bindNew hsame h fun _ _ _ _ hv => .pure (Term.akin_var_iff.2 hv)

lemma draws : forms.Draws where
  exact_tags _ _ _ _ _ _ h := h.1
  freshVar h := freshVar h
  pushState h := (pushStmt fun trace => by rw [Stmt.canon, Stmt.canon, h trivial]).imp
    fun _ _ _ _ _ => trivial
  bindResult hsame h := bindResult (hsame trivial) h

/-! ### Emission -/

lemma emit {o : Op} {as bs : List Term} (h : List.Forall₂ p.Kin as bs) {s t : Ty}
    (hty : p.Tys s t) : forms.Paired Γ p (emit o as s) (emit o bs t) Runs.Kin := by
  refine Moves.given fun hp => .getSession ?_
  have hop : (Term.op o as s).canon = (Term.op o bs t).canon := draws.op_canon hp trivial h hty
  have happ : (Application.mk o as).canon = (Application.mk o bs).canon :=
    congrArg (Application.mk o) (draws.kins_canon hp h trivial)
  obtain ⟨-, -, htwin⟩ := linked_iff.1 hp
  rw [htwin.session.settings, hty.isUnit]
  split
  · have hget := htwin.scope.sharing.get? happ
    refine .getScope ?_
    generalize p.left.scope.sharing.get? ⟨o, as⟩ = found at hget ⊢
    generalize p.right.scope.sharing.get? ⟨o, bs⟩ = found' at hget ⊢
    cases hget with
    | @some v v' hv =>
      refine Paired.bind (R := fun q _ _ => q.KinVar v v')
        (of_exec (exec_modifyStats _ _) (exec_modifyStats _ _) rfl fun hp =>
          ⟨⟨{ hp.session with stats := ?_ }, hp.scope⟩, (kinVar_iff rfl).2 hv⟩)
        fun _ _ _ _ hv => .pure (Term.akin_var_iff.2 hv)
      exact congrArg (fun s : Stats => { s with sharingHits := s.sharingHits + 1 }) hp.session.stats
    | none =>
      refine bindNew hop hty fun v v' r hr hv => Moves.given fun hlinked => ?_
      have hvar := (kinVar_iff (linked_iff.1 hlinked).1).1 hv
      exact Paired.bind (modifyScope fun hp => { hp with sharing := hp.sharing.insert happ hvar })
        fun _ _ x hx _ => .pure (Term.akin_var_iff.2 (hx.kinVar hv))
  · exact draws.bindResult (fun _ => hop) hty

/-! ### Packing and reading packed values -/

/-- Twins are renamed alike. -/
theorem rename {start start' : EnvTable → Renaming} {act act' : Rename α} {R : α → α → Prop}
    (hstart : World.Twin p.held p.left p.right → (start p.left.session.envs).Twin p.held
      (start' p.right.session.envs))
    (h : Rename.Paired p.held (start p.left.session.envs)
      (start' p.right.session.envs) act act' R) :
    forms.Paired Γ p (Eval.rename start act) (Eval.rename start' act') fun q a b =>
      q.tags = .same ∧ q.held = p.held ∧ R a.1 b.1 ∧ a.2.Twin p.held b.2 := by
  refine Moves.given fun hp => ?_
  have hrun := h (hstart (linked_iff.1 hp).2.twin)
  have hexec := exec_rename start act p.left
  have hexec' := exec_rename start' act' p.right
  generalize act.run (start p.left.session.envs) = x at hrun hexec
  generalize act'.run (start' p.right.session.envs) = x' at hrun hexec'
  cases hrun with
  | none => exact .of_outcome hexec hexec' id (.refl p) fun _ => .error rfl
  | some h =>
    exact of_exec hexec hexec' rfl fun hp =>
      ⟨⟨{ hp.session with envs := h.2.envs }, hp.scope⟩, rfl, rfl, h⟩

lemma start_twin (h : World.Twin held p.left p.right) :
    Renaming.Twin held { envs := p.left.session.envs } { envs := p.right.session.envs } :=
  ⟨h.session.envs, rfl, rfl, .nil, .nil⟩

lemma envVars {d e : Env} (h : d.Twin p.held e) (hd : d.Formed) (he : e.Formed) :
    forms.Paired Γ p (envVars d) (envVars e) fun q => List.Forall₂ (Var.Twin q.held) :=
  Paired.bind (rename start_twin (Rename.paired_env d e hd he h _ _))
    fun _ _ _ _ hr => .pure (hr.2.1 ▸ hr.2.2.2.args)

lemma readPacked {v v' : Var} (hv : p.KinVar v v') {vs vs' : List Var}
    (h : List.Forall₂ (Var.Twin p.held) vs vs') (i : Nat) :
    forms.Paired Γ p (readPacked v i vs) (readPacked v' i vs') fun _ s s' => s = s' := by
  induction vs generalizing p vs' i with
  | nil =>
    cases h
    exact .pure rfl
  | cons u vs ih =>
    cases h with
    | @cons _ u' _ vs' hu hrest =>
      obtain ⟨htag, hty⟩ := Var.twin_iff.1 hu
      refine Paired.bind (emit (.cons (Term.akin_var_iff.2 hv) .nil) hty) fun t t' q hq ht =>
        Moves.given fun hlinked => ?_
      have htwin : t.Twin q.held t' := (kin_iff (linked_iff.1 hlinked).1).1 ht
      refine Paired.bind (ih (hq.kinVar hv) (hrest.imp fun _ _ h => h.mono hq.held) (i + 1))
        fun s s' _ _ hs => ?_
      subst hs
      cases htwin.heads with
      | var hnew => exact .pure (by rw [htag, (Var.twin_iff.1 hnew).1])
      | _ => exact .pure rfl

lemma unpack {v v' : Var} (hv : p.KinVar v v') {d e : Env} (h : d.Twin p.held e)
    (hd : d.Formed) (he : e.Formed) : forms.Paired Γ p (unpack v d) (unpack v' e) Runs.KinEnv := by
  refine Paired.bind (envVars h hd he) fun vs vs' q hq hvs => ?_
  refine Paired.bind (readPacked (hq.kinVar hv) hvs 0) fun s s' r hr hs => .getScope ?_
  subst hs
  have htwin : d.Twin r.held e := h.mono (hq.trans hr).held
  refine Paired.bind (rename (fun hw => ?_) (Rename.paired_env d e hd he htwin _ _))
    fun x x' q' _ ⟨hT, hheld, henv, hx⟩ => ?_
  · exact ⟨hw.session.envs, hw.scope.tags, rfl, .nil, .nil⟩
  · refine Paired.bind (modifyScope fun hw => { hw with tags := hx.tags }) fun _ _ r' hr' _ =>
      .pure (hr'.kinEnv ?_)
    rw [kinEnv_iff hT, hheld]
    exact henv

lemma pack {d e : Env} {kind kind' : MapKind} (h : p.KinEnv d e)
    (hd : lax.Value p.left (.map d kind)) (he : lax.Value p.right (.map e kind')) :
    forms.Paired Γ p (Eval.rename (fun envs => { envs }) (Rename.env d))
      (Eval.rename (fun envs => { envs }) (Rename.env e)) fun q r r' =>
        r.1.Twin q.held r'.1 ∧ List.Forall₂ q.KinVar r.2.args r'.2.args := by
  refine Moves.given fun hp => ?_
  have htwin := (kinEnv_iff (linked_iff.1 hp).1).1 h
  refine (rename start_twin (Rename.paired_env d e hd.formed.1 he.formed.1 htwin _ _)).imp
    fun q r r' _ ⟨hT, hheld, henv, hr⟩ => ⟨hheld ▸ henv, hr.args.imp fun v w hvw => ?_⟩
  rw [kinVar_iff hT, hheld]
  exact hvw

/-! ### Entering captured values -/

lemma paired_renameCaptures {values values' : Fields Term} (h : Fields.Twin held values values')
    (hv : ∀ e ∈ values, e.2.Formed) (hv' : ∀ e ∈ values', e.2.Formed)
    {arg arg' : Option ClosureArg} (harg : Option.Rel (fun a a' : ClosureArg =>
      a.name = a'.name ∧ a.dom.Twin held a'.dom) arg arg') (r r' : Renaming) :
    Rename.Paired held r r' (renameCaptures values arg) (renameCaptures values' arg')
      fun c c' => Fields.Twin held c.1 c'.1 ∧ Option.Rel (Var.Twin held) c.2 c'.2 := by
  unfold renameCaptures
  rw [mapM_term_eq_inOrder, mapM_term_eq_inOrder]
  refine (Rename.paired_inOrder h fun d hd e he hde r r' =>
    Rename.paired_term d.2 e.2 (hv d hd) (hv' e he) hde r r').bind
      fun captures captures' s s' hc => ?_
  cases harg with
  | none => exact .pure ⟨hc.ofList, .none⟩
  | @some a a' ha =>
    obtain ⟨x, dom⟩ := a
    obtain ⟨y, dom'⟩ := a'
    obtain ⟨rfl, hdom⟩ := ha
    dsimp only
    rw [hdom.isUnit]
    refine (Rename.paired_freshVar hdom).bind fun v v' _ _ hvar =>
      .pure ⟨(hc.append ?_).ofList, .some hvar⟩
    split
    · exact Fields.twin_cons_iff.2 ⟨⟨rfl, hdom.ofUnit⟩, Fields.twin_nil⟩
    · exact Fields.twin_cons_iff.2 ⟨⟨rfl, Term.twin_var_iff.2 hvar⟩, Fields.twin_nil⟩

lemma entered {body : Expr} {arg arg' : Option ClosureArg} {values values' : Fields Term}
    (hvalues : p.SameFields values values') (harg : Option.Rel p.SameArg arg arg') :
    forms.Paired Γ p (entered body arg values) (entered body arg' values') forms.Requests := by
  refine Moves.given fun hp => ?_
  obtain ⟨hT, -, htwin⟩ := linked_iff.1 hp
  have hfields : Fields.Twin p.held values values' := (kinFields_iff hT).1 hvalues.kin
  have hrun := paired_renameCaptures hfields (fun e he => (hvalues.lefts e he).formed)
    (fun e he => (hvalues.rights e he).formed)
    (optionRel_imp (fun _ _ h => ⟨h.1, h.2.twin⟩) harg) _ _ (start_twin htwin)
  generalize hl : (renameCaptures values arg).run { envs := p.left.session.envs } = x at hrun
  generalize hr : (renameCaptures values' arg').run { envs := p.right.session.envs } = x' at hrun
  cases hrun with
  -- Both renamings run out of tags.
  | none =>
    exact .of_outcome (exec_entered_of_full hl) (exec_entered_of_full hr) id (.refl p)
      fun _ => .error rfl
  -- The renamed captures agree, so the keys do.
  | @some x x' h =>
    obtain ⟨⟨captures, closureParam⟩, r⟩ := x
    obtain ⟨⟨captures', closureParam'⟩, r'⟩ := x'
    obtain ⟨⟨hcaptures, hparam⟩, hr'⟩ := h
    obtain ⟨hsymbol, hvalue, henvs⟩ := hr'.envs.enter hcaptures
    have hdata : (KeyData.mk body (r.envs.enter captures).1.symbol
        (r.envs.enter captures).1.value).canon = (KeyData.mk body
          (r'.envs.enter captures').1.symbol (r'.envs.enter captures').1.value).canon := by
      rw [KeyData.canon, KeyData.canon, hsymbol, hvalue.same]
    have hkeys : List.Forall₂ (fun a b => KeyData.canon a = KeyData.canon b)
        p.left.session.keys.entries p.right.session.keys.entries :=
      forall₂_map_iff.2 htwin.session.keys
    obtain ⟨hkey, -, hentries⟩ :=
      Interner.intern_of_related (fun h k => KeyData.beq_of_canon h k) hkeys hdata
    refine of_exec (exec_entered hl) (exec_entered hr) rfl fun hp =>
      ⟨⟨{ hp.session with envs := henvs, keys := forall₂_map_iff.1 hentries }, hp.scope⟩, ?_⟩
    exact {
      key := congrArg Key.mk hkey
      args := hr'.args.imp fun _ _ => Var.akin_same_iff.2
      params := fun _ => (Twin.forall₂_iff.1 hr'.params).1
      closureParam := fun _ => by
        cases hparam with
        | none => rfl
        | some h => exact congrArg some h.same
      body := ⟨.same, Fields.akin_same_iff.2 hvalue, rfl, hr'.tags, rfl, .nil, rfl⟩ }

/-! ### The laws -/

lemma laws : forms.Laws where
  toDraws := draws
  refuses _ _ h := by cases h
  exact_stmts _ _ _ _ _ _ h := h.2.stmts
  sessions_mono h hst :=
    { h with envs := h.envs.imp fun _ _ h => h.mono (MapKind.Backed.mono hst) }
  scopes_mono h hst :=
    ⟨h.1, { h.2 with sharing := h.2.sharing.mono (MapKind.Backed.mono hst) }⟩
  enterBranch h := ⟨h.1, h.2.tags, rfl, h.2.sharing.push⟩
  drawn h h' _ _ _ := ⟨h.1, { h.2 with tags := h'.2.tags }⟩
  emit h hty _ := emit h hty
  envVars h hd he := .of_paired (envVars h hd he)
  unpack hv h hd he := .of_paired (unpack hv h hd he)
  pack h hd he _ := .of_paired (pack h hd he)
  entered hvalues _ harg _ _ := .of_paired (entered hvalues harg)

end Coupling.Forms

namespace Eval

open Coupling (forms)
open Coupling.Forms

variable {Γ : List Stmt} {w w' : World} {m m' : Eval Term} {a b : Term}

/-! ### Worlds that are alike -/

lemma alike_iff : forms.Alike Γ ⟨.same, w, w'⟩ ↔ Alike w w' :=
  ⟨fun h => ⟨(linked_iff.1 h.toLinked).2, h.left, h.right⟩,
    fun h => ⟨linked_iff.2 ⟨rfl, h.toTwinned⟩, h.left, h.right⟩⟩

lemma Same.coupled (h : Same w w' a b) : Runs.Same ⟨.same, w, w'⟩ a b :=
  ⟨Term.akin_same_iff.2 h.twin, h.left, h.right⟩

/-- Coupled steps match: no run ends at a limit at which the other one goes on. -/
theorem Matches.of_coupled (h : forms.Matches Γ ⟨.same, w, w'⟩ m m' Runs.Kin) :
    Matches w w' m m' TwinResults := by
  intro hw
  rcases h (alike_iff.2 hw) with ⟨hlenient, -⟩ | ⟨q, hl, hr, -, hlinked, hout⟩
  · exact hlenient.elim
  · obtain ⟨hT, htwinned⟩ := linked_iff.1 hlinked
    rw [← hl, ← hr]
    exact ⟨htwinned, hout.imp fun _ _ => (kin_iff hT).1⟩

lemma coupled_eval (fuel : Nat) (Γ : List Stmt) :
    forms.Uniform Γ (eval fuel) (eval fuel) := by
  have h := Coupling.uniform_eval laws fuel Γ
  rwa [show forms.admits = fun _ _ => true from rfl, evalAdmitting_all] at h

/-- Evaluation reads of its environment only what the free names of the expression are bound to,
and of a value that holds an environment only what its names are bound to. -/
theorem uniform_eval (fuel : Nat) : Uniform (eval fuel) := by
  refine ⟨(coupled_eval fuel []).left, fun e w w' he => .of_coupled
    ((coupled_eval fuel []).same ?_)⟩
  refine ⟨he.held, he.agree.imp Env.akin_same_iff.2 fun ⟨hlisted, hfree⟩ =>
    ⟨hlisted, fun x hx => ?_⟩⟩
  exact optionRel_imp (fun _ _ => Term.akin_same_iff.2) (hfree x hx)

end Eval

end Residual
