import Residual.Proofs.Eval.Regions

/-!
The judgement that code is emitted for a region, and the steps that emit it.
-/

namespace Residual.Region

open Eval

variable {i j : Region} {w w' : World} {α β : Type}

/-- From a world that is ready for the region the step goes to one that is ready and has all that
was there, whether the step succeeds or fails. A result has the property. -/
def Does (i : Region) (w : World) (m : Eval α) (Q : α → World → Prop) : Prop :=
  i.Ready w → i.Ready (exec m w).2 ∧ w.Framed (exec m w).2 ∧
    ∀ a, (exec m w).1 = .ok a → Q a (exec m w).2

namespace Does

variable {m : Eval α} {f : α → Eval β} {P : α → World → Prop} {Q : β → World → Prop}

lemma pure {a : α} (h : i.Ready w → P a w) : i.Does w (pure a) P :=
  fun hw => ⟨hw, .refl w, fun b hb => by cases hb; exact h hw⟩

lemma throw (s : Stop) : i.Does w (throw s : Eval α) P :=
  fun hw => ⟨hw, .refl w, fun b hb => by cases hb⟩

lemma fail (c : Cause) : i.Does w (Eval.fail c : Eval α) P :=
  fun hw => ⟨hw, .refl w, fun b hb => by cases hb⟩

lemma given (h : i.Ready w → i.Does w m P) : i.Does w m P := fun hw => h hw hw

lemma imp {P' : α → World → Prop} (h : i.Does w m P)
    (hP : ∀ a w', w.Framed w' → P a w' → P' a w') : i.Does w m P' :=
  fun hw => let ⟨h1, h2, h3⟩ := h hw; ⟨h1, h2, fun a ha => hP a _ h2 (h3 a ha)⟩

lemma bind (hm : i.Does w m P)
    (hf : ∀ a w', w.Framed w' → P a w' → i.Does w' (f a) Q) : i.Does w (m >>= f) Q := by
  intro hw
  obtain ⟨hready, hframed, hP⟩ := hm hw
  rcases hrun : exec m w with ⟨r, w'⟩
  rw [hrun] at hready hframed hP
  cases r with
  | error s =>
    rw [exec_bind_of_error hrun]
    exact ⟨hready, hframed, fun a ha => by cases ha⟩
  | ok a =>
    rw [exec_bind_of_ok hrun]
    obtain ⟨hready', hframed', hQ⟩ := hf a w' hframed (hP a rfl) hready
    exact ⟨hready', hframed.trans hframed', hQ⟩

lemma getScope {f : Scope → Eval β} (h : i.Does w (f w.scope) Q) :
    i.Does w (Eval.getScope >>= f) Q :=
  h

lemma getSession {f : Session → Eval β} (h : i.Does w (f w.session) Q) :
    i.Does w (Eval.getSession >>= f) Q :=
  h

/-- A step that succeeds from `w` and leaves the world `w'` behind. -/
theorem of_exec {a : α} (hm : exec m w = (.ok a, w'))
    (h : i.Ready w → i.Ready w' ∧ w.Framed w' ∧ P a w') : i.Does w m P := by
  intro hw
  obtain ⟨hready, hframed, hP⟩ := h hw
  rw [hm]
  exact ⟨hready, hframed, fun b hb => by cases hb; exact hP⟩

/-- A step with a known outcome. -/
theorem of_outcome {r : Except Stop α} (hm : exec m w = (r, w')) (hready : i.Ready w')
    (hframed : w.Framed w') (hP : ∀ a, r = .ok a → P a w') : i.Does w m P := by
  intro _
  rw [hm]
  exact ⟨hready, hframed, hP⟩

lemma ran (h : i.Does w m P) : i.Does w m fun a w' => P a w' ∧ exec m w = (.ok a, w') := by
  intro hw
  obtain ⟨h1, h2, h3⟩ := h hw
  exact ⟨h1, h2, fun a ha => ⟨h3 a ha, Prod.ext ha rfl⟩⟩

/-- The results of a list of steps, with a property that later worlds keep. -/
theorem mapM {f : α → Eval β} {P : β → World → Prop} {l : List α}
    (hmono : ∀ b w w', World.Framed w w' → P b w → P b w')
    (h : ∀ a ∈ l, ∀ w', w.Framed w' → i.Does w' (f a) P) :
    i.Does w (l.mapM f) fun bs w' => ∀ b ∈ bs, P b w' := by
  induction l generalizing w with
  | nil => exact .pure fun _ b hb => absurd hb List.not_mem_nil
  | cons a l ih =>
    rw [List.mapM_cons]
    refine (h a (List.mem_cons_self ..) w (.refl w)).bind fun b w₁ hw₁ hb => ?_
    have hrest : ∀ a ∈ l, ∀ w', w₁.Framed w' → i.Does w' (f a) P :=
      fun a ha w' hw' => h a (List.mem_cons_of_mem _ ha) w' (hw₁.trans hw')
    refine (ih hrest).bind fun bs w₂ hw₂ hbs => .pure fun _ => ?_
    exact List.forall_mem_cons.2 ⟨hmono b _ _ hw₂ hb, hbs⟩

/-- Steps that give values. -/
theorem mapM_value {f : α → Eval Term} {l : List α}
    (h : ∀ a ∈ l, ∀ w', w.Framed w' → i.Does w' (f a) fun t w' => i.Value w' t) :
    i.Does w (l.mapM f) fun ts w' => ∀ t ∈ ts, i.Value w' t :=
  mapM (fun _ _ _ hw ht => ht.mono hw) h

end Does

/-! ### Changes of the session -/

lemma Ready.setSession {s' : Session} (hw : i.Ready w)
    (hext : w.session.envs.Extends s'.envs) (hformed : s'.Formed) (hsound : s'.Sound i.asks) :
    i.Ready { w with session := s' } := by
  have hle : Le i w i { w with session := s' } := ⟨rfl, hext, List.Subset.refl _⟩
  refine ⟨hformed, hsound, hw.env.le hle, fun e he => (hw.sharing e he).le hle, fun s hs => ?_,
    fun htracked => (hw.laid htracked).of_stmts rfl (Nat.le_refl _)⟩
  exact (hw.fits s hs).imp fun ty hty => hty.mono hle.ground

/-- Only the tables have grown. -/
theorem Ready.quiet {s' : Session} (hw : i.Ready w) (hq : w.session.Quiet s')
    (hstore : s'.store.Sorted) (hformed : s'.envs.Formed) (hsound : s'.envs.Sound i.asks) :
    i.Ready { w with session := s' } ∧ w.Framed { w with session := s' } := by
  have hpoints : s'.points = w.session.points := by rw [hq.rest]
  have hrec : s'.recTypes = w.session.recTypes := by rw [hq.rest]
  refine ⟨hw.setSession hq.grows.envs ⟨hstore, hformed, ?_, ?_⟩
    (hw.sound.setEnvs hq.grows.envs hsound hpoints hrec),
    (Discipline.frame.quiet (i := ()) trivial hq).2⟩
  · rw [hpoints]
    exact hw.session.points
  · rw [hrec]
    exact hw.session.recTypes

lemma does_modifyStats (f : Stats → Stats) (hf : ∀ s, (f s).bodies = s.bodies) :
    i.Does w (modifyStats f) fun _ _ => True := by
  refine .of_exec (exec_modifyStats f w) fun hw => ?_
  have hq : w.session.Quiet { w.session with stats := f w.session.stats } :=
    ⟨⟨.refl _, .refl _, .refl _⟩, hf _, rfl⟩
  obtain ⟨hready, hframed⟩ := hw.quiet hq hw.session.store hw.session.envs hw.sound.envs
  exact ⟨hready, hframed, trivial⟩

lemma does_build {act : Build α} {P : α → Prop} (h : Build.Does True act P) :
    i.Does w (build act) fun a _ => P a := by
  refine .of_exec (exec_build act w) fun hw => ?_
  obtain ⟨hgrow, hsorted, hP⟩ := h w.session.store fun _ => hw.session.store
  have hq : w.session.Quiet { w.session with store := (act.run w.session.store).2 } :=
    ⟨⟨hgrow, .refl _, .refl _⟩, rfl, rfl⟩
  obtain ⟨hready, hframed⟩ := hw.quiet hq (hsorted trivial) hw.session.envs hw.sound.envs
  exact ⟨hready, hframed, hP⟩

lemma Ready.setEnvs {envs : EnvTable} (hw : i.Ready w) (hext : w.session.envs.Extends envs)
    (hformed : envs.Formed) (hsound : envs.Sound i.asks) :
    i.Ready (w.setEnvs envs) ∧ w.Framed (w.setEnvs envs) :=
  hw.quiet ⟨⟨.refl _, hext, .refl _⟩, rfl, rfl⟩ hw.session.store hformed hsound

/-- A renaming that starts without arguments. -/
theorem does_rename {start : EnvTable → Renaming} {act : Rename α} {P : α → Prop}
    {Q : Renaming → α → Prop}
    (hstart : ∀ envs, (start envs).envs = envs ∧ (start envs).args = [] ∧
      (start envs).params = [])
    (hkeeps : Rename.Keeps act P)
    (hsounds : Rename.Sounds i.asks (start w.session.envs) act Q) :
    i.Does w (rename start act) fun a w' =>
      act.run (start w.session.envs) = some a ∧ w' = w.setEnvs a.2.envs ∧ P a.1 ∧ a.2.Formed ∧
        (start w.session.envs).Later a.2 ∧ Q a.2 a.1 := by
  intro hw
  rw [exec_rename]
  cases hrun : act.run (start w.session.envs) with
  | none => exact ⟨hw, .refl w, fun b hb => by cases hb⟩
  | some r =>
    obtain ⟨a, r⟩ := r
    obtain ⟨hbase, hargs, hparams⟩ := hstart w.session.envs
    have hformed : r.Formed ∧ P a := by
      refine hkeeps _ _ _ hrun ⟨?_, ?_, ?_, ?_⟩
      · rw [hbase]
        exact hw.session.envs
      · simp [hargs]
      · simp [hargs]
      · simp [hparams]
    obtain ⟨hsound, hlater, hQ⟩ := hsounds (by rw [hbase]; exact hw.sound.envs) a r hrun
    have hext : w.session.envs.Extends r.envs := by
      have h := hlater.envs
      rwa [hbase] at h
    obtain ⟨hready, hframed⟩ := hw.setEnvs hext hformed.1.envs hsound
    refine ⟨hready, hframed, fun b hb => ?_⟩
    cases hb
    exact ⟨rfl, rfl, hformed.2, hformed.1, hlater, hQ⟩

/-! ### New tags and statements -/

lemma Ready.setTags {t : Tags} (hw : i.Ready w) (ht : w.scope.tags.next ≤ t.next) :
    i.Ready (w.setTags t) ∧ w.Framed (w.setTags t) := by
  exact ⟨hw.of_stmts rfl rfl ht hw.env hw.sharing,
    (Discipline.frame.tags (i := ()) trivial ht).2⟩

lemma does_freshVar (ty : Ty) :
    i.Does w (freshVar ty) fun v w' =>
      v = ⟨w.scope.tags.next, ty⟩ ∧ w' = w.setTags ⟨w.scope.tags.next + 1⟩ := by
  have htag : i.Does w freshTag fun tag w' =>
      tag = w.scope.tags.next ∧ w' = w.setTags ⟨w.scope.tags.next + 1⟩ := by
    refine .getScope ?_
    cases hf : w.scope.tags.fresh? with
    | none => exact .throw _
    | some r =>
      obtain ⟨tag, ⟨next⟩⟩ := r
      obtain ⟨-, rfl, hnext⟩ := Tags.fresh?_eq_some_iff.1 hf
      obtain rfl : next = w.scope.tags.next + 1 := hnext
      refine .of_exec rfl fun hw => ?_
      obtain ⟨hready, hframed⟩ := hw.setTags (t := ⟨w.scope.tags.next + 1⟩) (Nat.le_succ _)
      exact ⟨hready, hframed, rfl, rfl⟩
  exact htag.bind fun tag w' _ htag => .pure fun _ => ⟨by rw [htag.1], htag.2⟩

/-- A statement is added whose code can be emitted, and which binds at most the latest tag. -/
theorem Ready.push {s : Stmt} (hw : i.Ready w)
    (hfits : s.Fits i.asks.typed (Ty.Sound (i.ground w)))
    (hscope : i.asks.tracked → s.term.Scoped (i.scope w))
    (hnodup : i.asks.tracked → (bound w ++ s.bound).Nodup)
    (hrange : i.asks.tracked → ∀ tag ∈ s.bound, i.first ≤ tag ∧ tag < w.scope.tags.next)
    (hrenamable : i.asks.tracked → s.term.Renamable) :
    i.Ready (w.push s) ∧ w.Framed (w.push s) := by
  have hframed : w.Framed (w.push s) :=
    (Discipline.frame.push (i := ()) trivial fun h => h.elim).2
  have hbound : bound (w.push s) = bound w ++ s.bound := by
    rw [bound, bound, World.push, List.flatMap_append, List.flatMap_singleton]
  refine ⟨⟨hw.session, hw.sound, hw.env.mono hframed, fun e he => (hw.sharing e he).mono hframed,
    ?_, fun htracked => ?_⟩, hframed⟩
  · exact List.forall_mem_append.2 ⟨hw.fits, List.forall_mem_singleton.2 hfits⟩
  · have hlaid := hw.laid htracked
    refine ⟨hlaid.oneType, hlaid.below, hlaid.first,
      Stmt.allScoped_append.2 ⟨hlaid.stmts, hscope htracked, trivial⟩, ?_, ?_, ?_⟩
    · rw [hbound]
      exact hnodup htracked
    · rw [hbound]
      exact List.forall_mem_append.2 ⟨hlaid.range, hrange htracked⟩
    · exact List.forall_mem_append.2
        ⟨hlaid.renamable, List.forall_mem_singleton.2 (hrenamable htracked)⟩

lemma does_pushStmt {mk : Trace → Stmt}
    (h : i.Ready w → i.Ready (w.push (mk w.scope.trace)) ∧ w.Framed (w.push (mk w.scope.trace))) :
    i.Does w (pushStmt mk) fun _ w' => w' = w.push (mk w.scope.trace) := by
  have hrun : exec (pushStmt mk) w = (.ok (), w.push (mk w.scope.trace)) := rfl
  exact .of_exec hrun fun hw => ⟨(h hw).1, (h hw).2, rfl⟩

/-- Code without a result becomes a statement. -/
theorem does_state {t : Term} (ht : i.Code w t) (hunit : t.ty.isUnit = true) :
    i.Does w (pushStmt (.state t)) fun _ _ => True := by
  refine (does_pushStmt fun hw => ?_).imp fun _ _ _ _ => trivial
  refine hw.push ⟨ht.fits, fun rest => ⟨fun _ => hunit, ?_⟩⟩ ht.inScope ?_ ?_ ht.renamable
  · exact fun ty hty => absurd hty List.not_mem_nil
  · simpa [Stmt.bound, Stmt.term, Stmt.binds] using ht.nodup
  · simpa [Stmt.bound, Stmt.term, Stmt.binds] using ht.range

/-- Code with a result is bound to the next tag. -/
theorem Ready.letIn {t : Term} (hw : i.Ready w) (ht : i.Code w t) (hdata : t.ty.isUnit = false)
    (trace : Trace) :
    let w' := (w.setTags ⟨w.scope.tags.next + 1⟩).push
      (.letIn ⟨w.scope.tags.next, t.ty⟩ t trace)
    i.Ready w' ∧ w.Framed w' ∧ i.Value w' (.var ⟨w.scope.tags.next, t.ty⟩) := by
  intro w'
  obtain ⟨hready, hframed⟩ := hw.setTags (t := ⟨w.scope.tags.next + 1⟩) (Nat.le_succ _)
  have hle := le_of_framed i hframed
  have hbelow : i.asks.tracked → ∀ tag ∈ bound w ++ t.bound, tag < w.scope.tags.next :=
    fun htracked => List.forall_mem_append.2 ⟨fun tag htag => ((hw.laid htracked).range tag htag).2,
      fun tag htag => (ht.range htracked tag htag).2⟩
  have hpush : i.Ready w' ∧ (w.setTags ⟨w.scope.tags.next + 1⟩).Framed w' := by
    refine hready.push ⟨fun n hn => (ht.fits n hn).imp fun ty hty => hty.mono hle.ground,
      fun rest => ⟨fun _ => ⟨rfl, hdata⟩, ?_⟩⟩ ht.inScope (fun htracked => ?_)
      (fun htracked => ?_) ht.renamable
    · exact List.forall_mem_singleton.2 (ht.ty.mono hframed).sound
    · change (bound w ++ (t.bound ++ [w.scope.tags.next])).Nodup
      rw [← List.append_assoc, List.nodup_append]
      refine ⟨ht.nodup htracked, by simp, fun a ha b hb heq => ?_⟩
      rw [List.mem_singleton.1 hb] at heq
      exact Nat.ne_of_lt (hbelow htracked a ha) heq
    · refine List.forall_mem_append.2 ⟨fun tag htag => ?_, List.forall_mem_singleton.2
        ⟨(hw.laid htracked).first, Nat.lt_succ_self _⟩⟩
      obtain ⟨hfirst, hlt⟩ := ht.range htracked tag htag
      exact ⟨hfirst, Nat.lt_succ_of_lt hlt⟩
  have hframed' := hframed.trans hpush.2
  refine ⟨hpush.1, hframed', value_var (ht.ty.mono hframed') fun _ => .of_mem ?_⟩
  exact List.mem_append_right _ (List.mem_flatMap.2
    ⟨_, List.mem_append_right _ (List.mem_singleton_self _), List.mem_singleton_self _⟩)

/-- Code with a result is bound, and evaluation goes on with the variable. -/
theorem does_letIn {t : Term} {f : Var → Eval β} {Q : β → World → Prop} (ht : i.Code w t)
    (hdata : t.ty.isUnit = false)
    (hf : ∀ v w', w.Framed w' → v.ty = t.ty → i.Value w' (.var v) →
      w'.scope.sharing = w.scope.sharing → i.Does w' (f v) Q) :
    i.Does w (do
      let v ← freshVar t.ty
      pushStmt (.letIn v t)
      f v) Q := by
  intro hw
  rcases hfresh : exec (freshVar t.ty) w with ⟨r, w₁⟩
  have hvar := does_freshVar t.ty hw
  rw [hfresh] at hvar
  cases r with
  | error s =>
    rw [exec_bind_of_error hfresh]
    exact ⟨hvar.1, hvar.2.1, fun a ha => by cases ha⟩
  | ok v =>
    obtain ⟨rfl, rfl⟩ := hvar.2.2 v rfl
    obtain ⟨hready, hframed, hvalue⟩ := hw.letIn ht hdata w.scope.trace
    rw [exec_bind_of_ok hfresh]
    obtain ⟨h1, h2, h3⟩ := hf _ _ hframed rfl hvalue rfl hready
    exact ⟨h1, hframed.trans h2, h3⟩

lemma does_bindResult {t : Term} (ht : i.Code w t) :
    i.Does w (bindResult t t.ty) fun v w' => i.Value w' v ∧ v.ty = t.ty := by
  unfold bindResult
  split
  · rename_i hunit
    refine (does_state ht hunit).bind fun _ w' hw' _ => .pure fun _ => ⟨?_, ?_⟩
    · exact (ht.ty.mono hw').ofUnit
    · exact Term.ty_ofUnit t.ty
  · rename_i hdata
    refine does_letIn ht (Bool.eq_false_iff.2 hdata) fun v w' _ hty hv _ => .pure fun _ => ?_
    refine ⟨hv, ?_⟩
    cases v
    exact hty

/-- Code with a result becomes a variable. -/
theorem does_bindResult_var {t : Term} (ht : i.Code w t) (hdata : t.ty.isUnit = false) :
    i.Does w (bindResult t t.ty) fun v w' =>
      ∃ u, v = .var u ∧ u.ty = t.ty ∧ i.Value w' (.var u) := by
  unfold bindResult
  rw [hdata]
  exact does_letIn ht hdata fun v w' _ hty hv _ => .pure fun _ => ⟨v, rfl, hty, hv⟩

/-! ### Operations -/

/-- An operation on values, by its rule. -/
theorem Code.op {o : Op} {args : List Term} {ty : Ty} (hw : i.Ready w) (ho : o ≠ .case)
    (hargs : ∀ t ∈ args, i.Value w t) (hty : i.Shape w ty)
    (hrule : i.asks.typed → o.Obeys args ty) : i.Code w (.op o args ty) := by
  refine .of_bound hw hty ?_ (fun htracked => ?_) ?_ fun htracked => ?_
  · refine List.forall_mem_cons.2 ⟨⟨hrule, List.forall_mem_singleton.2 hty.sound⟩, fun n hn => ?_⟩
    obtain ⟨t, ht, hn⟩ := Term.mem_nodesOfAll.1 hn
    exact ((hargs t ht).code hw).fits n hn
  · rw [Term.Scoped, if_neg ho]
    exact Term.allScoped_iff.2 fun t ht => ((hargs t ht).code hw).inScope htracked
  · rw [Term.bound, if_neg ho, Term.boundOfAll_eq]
    exact List.flatMap_eq_nil_iff.2 fun t ht => (hargs t ht).formed.bound_eq
  · rw [Term.Renamable, if_neg ho]
    exact Term.allRenamable_iff.2 fun t ht => (hargs t ht).formed.renamable

/-- The call of a join point with run-time data in scope. -/
theorem Code.call {key : Key} {kind : PointKind} {args : List Var} {ty : Ty} (hw : i.Ready w)
    (hargs : ∀ v ∈ args, i.Value w (.var v) ∧ v.ty.isUnit = false) (hty : i.Shape w ty) :
    i.Code w (.call key kind args ty) := by
  refine .of_bound hw hty ?_ (fun htracked v hv => ?_) rfl fun _ v hv => (hargs v hv).2
  · refine List.forall_mem_singleton.2 ⟨fun _ => trivial, List.forall_mem_cons.2 ⟨hty.sound, ?_⟩⟩
    exact List.forall_mem_map.2 fun v hv => (hargs v hv).1.var_ty.sound
  · exact (hargs v hv).1.inScope htracked v (List.mem_singleton_self v)

lemma Ready.share {a : Application} {v : Var} (hw : i.Ready w) (hv : i.Value w (.var v))
    (hnone : w.scope.sharing.get? a = none) :
    i.Ready (w.share a v) ∧ w.Framed (w.share a v) := by
  refine ⟨hw.of_stmts rfl rfl (Nat.le_refl _) hw.env ?_,
    .share hnone v⟩
  exact List.forall_mem_cons.2 ⟨hv, fun e he => hw.sharing e (List.mem_filter.1 he).1⟩

lemma does_share {a : Application} {v : Var} (hv : i.Value w (.var v))
    (hnone : w.scope.sharing.get? a = none) :
    i.Does w (modifyScope fun s => { s with sharing := s.sharing.insert a v })
      fun _ _ => True := by
  have hrun : exec (modifyScope fun s => { s with sharing := s.sharing.insert a v }) w =
      (.ok (), w.share a v) := rfl
  refine .of_exec hrun fun hw => ?_
  obtain ⟨hready, hframed⟩ := hw.share hv hnone
  exact ⟨hready, hframed, trivial⟩

lemma does_emit {o : Op} {args : List Term} {ty : Ty} (ho : o ≠ .case)
    (hargs : ∀ t ∈ args, i.Value w t) (hty : i.Shape w ty)
    (hrule : i.asks.typed → o.Obeys args ty) :
    i.Does w (emit o args ty) fun v w' => i.Value w' v := by
  refine .given fun hw => .getSession ?_
  have hcode : i.Code w (.op o args ty) := .op hw ho hargs hty hrule
  split
  · rename_i hshared
    have hdata : ty.isUnit = false := by
      simp only [Bool.and_eq_true, Bool.not_eq_true'] at hshared
      exact hshared.2
    refine .getScope ?_
    cases hget : w.scope.sharing.get? ⟨o, args⟩ with
    | some v =>
      obtain ⟨b, hb⟩ := Discipline.mem_of_lookup_application hget
      exact (does_modifyStats _ fun _ => by rfl).bind fun _ w' hw' _ =>
        .pure fun _ => (hw.sharing _ hb).mono hw'
    | none =>
      refine does_letIn hcode hdata fun v w' _ _ hv hsharing => ?_
      have hnone : w'.scope.sharing.get? ⟨o, args⟩ = none := by rw [hsharing, hget]
      exact (does_share hv hnone).bind fun _ w₂ hw₂ _ => .pure fun _ => hv.mono hw₂
  · exact (does_bindResult hcode).imp fun _ _ _ hv => hv.1

end Residual.Region
