import Residual.Proofs.Eval.Points

/-!
Evaluation keeps to a discipline: by induction on the nesting of steps, from what each kind of
step does.
-/

namespace Residual.Discipline

open Eval

variable {D : Discipline} {i : D.Index} {w : World} {ev ev' : Expr → Eval Term}

/-! ### Scopes -/

lemma good_setEnv (hw : D.Good i w) {env : Env} (henv : D.strict → env.Formed) :
    D.Good i (w.setEnv env) :=
  ⟨D.setEnv env hw.1, fun hs => ⟨(hw.2 hs).session, henv hs, (hw.2 hs).sharing⟩⟩

lemma good_setTrace (hw : D.Good i w) (trace : Trace) : D.Good i (w.setTrace trace) :=
  ⟨D.setTrace trace hw.1, fun hs => ⟨(hw.2 hs).session, (hw.2 hs).env, (hw.2 hs).sharing⟩⟩

lemma good_enterBranch (hw : D.Good i w) : D.Good (D.within i w.scope.stmts) w.enterBranch :=
  ⟨D.enterBranch hw.1, fun hs => ⟨(hw.2 hs).session, (hw.2 hs).env, (hw.2 hs).sharing⟩⟩

lemma sharing_pop_mem {t : Sharing} {e : Application × Var} (h : e ∈ t.pop.entries) :
    e ∈ t.entries := by
  have herase : ∀ (scope : List Application) (t : Sharing),
      e ∈ (scope.foldl Sharing.erase t).entries → e ∈ t.entries := by
    intro scope
    induction scope with
    | nil => exact fun t h => h
    | cons a rest ih => exact fun t h => (List.mem_filter.1 (ih _ h)).1
  unfold Sharing.pop at h
  split at h
  · exact h
  · rename_i scope outer _
    exact herase scope { t with scopes := outer } h

lemma good_leaveBranch {w' : World} (hw : D.Good i w)
    (h : D.Good (D.within i w.scope.stmts) w') (hle : D.Le w.enterBranch w') :
    D.Good i (w.leaveBranch w') ∧ D.Le w (w.leaveBranch w') := by
  obtain ⟨hinv, hle'⟩ := D.leaveBranch hw.1 h.1 hle
  exact ⟨⟨hinv, fun hs => ⟨(h.2 hs).session, (hw.2 hs).env,
    fun e he => (h.2 hs).sharing e (sharing_pop_mem he)⟩⟩, hle'⟩

lemma does_withEnv {α : Type} {m m' : Eval α} {P : α → Prop} {env : Env}
    (henv : D.strict → env.Formed) (h : ∀ w, D.Does i w m m' fun a _ => P a) :
    D.Does i w (withEnv env m) (withEnv env m') fun a _ => P a := by
  intro hw
  obtain ⟨hagree, hgood, hle, hP⟩ := h _ (good_setEnv hw henv)
  rw [exec_withEnv, exec_withEnv]
  exact ⟨hagree.map (fun r => (r.1, r.2.setEnv w.scope.env)) fun _ => rfl,
    good_setEnv hgood fun hs => (hw.2 hs).env, D.resetEnv env hle, hP⟩

lemma does_withSpan {α : Type} {m m' : Eval α} {P : α → Prop} (span : Span)
    (h : ∀ w, D.Does i w m m' fun a _ => P a) :
    D.Does i w (withSpan span m) (withSpan span m') fun a _ => P a := by
  intro hw
  obtain ⟨hagree, hgood, hle, hP⟩ := h _ (good_setTrace hw _)
  rw [exec_withSpan, exec_withSpan]
  exact ⟨hagree.map (fun r => (r.1, r.2.setTrace w.scope.trace)) fun _ => rfl,
    good_setTrace hgood _, D.resetTrace _ hle, hP⟩

/-! ### Application -/

lemma does_unionMembers {t : Ty} (ht : D.Shape t) :
    D.Does i w (unionMembers t) (unionMembers t) fun ts _ => ∀ t ∈ ts, D.Shape t := by
  have hmembers : ∀ u : Ty, D.Shape u → ∀ t ∈ u.members?.getD [u], D.Shape t := by
    intro u hu t ht
    cases u with
    | union members => exact fun hs => Ty.allFormed_iff.1 (hu hs) t ht
    | _ => rw [List.mem_singleton.1 ht]; exact hu
  refine .given fun hw => ?_
  cases t with
  | recur key =>
    refine .getSession ?_
    cases hrec : w.session.recType? key with
    | none => exact .fail _
    | some definition =>
      refine .pure fun _ => hmembers definition fun hs => ?_
      obtain ⟨before, after, heq, -⟩ := List.lookup_eq_some_iff.1 hrec
      exact (hw.2 hs).session.recTypes (key, definition) (by rw [heq]; simp)
  | _ => exact .pure fun _ => hmembers _ ht

lemma does_boxValue {t : Ty} (ht : D.Shape t) {value : Term} (hv : D.Value value) :
    D.Does i w (boxValue t value) (boxValue t value) fun v _ => D.Value v := by
  refine (does_unionMembers ht).bind fun members _ _ _ _ => ?_
  split
  · exact .pure fun _ hs => ⟨hv hs, ht hs⟩
  · exact .fail _

lemma does_applyMap (hev : D.Pair i ev ev') {env : Env} {kind : MapKind}
    (hm : D.MapParts (env, kind)) {arg : Term} (harg : D.Value arg) :
    D.Does i w (applyMap ev env kind arg) (applyMap ev' env kind arg) fun v _ => D.Value v := by
  cases kind with
  | function param body =>
    exact does_withEnv (fun hs => (hm hs).1.bind param (harg hs)) fun w =>
      hev.here body w fun hs => (hm hs).2
  | recFunction this param body =>
    have hthis : D.Value (.map env (.recFunction this param body)) := fun hs => hm hs
    exact does_withEnv (fun hs => ((hm hs).1.bind this (hthis hs)).bind param (harg hs)) fun w =>
      hev.here body w fun hs => (hm hs).2
  | module =>
    unfold applyMap
    dsimp only
    split
    · exact .fail _
    · refine (does_build (Build.does_name _)).bind fun x _ _ _ _ => ?_
      split
      · rename_i value hvalue
        exact .pure fun _ hs => (hm hs).1.get? hvalue
      · exact .fail _

lemma does_apply (hev : D.Pair i ev ev') {f arg : Term} (hf : D.Value f) (harg : D.Value arg) :
    D.Does i w (apply ev f arg) (apply ev' f arg) fun v _ => D.Value v := by
  unfold apply
  split
  · rename_i tag dom range
    split
    · refine (does_toRuntime arg w harg).bind fun v _ _ _ hv => ?_
      exact does_emit (by simpa using ⟨hf, hv⟩) fun hs => (hf hs).2
    · exact .fail _
  · exact does_boxValue hf harg
  · exact does_boxValue hf harg
  · refine (does_mapValue? hf).bind fun r w' _ _ hr => ?_
    cases r with
    | none => exact .fail _
    | some m => exact does_applyMap hev (hr m rfl) harg

/-! ### Modules -/

lemma does_fieldKey (x : Name) : D.Does i w (fieldKey x) (fieldKey x) fun v _ => D.Value v :=
  .getSession (.pure fun _ _ => trivial)

lemma does_mapFields (hev : D.Pair i ev ev') {f : Term} (hf : D.Value f) {m : Fields Term}
    (hm : ∀ e ∈ m, D.Value e.2) :
    D.Does i w (mapFields ev f m) (mapFields ev' f m) fun n _ =>
      n.map Prod.fst = m.map Prod.fst ∧ ∀ e ∈ n, D.Value e.2 := by
  induction m generalizing w with
  | nil => exact .pure fun _ => ⟨rfl, fun e he => by cases he⟩
  | cons e rest ih =>
    obtain ⟨x, value⟩ := e
    obtain ⟨hvalue, hrest⟩ := List.forall_mem_cons.1 hm
    refine (does_fieldKey x).bind fun key _ _ _ hkey => ?_
    refine (does_apply hev hf hkey).bind fun partly _ _ _ hpartly => ?_
    refine (does_apply hev hpartly hvalue).bind fun new _ _ _ hnew => ?_
    refine (ih hrest).bind fun n _ _ _ hn => .pure fun _ => ⟨?_, ?_⟩
    · rw [List.map_cons, hn.1, List.map_cons]
    · exact List.forall_mem_cons.2 ⟨hnew, hn.2⟩

lemma does_foldFields (hev : D.Pair i ev ev') {f acc : Term} (hf : D.Value f)
    (hacc : D.Value acc) {m : Fields Term} (hm : ∀ e ∈ m, D.Value e.2) :
    D.Does i w (foldFields ev f acc m) (foldFields ev' f acc m) fun v _ => D.Value v := by
  induction m generalizing w acc with
  | nil => exact .pure fun _ => hacc
  | cons e rest ih =>
    obtain ⟨x, value⟩ := e
    obtain ⟨hvalue, hrest⟩ := List.forall_mem_cons.1 hm
    refine (does_fieldKey x).bind fun key _ _ _ hkey => ?_
    refine (does_apply hev hf hacc).bind fun withState _ _ _ hstate => ?_
    refine (does_apply hev hstate hkey).bind fun withKey _ _ _ hwithKey => ?_
    exact (does_apply hev hwithKey hvalue).bind fun acc _ _ _ hacc => ih hacc hrest

lemma MapParts.values {m : Env × MapKind} (h : D.MapParts m) :
    ∀ e ∈ m.1.visible, D.Value e.2 :=
  fun e he hs => Env.fieldsFormed_iff.1 (h hs).1.visible.2 e he

lemma formed_foldl_bind {fields : List (Name × Term)} (h : ∀ e ∈ fields, e.2.Formed)
    {env : Env} (henv : env.Formed) :
    (fields.foldl (fun env e => env.bind e.1 e.2) env).Formed := by
  induction fields generalizing env with
  | nil => exact henv
  | cons e rest ih =>
    obtain ⟨he, hrest⟩ := List.forall_mem_cons.1 h
    exact ih hrest (henv.bind e.1 he)

lemma formed_foldl_erase {m : Fields Term} (h : Fields.Formed m) (names : List Name) :
    Fields.Formed (names.foldl Fields.erase m) := by
  induction names generalizing m with
  | nil => exact h
  | cons x rest ih => exact ih (h.erase x)

lemma does_moduleOp (hev : D.Pair i ev ev') (op : ModuleOp) {args : List Term}
    (h : ∀ t ∈ args, D.Value t) :
    D.Does i w (moduleOp ev op args) (moduleOp ev' op args) fun v _ => D.Value v := by
  have hzip : ∀ (fields : List Name) (args : List Term), (∀ t ∈ args, D.Value t) →
      ∀ e ∈ fields.zip args, D.Value e.2 :=
    fun fields args h e he => h e.2 (List.of_mem_zip he).2
  cases op with
  -- New maps: their fields are values, and sorted by name.
  | create fields =>
    unfold moduleOp
    dsimp only
    split
    · exact .pure fun _ hs =>
        ⟨Fields.formed_ofList fun e he => hzip fields args h e he hs, trivial⟩
    · exact .fail _
  | extend fields =>
    unfold moduleOp
    dsimp only
    split
    · exact .fail _
    · rename_i t values
      obtain ⟨ht, hvalues⟩ := List.forall_mem_cons.1 h
      refine (does_mapValue _ ht).bind fun m _ _ _ hm => ?_
      split
      · refine .pure fun _ hs => ⟨formed_foldl_bind (fun e he => ?_) (hm hs).1, (hm hs).2⟩
        exact hzip fields values hvalues e he hs
      · exact .fail _
  | without fields =>
    refine (does_operand _ h).bind fun t _ _ _ ht => (does_mapValue _ ht).bind
      fun m _ _ _ hm => .pure fun _ hs => ?_
    exact ⟨formed_foldl_erase (hm hs).1.visible fields, (hm hs).2⟩
  -- Reading one field, or asking for it.
  | «open» x => exact (does_operand _ h).bind fun t _ _ _ ht => does_openField _ ht x
  | getField x => exact (does_operand _ h).bind fun t _ _ _ ht => does_openField _ ht x
  | hasMember x =>
    exact (does_operand _ h).bind fun t _ _ _ _ => .pure fun _ => value_lit _
  -- The two operations that apply a function to all fields.
  | map =>
    refine (does_operands₂ _ h).bind fun r _ _ _ hr => (does_mapValue _ hr.2).bind
      fun m _ _ _ hm => (does_mapFields hev hr.1 hm.values).bind fun n _ _ _ hn => ?_
    refine .pure fun _ hs => ⟨⟨Rename.ascending_of_names hn.1 (hm hs).1.visible.1, ?_⟩, trivial⟩
    exact Env.fieldsFormed_iff.2 fun e he => hn.2 e he hs
  | fold =>
    refine (does_operands₃ _ h).bind fun r _ _ _ hr => (does_mapValue _ hr.2.2).bind
      fun m _ _ _ hm => ?_
    exact does_foldFields hev hr.1 hr.2.1 hm.values

/-! ### Branches -/

lemma does_inBranch {m m' : Eval Term}
    (h : D.Does (D.within i w.scope.stmts) w.enterBranch m m' fun t _ => D.Value t) :
    D.Does i w (inBranch m) (inBranch m') fun t w' => D.Code i w' t := by
  intro hw
  obtain ⟨hagree, hgood, hle, hvalue⟩ := h (good_enterBranch hw)
  rw [exec_inBranch, exec_inBranch]
  have hagree' := hagree.map
    (fun r => (r.1.map (Stmt.close r.2.scope.stmts), w.leaveBranch r.2)) fun _ => rfl
  rcases hrun : exec m w.enterBranch with ⟨r, w'⟩
  rw [hrun] at hgood hle hvalue hagree'
  obtain ⟨hgood', hle'⟩ := good_leaveBranch hw hgood hle
  refine ⟨hagree', hgood', hle', fun t ht => ?_⟩
  cases r with
  | error s => cases ht
  | ok v =>
    cases ht
    intro hs
    have hv := hvalue v rfl hs
    refine ⟨by rw [Stmt.ty_close]; exact hv.ty, fun c hc => ?_⟩
    rw [Stmt.sites_close, hv.sites_eq, List.append_nil] at hc
    obtain ⟨s, hmem, hc⟩ := List.mem_flatMap.1 hc
    exact D.known_within (D.known_stmts hs hgood.1 s hmem c hc)

lemma does_attempt {α : Type} {m m' : Eval α} {P : α → World → Prop}
    (h : D.Does i w m m' P) :
    D.Does i w (attempt m) (attempt m') fun r w' => ∀ a, r = .ok a → P a w' := by
  intro hw
  obtain ⟨hagree, hgood, hle, hP⟩ := h hw
  have hagree' : D.Agree (exec (attempt m) w) (exec (attempt m') w) := by
    rcases hagree with heq | ⟨hlax, herror⟩
    · rw [exec_attempt, exec_attempt, ← heq]
      exact .refl _
    · rw [exec_attempt, herror]
      exact .inr ⟨hlax, rfl⟩
  refine ⟨hagree', ?_⟩
  rw [exec_attempt]
  rcases hrun : exec m w with ⟨(fault | _ | _) | a, w'⟩ <;> rw [hrun] at hgood hle hP
  · refine ⟨hgood, hle, fun r hr a ha => ?_⟩
    cases hr
    cases ha
  · exact ⟨hgood, hle, fun r hr => by cases hr⟩
  · exact ⟨hgood, hle, fun r hr => by cases hr⟩
  · refine ⟨hgood, hle, fun r hr b hb => ?_⟩
    cases hr
    cases hb
    exact hP a rfl

lemma does_pendingRecursion (fault : Fault) :
    D.Does i w (pendingRecursion fault) (pendingRecursion fault) fun r w' =>
      (∀ p ∈ r, w'.scope.owner = some p) ∧ w'.scope.stmts = w.scope.stmts := by
  have hnone : D.Does i w (pure none : Eval (Option Point)) (pure none)
      fun r w' => (∀ p ∈ r, w'.scope.owner = some p) ∧ w'.scope.stmts = w.scope.stmts :=
    .pure fun _ => ⟨fun p hp => (by cases hp), rfl⟩
  unfold pendingRecursion
  cases fault.pending with
  | none => exact hnone
  | some p =>
    refine .getScope ?_
    split
    · exact hnone
    · rename_i howner
      refine .getSession ?_
      split
      · refine .pure fun _ => ⟨fun q hq => ?_, rfl⟩
        cases hq
        exact Decidable.not_not.1 howner
      · exact hnone

/-- One more body in front of those that a second run finds. -/
lemma does_consBody {body : Term} {m m' : Eval (Except Fault (List Term))}
    (hbody : D.Code i w body)
    (hm : D.Does i w m m' fun r w' => ∀ ts, r = .ok ts → ∀ t ∈ ts, D.Code i w' t) :
    D.Does i w
      (do
        match ← m with
        | .ok rest => return (.ok (body :: rest) : Except Fault (List Term))
        | .error fault => return .error fault)
      (do
        match ← m' with
        | .ok rest => return (.ok (body :: rest) : Except Fault (List Term))
        | .error fault => return .error fault)
      fun r w' => ∀ ts, r = .ok ts → ∀ t ∈ ts, D.Code i w' t := by
  refine hm.bind fun r w₂ hw₂ hle₂ hr => ?_
  cases r with
  | error fault => exact .pure fun _ ts hts => by cases hts
  | ok rest =>
    refine .pure fun _ ts hts => ?_
    cases hts
    exact List.forall_mem_cons.2 ⟨hbody.le hw₂.1 hle₂, hr rest rfl⟩

section Splits

variable {stmts : List Stmt} {α : Type} {l : List α} {g g' : α → Eval Term}
  (hg : ∀ a ∈ l, ∀ w, D.Does (D.within i stmts) w (g a) (g' a) fun t _ => D.Value t)
include hg

omit hg in
/-- All branches of a split start after the same statements. -/
lemma does_branch {m m' : Eval Term} (hw : w.scope.stmts = stmts)
    (h : ∀ w, D.Does (D.within i stmts) w m m' fun t _ => D.Value t) :
    D.Does i w (attempt (inBranch m)) (attempt (inBranch m')) fun r w' =>
      (∀ t, r = .ok t → D.Code i w' t) ∧ w'.scope.stmts = stmts := by
  subst hw
  refine (does_attempt (does_inBranch (h w.enterBranch))).ran.imp fun r w' hr => ⟨hr.1, ?_⟩
  have hstmts := stmts_attempt_inBranch m w
  rwa [hr.2] at hstmts

/-- The bodies that a run of branches has so far. -/
def Bodies (D : Discipline) (i : D.Index) (w : World) (bodies : List (Option Term)) : Prop :=
  ∀ b ∈ bodies, ∀ t ∈ b, D.Code i w t

lemma does_firstRun (hw : w.scope.stmts = stmts) :
    D.Does i w (firstRun (l.map g)) (firstRun (l.map g')) fun r w' =>
      D.Bodies i w' r.1 ∧ (∀ f p, r.2 = some (f, p) → w'.scope.owner = some p) ∧
        w'.scope.stmts = stmts := by
  induction l generalizing w with
  | nil =>
    refine .pure fun _ => ⟨fun b hb => (by cases hb), fun f p h => (by cases h), hw⟩
  | cons a l ih =>
    have ih := fun w => ih (w := w) fun a ha => hg a (List.mem_cons_of_mem _ ha)
    refine (does_branch hw (hg a (List.mem_cons_self ..))).bind fun r w₁ hw₁ hle₁ hr => ?_
    cases r with
    | ok body =>
      refine (ih w₁ hr.2).bind fun rest w₂ hw₂ hle₂ hrest => .pure fun _ => ⟨?_, hrest.2⟩
      refine List.forall_mem_cons.2 ⟨fun t ht => ?_, hrest.1⟩
      cases ht
      exact (hr.1 body rfl).le hw₂.1 hle₂
    | error fault =>
      refine (does_pendingRecursion fault).bind fun p? w₂ _ _ hp => ?_
      cases p? with
      | none => exact .throw _
      | some p =>
        refine (ih w₂ (hp.2.trans hr.2)).bind fun rest w₃ hw₃ hle₃ hrest =>
          .pure fun _ => ⟨?_, fun f q hq => ?_, hrest.2.2⟩
        · exact List.forall_mem_cons.2 ⟨fun t ht => (by cases ht), hrest.1⟩
        · cases hq
          rw [D.le_owner hle₃]
          exact hp.1 p rfl

lemma does_secondRun (hw : w.scope.stmts = stmts) {bodies : List (Option Term)}
    (hb : D.Bodies i w bodies) :
    D.Does i w (secondRun bodies (l.map g)) (secondRun bodies (l.map g')) fun r w' =>
      ∀ ts, r = .ok ts → ∀ t ∈ ts, D.Code i w' t := by
  have hnil : ∀ w, D.Does i w (pure (.ok []) : Eval (Except Fault (List Term))) (pure (.ok []))
      fun r w' => ∀ ts, r = .ok ts → ∀ t ∈ ts, D.Code i w' t := fun w =>
    .pure fun _ ts hts t ht => by cases hts; cases ht
  induction l generalizing w bodies with
  | nil => rcases bodies with _ | ⟨_ | body, bodies⟩ <;> exact hnil w
  | cons a l ih =>
    have hg' := fun a ha => hg a (List.mem_cons_of_mem _ ha)
    rcases bodies with _ | ⟨_ | body, bodies⟩
    · exact hnil w
    · have hrest := (List.forall_mem_cons.1 hb).2
      refine (does_branch hw (hg a (List.mem_cons_self ..))).bind fun r w₁ hw₁ hle₁ hr => ?_
      cases r with
      | error fault => exact .pure fun _ ts hts => by cases hts
      | ok body =>
        refine does_consBody (hr.1 body rfl) (ih hg' hr.2 fun b hb t ht => ?_)
        exact (hrest b hb t ht).le hw₁.1 hle₁
    · obtain ⟨hbody, hrest⟩ := List.forall_mem_cons.1 hb
      exact does_consBody (hbody body rfl) (ih hg' hw hrest)

end Splits

end Residual.Discipline
