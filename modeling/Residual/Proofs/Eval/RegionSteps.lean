import Residual.Proofs.Eval.RegionBranches
import Residual.Proofs.Eval.RegionPoints

/-!
Evaluation emits code by the rules: application, modules, splits and every other operation, one
step, and by induction on the nesting all of evaluation.
-/

namespace Residual.Region

open Eval

variable {i : Region} {w w' : World} {ev : Expr → Eval Term}

/-! ### Application -/

lemma does_withEnv {m : Eval Term} {env : Env} {kind : MapKind}
    (henv : i.Value w (.map env kind))
    (h : i.Does (w.setEnv env) m fun t w' => i.Value w' t) :
    i.Does w (withEnv env m) fun t w' => i.Value w' t := by
  intro hw
  have hin : i.Ready (w.setEnv env) :=
    hw.of_stmts rfl rfl (Nat.le_refl _) (henv.kind trivial) hw.sharing
  obtain ⟨hready, hframed, hvalue⟩ := h hin
  rw [exec_withEnv]
  have hleave := Discipline.frame.resetEnv env hframed
  refine ⟨hready.of_stmts rfl rfl (Nat.le_refl _) ?_ hready.sharing, hleave, fun t ht =>
    (hvalue t ht).of_stmts rfl rfl⟩
  exact (hw.env.mono hleave).of_stmts rfl rfl

lemma does_withSpan {m : Eval Term} (span : Span)
    (h : ∀ w, i.Does w m fun t w' => i.Value w' t) :
    i.Does w (withSpan span m) fun t w' => i.Value w' t := by
  have hset : ∀ (w : World) (trace : Trace), i.Ready w → i.Ready (w.setTrace trace) :=
    fun w trace hw => hw.of_stmts rfl rfl (Nat.le_refl _) hw.env hw.sharing
  intro hw
  obtain ⟨hready, hframed, hvalue⟩ := h _ (hset w (w.scope.trace.push span) hw)
  rw [exec_withSpan]
  exact ⟨hset _ _ hready, Discipline.frame.resetTrace _ hframed,
    fun t ht => (hvalue t ht).of_stmts rfl rfl⟩

lemma does_unionMembers {t : Ty} (ht : i.Shape w t) :
    i.Does w (unionMembers t) fun ts w' => w' = w ∧ (∀ u ∈ ts, i.Shape w u) ∧
      ∀ members ∈ t.members?, ts = members := by
  have hmembers : ∀ u : Ty, i.Shape w u → ∀ t ∈ u.members?.getD [u], i.Shape w t := by
    intro u hu t ht
    cases u with
    | union members =>
      exact ⟨Ty.allFormed_iff.1 hu.formed t ht, Ty.allSound_iff.1 hu.sound t ht⟩
    | _ => rw [List.mem_singleton.1 ht]; exact hu
  refine .given fun hw => ?_
  cases t with
  | recur key =>
    refine .getSession ?_
    cases hrec : w.session.recType? key with
    | none => exact .fail _
    | some definition =>
      obtain ⟨before, after, heq, -⟩ := List.lookup_eq_some_iff.1 hrec
      have hmem : (key, definition) ∈ w.session.recTypes := by rw [heq]; simp
      exact .pure fun _ => ⟨rfl, hmembers definition ⟨hw.session.recTypes _ hmem,
        hw.sound.recTypes _ hmem⟩, fun _ hm => by cases hm⟩
  | union members =>
    exact .pure fun _ => ⟨rfl, hmembers _ ht, fun _ hm => by cases hm; rfl⟩
  | _ => exact .pure fun _ => ⟨rfl, hmembers _ ht, fun _ hm => by cases hm⟩

lemma does_boxValue {t : Ty} (ht : i.Shape w t) {value : Term} (hv : i.Value w value) :
    i.Does w (boxValue t value) fun v w' => i.Value w' v := by
  refine (does_unionMembers ht).bind fun members w' _ hmembers => ?_
  obtain ⟨rfl, hshapes, hunion⟩ := hmembers
  split
  · rename_i hcontains
    refine .pure fun _ => value_box hv ht fun _ us hus => ?_
    rw [← hunion us hus]
    obtain ⟨m, hm, hbeq⟩ := List.contains_iff_exists_mem_beq.1 hcontains
    exact ⟨m, hm, (hv.ty.sound.code_of_beq (hshapes m hm).sound hbeq).symm⟩
  · exact .fail _

lemma does_applyMap (hev : Evaluator i.asks ev) {env : Env} {kind : MapKind}
    (hm : i.Value w (.map env kind)) {arg : Term} (harg : i.Value w arg) :
    i.Does w (applyMap ev env kind arg) fun v w' => i.Value w' v := by
  cases kind with
  | function param body =>
    exact does_withEnv (hm.bind param harg) (hev.good i rfl body _ hm.formed.2)
  | recFunction this param body =>
    exact does_withEnv ((hm.bind this hm).bind param harg) (hev.good i rfl body _ hm.formed.2)
  | module =>
    unfold applyMap
    dsimp only
    split
    · exact .fail _
    · refine (does_build (Build.does_name _)).bind fun x w' hw' _ => ?_
      split
      · rename_i value hvalue
        exact .pure fun _ => (hm.get? hvalue).mono hw'
      · exact .fail _

lemma does_apply (hev : Evaluator i.asks ev) {f arg : Term} (hf : i.Value w f)
    (harg : i.Value w arg) :
    i.Does w (apply ev f arg) fun v w' => i.Value w' v := by
  unfold apply
  split
  · rename_i tag dom range
    split
    · rename_i hbeq
      have hcode : arg.ty.code = dom.code :=
        harg.ty.sound.code_of_beq (hf.sound : Ty.Sound _ (.closure dom range)).1 hbeq
      refine (does_toRuntime arg w harg).bind fun v w' hw' hv => ?_
      have hrange : i.Shape w' range := ⟨hf.formed.2, (hf.mono hw').sound.2⟩
      refine does_emit (by simp) (by simpa using ⟨hf.mono hw', hv.1⟩) hrange fun _ => ⟨?_, rfl⟩
      rw [hv.2]
      exact hcode
    · exact .fail _
  · exact does_boxValue hf.ty harg
  · exact does_boxValue hf.ty harg
  · refine (does_mapValue? hf).bind fun r w' hw' hr => ?_
    cases r with
    | none => exact .fail _
    | some m => exact does_applyMap hev (hr m rfl) (harg.mono hw')

/-! ### Modules -/

lemma does_fieldKey (x : Name) : i.Does w (fieldKey x) fun v w' => i.Value w' v :=
  .getSession (.pure fun _ => Shape.type ⟨trivial, trivial⟩)

lemma does_mapFields (hev : Evaluator i.asks ev) {f : Term} (hf : i.Value w f)
    {m : Fields Term} (hm : ∀ e ∈ m, i.Value w e.2) :
    i.Does w (mapFields ev f m) fun n w' =>
      n.map Prod.fst = m.map Prod.fst ∧ ∀ e ∈ n, i.Value w' e.2 := by
  induction m generalizing w with
  | nil => exact .pure fun _ => ⟨rfl, fun e he => absurd he List.not_mem_nil⟩
  | cons e rest ih =>
    obtain ⟨x, value⟩ := e
    obtain ⟨hvalue, hrest⟩ := List.forall_mem_cons.1 hm
    refine (does_fieldKey x).bind fun key w₁ hw₁ hkey => ?_
    refine (does_apply hev (hf.mono hw₁) hkey).bind fun partly w₂ hw₂ hpartly => ?_
    refine (does_apply hev hpartly (hvalue.mono (hw₁.trans hw₂))).bind fun new w₃ hw₃ hnew => ?_
    have hw := (hw₁.trans hw₂).trans hw₃
    refine (ih (hf.mono hw) fun e he => (hrest e he).mono hw).bind fun n w₄ hw₄ hn =>
      .pure fun _ => ⟨?_, List.forall_mem_cons.2 ⟨hnew.mono hw₄, hn.2⟩⟩
    rw [List.map_cons, hn.1, List.map_cons]

lemma does_foldFields (hev : Evaluator i.asks ev) {f acc : Term} (hf : i.Value w f)
    (hacc : i.Value w acc) {m : Fields Term} (hm : ∀ e ∈ m, i.Value w e.2) :
    i.Does w (foldFields ev f acc m) fun v w' => i.Value w' v := by
  induction m generalizing w acc with
  | nil => exact .pure fun _ => hacc
  | cons e rest ih =>
    obtain ⟨x, value⟩ := e
    obtain ⟨hvalue, hrest⟩ := List.forall_mem_cons.1 hm
    refine (does_fieldKey x).bind fun key w₁ hw₁ hkey => ?_
    refine (does_apply hev (hf.mono hw₁) (hacc.mono hw₁)).bind fun withState w₂ hw₂ hstate => ?_
    refine (does_apply hev hstate (hkey.mono hw₂)).bind fun withKey w₃ hw₃ hwithKey => ?_
    have hw := (hw₁.trans hw₂).trans hw₃
    refine (does_apply hev hwithKey (hvalue.mono hw)).bind fun acc w₄ hw₄ hacc => ?_
    exact ih (hf.mono (hw.trans hw₄)) hacc fun e he => (hrest e he).mono (hw.trans hw₄)

lemma Value.foldl_bind {env : Env} {kind : MapKind} (h : i.Value w (.map env kind))
    {fields : List (Name × Term)} (hf : ∀ e ∈ fields, i.Value w e.2) :
    i.Value w (.map (fields.foldl (fun env e => env.bind e.1 e.2) env) kind) := by
  induction fields generalizing env with
  | nil => exact h
  | cons e rest ih =>
    obtain ⟨he, hrest⟩ := List.forall_mem_cons.1 hf
    exact ih (h.bind e.1 he) hrest

lemma mem_foldl_erase {m : Fields Term} {names : List Name} {e : Name × Term}
    (h : e ∈ names.foldl Fields.erase m) : e ∈ m := by
  induction names generalizing m with
  | nil => exact h
  | cons x rest ih => exact (List.mem_filter.1 (ih h)).1

lemma does_moduleOp (hev : Evaluator i.asks ev) (op : ModuleOp) {args : List Term}
    (h : ∀ t ∈ args, i.Value w t) :
    i.Does w (moduleOp ev op args) fun v w' => i.Value w' v := by
  have hzip : ∀ (w : World) (fields : List Name) (args : List Term), (∀ t ∈ args, i.Value w t) →
      ∀ e ∈ fields.zip args, i.Value w e.2 :=
    fun w fields args h e he => h e.2 (List.of_mem_zip he).2
  cases op with
  -- New maps: their fields are values, and sorted by name.
  | create fields =>
    unfold moduleOp
    dsimp only
    split
    · exact .pure fun _ => value_map (Fields.ascending_ofList _) trivial fun e he =>
        hzip w fields args h e (Fields.mem_ofList he)
    · exact .fail _
  | extend fields =>
    unfold moduleOp
    dsimp only
    split
    · exact .fail _
    · rename_i t values
      obtain ⟨ht, hvalues⟩ := List.forall_mem_cons.1 h
      refine (does_mapValue _ ht).bind fun m w' hw' hm => ?_
      split
      · exact .pure fun _ => hm.foldl_bind (hzip w' fields values fun t ht =>
          (hvalues t ht).mono hw')
      · exact .fail _
  | without fields =>
    refine (does_operand _ h).bind fun t _ _ ht => (does_mapValue _ ht).bind
      fun m _ _ hm => .pure fun _ => ?_
    exact value_map (Discipline.formed_foldl_erase hm.formed.1.visible fields).1 hm.formed.2
      fun e he => hm.visible e (mem_foldl_erase he)
  -- Reading one field, or asking for it.
  | «open» x => exact (does_operand _ h).bind fun t _ _ ht => does_openField _ ht x
  | getField x => exact (does_operand _ h).bind fun t _ _ ht => does_openField _ ht x
  | hasMember x => exact (does_operand _ h).bind fun t _ _ _ => .pure fun _ => value_lit _
  -- The two operations that apply a function to all fields.
  | map =>
    refine (does_operands₂ _ h).bind fun r _ _ hr => (does_mapValue _ hr.2).bind
      fun m _ hw₁ hm => (does_mapFields hev (hr.1.mono hw₁) hm.visible).bind fun n _ _ hn => ?_
    exact .pure fun _ => value_map (Rename.ascending_of_names hn.1 hm.formed.1.visible.1) trivial
      hn.2
  | fold =>
    refine (does_operands₃ _ h).bind fun r _ _ hr => (does_mapValue _ hr.2.2).bind
      fun m _ hw₁ hm => ?_
    exact does_foldFields hev (hr.1.mono hw₁) (hr.2.1.mono hw₁) hm.visible

/-! ### Splits -/

/-- A split whose parts bind tags from `lo` on, with all that was bound before below. -/
theorem Code.split {o : Op} {args : List Term} {ty : Ty} {lo : Tag} (hty : i.Shape w ty)
    (hparts : ∀ t ∈ args, ∀ n ∈ t.nodes, n.Fits i.asks.typed (Ty.Sound (i.ground w)))
    (hrule : i.asks.typed → o.Obeys args ty)
    (hscope : i.asks.tracked → (Term.op o args ty).Scoped (i.scope w))
    (hbefore : i.asks.tracked → (bound w).Nodup ∧ i.first ≤ lo ∧ ∀ tag ∈ bound w, tag < lo)
    (hnodup : i.asks.tracked → (Term.op o args ty).bound.Nodup)
    (hrange : i.asks.tracked → ∀ tag ∈ (Term.op o args ty).bound,
      lo ≤ tag ∧ tag < w.scope.tags.next)
    (hrenamable : i.asks.tracked → (Term.op o args ty).Renamable) : i.Code w (.op o args ty) := by
  refine ⟨hty, ?_, hscope, fun htracked => ?_, fun htracked tag htag => ?_, hrenamable⟩
  · refine List.forall_mem_cons.2 ⟨⟨hrule, List.forall_mem_singleton.2 hty.sound⟩, fun n hn => ?_⟩
    obtain ⟨t, ht, hn⟩ := Term.mem_nodesOfAll.1 hn
    exact hparts t ht n hn
  · obtain ⟨hbound, -, hbelow⟩ := hbefore htracked
    refine List.nodup_append.2 ⟨hbound, hnodup htracked, fun a ha b hb heq => ?_⟩
    exact Nat.ne_of_lt (Nat.lt_of_lt_of_le (hbelow a ha) (hrange htracked b hb).1) heq
  · obtain ⟨hlo, hlt⟩ := hrange htracked tag htag
    exact ⟨Nat.le_trans (hbefore htracked).2.1 hlo, hlt⟩

/-- What is bound before a split is below the tags that are free there. -/
theorem Laid.before (h : i.Laid w) (hstmts : w'.scope.stmts = w.scope.stmts) :
    (bound w').Nodup ∧ i.first ≤ w.scope.tags.next ∧
      ∀ tag ∈ bound w', tag < w.scope.tags.next := by
  have hsame : bound w' = bound w := by rw [bound, bound, hstmts]
  rw [hsame]
  exact ⟨h.nodup, h.first, fun tag htag => (h.range tag htag).2⟩

/-- A conditional whose test is left for later. -/
theorem does_split (hev : Evaluator i.asks ev) {test : Term} (ht : i.Value w test)
    (hbool : (test.ty == .bool) = true) {yes no : Expr} (hyes : yes.Sorted) (hno : no.Sorted) :
    i.Does w (do finishSplit .cond (test :: ·) (← branches [ev yes, ev no]))
      fun v w' => i.Value w' v := by
  -- Each branch is a region that starts where the split stands.
  have hg : i.Runnable w (fun _ => []) ev [yes, no] := by
    refine fun e he => ⟨fresh_nil, fun w' _ _ => hev.good (i.branch w' []) rfl e _ ?_⟩
    simp only [List.mem_cons, List.not_mem_nil, or_false] at he
    rcases he with rfl | rfl
    · exact hyes
    · exact hno
  refine .given fun hw => (does_branches hg).bind fun ts w' hw' hts => .given fun hready => ?_
  obtain ⟨hstmts, hbodies, hmisses⟩ := hts
  have ht' := ht.mono hw'
  refine does_finishSplit .cond hbodies hmisses fun bodies ty hb hty htys => ?_
  have hbranch : ∀ t ∈ bodies, i.Branch w' [] t := fun t ht => by
    obtain ⟨_, -, hbranch⟩ := hb.exists_branch (List.mem_map_of_mem ht)
    exact hbranch
  -- The split binds what its bodies bind; the test binds nothing.
  have hbound : (Term.op .cond (test :: bodies) ty).bound = boundBy (bodies.map some) := by
    rw [Term.bound, if_neg (by decide), Term.boundOfAll, ht.formed.bound_eq, Term.boundOfAll_eq,
      boundBy_map_some]
    rfl
  refine .split hty ?_ (fun _ => ?_) (fun htracked => ?_)
    (fun htracked => (hw.laid htracked).before hstmts) ?_ ?_ fun htracked => ?_
  · exact List.forall_mem_cons.2 ⟨(ht'.code hready).fits, fun t ht => (hbranch t ht).fits⟩
  · have hlen : bodies.length = 2 := by simpa using hb.length
    match bodies, hlen with
    | [y, n], _ =>
      have htest := ht'.ty.sound.code_of_beq (shape_prim .bool).sound hbool
      exact ⟨htest, htys y (by simp), htys n (by simp)⟩
  · rw [Term.Scoped, if_neg (by decide)]
    refine ⟨(ht'.code hready).inScope htracked, Term.allScoped_iff.2 fun t ht => ?_⟩
    have h := (hbranch t ht).inScope htracked
    rwa [List.append_nil] at h
  · rw [hbound]
    exact hb.nodup
  · rw [hbound]
    exact hb.range
  · rw [Term.Renamable, if_neg (by decide)]
    exact ⟨ht.formed.renamable,
      Term.allRenamable_iff.2 fun t ht => (hbranch t ht).renamable htracked⟩

lemma does_cond (hev : Evaluator i.asks ev) {args : List Expr} (h : Expr.AllSorted args) :
    i.Does w (cond ev args) fun v w' => i.Value w' v := by
  match args with
  | [test, yes, no] =>
    refine (hev.good i rfl test w h.1).bind fun t w' _ ht => ?_
    cases htaken : t.bool? with
    | some taken =>
      dsimp only
      refine hev.good i rfl _ w' ?_
      cases taken
      · exact h.2.2.1
      · exact h.2.1
    | none =>
      dsimp only
      split
      · exact Does.bind (P := fun _ _ => False) (.fail _) fun _ _ _ h => h.elim
      · rename_i hbool
        exact does_split hev ht (by simpa using hbool) h.2.1 h.2.2.1
  | [] | [_] | [_, _] | _ :: _ :: _ :: _ :: _ => exact .fail _

/-- The variables of a split by member have consecutive tags. -/
theorem does_freshVars (tys : List Ty) :
    i.Does w (tys.mapM freshVar) fun bs w' =>
      bs.map Var.ty = tys ∧ bs.map Var.tag = List.range' w.scope.tags.next tys.length ∧
        w'.scope.tags.next = w.scope.tags.next + tys.length ∧
        w'.scope.stmts = w.scope.stmts := by
  induction tys generalizing w with
  | nil => exact .pure fun _ => ⟨rfl, rfl, rfl, rfl⟩
  | cons ty rest ih =>
    rw [List.mapM_cons]
    refine (does_freshVar ty).bind fun b w₁ _ hb => ?_
    obtain ⟨rfl, rfl⟩ := hb
    refine ih.bind fun bs w₂ _ hbs => .pure fun _ => ?_
    obtain ⟨htys, htags, hnext, hstmts⟩ := hbs
    refine ⟨congrArg (ty :: ·) htys, ?_, ?_, hstmts⟩
    · rw [List.map_cons, htags, List.length_cons, List.range'_succ]
      rfl
    · rw [hnext, List.length_cons]
      exact Nat.succ_add_eq_add_succ ..

/-- A split by the member of a union that a variable is of. -/
lemma does_caseSplit (hev : Evaluator i.asks ev) {v : Var} (hv : i.Value w (.var v)) {f : Term}
    (hf : i.Value w f) :
    i.Does w
      (do
        let members ← unionMembers v.ty
        let binders ← members.mapM freshVar
        let bodies ← branches (binders.map fun b =>
          apply ev f (if b.ty.isUnit then .ofUnit b.ty else .var b))
        finishSplit .case (caseArgs (.var v) binders) bodies)
      fun u w' => i.Value w' u := by
  refine (does_unionMembers hv.var_ty).bind fun members w₁ _ hmembers => ?_
  obtain ⟨rfl, hshapes, hunion⟩ := hmembers
  refine .given fun hw => (does_freshVars members).bind fun binders w₂ hw₂ hbinders => ?_
  obtain ⟨htys, htags, hnext, hstmts₂⟩ := hbinders
  have hshape : ∀ b ∈ binders, i.Shape w₂ b.ty := fun b hb =>
    (hshapes b.ty (htys ▸ List.mem_map_of_mem hb)).mono hw₂
  -- The binders are new: each is in scope in its own branch only.
  have htag : ∀ b ∈ binders, w₁.scope.tags.next ≤ b.tag ∧ b.tag < w₂.scope.tags.next := by
    intro b hb
    have hmem : b.tag ∈ binders.map Var.tag := List.mem_map_of_mem hb
    rw [htags] at hmem
    rw [hnext]
    exact List.mem_range'_1.1 hmem
  have hg : i.Runnable w₂ (fun b => [b])
      (fun b => apply ev f (if b.ty.isUnit then .ofUnit b.ty else .var b)) binders := by
    refine fun b hb => ⟨⟨?_, fun _ => Var.oneType_of_nodup (by simp), ?_, ?_⟩,
      fun w₃ hw₃ _ => ?_⟩
    · exact List.forall_mem_singleton.2 (hshape b hb)
    · exact fun _ => List.forall_mem_singleton.2 (htag b hb).2
    · refine fun htracked u hu => List.forall_mem_singleton.2 ?_
      rw [scope_eq i hstmts₂] at hu
      exact Nat.ne_of_lt (Nat.lt_of_lt_of_le ((hw.laid htracked).tag_lt hu) (htag b hb).1)
    · have hle := le_enterBranch i w₃ [b]
      have hty := (hshape b hb).mono hw₃
      refine does_apply (i := i.branch w₃ [b]) hev ((hf.mono (hw₂.trans hw₃)).le hle) ?_
      split
      · exact (hty.le hle).ofUnit
      · exact value_enterBranch (List.mem_singleton_self b) hty
  refine (does_branches hg).bind fun ts w₃ hw₃ hts => .given fun hready => ?_
  obtain ⟨hstmts, hbodies, hmisses⟩ := hts
  have hv' := hv.mono (hw₂.trans hw₃)
  refine does_finishSplit .case hbodies hmisses fun bodies ty hb hty htys' => ?_
  have hlen : binders.length = bodies.length := by simpa using hb.length.symm
  have hbranch : ∀ e ∈ binders.zip bodies, i.Branch w₃ [e.1] e.2 := by
    intro e he
    refine hb.branch (e.1, some e.2) ?_ e.2 rfl
    rw [List.zip_map_right]
    exact List.mem_map_of_mem he
  -- The split binds the binders and what its bodies bind.
  have hbound : (Term.op .case (caseArgs (.var v) binders bodies) ty).bound =
      binders.map Var.tag ++ boundBy (bodies.map some) := by
    rw [Term.bound_caseArgs _ hlen, boundBy_map_some]
    rfl
  refine .split hty (fun t ht => ?_) (fun _ => ?_) (fun htracked => ?_)
    (fun htracked => (hw.laid htracked).before (hstmts.trans hstmts₂)) (fun htracked => ?_)
    (fun htracked => ?_) fun htracked => ?_
  · -- The nodes of the operands: the value, the binders and the bodies.
    rcases List.mem_cons.1 ht with rfl | ht
    · exact (hv'.code hready).fits
    · obtain ⟨e, he, ht⟩ := List.mem_flatMap.1 ht
      rcases List.mem_cons.1 ht with rfl | ht
      · refine List.forall_mem_singleton.2 ⟨fun _ => trivial, List.forall_mem_singleton.2 ?_⟩
        exact ((hshape e.1 (List.of_mem_zip he).1).mono hw₃).sound
      · rw [List.mem_singleton.1 ht]
        exact (hbranch e he).fits
  · -- There is one branch for each member of the union.
    refine ⟨binders.zip bodies, Term.branches?_flatMap _, fun e he => ?_, fun us hus => ?_⟩
    · exact htys' e.2 (List.of_mem_zip he).2
    · rw [Term.ty_var] at hus
      rw [← hunion us hus, ← htys, List.map_map]
      conv => rhs; rw [← List.map_fst_zip (Nat.le_of_eq hlen), List.map_map]
      rfl
  · rw [Term.Scoped, if_pos rfl]
    refine ⟨(hv'.code hready).inScope htracked, Term.branchesScoped_flatMap.2 fun e he => ?_⟩
    exact (hbranch e he).inScope htracked
  · -- No tag is bound twice: the bodies bind tags above those of the binders.
    rw [hbound]
    refine List.nodup_append.2 ⟨htags ▸ List.nodup_range', hb.nodup htracked,
      fun x hx y hy heq => ?_⟩
    obtain ⟨b, hmem, rfl⟩ := List.mem_map.1 hx
    exact Nat.ne_of_lt (Nat.lt_of_lt_of_le (htag b hmem).2 (hb.range htracked y hy).1) heq
  · rw [hbound]
    refine List.forall_mem_append.2 ⟨List.forall_mem_map.2 fun b hmem => ?_, fun tag htag => ?_⟩
    · exact ⟨(htag b hmem).1, Nat.lt_of_lt_of_le (htag b hmem).2 hw₃.tags⟩
    · obtain ⟨hlo, hlt⟩ := hb.range htracked tag htag
      exact ⟨Nat.le_trans hw₂.tags hlo, hlt⟩
  · rw [Term.Renamable, if_pos rfl]
    refine ⟨trivial, Term.branchesRenamable_flatMap.2 fun e he => ?_⟩
    exact (hbranch e he).renamable htracked

lemma does_case (hev : Evaluator i.asks ev) {value f : Term} (hv : i.Value w value)
    (hf : i.Value w f) :
    i.Does w (case ev value f) fun v w' => i.Value w' v := by
  unfold case
  split
  · exact does_apply hev hf hv.unbox
  · split
    · exact does_caseSplit hev hv hf
    · exact does_caseSplit hev hv hf
    · exact does_apply hev hf hv
  · exact does_apply hev hf hv

lemma does_patternMiss {t : Term} (ht : i.Value w t) :
    i.Does w (patternMiss t) fun v w' => i.Value w' v := by
  refine .getScope ?_
  split
  · exact .fail _
  · exact .pure fun _ => value_miss ht

/-! ### Operations -/

lemma does_annotate (hev : Evaluator i.asks ev) {args : List Expr} (h : Expr.AllSorted args) :
    i.Does w (annotate ev args) fun v w' => i.Value w' v := by
  match args with
  | [value, annot] =>
    have hunwrap : value.unwrapPos.Sorted := h.1.unwrapPos
    unfold annotate
    dsimp only
    split
    · rename_i symbol inner heq
      split
      · rename_i body
        rw [heq] at hunwrap
        refine (hev.good i rfl annot w h.2.1).bind fun t _ _ ht => ?_
        exact does_enterPoint hev .method hunwrap.1 fun ty hty => by cases hty; exact ht.ty
      · exact .fail _
    · refine (hev.good i rfl value w h.1).bind fun v w₁ _ hv => ?_
      refine (hev.good i rfl annot w₁ h.2.1).bind fun t w₂ hw₂ _ => ?_
      split
      · exact .pure fun _ => hv.mono hw₂
      · exact .fail _
  | [] | [_] | _ :: _ :: _ :: _ => exact .fail _

lemma does_raise (t : Term) : i.Does w (raise t) fun v w' => i.Value w' v := by
  unfold raise
  split <;> exact .fail _

lemma does_args (hev : Evaluator i.asks ev) {args : List Expr} (h : Expr.AllSorted args) :
    i.Does w (args.mapM ev) fun ts w' => ∀ t ∈ ts, i.Value w' t :=
  Does.mapM_value fun e he w' _ => hev.good i rfl e w' (Expr.allSorted_iff.1 h e he)

lemma does_evalOp (hev : Evaluator i.asks ev) (op : Op) {args : List Expr}
    (h : Expr.AllSorted args) :
    i.Does w (evalOp ev op args) fun v w' => i.Value w' v := by
  -- Three operations decide themselves what is evaluated; the others start from their operands.
  cases op with
  | cond => exact does_cond hev h
  | annotate => exact does_annotate hev h
  | entry entry =>
    match args with
    | [body] => exact does_enterPoint hev entry h.1 fun ty hty => by cases hty
    | [] | _ :: _ :: _ => exact .fail _
  | apply =>
    exact (does_args hev h).bind fun ts _ _ hts => (does_operands₂ _ hts).bind
      fun r _ _ hr => does_apply hev hr.1 hr.2
  | case =>
    exact (does_args hev h).bind fun ts _ _ hts => (does_operands₂ _ hts).bind
      fun r _ _ hr => does_case hev hr.1 hr.2
  | dynamize =>
    exact (does_args hev h).bind fun ts _ _ hts => (does_operand _ hts).bind
      fun t w' _ ht => (does_toRuntime t w' ht).imp fun _ _ _ hv => hv.1
  | patternMiss =>
    exact (does_args hev h).bind fun ts _ _ hts => (does_operand _ hts).bind
      fun t _ _ ht => does_patternMiss ht
  | errorType =>
    exact (does_args hev h).bind fun ts _ _ hts => (does_operand _ hts).bind
      fun t _ _ _ => does_raise t
  | closure => exact (does_args hev h).bind fun ts _ _ hts => does_closureOp hev hts
  | prim op => exact (does_args hev h).bind fun ts _ _ hts => does_primOp op hts
  | tuple op => exact (does_args hev h).bind fun ts _ _ hts => does_tupleOp op hts
  | module op => exact (does_args hev h).bind fun ts _ _ hts => does_moduleOp hev op hts
  | layout op => exact (does_args hev h).bind fun ts _ _ hts => does_layoutOp op hts
  | array op => exact (does_args hev h).bind fun ts _ _ hts => does_arrayOp op hts
  | type op => exact (does_args hev h).bind fun ts _ _ hts => does_typeOp op hts
  | foreign target => exact (does_args hev h).bind fun ts _ _ hts => does_foreignOp target hts

/-! ### Evaluation -/

lemma does_close {used : Residual.Captures} (hused : used.Ascending) {kind : MapKind}
    (hkind : kind.Sorted) : i.Does w (close used kind) fun v w' => i.Value w' v :=
  .getScope (.pure fun hw => hw.env.restrict hused hkind)

lemma does_step (hev : Evaluator i.asks ev) {e : Expr} (he : e.Sorted) :
    i.Does w (step ev e) fun v w' => i.Value w' v := by
  obtain ⟨symbol, kind⟩ := e
  cases kind with
  | var x =>
    refine .getScope ?_
    cases hx : w.scope.env.get? x with
    | some t => exact .pure fun hw => hw.env.get? hx
    | none => exact .fail _
  | lit l => exact .pure fun _ => value_lit l
  | pattern p =>
    exact (does_build (Build.does_lowerPattern fun _ => he)).bind fun f w' _ hf =>
      hev.good i rfl f w' (hf trivial)
  | function param body =>
    exact (does_build (Build.does_freeNameSet fun _ => he)).bind fun used _ _ hused =>
      does_close (hused trivial) he
  | filtered used param body => exact does_close he.1 he.2
  | recFunction this param body =>
    exact (does_build (Build.does_freeNameSet fun _ => he)).bind fun used _ _ hused =>
      does_close (hused trivial) he
  | tuple items => exact (does_args hev he).bind fun ts _ _ hts => .pure fun _ => value_tuple hts
  | op op args => exact does_evalOp hev op he
  | pos span e =>
    refine .getSession ?_
    split
    · exact does_withSpan span fun w => hev.good i rfl e w he
    · exact hev.good i rfl e w he

/-- Where all recursive types are known, nothing stops evaluation from emitting good code. -/
theorem evaluator_eval {asks : Demands} (hknown : ∀ key, asks.known key) (fuel : Nat) :
    Evaluator asks (eval fuel) := by
  induction fuel with
  | zero => exact ⟨fun i _ e w _ => .throw _, fun key hkey => absurd (hknown key) hkey⟩
  | succ fuel ih =>
    refine ⟨fun i hi e w he => ?_, fun key hkey => absurd (hknown key) hkey⟩
    subst hi
    exact does_step ih he

end Residual.Region
