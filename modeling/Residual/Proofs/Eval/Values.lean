import Residual.Proofs.Eval.Discipline

/-!
Every step that does not evaluate expressions keeps to a discipline: emitting code, reading parts
of run-time values, and the operations on tuples, arrays, types and primitive values.
-/

namespace Residual.Discipline

open Eval

variable {D : Discipline} {i : D.Index} {w : World} {α β : Type}

lemma Value.ty {t : Term} (h : D.Value t) : D.Shape t.ty := fun hs => (h hs).ty

lemma Value.var_ty {v : Var} (h : D.Value (.var v)) : D.Shape v.ty := by
  cases v
  exact h

lemma Shape.ofUnit {t : Ty} (h : D.Shape t) : D.Value (.ofUnit t) :=
  fun hs => Term.formed_ofUnit t (h hs)

lemma Shape.type {t : Ty} (h : D.Shape t) : D.Value (.type t) := h

lemma value_lit (l : Literal) : D.Value (.lit l) := fun _ => trivial

lemma value_tuple {ts : List Term} (h : ∀ t ∈ ts, D.Value t) : D.Value (.tuple ts) :=
  fun hs => Term.allFormed_iff.2 fun t ht => h t ht hs

/-- Operations on values call nothing. -/
lemma sites_op (o : Op) {args : List Term} (ty : Ty) (h : ∀ t ∈ args, D.Value t) :
    D.strict → ∀ c ∈ (Term.op o args ty).sites, D.Known i w.session c.1 c.2 := by
  intro hs c hc
  obtain ⟨t, ht, hc⟩ := Term.mem_sitesOfAll.1 hc
  rw [(h t ht hs).sites_eq] at hc
  cases hc

/-! ### Emitting code -/

lemma does_freshTag :
    D.Does i w freshTag freshTag fun _ w' => w'.scope.sharing = w.scope.sharing := by
  refine .getScope ?_
  cases hf : w.scope.tags.fresh? with
  | none => exact .throw _
  | some r =>
    obtain ⟨tag, tags⟩ := r
    have hnext : w.scope.tags.next ≤ tags.next := by
      rw [(Tags.fresh?_eq_some_iff.1 hf).2.2]
      exact Nat.le_succ _
    refine .of_exec rfl fun hw => ?_
    obtain ⟨hgood, hle⟩ := good_tags hw hnext
    exact ⟨hgood, hle, rfl⟩

lemma does_freshVar {ty : Ty} (h : D.Shape ty) :
    D.Does i w (freshVar ty) (freshVar ty) fun v w' =>
      v.ty = ty ∧ D.Value (.var v) ∧ w'.scope.sharing = w.scope.sharing :=
  does_freshTag.bind fun _ _ _ _ hsharing => .pure fun _ => ⟨rfl, h, hsharing⟩

lemma does_pushStmt (mk : Trace → Stmt)
    (h : D.strict → ∀ trace, ∀ c ∈ (mk trace).sites, D.Known i w.session c.1 c.2) :
    D.Does i w (pushStmt mk) (pushStmt mk) fun _ w' =>
      w'.scope.sharing = w.scope.sharing ∧ mk w.scope.trace ∈ w'.scope.stmts := by
  have hrun : exec (pushStmt mk) w = (.ok (), w.push (mk w.scope.trace)) := rfl
  refine .of_exec hrun fun hw => ?_
  obtain ⟨hinv, hle⟩ := D.push hw.1 fun hs => h hs w.scope.trace
  exact ⟨⟨hinv, fun hs => ⟨(hw.2 hs).session, (hw.2 hs).env, (hw.2 hs).sharing⟩⟩, hle, rfl,
    List.mem_append_right _ (List.mem_singleton_self _)⟩

lemma does_bindResult {t : Term} {ty : Ty}
    (ht : D.strict → ∀ c ∈ t.sites, D.Known i w.session c.1 c.2) (hty : D.Shape ty) :
    D.Does i w (bindResult t ty) (bindResult t ty) fun v _ => D.Value v := by
  unfold bindResult
  split
  · exact (does_pushStmt (.state t) fun hs _ => ht hs).bind fun _ _ _ _ _ =>
      .pure fun _ => hty.ofUnit
  · refine (does_freshVar hty).bind fun v w' hw' hle hv => ?_
    refine (does_pushStmt (.letIn v t) fun hs _ c hc => ?_).bind fun _ _ _ _ _ =>
      .pure fun _ => hv.2.1
    exact D.known_le hw'.1 hle (ht hs c hc)

/-- A result that is shared was entered with its variable. -/
theorem mem_of_lookup_application {l : List (Application × Var)} {a : Application} {v : Var}
    (h : l.lookup a = some v) : ∃ b, (b, v) ∈ l := by
  induction l with
  | nil => cases h
  | cons e rest ih =>
    obtain ⟨b, u⟩ := e
    rw [List.lookup_cons] at h
    split at h
    · cases h
      exact ⟨b, List.mem_cons_self ..⟩
    · obtain ⟨c, hc⟩ := ih h
      exact ⟨c, List.mem_cons_of_mem _ hc⟩

lemma does_share {a : Application} {v : Var} (hv : D.Value (.var v))
    (hnone : w.scope.sharing.get? a = none) (hpure : a.op.isPure = true)
    (hbound : a.BoundIn v w.scope.stmts) :
    D.Does i w (modifyScope fun s => { s with sharing := s.sharing.insert a v })
      (modifyScope fun s => { s with sharing := s.sharing.insert a v }) fun _ _ => True := by
  have hrun : exec (modifyScope fun s => { s with sharing := s.sharing.insert a v }) w =
      (.ok (), w.share a v) := rfl
  refine .of_exec hrun fun hw => ?_
  obtain ⟨hinv, hle⟩ := D.share hw.1 hnone hpure hbound
  refine ⟨⟨hinv, fun hs => ⟨(hw.2 hs).session, (hw.2 hs).env, fun e he => ?_⟩⟩, hle, trivial⟩
  rcases List.mem_cons.1 he with rfl | he
  · exact hv hs
  · exact (hw.2 hs).sharing e (List.mem_filter.1 he).1

lemma does_emit {op : Op} {args : List Term} {ty : Ty} (ha : ∀ t ∈ args, D.Value t)
    (hty : D.Shape ty) :
    D.Does i w (emit op args ty) (emit op args ty) fun v _ => D.Value v := by
  refine .getSession ?_
  split
  · rename_i hshared
    have hpure : op.isPure = true := by
      simp only [Bool.and_eq_true] at hshared
      exact hshared.1.2
    refine .getScope ?_
    cases hget : w.scope.sharing.get? ⟨op, args⟩ with
    | some v =>
      refine .given fun hw => ?_
      have hv : D.Value (.var v) := fun hs => by
        obtain ⟨b, hb⟩ := mem_of_lookup_application hget
        exact (hw.2 hs).sharing (b, v) hb
      exact (does_modifyStats _ fun _ => by rfl).bind fun _ _ _ _ _ => .pure fun _ => hv
    | none =>
      refine (does_freshVar hty).bind fun v w₁ _ _ hv => ?_
      refine (does_pushStmt (.letIn v (.op op args ty)) fun hs _ => sites_op op ty ha hs).bind
        fun _ w₂ _ _ h₂ => ?_
      have hnone : w₂.scope.sharing.get? ⟨op, args⟩ = none := by rw [h₂.1, hv.2.2, hget]
      have hbound : Application.BoundIn ⟨op, args⟩ v w₂.scope.stmts := ⟨_, hv.1 ▸ h₂.2⟩
      exact (does_share hv.2.1 hnone hpure hbound).bind fun _ _ _ _ _ => .pure fun _ => hv.2.1
  · exact does_bindResult (sites_op op ty ha) hty

mutual

lemma does_toRuntime (t : Term) (w : World) (h : D.Value t) :
    D.Does i w (toRuntime t) (toRuntime t) fun v _ => D.Value v := by
  match t with
  | .lit l =>
    exact does_bindResult (fun hs c hc => by cases hc) fun _ => (trivial : (Ty.prim _).Formed)
  | .box inner ty =>
    refine (does_toRuntime inner w fun hs => (h hs).1).bind fun v w' _ _ hv => ?_
    refine does_bindResult (fun hs c hc => ?_) fun hs => (h hs).2
    rw [Term.sites, (hv hs).sites_eq] at hc
    cases hc
  | .tuple items =>
    exact (does_allToRuntime items w fun hs => h hs).bind fun ts _ _ _ hts =>
      .pure fun _ => hts
  | .map env kind =>
    exact (does_envToRuntime env w fun hs => (h hs).1).bind fun m _ _ _ hm =>
      .pure fun _ hs => ⟨hm hs, (h hs).2⟩
  | .type _ | .var _ => exact .pure fun _ => h
  | .op _ _ _ => exact .pure fun _ => h
  | .letIn _ _ _ _ | .state _ _ _ | .call _ _ _ _ => exact .pure fun _ => h
termination_by structural t

lemma does_allToRuntime (ts : List Term) (w : World) (h : D.strict → Term.AllFormed ts) :
    D.Does i w (allToRuntime ts) (allToRuntime ts)
      fun vs _ => D.strict → Term.AllFormed vs := by
  match ts with
  | [] => exact .pure fun _ _ => trivial
  | t :: rest =>
    refine (does_toRuntime t w fun hs => (h hs).1).bind fun v w' _ _ hv => ?_
    exact (does_allToRuntime rest w' fun hs => (h hs).2).bind fun vs _ _ _ hvs =>
      .pure fun _ hs => ⟨hv hs, hvs hs⟩
termination_by structural ts

lemma does_envToRuntime (env : Env) (w : World) (h : D.strict → env.Formed) :
    D.Does i w (envToRuntime env) (envToRuntime env)
      fun m _ => D.strict → Fields.Formed m := by
  match env with
  | .plain m =>
    refine (does_fieldsToRuntime (fun _ => true) m w fun hs => (h hs).2).imp fun n _ hn hs => ?_
    refine ⟨Rename.ascending_of_names hn.1 ?_, hn.2 hs⟩
    exact List.Pairwise.sublist List.filter_sublist (h hs).1
  | .restricted m used =>
    refine (does_fieldsToRuntime used.contains m w fun hs => (h hs).2.1).imp
      fun n _ hn hs => ⟨Rename.ascending_of_names hn.1 ?_, hn.2 hs⟩
    exact List.Pairwise.sublist List.filter_sublist (h hs).1
  | .consed _ m =>
    refine (does_fieldsToRuntime (fun _ => true) m w fun hs => (h hs).2).imp fun n _ hn hs => ?_
    refine ⟨Rename.ascending_of_names hn.1 ?_, hn.2 hs⟩
    exact List.Pairwise.sublist List.filter_sublist (h hs).1
termination_by structural env

lemma does_fieldsToRuntime (keep : Name → Bool) (m : List (Name × Term)) (w : World)
    (h : D.strict → Env.FieldsFormed m) :
    D.Does i w (fieldsToRuntime keep m) (fieldsToRuntime keep m)
      fun n _ => n.map Prod.fst = (m.filter fun e => keep e.1).map Prod.fst ∧
        (D.strict → Env.FieldsFormed n) := by
  match m with
  | [] => exact .pure fun _ => ⟨rfl, fun _ => trivial⟩
  | (x, t) :: rest =>
    rw [fieldsToRuntime]
    split
    · rename_i hk
      refine (does_toRuntime t w fun hs => (h hs).1).bind fun v w' _ _ hv => ?_
      refine (does_fieldsToRuntime keep rest w' fun hs => (h hs).2).bind fun n _ _ _ hn =>
        .pure fun _ => ⟨?_, fun hs => ⟨hv hs, hn.2 hs⟩⟩
      rw [List.map_cons, hn.1, List.filter_cons, if_pos hk, List.map_cons]
    · rename_i hk
      refine (does_fieldsToRuntime keep rest w fun hs => (h hs).2).imp fun n _ hn => ⟨?_, hn.2⟩
      rw [hn.1, List.filter_cons, if_neg hk]
termination_by structural m

end

/-! ### Operands -/

lemma does_operand (op : Op) {args : List Term} (h : ∀ t ∈ args, D.Value t) :
    D.Does i w (operand op args) (operand op args) fun t _ => D.Value t := by
  unfold operand
  split
  · exact .pure fun _ => h _ (by simp)
  · exact .fail _

lemma does_operands₂ (op : Op) {args : List Term} (h : ∀ t ∈ args, D.Value t) :
    D.Does i w (operands₂ op args) (operands₂ op args)
      fun r _ => D.Value r.1 ∧ D.Value r.2 := by
  unfold operands₂
  split
  · exact .pure fun _ => ⟨h _ (by simp), h _ (by simp)⟩
  · exact .fail _

lemma does_operands₃ (op : Op) {args : List Term} (h : ∀ t ∈ args, D.Value t) :
    D.Does i w (operands₃ op args) (operands₃ op args)
      fun r _ => D.Value r.1 ∧ D.Value r.2.1 ∧ D.Value r.2.2 := by
  unfold operands₃
  split
  · exact .pure fun _ => ⟨h _ (by simp), h _ (by simp), h _ (by simp)⟩
  · exact .fail _

/-! ### Tuples -/

lemma shape_of_mem {t : Ty} {items : List Ty} (h : D.Shape (.list items)) (ht : t ∈ items) :
    D.Shape t :=
  fun hs => Ty.allFormed_iff.1 (h hs) t ht

lemma does_tupleIndex {t : Term} (ht : D.Value t) (n : Nat) :
    D.Does i w (tupleIndex t n) (tupleIndex t n) fun v _ => D.Value v := by
  unfold tupleIndex
  split
  · split
    · rename_i items _ item hitem
      exact .pure fun _ hs => Term.allFormed_iff.1 (ht hs) _ (List.mem_of_getElem? hitem)
    · exact .fail _
  · split
    · rename_i items _ item hitem
      exact .pure fun _ => (shape_of_mem ht (List.mem_of_getElem? hitem)).ofUnit
    · exact .fail _
  · split
    · rename_i tag items _ item hitem
      have hty := shape_of_mem (D := D) (fun hs => ht hs) (List.mem_of_getElem? hitem)
      split
      · exact .pure fun _ => hty.ofUnit
      · exact does_emit (fun v hv => List.mem_singleton.1 hv ▸ ht) hty
    · exact .fail _
  · exact .fail _

lemma does_tupleOp (op : TupleOp) {args : List Term} (h : ∀ t ∈ args, D.Value t) :
    D.Does i w (tupleOp op args) (tupleOp op args) fun v _ => D.Value v := by
  refine (does_operand _ h).bind fun t w' _ _ ht => ?_
  cases op with
  | lengthEq n => exact .pure fun _ => value_lit _
  | lengthGe n => exact .pure fun _ => value_lit _
  | index n => exact does_tupleIndex ht n
  | slice n =>
    cases hl : t.tupleLength? with
    | none => exact .fail _
    | some length =>
      by_cases hn : n ≤ length
      · simp only [hn, if_true]
        exact (Does.mapM fun k _ w => does_tupleIndex ht (n + k)).bind fun ts _ _ _ hts =>
          .pure fun _ => value_tuple hts
      · simp only [hn, if_false]
        exact .fail _

/-! ### Primitive operations -/

lemma shape_prim (p : Prim) : D.Shape (.prim p) := fun _ => trivial

lemma does_primOp (op : PrimOp) {args : List Term} (h : ∀ t ∈ args, D.Value t) :
    D.Does i w (primOp op args) (primOp op args) fun v _ => D.Value v := by
  have htype : D.Does i w (primType op args) (primType op args) fun _ _ => True := by
    unfold primType
    split
    · exact .fail _
    · split
      · exact .pure fun _ => trivial
      · exact .fail _
  refine htype.bind fun result w' _ _ _ => .getSession ?_
  split
  · exact .pure fun _ => value_lit _
  · exact does_emit h (shape_prim _)

/-! ### Arrays -/

lemma does_elementType (op : ArrayOp) {t : Term} (ht : D.Value t) :
    D.Does i w (elementType op t) (elementType op t) fun ty _ => D.Shape ty := by
  unfold elementType
  split
  · rename_i storage elem hty
    split
    · refine .pure fun _ hs => ?_
      have h := ht.ty hs
      rw [hty] at h
      exact h
    · exact .fail _
  · exact .fail _

lemma does_expectIndex (op : ArrayOp) (t : Term) :
    D.Does i w (expectIndex op t) (expectIndex op t) fun _ _ => True := by
  unfold expectIndex
  split
  · exact .pure fun _ => trivial
  · exact .fail _

lemma does_expectElement (op : ArrayOp) (elem : Ty) (t : Term) :
    D.Does i w (expectElement op elem t) (expectElement op elem t) fun _ _ => True := by
  unfold expectElement
  split
  · exact .pure fun _ => trivial
  · exact .fail _

lemma shape_unit : D.Shape .unit := fun _ => trivial

lemma does_arrayOp (op : ArrayOp) {args : List Term} (h : ∀ t ∈ args, D.Value t) :
    D.Does i w (arrayOp op args) (arrayOp op args) fun v _ => D.Value v := by
  -- The checks change nothing; what is stored is dynamized, which may emit statements.
  cases op with
  | create storage =>
    refine (does_operands₂ _ h).bind fun r _ _ _ hr => (does_expectIndex _ _).bind
      fun _ w₁ _ _ _ => (does_toRuntime r.2 w₁ hr.2).bind fun length _ _ _ hlength => ?_
    exact does_emit (by simpa using ⟨hr.1.ty.type, hlength⟩) hr.1.ty
  | length =>
    refine (does_operand _ h).bind fun t _ _ _ ht => (does_elementType _ ht).bind
      fun _ _ _ _ _ => ?_
    exact does_emit (by simpa using ht) (shape_prim _)
  | index =>
    refine (does_operands₂ _ h).bind fun r _ _ _ hr => (does_elementType _ hr.1).bind
      fun elem _ _ _ helem => (does_expectIndex _ _).bind fun _ _ _ _ _ => ?_
    exact does_emit (by simpa using hr) helem
  | set =>
    refine (does_operands₃ _ h).bind fun r _ _ _ hr => (does_elementType _ hr.1).bind
      fun elem _ _ _ _ => (does_expectIndex _ _).bind fun _ _ _ _ _ => ?_
    refine (does_expectElement _ elem _).bind fun _ w₁ _ _ _ =>
      (does_toRuntime r.2.2 w₁ hr.2.2).bind fun value _ _ _ hvalue => ?_
    exact does_emit (by simpa using ⟨hr.1, hr.2.1, hvalue⟩) shape_unit
  | refCreate =>
    refine (does_operand _ h).bind fun t w₁ _ _ ht => (does_toRuntime t w₁ ht).bind
      fun value _ _ _ hvalue => ?_
    exact does_emit (by simpa using hvalue) ht.ty
  | refGet =>
    refine (does_operand _ h).bind fun t _ _ _ ht => (does_elementType _ ht).bind
      fun elem _ _ _ helem => ?_
    exact does_emit (by simpa using ht) helem
  | refSet =>
    refine (does_operands₂ _ h).bind fun r _ _ _ hr => (does_elementType _ hr.1).bind
      fun elem _ _ _ _ => (does_expectElement _ elem _).bind fun _ w₁ _ _ _ => ?_
    refine (does_toRuntime r.2 w₁ hr.2).bind fun value _ _ _ hvalue => ?_
    exact does_emit (by simpa using ⟨hr.1, hvalue⟩) shape_unit

/-! ### Types and foreign text -/

lemma does_foreignPart {t : Term} (ht : D.Value t) :
    D.Does i w (foreignPart t) (foreignPart t) fun p _ => D.strict → p.Formed := by
  unfold foreignPart
  split
  · exact .pure fun _ _ => trivial
  · exact .pure fun _ => ht
  · exact .pure fun _ => ht
  · exact .fail _

lemma does_typeOp (op : TypeOp) {args : List Term} (h : ∀ t ∈ args, D.Value t) :
    D.Does i w (typeOp op args) (typeOp op args) fun v _ => D.Value v := by
  cases op with
  | get => exact (does_operand _ h).bind fun t _ _ _ ht => .pure fun _ => ht.ty.type
  | union =>
    refine (does_operands₂ _ h).bind fun r _ _ _ hr => .pure fun _ hs => ?_
    refine Ty.formed_unionOf fun t ht => ?_
    simp only [List.mem_cons, List.not_mem_nil, or_false] at ht
    rcases ht with rfl | rfl
    · exact hr.1.ty hs
    · exact hr.2.ty hs
  | literal =>
    refine (does_operand _ h).bind fun t _ _ _ ht => ?_
    split
    · exact .pure fun _ _ => trivial
    · exact .fail _
  | equal => exact (does_operands₂ _ h).bind fun r _ _ _ _ => .pure fun _ => value_lit _
  | foreign target =>
    refine (Does.mapM fun t ht w => does_foreignPart (h t ht)).bind fun ps _ _ _ hps => ?_
    exact .pure fun _ hs => ForeignPart.allFormed_iff.2 fun p hp => hps p hp hs

lemma does_foreignArg {t : Term} (ht : D.Value t) :
    D.Does i w (foreignArg t) (foreignArg t) fun v _ => D.Value v := by
  unfold foreignArg
  split
  · exact .pure fun _ => ht
  · exact .pure fun _ => ht
  · exact .pure fun _ => ht
  · exact .fail _

lemma does_foreignOp (target : Target) {args : List Term} (h : ∀ t ∈ args, D.Value t) :
    D.Does i w (foreignOp target args) (foreignOp target args) fun v _ => D.Value v := by
  unfold foreignOp
  split
  · exact .fail _
  · rename_i result parts
    obtain ⟨hresult, hparts⟩ := List.forall_mem_cons.1 h
    refine (Does.mapM fun t ht w => does_foreignArg (hparts t ht)).bind fun ps _ _ _ hps => ?_
    refine does_bindResult (sites_op _ _ ?_) hresult.ty
    exact List.forall_mem_cons.2 ⟨hresult.ty.type, hps⟩

/-! ### Parts of run-time values -/

lemma does_readField {v : Var} (hv : D.Value (.var v)) (x : Name) {ty : Ty}
    (hty : D.Shape ty) :
    D.Does i w (readField v x ty) (readField v x ty) fun t _ => D.Value t := by
  unfold readField
  split
  · exact .pure fun _ => hty.ofUnit
  · exact does_emit (by simpa using hv) hty

lemma does_readFields {v : Var} (hv : D.Value (.var v)) {fields : List (Name × Ty)}
    (h : ∀ e ∈ fields, D.Shape e.2) :
    D.Does i w (readFields v fields) (readFields v fields) fun m _ =>
      m.map Prod.fst = fields.map Prod.fst ∧ ∀ e ∈ m, D.Value e.2 := by
  induction fields generalizing w with
  | nil => exact .pure fun _ => ⟨rfl, fun e he => by cases he⟩
  | cons e rest ih =>
    obtain ⟨x, ty⟩ := e
    obtain ⟨hty, hrest⟩ := List.forall_mem_cons.1 h
    refine (does_readField hv x hty).bind fun t _ _ _ ht => (ih hrest).bind fun m _ _ _ hm => ?_
    refine .pure fun _ => ⟨?_, List.forall_mem_cons.2 ⟨ht, hm.2⟩⟩
    rw [List.map_cons, hm.1, List.map_cons]

lemma does_envVars {env : Env} (h : D.strict → env.Formed) :
    D.Does i w (envVars env) (envVars env) fun vs _ => ∀ v ∈ vs, D.Value (.var v) := by
  refine (does_rename (fun _ => ⟨rfl, rfl, rfl⟩) (Rename.grows_env env)
    fun hs => Rename.keeps_env env (h hs)).bind fun r _ _ _ hr => ?_
  exact .pure fun _ v hv hs => (hr.2.2.2 hs).2.args v hv

lemma does_readPacked {v : Var} (hv : D.Value (.var v)) (n : Nat) {fields : List Var}
    (h : ∀ f ∈ fields, D.Value (.var f)) :
    D.Does i w (readPacked v n fields) (readPacked v n fields) fun _ _ => True := by
  induction fields generalizing w n with
  | nil => exact .pure fun _ => trivial
  | cons field rest ih =>
    obtain ⟨hfield, hrest⟩ := List.forall_mem_cons.1 h
    refine (does_emit (List.forall_mem_singleton.2 hv) hfield.var_ty).bind fun t _ _ _ _ => ?_
    refine (ih (n + 1) hrest).bind fun later _ _ _ _ => ?_
    split
    · exact .pure fun _ => trivial
    · exact .pure fun _ => trivial

lemma does_unpack {v : Var} (hv : D.Value (.var v)) {env : Env} (h : D.strict → env.Formed) :
    D.Does i w (unpack v env) (unpack v env) fun e _ => D.strict → e.Formed := by
  refine (does_envVars h).bind fun vars _ _ _ hvars => ?_
  refine (does_readPacked hv 0 hvars).bind fun substitution w₁ _ _ _ => .getScope ?_
  refine (does_rename (fun _ => ⟨rfl, rfl, rfl⟩) (Rename.grows_env env)
    fun hs => Rename.keeps_env env (h hs)).bind fun r w₂ _ _ hr => ?_
  obtain ⟨hrun, -, hscope, hformed⟩ := hr
  have htags : w₂.scope.tags.next ≤ r.2.tags.next := by
    rw [hscope]
    exact (Rename.grows_env env _ _ _ hrun).tags
  have hset : D.Does i w₂ (modifyScope fun s => { s with tags := r.2.tags })
      (modifyScope fun s => { s with tags := r.2.tags }) fun _ _ => True := by
    refine .of_exec (exec_modifyScope _ w₂) fun hw => ?_
    obtain ⟨hgood, hle⟩ := good_tags hw htags
    exact ⟨hgood, hle, trivial⟩
  exact hset.bind fun _ _ _ _ _ => .pure fun _ hs => (hformed hs).1

/-- The parts of a map that evaluation may go on with. -/
def MapParts (D : Discipline) (m : Env × MapKind) : Prop :=
  D.strict → m.1.Formed ∧ m.2.Sorted

lemma does_mapValue? {t : Term} (ht : D.Value t) :
    D.Does i w (mapValue? t) (mapValue? t) fun r _ => ∀ m ∈ r, D.MapParts m := by
  unfold mapValue?
  split
  · rename_i env kind
    refine .pure fun _ m hm => ?_
    cases hm
    exact ht
  · rename_i tag fields kind
    have hfields : ∀ e ∈ fields, D.Shape e.2 := fun e he hs =>
      Ty.fieldsFormed_iff.1 (ht hs).2.1 e he
    refine (does_readFields ht hfields).bind fun read _ _ _ hread => .pure fun _ m hm hs => ?_
    cases hm
    refine ⟨⟨Rename.ascending_of_names hread.1 (ht hs).1, ?_⟩, (ht hs).2.2⟩
    exact Env.fieldsFormed_iff.2 fun e he => hread.2 e he hs
  · rename_i tag l env kind
    refine (does_unpack ht fun hs => (ht hs).1).bind fun read _ _ _ hread => ?_
    refine .pure fun _ m hm hs => ?_
    cases hm
    exact ⟨hread hs, (ht hs).2⟩
  · rename_i fields kind
    refine .pure fun _ m hm hs => ?_
    cases hm
    exact Term.formed_ofUnit (.map fields kind) (ht hs)
  · refine .pure fun _ m hm => ?_
    cases hm

lemma does_mapValue (op : Op) {t : Term} (ht : D.Value t) :
    D.Does i w (mapValue op t) (mapValue op t) fun m _ => D.MapParts m := by
  refine (does_mapValue? ht).bind fun r _ _ _ hr => ?_
  cases r with
  | none => exact .fail _
  | some m => exact .pure fun _ => hr m rfl

lemma does_openField (op : ModuleOp) {t : Term} (ht : D.Value t) (x : Name) :
    D.Does i w (openField op t x) (openField op t x) fun v _ => D.Value v := by
  unfold openField
  split
  · rename_i tag fields kind
    split
    · rename_i ty hty
      refine does_readField ht x fun hs => ?_
      exact Ty.fieldsFormed_iff.1 (ht hs).2.1 _ (Fields.mem_of_get? hty)
    · exact .fail _
  · refine (does_mapValue _ ht).bind fun m _ _ _ hm => ?_
    cases hvalue : m.1.get? x with
    | some value =>
      simp only [hvalue]
      exact .pure fun _ hs => (hm hs).1.get? hvalue
    | none =>
      simp only [hvalue]
      exact .fail _

lemma does_layoutOp (op : LayoutOp) {args : List Term} (h : ∀ t ∈ args, D.Value t) :
    D.Does i w (layoutOp op args) (layoutOp op args) fun v _ => D.Value v := by
  refine (does_operand _ h).bind fun t _ _ _ ht => ?_
  cases op with
  | pack layout =>
    refine (does_mapValue _ ht).bind fun m _ _ _ hm => ?_
    refine (does_rename (fun _ => ⟨rfl, rfl, rfl⟩) (Rename.grows_env m.1)
      fun hs => Rename.keeps_env m.1 (hm hs).1).bind fun r _ _ _ hr => ?_
    refine does_bindResult (sites_op _ _ ?_) fun hs => ⟨(hr.2.2.2 hs).1, (hm hs).2⟩
    intro v hv
    rw [List.mem_singleton.1 hv]
    refine value_tuple fun u hu => ?_
    obtain ⟨arg, harg, rfl⟩ := List.mem_map.1 hu
    exact fun hs => (hr.2.2.2 hs).2.args arg harg
  | read n =>
    dsimp only
    split
    · rename_i tag l env kind
      refine (does_envVars fun hs => (ht hs).1).bind fun vars _ _ _ hvars => ?_
      split
      · rename_i field hfield
        refine does_emit (by simpa using ht) ?_
        exact (hvars field (List.mem_of_getElem? hfield)).var_ty
      · exact .fail _
    · exact .fail _

end Residual.Discipline
