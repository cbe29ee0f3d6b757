import Residual.Proofs.Eval.Frame
import Residual.Proofs.Eval.Meaning

/-!
The types of core programs.

Whatever a core program is evaluated to, also in a branch that is never taken, has a core type:
the functions in it come from the program. `Typed` says this of a step that succeeds.
-/

namespace Residual

open Eval

variable {nodes : Interner ExprKind}

lemma Ty.allCore_iff {ts : List Ty} : Ty.AllCore nodes ts ↔ ∀ t ∈ ts, t.Core nodes := by
  induction ts with
  | nil => simp [Ty.AllCore]
  | cons t rest ih => simp [Ty.AllCore, ih]

lemma Ty.fieldsCore_iff {fields : List (Name × Ty)} :
    Ty.FieldsCore nodes fields ↔ ∀ e ∈ fields, e.2.Core nodes := by
  induction fields with
  | nil => simp [Ty.FieldsCore]
  | cons e rest ih =>
    obtain ⟨x, t⟩ := e
    simp [Ty.FieldsCore, ih]

lemma Term.allCore_tys_iff {ts : List Term} :
    Ty.AllCore nodes (Term.tys ts) ↔ ∀ t ∈ ts, t.ty.Core nodes := by
  rw [Ty.allCore_iff, Term.tys_eq, List.forall_mem_map]

/-- What can be seen has a core type. -/
def Env.Core (nodes : Interner ExprKind) (env : Env) : Prop :=
  Ty.FieldsCore nodes (Term.envTys env)

namespace Env.Core

variable {env : Env}

lemma iff_visible : env.Core nodes ↔ ∀ e ∈ env.visible, e.2.ty.Core nodes := by
  rw [Env.Core, Ty.fieldsCore_iff, Term.envTys_eq_map, List.forall_mem_map]

lemma bind (h : env.Core nodes) (x : Name) {t : Term} (ht : t.ty.Core nodes) :
    (env.bind x t).Core nodes := by
  rw [iff_visible] at h ⊢
  intro e he
  rcases Fields.mem_insert he with rfl | he
  · exact ht
  · exact h e he

lemma restricted (h : env.Core nodes) (used : Captures) :
    (Env.restricted env.visible used).Core nodes := by
  rw [iff_visible] at h ⊢
  exact fun e he => h e (List.mem_filter.1 he).1

end Env.Core

/-- The world has core types only, and the evaluation is that of the program itself. -/
structure World.Core (nodes : Interner ExprKind) (w : World) : Prop where
  owner : w.scope.owner = none
  env : w.scope.env.Core nodes
  sharing : ∀ e ∈ w.scope.sharing.entries, e.2.ty.Core nodes

namespace Eval

variable {α β : Type} {w : World}

/-- A result of the step has the property, and the world still has core types only. -/
def Typed (nodes : Interner ExprKind) (w : World) (m : Eval α) (Q : α → Prop) : Prop :=
  ∀ a w', w.Core nodes → exec m w = (.ok a, w') → w'.Core nodes ∧ Q a

/-- The result has a core type. -/
abbrev TypedTerm (nodes : Interner ExprKind) (w : World) (m : Eval Term) : Prop :=
  Typed nodes w m fun t => t.ty.Core nodes

namespace Typed

variable {m : Eval α} {f : α → Eval β} {P P' : α → Prop} {Q : β → Prop}

lemma pure {a : α} (h : P a) : Typed nodes w (Pure.pure a) P := by
  intro b w' hw hrun
  cases hrun
  exact ⟨hw, h⟩

lemma fail (c : Cause) : Typed nodes w (Eval.fail c : Eval α) P := by
  intro b w' hw hrun
  cases hrun

lemma throw (s : Stop) : Typed nodes w (MonadExcept.throw s : Eval α) P := by
  intro b w' hw hrun
  cases hrun

lemma bind (hm : Typed nodes w m P) (hf : ∀ a w', P a → Typed nodes w' (f a) Q) :
    Typed nodes w (m >>= f) Q := by
  intro b w' hw hrun
  obtain ⟨a, w₁, hfirst, hrest⟩ := exec_bind_eq_ok.1 hrun
  obtain ⟨hw₁, ha⟩ := hm a w₁ hw hfirst
  exact hf a w₁ ha b w' hw₁ hrest

lemma imp (hm : Typed nodes w m P) (h : ∀ a, P a → P' a) : Typed nodes w m P' :=
  fun a w' hw hrun => ⟨(hm a w' hw hrun).1, h a (hm a w' hw hrun).2⟩

lemma given (h : w.Core nodes → Typed nodes w m P) : Typed nodes w m P :=
  fun a w' hw hrun => h hw a w' hw hrun

lemma getScope {f : Scope → Eval β} (h : Typed nodes w (f w.scope) Q) :
    Typed nodes w (Eval.getScope >>= f) Q :=
  h

lemma getSession {f : Session → Eval β} (h : Typed nodes w (f w.session) Q) :
    Typed nodes w (Eval.getSession >>= f) Q :=
  h

/-- A step that always succeeds, with the world after it. -/
theorem of_exec {a : α} {w' : World} (hm : exec m w = (.ok a, w'))
    (h : w.Core nodes → w'.Core nodes ∧ P a) : Typed nodes w m P := by
  intro b w'' hw hrun
  rw [hm] at hrun
  cases hrun
  exact h hw

lemma mapM {f : α → Eval β} {l : List α} (h : ∀ a ∈ l, ∀ w, Typed nodes w (f a) Q) :
    Typed nodes w (l.mapM f) fun bs => ∀ b ∈ bs, Q b := by
  induction l generalizing w with
  | nil => exact .pure fun b hb => absurd hb List.not_mem_nil
  | cons a l ih =>
    rw [List.mapM_cons]
    refine (h a (List.mem_cons_self ..) w).bind fun b w₁ hb => ?_
    refine (ih fun a ha => h a (List.mem_cons_of_mem _ ha)).bind fun bs w₂ hbs => ?_
    exact .pure (List.forall_mem_cons.2 ⟨hb, hbs⟩)

end Typed

lemma typed_freshVar (ty : Ty) : Typed nodes w (freshVar ty) fun v => v.ty = ty := by
  intro v w' hw hrun
  obtain ⟨tag, w₁, htag, hv⟩ := exec_bind_eq_ok.1 hrun
  cases hv
  refine ⟨?_, rfl⟩
  unfold freshTag at htag
  rw [exec_bind_of_ok (exec_getScope w)] at htag
  split at htag
  · cases htag
  · cases htag
    exact ⟨hw.owner, hw.env, hw.sharing⟩

lemma typed_pushStmt (mk : Trace → Stmt) : Typed nodes w (pushStmt mk) fun _ => True :=
  .of_exec rfl fun hw => ⟨⟨hw.owner, hw.env, hw.sharing⟩, trivial⟩

lemma typed_bindResult (t : Term) (ty : Ty) :
    Typed nodes w (bindResult t ty) fun r => r.ty = ty := by
  unfold bindResult
  split
  · exact (typed_pushStmt _).bind fun _ _ _ => .pure (Term.ty_ofUnit ty)
  · refine (typed_freshVar ty).bind fun v _ hv => ?_
    exact (typed_pushStmt _).bind fun _ _ _ => .pure ((Term.ty_var v).trans hv)

lemma typed_emit (op : Op) (args : List Term) {ty : Ty} (hty : ty.Core nodes) :
    TypedTerm nodes w (emit op args ty) := by
  refine .getSession ?_
  split
  · refine .getScope ?_
    cases hget : w.scope.sharing.get? ⟨op, args⟩ with
    | some v =>
      refine .given fun hw => ?_
      obtain ⟨b, hb⟩ := Discipline.mem_of_lookup_application hget
      have hv : (Term.var v).ty.Core nodes := Term.ty_var v ▸ hw.sharing (b, v) hb
      refine .bind (P := fun _ => True) (.of_exec rfl fun hw => ?_) fun _ _ _ => .pure hv
      exact ⟨⟨hw.owner, hw.env, hw.sharing⟩, trivial⟩
    | none =>
      refine (typed_freshVar ty).bind fun v _ hv => ?_
      rw [← hv, ← Term.ty_var] at hty
      refine (typed_pushStmt _).bind fun _ _ _ => ?_
      refine .bind (P := fun _ => True) (.of_exec rfl fun hw => ?_) fun _ _ _ => .pure hty
      refine ⟨⟨hw.owner, hw.env, fun e he => ?_⟩, trivial⟩
      rcases List.mem_cons.1 he with rfl | he
      · exact Term.ty_var v ▸ hty
      · exact hw.sharing e (List.mem_filter.1 he).1
  · exact (typed_bindResult _ ty).imp fun r hr => hr ▸ hty

mutual

/-- A value keeps its type when it becomes run-time data. -/
lemma typed_toRuntime (t : Term) (w : World) :
    Typed nodes w (toRuntime t) fun r => r.ty = t.ty := by
  match t with
  | .lit l => exact typed_bindResult _ _
  | .box inner ty => exact (typed_toRuntime inner w).bind fun _ _ _ => typed_bindResult _ _
  | .tuple items =>
    exact (typed_allToRuntime items w).bind fun ts _ hts => .pure (congrArg Ty.list hts)
  | .map env kind =>
    exact (typed_envToRuntime env w).bind fun m _ hm => .pure (congrArg (Ty.map · kind) hm)
  | .type _ | .var _ | .letIn _ _ _ _ | .state _ _ _ | .op _ _ _ | .call _ _ _ _ => exact .pure rfl
termination_by structural t

lemma typed_allToRuntime (ts : List Term) (w : World) :
    Typed nodes w (allToRuntime ts) fun rs => Term.tys rs = Term.tys ts := by
  match ts with
  | [] => exact .pure rfl
  | t :: rest =>
    refine (typed_toRuntime t w).bind fun r w₁ hr => ?_
    refine (typed_allToRuntime rest w₁).bind fun rs _ hrs => .pure ?_
    rw [Term.tys, Term.tys, hr, hrs]
termination_by structural ts

lemma typed_envToRuntime (env : Env) (w : World) :
    Typed nodes w (envToRuntime env) fun m => Term.envTys (.plain m) = Term.envTys env := by
  match env with
  | .plain m => exact typed_fieldsToRuntime _ m w
  | .restricted m used => exact typed_fieldsToRuntime _ m w
  | .consed _ m => exact typed_fieldsToRuntime _ m w
termination_by structural env

lemma typed_fieldsToRuntime (keep : Name → Bool) (m : List (Name × Term)) (w : World) :
    Typed nodes w (fieldsToRuntime keep m) fun rs =>
      Term.fieldTys (fun _ => true) rs = Term.fieldTys keep m := by
  match m with
  | [] => exact .pure rfl
  | (x, t) :: rest =>
    rw [fieldsToRuntime, Term.fieldTys]
    split
    · refine (typed_toRuntime t w).bind fun r w₁ hr => ?_
      refine (typed_fieldsToRuntime keep rest w₁).bind fun rs _ hrs => .pure ?_
      rw [Term.fieldTys, if_pos rfl, hr, hrs]
    · exact typed_fieldsToRuntime keep rest w
termination_by structural m

end

/-! ### Operations -/

lemma typed_readFields (v : Var) {fields : List (Name × Ty)} (h : Ty.FieldsCore nodes fields) :
    Typed nodes w (readFields v fields) fun m => (Env.plain m).Core nodes := by
  induction fields generalizing w with
  | nil => exact .pure trivial
  | cons e rest ih =>
    obtain ⟨x, t⟩ := e
    have hread : TypedTerm nodes w (readField v x t) := by
      unfold readField
      split
      · refine .pure ?_
        rw [Term.ty_ofUnit]
        exact h.1
      · exact typed_emit _ _ h.1
    exact hread.bind fun t _ ht => (ih h.2).bind fun m _ hm => .pure ⟨ht, hm⟩

/-- What is applied to an argument is a function of the program. -/
lemma typed_mapValue? {t : Term} (h : t.ty.Core nodes) :
    Typed nodes w (mapValue? t) fun value => ∀ env kind, value = some (env, kind) →
      env.Core nodes ∧ kind.Core nodes := by
  unfold mapValue?
  split
  · refine .pure fun env kind heq => ?_
    cases heq
    exact h
  · refine (typed_readFields _ h.1).bind fun m _ hm => .pure fun env kind heq => ?_
    cases heq
    exact ⟨hm, h.2⟩
  · exact h.elim
  · rename_i fields kind
    refine .pure fun env kind heq => ?_
    cases heq
    refine ⟨?_, h.2⟩
    rw [Env.Core, Term.envTys, Term.fieldTys_ofUnitFields]
    exact h.1
  · exact .pure fun env kind heq => by cases heq

lemma typed_tupleIndex {t : Term} (h : t.ty.Core nodes) (i : Nat) :
    TypedTerm nodes w (tupleIndex t i) := by
  unfold tupleIndex
  split
  · split
    · rename_i item hitem
      exact .pure (Term.allCore_tys_iff.1 h item (List.mem_of_getElem? hitem))
    · exact .fail _
  · split
    · rename_i item hitem
      refine .pure ?_
      rw [Term.ty_ofUnit]
      exact Ty.allCore_iff.1 h item (List.mem_of_getElem? hitem)
    · exact .fail _
  · split
    · rename_i item hitem
      have hcore : item.Core nodes := Ty.allCore_iff.1 h item (List.mem_of_getElem? hitem)
      split
      · refine .pure ?_
        rwa [Term.ty_ofUnit]
      · exact typed_emit _ _ hcore
    · exact .fail _
  · exact .fail _

lemma typed_operand (op : Op) {args : List Term} (h : ∀ t ∈ args, t.ty.Core nodes) :
    TypedTerm nodes w (operand op args) := by
  unfold operand
  split
  · exact .pure (h _ (List.mem_singleton_self _))
  · exact .fail _

lemma typed_tupleOp (op : TupleOp) {args : List Term} (h : ∀ t ∈ args, t.ty.Core nodes) :
    TypedTerm nodes w (tupleOp op args) := by
  refine (typed_operand _ h).bind fun t w ht => ?_
  split
  · exact .pure trivial
  · exact .pure trivial
  · exact typed_tupleIndex ht _
  · split
    · split
      · refine (Typed.mapM fun k _ w => typed_tupleIndex ht _).bind fun ts _ hts => .pure ?_
        exact Term.allCore_tys_iff.2 hts
      · exact .fail _
    · exact .fail _

lemma typed_primOp (op : PrimOp) (args : List Term) : TypedTerm nodes w (primOp op args) := by
  refine .bind (P := fun _ => True) ?_ fun p w _ => .getSession ?_
  · unfold primType
    split
    · exact .fail _
    · split
      · exact .pure trivial
      · exact .fail _
  · split
    · exact .pure trivial
    · exact typed_emit _ _ trivial

/-! ### Evaluation -/

lemma typed_withEnv {m : Eval α} {P : α → Prop} {env : Env} (henv : env.Core nodes)
    (h : ∀ w, Typed nodes w m P) : Typed nodes w (withEnv env m) P := by
  intro a w' hw hrun
  rw [exec_withEnv] at hrun
  rcases hact : exec m (w.setEnv env) with ⟨r, w₁⟩
  rw [hact] at hrun
  cases hrun
  obtain ⟨hw₁, ha⟩ := h (w.setEnv env) a w₁ ⟨hw.owner, henv, hw.sharing⟩ hact
  exact ⟨⟨hw₁.owner, hw.env, hw₁.sharing⟩, ha⟩

lemma typed_withSpan {m : Eval α} {P : α → Prop} (span : Span) (h : ∀ w, Typed nodes w m P) :
    Typed nodes w (withSpan span m) P := by
  intro a w' hw hrun
  rw [exec_withSpan] at hrun
  rcases hact : exec m (w.setTrace (w.scope.trace.push span)) with ⟨r, w₁⟩
  rw [hact] at hrun
  cases hrun
  have hstart : (w.setTrace (w.scope.trace.push span)).Core nodes :=
    ⟨hw.owner, hw.env, hw.sharing⟩
  obtain ⟨hw₁, ha⟩ := h _ a w₁ hstart hact
  exact ⟨⟨hw₁.owner, hw₁.env, hw₁.sharing⟩, ha⟩

lemma typed_inBranch {m : Eval Term} (h : ∀ w, TypedTerm nodes w m) :
    TypedTerm nodes w (inBranch m) := by
  intro t w' hw hrun
  rw [exec_inBranch] at hrun
  rcases hact : exec m w.enterBranch with ⟨r, w₁⟩
  rw [hact] at hrun
  cases r with
  | error s => cases hrun
  | ok value =>
    cases hrun
    have hstart : w.enterBranch.Core nodes := ⟨hw.owner, hw.env, hw.sharing⟩
    obtain ⟨hw₁, hvalue⟩ := h _ value w₁ hstart hact
    refine ⟨⟨hw₁.owner, hw.env, fun e he => hw₁.sharing e (Discipline.sharing_pop_mem he)⟩, ?_⟩
    change (Stmt.close w₁.scope.stmts value).ty.Core nodes
    rwa [Stmt.ty_close]

lemma typed_finishSplit (op : Op) (arrange : List Term → List Term) {bodies : List Term}
    (h : ∀ t ∈ bodies, t.ty.Core nodes) :
    TypedTerm nodes w (finishSplit op arrange bodies) := by
  unfold finishSplit
  refine .bind (P := fun merged => ∀ ty, merged.2 = some ty → ty.Core nodes) ?_
    fun merged w hty => ?_
  · unfold merge
    split
    · exact .pure fun ty hty => by cases hty
    · rename_i ty hfirst
      split
      · exact .fail _
      · refine .pure fun ty' hty' => ?_
        cases hty'
        obtain ⟨body, hbody, rfl⟩ := Option.map_eq_some_iff.1 hfirst
        exact h body (List.mem_of_find?_eq_some hbody)
  · obtain ⟨bodies, ty⟩ := merged
    cases ty with
    | some ty => exact (typed_bindResult _ ty).imp fun r hr => hr ▸ hty ty rfl
    | none => exact (typed_pushStmt _).bind fun _ _ _ => .pure trivial

section Step

variable {ev : Expr → Eval Term}
  (hev : ∀ e w, e.In nodes → e.outline.Core → TypedTerm nodes w (ev e))

include hev in
lemma typed_applyMap {env : Env} {kind : MapKind} (henv : env.Core nodes)
    (hkind : kind.Core nodes) {arg : Term} (harg : arg.ty.Core nodes) :
    TypedTerm nodes w (applyMap ev env kind arg) := by
  unfold applyMap
  split
  · exact typed_withEnv (henv.bind _ harg) fun w => hev _ w hkind.1 hkind.2
  · rename_i this param body
    have hself : (Term.map env (.recFunction this param body)).ty.Core nodes := ⟨henv, hkind⟩
    exact typed_withEnv ((henv.bind _ hself).bind _ harg) fun w => hev _ w hkind.1 hkind.2
  · exact hkind.elim

include hev in
lemma typed_apply {f arg : Term} (hf : f.ty.Core nodes) (harg : arg.ty.Core nodes) :
    TypedTerm nodes w (apply ev f arg) := by
  unfold apply
  split
  · exact hf.elim
  · exact hf.elim
  · exact hf.elim
  · refine (typed_mapValue? hf).bind fun value w hvalue => ?_
    split
    · rename_i env kind
      obtain ⟨henv, hkind⟩ := hvalue env kind rfl
      exact typed_applyMap hev henv hkind harg
    · exact .fail _

include hev in
lemma typed_cond (hframe : ∀ e (w : World), w.Framed (exec (ev e) w).2) {args : List Expr}
    (hin : ∀ e ∈ args, e.In nodes) (hcore : ∀ e ∈ args, e.outline.Core) :
    TypedTerm nodes w (cond ev args) := by
  unfold cond
  split
  · rename_i test yes no
    have htest := hev test w (hin _ (by simp)) (hcore _ (by simp))
    have hyes := fun w => hev yes w (hin _ (by simp)) (hcore _ (by simp))
    have hno := fun w => hev no w (hin _ (by simp)) (hcore _ (by simp))
    refine htest.bind fun t w _ => ?_
    split
    · rename_i b _
      cases b with
      | true => exact hyes w
      | false => exact hno w
    · split
      · exact .bind (P := fun _ => False) (.fail _) fun _ _ h => h.elim
      · intro r w' hw hrun
        obtain ⟨bodies, w₂, hbranches, hfinish⟩ := exec_bind_eq_ok.1 hrun
        obtain ⟨b₁, w₁, b₂, hrun₁, hrun₂, rfl⟩ := exec_branches_eq_ok
          (fun w => (hframe yes w).later.owner) (fun w => (hframe no w).later.owner) hw.owner
          hbranches
        obtain ⟨hw₁, hb₁⟩ := typed_inBranch hyes b₁ w₁ hw hrun₁
        obtain ⟨hw₂, hb₂⟩ := typed_inBranch hno b₂ w₂ hw₁ hrun₂
        refine typed_finishSplit _ _ ?_ r w' hw₂ hfinish
        simp [hb₁, hb₂]
  · exact .fail _

include hev in
lemma typed_args {args : List Expr} (hin : ∀ e ∈ args, e.In nodes)
    (hcore : ∀ e ∈ args, e.outline.Core) :
    Typed nodes w (args.mapM ev) fun ts => ∀ t ∈ ts, t.ty.Core nodes :=
  Typed.mapM fun e he w => hev e w (hin e he) (hcore e he)

lemma typed_close (used : Captures) {kind : MapKind} (hkind : kind.Core nodes) :
    TypedTerm nodes w (close used kind) :=
  .getScope (.given fun hw => .pure ⟨hw.env.restricted used, hkind⟩)

lemma typed_build (act : Build α) : Typed nodes w (build act) fun _ => True :=
  .of_exec (exec_build act w) fun hw => ⟨⟨hw.owner, hw.env, hw.sharing⟩, trivial⟩

include hev in
lemma typed_evalOp (hframe : ∀ e (w : World), w.Framed (exec (ev e) w).2) (op : Op)
    {args : List Expr} (hin : ∀ e ∈ args, e.In nodes) (hcore : (ExprKind.op op args).outline.Core) :
    TypedTerm nodes w (evalOp ev op args) := by
  obtain ⟨hall, hop⟩ := Outline.Core.ofOp hcore
  have hargs : ∀ e ∈ args, e.outline.Core := Expr.allCore_outlines.1 hall
  have hvalues := fun w => typed_args (w := w) hev hin hargs
  rcases hop with ⟨rfl, -⟩ | ⟨hop, -⟩
  · refine (hvalues w).bind fun ts w hts => ?_
    refine (typed_operand .dynamize hts).bind fun t w ht => ?_
    exact (typed_toRuntime t w).imp fun r hr => hr ▸ ht
  · cases op with
    | apply =>
      refine (hvalues w).bind fun ts w hts => ?_
      refine .bind (P := fun p => p.1.ty.Core nodes ∧ p.2.ty.Core nodes) ?_ fun p w hp =>
        typed_apply hev hp.1 hp.2
      unfold operands₂
      split
      · exact .pure ⟨hts _ (by simp), hts _ (by simp)⟩
      · exact .fail _
    | cond => exact typed_cond hev hframe hin hargs
    | prim op => exact (hvalues w).bind fun ts w _ => typed_primOp op ts
    | tuple op => exact (hvalues w).bind fun ts w hts => typed_tupleOp op hts
    | _ => exact hop.elim

include hev in
/-- A step on core code gives a value of its type. -/
theorem typed_step (hframe : ∀ e (w : World), w.Framed (exec (ev e) w).2)
    (hnodes : nodes.Closed) {e : Expr} (hin : e.In nodes) (hcore : e.outline.Core) :
    TypedTerm nodes w (step ev e) := by
  have hparts : ∀ p ∈ e.kind.parts, p.In nodes := hin.parts hnodes
  obtain ⟨symbol, kind⟩ := e
  unfold step
  cases kind with
  | var x =>
    refine .getScope (.given fun hw => ?_)
    split
    · rename_i t ht
      exact .pure (Env.Core.iff_visible.1 hw.env _ (Env.mem_visible_of_get? ht))
    · exact .fail _
  | lit l => exact .pure trivial
  -- Patterns are not core.
  | pattern p => exact hcore.elim
  | function param body =>
    have hbody := hparts body (List.mem_singleton_self _)
    exact (typed_build _).bind fun used w _ => typed_close used ⟨hbody, hcore⟩
  | filtered used param body =>
    have hbody := hparts body (List.mem_singleton_self _)
    exact typed_close used ⟨hbody, hcore⟩
  | recFunction this param body =>
    have hbody := hparts body (List.mem_singleton_self _)
    exact (typed_build _).bind fun used w _ => typed_close used ⟨hbody, hcore⟩
  | tuple items =>
    have hitems : ∀ e ∈ items, e.outline.Core := Expr.allCore_outlines.1 hcore
    exact (typed_args hev hparts hitems).bind fun ts _ hts => .pure (Term.allCore_tys_iff.2 hts)
  | op op args => exact typed_evalOp hev hframe op hparts hcore
  | pos span e =>
    have he := fun w => hev e w (hparts e (List.mem_singleton_self _)) hcore
    refine .getSession ?_
    split
    · exact typed_withSpan span he
    · exact he w

end Step

/-- Core code is evaluated to terms of core types. -/
theorem typed_eval (hnodes : nodes.Closed) (fuel : Nat) (e : Expr) (w : World) (hin : e.In nodes)
    (hcore : e.outline.Core) : TypedTerm nodes w (eval fuel e) := by
  -- Induction on the fuel: the parts of a core expression are core and in the same store.
  induction fuel generalizing e w with
  | zero => exact .throw _
  | succ fuel ih => exact typed_step ih (framed_eval fuel) hnodes hin hcore

end Eval

end Residual
