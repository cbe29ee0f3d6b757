import Residual.Proofs.Eval.Operations

/-!
Evaluation simulates what programs denote.

If an outline has a value, and its code is evaluated with whatever operations are left for later,
then the code that was left computes that value. Of a conditional whose test is left for later
both sides are evaluated. The side that is taken simulates; of the other one it is enough that it
keeps to its frame and has a core type.
-/

namespace Residual

open Eval

variable {nodes : Interner ExprKind} {σ : Bindings} {w : World}

lemma Env.Means.core {env : Env} {ρ : List (Name × Value)} (h : env.Means nodes σ ρ) :
    env.Core nodes := by
  rw [Env.Core.iff_visible]
  intro e he
  obtain ⟨v, -, hv⟩ := (Env.reads_iff.1 h).2 e he
  exact Term.Reads.core e.2 v hv

/-- A branch leaves the bindings as they were. -/
theorem World.Runs.leaveBranch (hw : w.Runs nodes σ) {w' : World} (hframe : w.enterBranch.Framed w')
    (hcore : (w.leaveBranch w').Core nodes) : (w.leaveBranch w').Runs nodes σ := by
  refine ⟨hcore, fun n hn => hw.fresh n (Nat.le_trans hframe.tags hn), ?_⟩
  rw [hframe.sharing_leaveBranch]
  exact hw.shared

namespace Eval

variable {α : Type}

lemma computes_withEnv {m : Eval α} {P : Bindings → α → Prop} {env : Env}
    (henv : env.Core nodes) (h : ∀ w, w.scope.env = env → Computes nodes σ w m P) :
    Computes nodes σ w (withEnv env m) P := by
  intro a w' hw hrun
  rw [exec_withEnv] at hrun
  rcases hact : exec m (w.setEnv env) with ⟨r, w₁⟩
  rw [hact] at hrun
  cases hrun
  have hstart : (w.setEnv env).Runs nodes σ :=
    ⟨⟨hw.core.owner, henv, hw.core.sharing⟩, hw.fresh, hw.shared⟩
  obtain ⟨τ, hw₁, hleads, ha⟩ := h (w.setEnv env) rfl a w₁ hstart hact
  exact ⟨τ, ⟨⟨hw₁.core.owner, hw.core.env, hw₁.core.sharing⟩, hw₁.fresh, hw₁.shared⟩,
    ⟨rfl, hleads.le, hleads.code⟩, ha⟩

lemma computes_withSpan {m : Eval α} {P : Bindings → α → Prop} (span : Span)
    (h : ∀ w', w'.scope.env = w.scope.env → Computes nodes σ w' m P) :
    Computes nodes σ w (withSpan span m) P := by
  intro a w' hw hrun
  rw [exec_withSpan] at hrun
  rcases hact : exec m (w.setTrace (w.scope.trace.push span)) with ⟨r, w₁⟩
  rw [hact] at hrun
  cases hrun
  have hstart : (w.setTrace (w.scope.trace.push span)).Runs nodes σ :=
    ⟨⟨hw.core.owner, hw.core.env, hw.core.sharing⟩, hw.fresh, hw.shared⟩
  obtain ⟨τ, hw₁, hleads, ha⟩ := h (w.setTrace (w.scope.trace.push span)) rfl a w₁ hstart hact
  exact ⟨τ, ⟨⟨hw₁.core.owner, hw₁.core.env, hw₁.core.sharing⟩, hw₁.fresh, hw₁.shared⟩,
    ⟨hleads.env, hleads.le, hleads.code⟩, ha⟩

/-! ### Splits -/

/-- A test that is known now is the literal that it means. -/
lemma bool_eq_of_means {t : Term} {b b' : Bool} (h : t.Means nodes σ (.lit (.bool b)))
    (hb : t.bool? = some b') : b' = b := by
  cases t with
  | lit l =>
    cases h
    cases hb
    rfl
  | type ty => exact h.elim
  | _ => cases hb

/-- A term that has a value does not end in a miss. -/
theorem endsInMiss_close {t : Term} {v : Value} (h : t.Means nodes σ v) (stmts : List Stmt) :
    (Stmt.close stmts t).endsInMiss = false := by
  rw [Term.endsInMiss, Stmt.tail_close]
  cases t with
  | lit _ | var _ | tuple _ | map _ _ => rfl
  | _ => exact h.elim

/-- The code of a branch computes, before the split, what the branch computes. -/
lemma run_inBranch {m : Eval Term} {v : Value} (hw : w.Runs nodes σ)
    (hm : ComputesTerm nodes σ w.enterBranch m v) {body : Term} {w' : World}
    (hrun : exec (inBranch m) w = (.ok body, w')) :
    body.endsInMiss = false ∧
      ∃ r, body.run σ = some r ∧ r.Stands nodes v ∧ r.ty = body.ty := by
  rw [exec_inBranch] at hrun
  rcases hact : exec m w.enterBranch with ⟨outcome, w₁⟩
  rw [hact] at hrun
  cases outcome with
  | error s => cases hrun
  | ok t =>
    cases hrun
    have hstart : w.enterBranch.Runs nodes σ :=
      ⟨⟨hw.core.owner, hw.core.env, hw.core.sharing⟩, hw.fresh, hw.shared⟩
    obtain ⟨τ, -, hleads, ht⟩ := hm t w₁ hstart hact
    obtain ⟨stmts, hstmts, hcode⟩ := hleads.code
    obtain ⟨r, hr, hstands, hty⟩ := Term.Means.run t v ht
    have hall : Stmt.runAll w₁.scope.stmts σ = some τ := by
      rw [hstmts]
      exact hcode
    refine ⟨endsInMiss_close ht _, r, ?_, hstands, ?_⟩
    · rw [Stmt.run_close, hall, Option.bind_some, hr]
    · rw [Stmt.ty_close, hty]

/-- After a branch the bindings are those before it, whether it is taken or not. -/
lemma runs_inBranch {m : Eval Term} (hw : w.Runs nodes σ)
    (hframe : ∀ w : World, w.Framed (exec m w).2) {body : Term} {w' : World}
    (hrun : exec (inBranch m) w = (.ok body, w')) (hcore : w'.Core nodes) :
    w'.Runs nodes σ ∧ w'.scope.env = w.scope.env ∧ World.Leads σ w σ w' := by
  rw [exec_inBranch] at hrun
  cases congrArg Prod.snd hrun
  exact ⟨hw.leaveBranch (hframe w.enterBranch) hcore, rfl, .of_stmts rfl rfl⟩

/-- A body that does not end in a miss is left as it is, and its type is that of the split. -/
lemma exec_merge_eq_ok {op : Op} {bodies merged : List Term} {ty : Option Ty} {w' : World}
    (h : exec (merge op bodies) w = (.ok (merged, ty), w'))
    (hcore : ∀ t ∈ bodies, t.ty.Core nodes) {body : Term} (hbody : body ∈ bodies)
    (hmiss : body.endsInMiss = false) :
    ∃ f : Term → Term, merged = bodies.map f ∧ f body = body ∧ ty = some body.ty ∧ w' = w := by
  unfold merge at h
  split at h
  · rename_i hfirst
    rw [firstType?, Option.map_eq_none_iff, List.find?_eq_none] at hfirst
    have hmiss' := hfirst body hbody
    rw [hmiss] at hmiss'
    exact absurd rfl hmiss'
  · rename_i t hfirst
    split at h
    · cases h
    · rename_i hnone
      cases h
      obtain ⟨first, hfind, rfl⟩ := Option.map_eq_some_iff.1 hfirst
      have hsame : body.ty.beq .symbol first.ty = true := by
        have hnot := List.find?_eq_none.1 hnone body hbody
        rw [hmiss, Ty.beq_eq] at hnot
        simpa using hnot
      have hty : body.ty = first.ty := Ty.Core.eq_of_beq _ _ (hcore _ hbody)
        (hcore _ (List.mem_of_find?_eq_some hfind)) hsame
      exact ⟨_, rfl, by simp [hmiss], by rw [hty], rfl⟩

/-- A split computes what the body that is taken computes. -/
lemma computes_finishSplit {test b₁ b₂ r : Term} {b : Bool} {v : Value}
    (htest : test.run σ = some (.lit (.bool b))) (hcore : ∀ t ∈ [b₁, b₂], t.ty.Core nodes)
    (hmiss : (if b then b₁ else b₂).endsInMiss = false)
    (hrun : (if b then b₁ else b₂).run σ = some r) (hr : r.Stands nodes v)
    (hty : r.ty = (if b then b₁ else b₂).ty) :
    ComputesTerm nodes σ w (finishSplit .cond (test :: ·) [b₁, b₂]) v := by
  intro t w' hw hexec
  unfold finishSplit at hexec
  obtain ⟨⟨merged, ty⟩, w₁, hmerge, hfinish⟩ := exec_bind_eq_ok.1 hexec
  have hmem : (if b then b₁ else b₂) ∈ [b₁, b₂] := by cases b <;> simp
  obtain ⟨f, rfl, hf, rfl, rfl⟩ := exec_merge_eq_ok hmerge hcore hmem hmiss
  have hcode : (Term.op .cond [test, f b₁, f b₂] r.ty).run σ = some r := by
    rw [Term.run, if_pos rfl, Term.runCond, htest, Option.bind_some]
    cases b with
    | true => exact (congrArg (Term.run · σ) hf).trans hrun
    | false => exact (congrArg (Term.run · σ) hf).trans hrun
  have hbind := computes_bindResult (w := w₁) hcode hr
  rw [hty] at hbind
  exact hbind t w' hw hfinish

/-! ### Evaluation -/

/-- The evaluator leaves code that computes what core code denotes. -/
def Simulates (nodes : Interner ExprKind) (ev : Expr → Eval Term) : Prop :=
  ∀ e w σ ρ v, e.In nodes → e.outline.Core → w.scope.env.Means nodes σ ρ →
    Denotes ρ e.outline v → ComputesTerm nodes σ w (ev e) v

section Step

variable {ev : Expr → Eval Term} (hev : Simulates nodes ev)
  (htyped : ∀ e w, e.In nodes → e.outline.Core → TypedTerm nodes w (ev e))
  (hframe : ∀ e (w : World), w.Framed (exec (ev e) w).2)

include hev in
lemma computes_applyMap {env : Env} {kind : MapKind} {arg : Term} {ρ : List (Name × Value)}
    {this : Option Name} {param : Name} {body : Outline} {v result : Value}
    (hkind : kind.Core nodes) (hdraws : kind.Draws this param body) (henv : env.Means nodes σ ρ)
    (harg : arg.Means nodes σ v) (hbody : Denotes (Value.callEnv ρ this param body v) body result) :
    ComputesTerm nodes σ w (applyMap ev env kind arg) result := by
  cases kind with
  | function x e =>
    obtain ⟨rfl, rfl, rfl⟩ := hdraws
    have hbound : (env.bind param arg).Means nodes σ ((param, v) :: ρ) :=
      Env.Reads.bind henv param harg
    refine computes_withEnv hbound.core fun w hw => ?_
    rw [← hw] at hbound
    exact hev e w σ _ result hkind.1 hkind.2 hbound hbody
  | recFunction f x e =>
    obtain ⟨rfl, rfl, rfl⟩ := hdraws
    have hself : (Term.map env (.recFunction f param e)).Means nodes σ
        (.function ρ (some f) param e.outline) :=
      ⟨ρ, some f, param, e.outline, rfl, hkind, ⟨rfl, rfl, rfl⟩, henv⟩
    have hbound : ((env.bind f (.map env (.recFunction f param e))).bind param arg).Means nodes σ
        ((param, v) :: (f, .function ρ (some f) param e.outline) :: ρ) :=
      Env.Reads.bind (Env.Reads.bind henv f hself) param harg
    refine computes_withEnv hbound.core fun w hw => ?_
    rw [← hw] at hbound
    exact hev e w σ _ result hkind.1 hkind.2 hbound hbody
  | module => exact hdraws.elim

include hev in
lemma computes_apply {f arg : Term} {ρ : List (Name × Value)} {this : Option Name} {param : Name}
    {body : Outline} {v result : Value} (hf : f.Means nodes σ (.function ρ this param body))
    (harg : arg.Means nodes σ v) (hbody : Denotes (Value.callEnv ρ this param body v) body result) :
    ComputesTerm nodes σ w (apply ev f arg) result := by
  unfold apply
  split
  · obtain ⟨-, r, -, hr, hty⟩ := hf
    obtain ⟨env, kind, rfl, -⟩ := hr.map
    cases hty
  · exact hf.elim
  · exact hf.elim
  · refine (computes_mapValue? hf).bind fun value τ w hle hvalue => ?_
    obtain ⟨env, kind, rfl, hkind, hdraws, henv⟩ := hvalue
    exact computes_applyMap hev hkind hdraws henv (harg.mono hle.le) hbody

include hev htyped hframe in
lemma computes_split {test : Term} {yes no : Expr} {ρ : List (Name × Value)} {b : Bool}
    {v : Value} (htest : test.Means nodes σ (.lit (.bool b)))
    (hyes : yes.In nodes ∧ yes.outline.Core) (hno : no.In nodes ∧ no.outline.Core)
    (henv : w.scope.env.Means nodes σ ρ)
    (hv : Denotes ρ (if b then yes.outline else no.outline) v) :
    ComputesTerm nodes σ w (do finishSplit .cond (test :: ·) (← branches [ev yes, ev no])) v := by
  intro t w' hw hexec
  obtain ⟨bodies, w₂, hbranches, hfinish⟩ := exec_bind_eq_ok.1 hexec
  obtain ⟨b₁, w₁, b₂, hrun₁, hrun₂, rfl⟩ := exec_branches_eq_ok
    (fun w => (hframe yes w).later.owner) (fun w => (hframe no w).later.owner) hw.core.owner
    hbranches
  have hyes' := fun w => htyped yes w hyes.1 hyes.2
  have hno' := fun w => htyped no w hno.1 hno.2
  obtain ⟨hcore₁, hty₁⟩ := typed_inBranch hyes' b₁ w₁ hw.core hrun₁
  obtain ⟨hcore₂, hty₂⟩ := typed_inBranch hno' b₂ w₂ hcore₁ hrun₂
  obtain ⟨hw₁, henv₁, hleads₁⟩ := runs_inBranch hw (hframe yes) hrun₁ hcore₁
  obtain ⟨hw₂, -, hleads₂⟩ := runs_inBranch hw₁ (hframe no) hrun₂ hcore₂
  have htaken : (if b then b₁ else b₂).endsInMiss = false ∧
      ∃ r, (if b then b₁ else b₂).run σ = some r ∧ r.Stands nodes v ∧
        r.ty = (if b then b₁ else b₂).ty := by
    cases b with
    | true => exact run_inBranch hw (hev yes _ σ ρ v hyes.1 hyes.2 henv hv) hrun₁
    | false =>
      rw [← henv₁] at henv
      exact run_inBranch hw₁ (hev no _ σ ρ v hno.1 hno.2 henv hv) hrun₂
  obtain ⟨hmiss, r, hrun, hr, hty⟩ := htaken
  obtain ⟨c, hc, hstands, -⟩ := Term.Means.run test _ htest
  cases hstands.lit
  have hcore : ∀ t ∈ [b₁, b₂], t.ty.Core nodes := by simp [hty₁, hty₂]
  obtain ⟨τ, hw', hleads, ht⟩ :=
    computes_finishSplit hc hcore hmiss hrun hr hty t w' hw₂ hfinish
  exact ⟨τ, hw', (hleads₁.trans hleads₂).trans hleads, ht⟩

include hev htyped hframe in
lemma computes_cond {args : List Expr} {ρ : List (Name × Value)} {v : Value}
    (hin : ∀ e ∈ args, e.In nodes) (hcore : ∀ e ∈ args, e.outline.Core)
    (henv : w.scope.env.Means nodes σ ρ) (hv : Denotes ρ (.op .cond (Expr.outlines args)) v) :
    ComputesTerm nodes σ w (cond ev args) v := by
  match args with
  | [test, yes, no] =>
    simp only [Expr.outlines] at hv
    cases hv with
    | @cond _ _ _ _ b _ htest hv =>
      have hpart : ∀ e ∈ [test, yes, no], e.In nodes ∧ e.outline.Core :=
        fun e he => ⟨hin e he, hcore e he⟩
      simp only [List.mem_cons, List.not_mem_nil, or_false, forall_eq_or_imp, forall_eq] at hpart
      obtain ⟨htest', hyes, hno⟩ := hpart
      refine (hev test w σ ρ _ htest'.1 htest'.2 henv htest).bind fun t τ w hle ht => ?_
      have henv' : w.scope.env.Means nodes τ ρ := by
        rw [hle.env]
        exact henv.mono hle.le
      cases hb : t.bool? with
      | some b' =>
        obtain rfl : b' = b := bool_eq_of_means ht hb
        cases b' with
        | true => exact hev yes w τ ρ v hyes.1 hyes.2 henv' hv
        | false => exact hev no w τ ρ v hno.1 hno.2 henv' hv
      | none =>
        dsimp only
        split
        · exact .bind (P := fun _ _ => False) (.fail _) fun _ _ _ _ h => h.elim
        · exact computes_split hev htyped hframe ht hyes hno henv' hv
  | [] | [_] | [_, _] | _ :: _ :: _ :: _ :: _ => exact .fail _

include hev in
lemma computes_args {args : List Expr} {ρ : List (Name × Value)} {vs : List Value}
    (hin : ∀ e ∈ args, e.In nodes) (hcore : ∀ e ∈ args, e.outline.Core)
    (henv : w.scope.env.Means nodes σ ρ) (hvs : DenotesAll ρ (Expr.outlines args) vs) :
    Computes nodes σ w (args.mapM ev) fun τ ts => Term.AllMean nodes τ ts vs := by
  induction args generalizing vs σ w with
  | nil =>
    cases hvs
    exact .pure trivial
  | cons e rest ih =>
    rw [Expr.outlines] at hvs
    cases hvs with
    | @cons _ _ v _ vs hv hvs =>
      rw [List.mapM_cons]
      have he := hev e w σ ρ v (hin e (List.mem_cons_self ..)) (hcore e (List.mem_cons_self ..))
        henv hv
      refine he.bind fun t τ w₁ hle ht => ?_
      have henv' : w₁.scope.env.Means nodes τ ρ := by
        rw [hle.env]
        exact henv.mono hle.le
      refine (ih (fun e h => hin e (List.mem_cons_of_mem _ h))
        (fun e h => hcore e (List.mem_cons_of_mem _ h)) henv' hvs).bind fun ts υ w₂ hle' hts => ?_
      exact .pure ⟨Term.Means.mono hle'.le ht, hts⟩

lemma computes_close (used : Captures) {kind : MapKind} {this : Option Name} {param : Name}
    {body : Outline} {ρ : List (Name × Value)} (hkind : kind.Core nodes)
    (hdraws : kind.Draws this param body) (henv : w.scope.env.Means nodes σ ρ) :
    ComputesTerm nodes σ w (close used kind) (.function ρ this param body) :=
  .getScope (.pure ⟨ρ, this, param, body, rfl, hkind, hdraws, Env.Reads.restricted henv used⟩)

include hev htyped hframe in
lemma computes_evalOp {op : Op} {args : List Expr} {ρ : List (Name × Value)} {v : Value}
    (hin : ∀ e ∈ args, e.In nodes) (hcore : (ExprKind.op op args).outline.Core)
    (henv : w.scope.env.Means nodes σ ρ) (hv : Denotes ρ (ExprKind.op op args).outline v) :
    ComputesTerm nodes σ w (evalOp ev op args) v := by
  obtain ⟨hall, hop⟩ := Outline.Core.ofOp hcore
  have hargs : ∀ e ∈ args, e.outline.Core := Expr.allCore_outlines.1 hall
  rw [ExprKind.outline] at hv
  rcases hop with ⟨rfl, a, ha, hout⟩ | ⟨hop, hout⟩
  · -- The data of a value denotes what the value does.
    rw [hout] at hv
    have hvs : DenotesAll ρ (Expr.outlines args) [v] := ha ▸ .cons hv .nil
    refine (computes_args hev hin hargs henv hvs).bind fun ts τ w _ hts => ?_
    refine (computes_operand .dynamize hts).bind fun t υ w _ ht => ?_
    exact computes_toRuntime t v υ w ht
  · rw [hout] at hv
    cases op with
    | apply =>
      generalize hos : Expr.outlines args = os at hv
      cases hv with
      | @apply _ _ _ ρ' this param body u _ hf harg hbody =>
        have hvs : DenotesAll ρ (Expr.outlines args) [.function ρ' this param body, u] :=
          hos ▸ .cons hf (.cons harg .nil)
        refine (computes_args hev hin hargs henv hvs).bind fun ts τ w _ hts => ?_
        rcases ts with _ | ⟨f, _ | ⟨arg, _ | ⟨_, _⟩⟩⟩
        · exact hts.elim
        · exact hts.2.elim
        · exact computes_apply hev hts.1 hts.2.1 hbody
        · exact hts.2.2.elim
    | cond => exact computes_cond hev htyped hframe hin hargs henv hv
    | prim op =>
      cases hv with
      | prim hvs hvalue =>
        refine (computes_args hev hin hargs henv hvs).bind fun ts τ w _ hts => ?_
        exact computes_primOp hop hts hvalue
    | tuple op =>
      generalize hos : Expr.outlines args = os at hv
      cases hv with
      | tupleOp harg hvalue =>
        have hvs := hos ▸ DenotesAll.cons harg .nil
        refine (computes_args hev hin hargs henv hvs).bind fun ts τ w _ hts => ?_
        exact computes_tupleOp hts hvalue
    | _ => exact hop.elim

include hev htyped hframe in
/-- A step leaves code that computes what its expression denotes. -/
theorem simulates_step (hnodes : nodes.Closed) : Simulates nodes (step ev) := by
  intro e w σ ρ v hin hcore henv hv
  have hparts : ∀ p ∈ e.kind.parts, p.In nodes := hin.parts hnodes
  obtain ⟨symbol, kind⟩ := e
  unfold step
  cases kind with
  | var x =>
    cases hv with
    | var hget =>
      refine .getScope ?_
      split
      · rename_i t ht
        obtain ⟨u, hu, hmeans⟩ := Env.Reads.get? henv ht
        rw [hget] at hu
        cases hu
        exact .pure hmeans
      · exact .fail _
  | lit l =>
    cases hv
    exact .pure rfl
  | pattern p => exact hcore.elim
  -- A function is closed over what it captures; a filtered one lists that already.
  | function param body =>
    cases hv
    have hkind : (MapKind.function param body).Core nodes :=
      ⟨hparts body (List.mem_singleton_self _), hcore⟩
    refine .bind (P := fun τ _ => τ = σ) (.of_exec (exec_build _ w) rfl rfl)
      fun used τ w' hle hτ => ?_
    cases hτ
    exact computes_close used hkind ⟨rfl, rfl, rfl⟩ (hle.env ▸ henv)
  | filtered used param body =>
    cases hv
    have hkind : (MapKind.function param body).Core nodes :=
      ⟨hparts body (List.mem_singleton_self _), hcore⟩
    exact computes_close used hkind ⟨rfl, rfl, rfl⟩ henv
  | recFunction this param body =>
    cases hv
    have hkind : (MapKind.recFunction this param body).Core nodes :=
      ⟨hparts body (List.mem_singleton_self _), hcore⟩
    refine .bind (P := fun τ _ => τ = σ) (.of_exec (exec_build _ w) rfl rfl)
      fun used τ w' hle hτ => ?_
    cases hτ
    exact computes_close used hkind ⟨rfl, rfl, rfl⟩ (hle.env ▸ henv)
  -- The parts of the others are evaluated in the same environment.
  | tuple items =>
    cases hv with
    | tuple hvs =>
      refine (computes_args hev hparts (Expr.allCore_outlines.1 hcore) henv hvs).bind
        fun ts τ w' _ hts => .pure ⟨_, rfl, hts⟩
  | op op args => exact computes_evalOp hev htyped hframe hparts hcore henv hv
  | pos span e =>
    have he := fun w henv => hev e w σ ρ v (hparts e (List.mem_singleton_self _)) hcore henv hv
    refine .getSession ?_
    split
    · exact computes_withSpan span fun w' hw' => he w' (hw' ▸ henv)
    · exact he w henv

end Step

/-- Evaluation leaves code that computes what core code denotes. -/
theorem simulates_eval (hnodes : nodes.Closed) (fuel : Nat) : Simulates nodes (eval fuel) := by
  induction fuel with
  | zero => exact fun e w σ ρ v _ _ _ _ => .throw _
  | succ fuel ih =>
    exact simulates_step ih (fun e w => typed_eval hnodes fuel e w) (framed_eval fuel) hnodes

end Eval

end Residual
