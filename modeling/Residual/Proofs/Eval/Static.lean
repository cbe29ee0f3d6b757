import Residual.Proofs.Eval.Simulation
import Residual.Proofs.Eval.Visits

/-!
Evaluation that leaves no code.

If core code is evaluated with folding and no statement is left, nothing was put off: every test
and every operand was known. Then the code denotes a value, and by simulation the result is it.
-/

namespace Residual

open Eval

variable {nodes : Interner ExprKind} {w w' : World}

/-- No variable is bound, because there is no code; and literals are folded. -/
structure World.Static (nodes : Interner ExprKind) (w : World) : Prop where
  runs : w.Runs nodes []
  folding : w.session.settings.folding = true
  stmts : w.scope.stmts = []

lemma World.Framed.stmts_eq_nil (h : w.Framed w') (hw' : w'.scope.stmts = []) :
    w.scope.stmts = [] := by
  have hprefix := h.stmts
  rw [hw'] at hprefix
  exact List.prefix_nil.1 hprefix

namespace Eval

variable {α : Type}

lemma framed_of_does {m : Eval α} {Q : α → World → Prop}
    (h : Discipline.frame.Does () w m m Q) : w.Framed (exec m w).2 :=
  (h ⟨trivial, fun h => h.elim⟩).2.2.1

lemma frame_value (t : Term) : Discipline.frame.Value t := fun h : False => h.elim

/-- A step that leaves no code ends in a static world. -/
theorem Computes.static {m : Eval α} {P : Bindings → α → Prop} (hm : Computes nodes [] w m P)
    (hw : w.Static nodes) (hframe : w.Framed (exec m w).2) {a : α}
    (hrun : exec m w = (.ok a, w')) (hstmts : w'.scope.stmts = []) :
    w'.Static nodes ∧ w'.scope.env = w.scope.env ∧ P [] a := by
  rw [hrun] at hframe
  obtain ⟨τ, hruns, hleads, ha⟩ := hm a w' hw.runs hrun
  obtain ⟨stmts, hcode, hτ⟩ := hleads.code
  rw [hstmts, hw.stmts, List.nil_append] at hcode
  rw [← hcode] at hτ
  cases hτ
  have hfolding : w'.session.settings.folding = true := by
    rw [hframe.settings]
    exact hw.folding
  exact ⟨⟨hruns, hfolding, hstmts⟩, hleads.env, ha⟩

end Eval

/-! ### Static terms -/

/-- Without bindings, a term that has a value is a value. -/
theorem Term.Means.stands {t : Term} {v : Value} (h : t.Means nodes [] v) : t.Stands nodes v :=
  Term.Reads.imp (fun _ _ ⟨_, hr, _⟩ => by cases hr) t v h

/-- The value of a single term. -/
theorem Term.AllMean.one {σ : Bindings} {t : Term} {vs : List Value}
    (h : Term.AllMean nodes σ [t] vs) : ∃ v, vs = [v] := by
  rcases vs with _ | ⟨v, _ | ⟨_, _⟩⟩
  · exact h.elim
  · exact ⟨v, rfl⟩
  · exact h.2.elim

/-- The values of two terms. -/
theorem Term.AllMean.two {σ : Bindings} {t u : Term} {vs : List Value}
    (h : Term.AllMean nodes σ [t, u] vs) : ∃ v v', vs = [v, v'] := by
  rcases vs with _ | ⟨v, vs⟩
  · exact h.elim
  · obtain ⟨v', rfl⟩ := Term.AllMean.one h.2
    exact ⟨v, v', rfl⟩

/-- A static term of the type of truth values is one of them. -/
theorem Term.Stands.bool {t : Term} {v : Value} (h : t.Stands nodes v)
    (hty : (t.ty == .bool) = true) : ∃ b, t = .lit (.bool b) ∧ v = .lit (.bool b) := by
  rw [Ty.beq_eq] at hty
  cases v with
  | lit l =>
    obtain rfl := h.lit
    cases l with
    | bool b => exact ⟨b, rfl, rfl⟩
    | _ => cases hty
  | tuple vs =>
    obtain ⟨rs, rfl, -⟩ := h.tuple
    cases hty
  | function ρ this param body =>
    obtain ⟨env, kind, rfl, -⟩ := h.map
    cases hty

lemma Term.Stands.of_bool? {t : Term} {v : Value} (h : t.Stands nodes v) {b : Bool}
    (hb : t.bool? = some b) : v = .lit (.bool b) := by
  cases t with
  | lit l =>
    cases l with
    | bool _ =>
      cases hb
      exact h
    | _ => cases hb
  | type ty => exact h.elim
  | _ => cases hb

lemma World.Static.sharing (hw : w.Static nodes) : w.scope.sharing.entries = [] := by
  refine List.eq_nil_iff_forall_not_mem.2 fun e he => ?_
  obtain ⟨-, r, hr, -⟩ := hw.runs.shared e he
  cases hr

namespace Eval

/-- An operation on data that is not shared leaves a statement. -/
lemma stmts_emit {op : Op} {args : List Term} {ty : Ty} {t : Term}
    (hshared : w.scope.sharing.entries = [])
    (hrun : exec (emit op args ty) w = (.ok t, w')) : w'.scope.stmts ≠ [] := by
  unfold emit at hrun
  rw [exec_bind_of_ok (exec_getSession w)] at hrun
  split at hrun
  · rw [exec_bind_of_ok (exec_getScope w)] at hrun
    have hnone : w.scope.sharing.get? ⟨op, args⟩ = none := by rw [Sharing.get?, hshared]; rfl
    rw [hnone] at hrun
    obtain ⟨x, w₁, hx, hrun⟩ := exec_bind_eq_ok.1 hrun
    cases hrun
    simp
  · unfold bindResult at hrun
    split at hrun
    · cases hrun
      simp
    · obtain ⟨x, w₁, hx, hrun⟩ := exec_bind_eq_ok.1 hrun
      cases hrun
      simp

/-- An evaluation of core code that leaves no code gives the value that the code denotes. -/
def Settles (nodes : Interner ExprKind) (ev : Expr → Eval Term) : Prop :=
  ∀ e w t w' ρ, e.In nodes → e.outline.Core → w.Static nodes → w.scope.env.Means nodes [] ρ →
    exec (ev e) w = (.ok t, w') → w'.scope.stmts = [] →
    ∃ v, Denotes ρ e.outline v ∧ w'.Static nodes ∧ w'.scope.env = w.scope.env ∧
      t.Means nodes [] v

/-- It is enough that the code denotes something. -/
lemma settles_of_denotes (hnodes : nodes.Closed) {fuel : Nat}
    (h : ∀ e w t w' ρ, e.In nodes → e.outline.Core → w.Static nodes →
      w.scope.env.Means nodes [] ρ → exec (eval fuel e) w = (.ok t, w') →
      w'.scope.stmts = [] → ∃ v, Denotes ρ e.outline v) : Settles nodes (eval fuel) := by
  intro e w t w' ρ hin hcore hw henv hrun hstmts
  obtain ⟨v, hv⟩ := h e w t w' ρ hin hcore hw henv hrun hstmts
  have hsim := simulates_eval hnodes fuel e w [] ρ v hin hcore henv hv
  exact ⟨v, hv, hsim.static hw (framed_eval fuel e w) hrun hstmts⟩

section Step

variable {fuel : Nat} {ρ : List (Name × Value)}

lemma framed_args (args : List Expr) (w : World) :
    w.Framed (exec (args.mapM (eval fuel)) w).2 :=
  framed_of_does (Discipline.does_args (Discipline.pair_eval fuel) fun h => h.elim)

lemma framed_split (c : Term) (yes no : Expr) (w : World) :
    w.Framed
      (exec (do finishSplit .cond (c :: ·) (← branches [eval fuel yes, eval fuel no])) w).2 :=
  framed_of_does (Discipline.does_split (frame_value c) (Discipline.branching_eval fuel _)
    fun h : False => h.elim)

lemma settles_args (hev : Settles nodes (eval fuel)) {args : List Expr} {ts : List Term}
    (hin : ∀ e ∈ args, e.In nodes) (hcore : ∀ e ∈ args, e.outline.Core) (hw : w.Static nodes)
    (henv : w.scope.env.Means nodes [] ρ) (hrun : exec (args.mapM (eval fuel)) w = (.ok ts, w'))
    (hstmts : w'.scope.stmts = []) :
    ∃ vs, DenotesAll ρ (Expr.outlines args) vs ∧ w'.Static nodes ∧
      w'.scope.env = w.scope.env ∧ Term.AllMean nodes [] ts vs := by
  induction args generalizing w ts with
  | nil =>
    cases hrun
    exact ⟨[], .nil, hw, rfl, trivial⟩
  | cons e rest ih =>
    rw [List.mapM_cons] at hrun
    obtain ⟨t, w₁, hfirst, hrun⟩ := exec_bind_eq_ok.1 hrun
    obtain ⟨ts', w₂, hrest, hrun⟩ := exec_bind_eq_ok.1 hrun
    cases hrun
    have hstmts₁ : w₁.scope.stmts = [] := by
      have hframe : w₁.Framed (exec (rest.mapM (eval fuel)) w₁).2 := framed_args rest w₁
      rw [hrest] at hframe
      exact hframe.stmts_eq_nil hstmts
    obtain ⟨v, hv, hw₁, henv₁, ht⟩ := hev e w t w₁ ρ (hin e (List.mem_cons_self ..))
      (hcore e (List.mem_cons_self ..)) hw henv hfirst hstmts₁
    rw [← henv₁] at henv
    obtain ⟨vs, hvs, hw₂, henv₂, hts⟩ := ih (fun e h => hin e (List.mem_cons_of_mem _ h))
      (fun e h => hcore e (List.mem_cons_of_mem _ h)) hw₁ henv hrest
    exact ⟨v :: vs, .cons hv hvs, hw₂, henv₂.trans henv₁, ht, hts⟩

lemma denotes_withEnv (hev : Settles nodes (eval fuel)) {env : Env} {e : Expr} {t : Term}
    (hin : e.In nodes) (hcore : e.outline.Core) (henv : env.Means nodes [] ρ) (hw : w.Static nodes)
    (hrun : exec (withEnv env (eval fuel e)) w = (.ok t, w')) (hstmts : w'.scope.stmts = []) :
    ∃ v, Denotes ρ e.outline v := by
  rw [exec_withEnv] at hrun
  rcases hact : exec (eval fuel e) (w.setEnv env) with ⟨r, w₁⟩
  rw [hact] at hrun
  cases hrun
  have hruns := hw.runs
  have hstart : (w.setEnv env).Static nodes :=
    ⟨⟨⟨hruns.core.owner, henv.core, hruns.core.sharing⟩, hruns.fresh, hruns.shared⟩, hw.folding,
      hw.stmts⟩
  obtain ⟨v, hv, -⟩ := hev e (w.setEnv env) t w₁ ρ hin hcore hstart henv hact hstmts
  exact ⟨v, hv⟩

/-- What is applied with success is a function, and its body denotes the result. -/
lemma denotes_apply (hev : Settles nodes (eval fuel)) {f arg t : Term} {u v : Value}
    (hf : f.Means nodes [] u) (harg : arg.Means nodes [] v) (hw : w.Static nodes)
    (hrun : exec (apply (eval fuel) f arg) w = (.ok t, w')) (hstmts : w'.scope.stmts = []) :
    ∃ ρ' this param body result, u = .function ρ' this param body ∧
      Denotes (Value.callEnv ρ' this param body v) body result := by
  cases u with
  -- What stands for a literal or for a tuple cannot be applied.
  | lit l =>
    obtain rfl := hf.stands.lit
    cases hrun
  | tuple vs =>
    obtain ⟨rs, rfl, -⟩ := hf.stands.tuple
    cases hrun
  | function ρ' this param body =>
    obtain ⟨env, kind, rfl, -⟩ := hf.stands.map
    obtain ⟨_, _, _, _, heq, hkind, hdraws, henv⟩ := hf
    cases heq
    suffices hbody : ∃ result, Denotes (Value.callEnv ρ' this param body v) body result by
      obtain ⟨result, hresult⟩ := hbody
      exact ⟨ρ', this, param, body, result, rfl, hresult⟩
    cases kind with
    -- The body runs with the argument bound, and for a recursive function with itself.
    | function x e =>
      obtain ⟨rfl, rfl, rfl⟩ := hdraws
      have hbound : (env.bind param arg).Means nodes [] ((param, v) :: ρ') :=
        Env.Reads.bind henv param harg
      exact denotes_withEnv hev hkind.1 hkind.2 hbound hw hrun hstmts
    | recFunction f x e =>
      obtain ⟨rfl, rfl, rfl⟩ := hdraws
      have hself : (Term.map env (.recFunction f param e)).Means nodes []
          (.function ρ' (some f) param e.outline) :=
        ⟨ρ', some f, param, e.outline, rfl, hkind, ⟨rfl, rfl, rfl⟩, henv⟩
      have hbound : ((env.bind f (.map env (.recFunction f param e))).bind param arg).Means nodes []
          ((param, v) :: (f, .function ρ' (some f) param e.outline) :: ρ') :=
        Env.Reads.bind (Env.Reads.bind henv f hself) param harg
      exact denotes_withEnv hev hkind.1 hkind.2 hbound hw hrun hstmts
    | module => exact hdraws.elim

/-- A conditional that leaves no code has a test that is known. -/
lemma denotes_cond (hev : Settles nodes (eval fuel)) {args : List Expr} {t : Term}
    (hin : ∀ e ∈ args, e.In nodes) (hcore : ∀ e ∈ args, e.outline.Core) (hw : w.Static nodes)
    (henv : w.scope.env.Means nodes [] ρ) (hrun : exec (cond (eval fuel) args) w = (.ok t, w'))
    (hstmts : w'.scope.stmts = []) : ∃ v, Denotes ρ (.op .cond (Expr.outlines args)) v := by
  match args with
  | [test, yes, no] =>
    have hpart : ∀ e ∈ [test, yes, no], e.In nodes ∧ e.outline.Core :=
      fun e he => ⟨hin e he, hcore e he⟩
    simp only [List.mem_cons, List.not_mem_nil, or_false, forall_eq_or_imp, forall_eq] at hpart
    obtain ⟨htest, hyes, hno⟩ := hpart
    obtain ⟨c, w₁, hfirst, hsecond⟩ := exec_bind_eq_ok.1 hrun
    cases hb : c.bool? with
    -- The test is known, and the side that is taken denotes.
    | some b =>
      rw [hb] at hsecond
      change exec (eval fuel (if b then yes else no)) w₁ = _ at hsecond
      have hframe := framed_eval fuel (if b then yes else no) w₁
      rw [hsecond] at hframe
      obtain ⟨u, hu, hw₁, henv₁, hc⟩ := hev test w c w₁ ρ htest.1 htest.2 hw henv hfirst
        (hframe.stmts_eq_nil hstmts)
      rw [← henv₁] at henv
      have hside : (if b then yes else no).In nodes ∧ (if b then yes else no).outline.Core := by
        cases b
        · exact hno
        · exact hyes
      obtain ⟨v, hv, -⟩ := hev _ w₁ t w' ρ hside.1 hside.2 hw₁ henv hsecond hstmts
      obtain rfl := hc.stands.of_bool? hb
      refine ⟨v, .cond hu ?_⟩
      cases b
      · exact hv
      · exact hv
    -- A test that is left for later is no truth value of the reference semantics.
    | none =>
      rw [hb] at hsecond
      dsimp only at hsecond
      split at hsecond
      · cases hsecond
      · rename_i hty
        have hframe : w₁.Framed (exec (do
            finishSplit .cond (c :: ·) (← branches [eval fuel yes, eval fuel no])) w₁).2 :=
          framed_split c yes no w₁
        rw [hsecond] at hframe
        obtain ⟨u, -, -, -, hc⟩ := hev test w c w₁ ρ htest.1 htest.2 hw henv hfirst
          (hframe.stmts_eq_nil hstmts)
        obtain ⟨b, rfl, -⟩ := hc.stands.bool (by simpa using hty)
        cases hb
  | [] | [_] | [_, _] | _ :: _ :: _ :: _ :: _ => cases hrun

lemma values_of_lits {ls : List Literal} {vs : List Value}
    (h : Term.AllMean nodes [] (ls.map Term.lit) vs) : vs = ls.map Value.lit := by
  induction ls generalizing vs with
  | nil =>
    cases vs with
    | nil => rfl
    | cons v vs => exact h.elim
  | cons l ls ih =>
    cases vs with
    | nil => exact h.elim
    | cons v vs =>
      have hfirst : v = .lit l := h.1
      rw [hfirst, ih h.2, List.map_cons]

/-- A primitive operation that leaves no code was folded. -/
lemma denotes_prim {op : PrimOp} (hop : op ≠ .convert) {os : List Outline} {ts : List Term}
    {vs : List Value} {t : Term} (hvs : DenotesAll ρ os vs) (hts : Term.AllMean nodes [] ts vs)
    (hw : w.Static nodes) (hrun : exec (primOp op ts) w = (.ok t, w'))
    (hstmts : w'.scope.stmts = []) : ∃ v, Denotes ρ (.op (.prim op) os) v := by
  unfold primOp at hrun
  obtain ⟨p, w₁, htype, hfolded⟩ := exec_bind_eq_ok.1 hrun
  obtain ⟨hresult, rfl⟩ : Fold.resultType op (ts.map fun t => t.ty.prim?) = some p ∧ w₁ = w := by
    unfold primType at htype
    split at htype
    · cases htype
    · split at htype
      · rename_i p' hp
        cases htype
        exact ⟨hp, rfl⟩
      · cases htype
  rw [exec_bind_of_ok (exec_getSession w₁), if_pos hw.folding] at hfolded
  cases hfold : Fold.fold op ts p with
  | some l =>
    obtain ⟨ls, rfl⟩ := lits_of_fold hop hfold
    obtain rfl : vs = ls.map Value.lit := values_of_lits hts
    refine ⟨.lit l, .prim hvs ?_⟩
    rw [PrimOp.value, hresult]
    exact hfold
  | none =>
    rw [hfold] at hfolded
    exact absurd hstmts (stmts_emit hw.sharing hfolded)

/-- An operation on tuples that leaves no code has its value. -/
lemma value_of_tupleOp {op : TupleOp} {ts : List Term} {v : Value} {t : Term}
    (hts : Term.AllMean nodes [] ts [v]) (hrun : exec (tupleOp op ts) w = (.ok t, w')) :
    ∃ result, op.value v = some result := by
  rcases ts with _ | ⟨a, _ | ⟨_, _⟩⟩
  · exact hts.elim
  · have ha : a.Means nodes [] v := hts.1
    cases op with
    | lengthEq n => exact ⟨_, rfl⟩
    | lengthGe n => exact ⟨_, rfl⟩
    -- The element that is there in the term is there in the value.
    | index i =>
      change exec (tupleIndex a i) w = _ at hrun
      cases v with
      | lit l =>
        obtain rfl := ha.stands.lit
        cases hrun
      | tuple vs =>
        obtain ⟨rs, rfl, hall⟩ := ha.stands.tuple
        cases hitem : vs[i]? with
        | some v => exact ⟨v, hitem⟩
        | none =>
          have hnone : rs[i]? = none := by
            rw [List.getElem?_eq_none_iff] at hitem ⊢
            rwa [hall.length]
          simp only [tupleIndex, hnone] at hrun
          cases hrun
      | function ρ this param body =>
        obtain ⟨env, kind, rfl, -⟩ := ha.stands.map
        cases hrun
    | slice n =>
      unfold tupleOp at hrun
      rw [exec_bind_of_ok (show exec (operand _ [a]) w = (.ok a, w) from rfl), ha.length] at hrun
      cases v with
      | lit l => cases hrun
      | function ρ this param body => cases hrun
      | tuple vs =>
        change exec (if n ≤ vs.length then _ else _) w = _ at hrun
        by_cases hn : n ≤ vs.length
        · exact ⟨_, if_pos hn⟩
        · rw [if_neg hn] at hrun
          cases hrun
  · exact hts.2.elim

lemma framed_dynamize (ts : List Term) (w : World) :
    w.Framed (exec (do toRuntime (← operand .dynamize ts)) w).2 :=
  framed_of_does ((Discipline.does_operand .dynamize fun t _ => frame_value t).bind
    fun t w' _ _ ht => Discipline.does_toRuntime t w' ht)

lemma framed_apply (ts : List Term) (w : World) :
    w.Framed (exec (do
      let (f, arg) ← operands₂ .apply ts
      apply (eval fuel) f arg) w).2 :=
  framed_of_does ((Discipline.does_operands₂ .apply fun t _ => frame_value t).bind
    fun _ _ _ _ hts => Discipline.does_apply (Discipline.pair_eval fuel) hts.1 hts.2)

lemma framed_primOp (op : PrimOp) (ts : List Term) (w : World) :
    w.Framed (exec (primOp op ts) w).2 :=
  framed_of_does (Discipline.does_primOp op fun t _ => frame_value t)

lemma framed_tupleOp (op : TupleOp) (ts : List Term) (w : World) :
    w.Framed (exec (tupleOp op ts) w).2 :=
  framed_of_does (Discipline.does_tupleOp op fun t _ => frame_value t)

lemma denotes_evalOp (hev : Settles nodes (eval fuel)) {op : Op} {args : List Expr} {t : Term}
    (hin : ∀ e ∈ args, e.In nodes) (hcore : (ExprKind.op op args).outline.Core)
    (hw : w.Static nodes) (henv : w.scope.env.Means nodes [] ρ)
    (hrun : exec (evalOp (eval fuel) op args) w = (.ok t, w')) (hstmts : w'.scope.stmts = []) :
    ∃ v, Denotes ρ (ExprKind.op op args).outline v := by
  obtain ⟨hall, hop⟩ := Outline.Core.ofOp hcore
  have hargs : ∀ e ∈ args, e.outline.Core := Expr.allCore_outlines.1 hall
  rw [ExprKind.outline]
  -- What follows the evaluation of the operands leaves no code, so they leave none.
  have hoperands : ∀ {rest : List Term → Eval Term},
      (∀ ts (w : World), w.Framed (exec (rest ts) w).2) →
      exec (args.mapM (eval fuel) >>= rest) w = (.ok t, w') →
      ∃ ts vs w₁, DenotesAll ρ (Expr.outlines args) vs ∧ w₁.Static nodes ∧
        Term.AllMean nodes [] ts vs ∧ exec (rest ts) w₁ = (.ok t, w') := by
    intro rest hframe hrun
    obtain ⟨ts, w₁, hvalues, hrest⟩ := exec_bind_eq_ok.1 hrun
    have hframe' := hframe ts w₁
    rw [hrest] at hframe'
    obtain ⟨vs, hvs, hw₁, -, hts⟩ := settles_args hev hin hargs hw henv hvalues
      (hframe'.stmts_eq_nil hstmts)
    exact ⟨ts, vs, w₁, hvs, hw₁, hts, hrest⟩
  rcases hop with ⟨rfl, a, ha, hout⟩ | ⟨hop, hout⟩
  · obtain ⟨ts, vs, w₁, hvs, -⟩ := hoperands framed_dynamize hrun
    rw [ha] at hvs
    rw [hout]
    cases hvs with
    | cons hv _ => exact ⟨_, hv⟩
  · rw [hout]
    cases op with
    | apply =>
      obtain ⟨ts, vs, w₁, hvs, hw₁, hts, hrest⟩ := hoperands framed_apply hrun
      rcases ts with _ | ⟨f, _ | ⟨arg, _ | ⟨_, _⟩⟩⟩
      · cases hrest
      · cases hrest
      · obtain ⟨u, v, rfl⟩ := hts.two
        obtain ⟨ρ', this, param, body, result, rfl, hbody⟩ :=
          denotes_apply hev hts.1 hts.2.1 hw₁ hrest hstmts
        generalize Expr.outlines args = os at hvs
        cases hvs with
        | cons hf hvs =>
          cases hvs with
          | cons harg hvs =>
            cases hvs
            exact ⟨result, .apply hf harg hbody⟩
      · cases hrest
    | cond => exact denotes_cond hev hin hargs hw henv hrun hstmts
    | prim op =>
      obtain ⟨ts, vs, w₁, hvs, hw₁, hts, hrest⟩ := hoperands (framed_primOp op) hrun
      exact denotes_prim hop hvs hts hw₁ hrest hstmts
    | tuple op =>
      obtain ⟨ts, vs, w₁, hvs, -, hts, hrest⟩ := hoperands (framed_tupleOp op) hrun
      rcases ts with _ | ⟨a, _ | ⟨_, _⟩⟩
      · cases hrest
      · obtain ⟨v, rfl⟩ := hts.one
        obtain ⟨result, hresult⟩ := value_of_tupleOp hts hrest
        generalize Expr.outlines args = os at hvs
        cases hvs with
        | cons ha hvs =>
          cases hvs
          exact ⟨result, .tupleOp ha hresult⟩
      · cases hrest
    | _ => exact hop.elim

/-- A step that leaves no code has the value that its expression denotes. -/
theorem denotes_step (hnodes : nodes.Closed) (hev : Settles nodes (eval fuel)) {e : Expr}
    {t : Term} (hin : e.In nodes) (hcore : e.outline.Core) (hw : w.Static nodes)
    (henv : w.scope.env.Means nodes [] ρ) (hrun : exec (step (eval fuel) e) w = (.ok t, w'))
    (hstmts : w'.scope.stmts = []) : ∃ v, Denotes ρ e.outline v := by
  have hparts : ∀ p ∈ e.kind.parts, p.In nodes := hin.parts hnodes
  obtain ⟨symbol, kind⟩ := e
  unfold step at hrun
  cases kind with
  | var x =>
    dsimp only [Expr.kind] at hrun
    rw [exec_bind_of_ok (exec_getScope w)] at hrun
    cases hget : w.scope.env.get? x with
    | some u =>
      obtain ⟨v, hv, -⟩ := Env.Reads.get? henv hget
      exact ⟨v, .var hv⟩
    | none =>
      rw [hget] at hrun
      cases hrun
  | lit l => exact ⟨_, .lit⟩
  | pattern p => exact hcore.elim
  -- Functions denote themselves.
  | function param body => exact ⟨_, .function⟩
  | filtered used param body => exact ⟨_, .function⟩
  | recFunction this param body => exact ⟨_, .function⟩
  | tuple items =>
    obtain ⟨ts, w₁, hvalues, hrest⟩ := exec_bind_eq_ok.1 hrun
    cases hrest
    obtain ⟨vs, hvs, -⟩ := settles_args hev hparts (Expr.allCore_outlines.1 hcore) hw henv hvalues
      hstmts
    exact ⟨_, .tuple hvs⟩
  | op op args => exact denotes_evalOp hev hparts hcore hw henv hrun hstmts
  | pos span e =>
    have he : e.In nodes := hparts e (List.mem_singleton_self _)
    change exec (if w.session.settings.traces then withSpan span (eval fuel e) else eval fuel e)
      w = _ at hrun
    split at hrun
    · -- The position changes the trace alone.
      rw [exec_withSpan] at hrun
      rcases hact : exec (eval fuel e) (w.setTrace (w.scope.trace.push span)) with ⟨r, w₁⟩
      rw [hact] at hrun
      cases hrun
      have hruns := hw.runs
      have hstart : (w.setTrace (w.scope.trace.push span)).Static nodes :=
        ⟨⟨⟨hruns.core.owner, hruns.core.env, hruns.core.sharing⟩, hruns.fresh, hruns.shared⟩,
          hw.folding, hw.stmts⟩
      obtain ⟨v, hv, -⟩ := hev e (w.setTrace (w.scope.trace.push span)) t w₁ ρ he hcore hstart henv
        hact hstmts
      exact ⟨v, hv⟩
    · obtain ⟨v, hv, -⟩ := hev e w t w' ρ he hcore hw henv hrun hstmts
      exact ⟨v, hv⟩

end Step

/-- Core code that is evaluated with folding and without leaving code denotes its result. -/
theorem settles_eval (hnodes : nodes.Closed) (fuel : Nat) : Settles nodes (eval fuel) := by
  induction fuel with
  | zero =>
    intro e w t w' ρ _ _ _ _ hrun
    cases hrun
  | succ fuel ih =>
    exact settles_of_denotes hnodes fun e w t w' ρ hin hcore hw henv hrun hstmts =>
      denotes_step hnodes ih hin hcore hw henv hrun hstmts

end Eval

end Residual
