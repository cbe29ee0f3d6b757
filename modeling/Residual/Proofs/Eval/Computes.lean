import Residual.Proofs.Eval.CoreTypes

/-!
Steps whose code computes values.

The statements of a scope, run in order, bind variables. `Computes` says of a step that succeeds
that the statements it adds can be run, and what its result means once they were. Results that
are shared stay valid because a variable that is bound keeps its value.
-/

namespace Residual

open Eval

variable {nodes : Interner ExprKind}

lemma Bindings.Holds.mono {σ τ : Bindings} (h : σ.Le τ) {x : Var} {v : Value}
    (hx : σ.Holds nodes x v) : τ.Holds nodes x v := by
  obtain ⟨r, hr, hstands, hty⟩ := hx
  exact ⟨r, h x.tag r hr, hstands, hty⟩

lemma Term.Means.mono {σ τ : Bindings} (h : σ.Le τ) {t : Term} {v : Value}
    (ht : t.Means nodes σ v) : t.Means nodes τ v :=
  Term.Reads.imp (fun _ _ => Bindings.Holds.mono h) t v ht

lemma Term.AllMean.mono {σ τ : Bindings} (h : σ.Le τ) {ts : List Term} {vs : List Value}
    (hts : Term.AllMean nodes σ ts vs) : Term.AllMean nodes τ ts vs :=
  Term.AllRead.imp (fun _ _ => Bindings.Holds.mono h) ts vs hts

lemma Env.Means.mono {σ τ : Bindings} (h : σ.Le τ) {env : Env} {ρ : List (Name × Value)}
    (henv : env.Means nodes σ ρ) : env.Means nodes τ ρ :=
  Env.Reads.imp (fun _ _ => Bindings.Holds.mono h) env ρ henv

lemma Term.Stands.core {r : Term} {v : Value} (h : r.Stands nodes v) : r.ty.Core nodes :=
  Term.Reads.core r v h

/-! ### Shared results -/

/-- The operands of an operation that can be shared. -/
def Term.IsAtom : Term → Prop
  | .lit _ | .var _ => True
  | _ => False

/-- Atoms that are equal by content have one value. -/
lemma Term.run_eq_of_beq {σ : Bindings} {t u : Term} (hu : u.IsAtom)
    (h : t.beq .content u = true) : t.run σ = u.run σ := by
  cases u with
  | lit l =>
    cases t with
    | lit m => rw [beq_iff_eq.1 h]
    | _ => cases h
  | var y =>
    cases t with
    | var x =>
      obtain ⟨tag, ty⟩ := x
      have htag : (tag == y.tag && ty.beq .content y.ty) = true := h
      rw [Bool.and_eq_true, beq_iff_eq] at htag
      rw [Term.run, Term.run, htag.1]
    | _ => cases h
  | _ => exact hu.elim

lemma Term.runAll_eq_of_beq {σ : Bindings} {ts us : List Term} (hu : ∀ u ∈ us, u.IsAtom)
    (h : Term.beqAll .content ts us = true) : Term.runAll ts σ = Term.runAll us σ := by
  induction ts generalizing us with
  | nil =>
    cases us with
    | nil => rfl
    | cons u us => cases h
  | cons t ts ih =>
    cases us with
    | nil => cases h
    | cons u us =>
      rw [Term.beqAll, Bool.and_eq_true] at h
      have hfirst := Term.run_eq_of_beq (σ := σ) (hu u (List.mem_cons_self ..)) h.1
      have hrest := ih (fun u h => hu u (List.mem_cons_of_mem _ h)) h.2
      rw [Term.runAll, Term.runAll, hfirst, hrest]

/-- The variable holds the result of the operation. -/
def Bindings.Shares (σ : Bindings) (a : Application) (v : Var) : Prop :=
  (∀ t ∈ a.args, t.IsAtom) ∧ ∃ r, σ.lookup v.tag = some r ∧
    (Term.runAll a.args σ).bind a.op.compute = some r ∧ r.ty = v.ty

lemma Bindings.Shares.mono {σ τ : Bindings} (h : σ.Le τ) {a : Application} {v : Var}
    (hs : σ.Shares a v) : τ.Shares a v := by
  obtain ⟨hatoms, r, hv, hrun, hty⟩ := hs
  obtain ⟨rs, hrs, hcompute⟩ := Option.bind_eq_some_iff.1 hrun
  refine ⟨hatoms, r, h _ _ hv, ?_, hty⟩
  rw [Term.runAll_mono a.args h hrs, Option.bind_some, hcompute]

/-- An operation that is equal to a shared one has its result. -/
lemma Bindings.Shares.of_beq {σ : Bindings} {a b : Application} {v : Var} (hs : σ.Shares b v)
    (h : (a == b) = true) : ∃ r, σ.lookup v.tag = some r ∧
      (Term.runAll a.args σ).bind a.op.compute = some r ∧ r.ty = v.ty := by
  obtain ⟨hatoms, r, hv, hrun, hty⟩ := hs
  have hparts : (a.op == b.op && (Term.quickAll .content a.args b.args).1) = true := h
  rw [Bool.and_eq_true, beq_iff_eq, (Term.quickAll .content a.args b.args).2] at hparts
  refine ⟨r, hv, ?_, hty⟩
  rw [Term.runAll_eq_of_beq hatoms hparts.2, hparts.1, hrun]

lemma Sharing.mem_of_get? {s : Sharing} {a : Application} {v : Var} (h : s.get? a = some v) :
    ∃ b, (b, v) ∈ s.entries ∧ (a == b) = true := by
  obtain ⟨entries, scopes⟩ := s
  change entries.lookup a = some v at h
  induction entries with
  | nil => cases h
  | cons e rest ih =>
    obtain ⟨b, u⟩ := e
    rw [List.lookup_cons] at h
    split at h
    · rename_i hb
      cases h
      exact ⟨b, List.mem_cons_self .., hb⟩
    · obtain ⟨c, hc, hbeq⟩ := ih h
      exact ⟨c, List.mem_cons_of_mem _ hc, hbeq⟩

/-! ### Worlds whose code was run -/

/-- Variables are bound as the code of the scope so far binds them: tags of the supply are free,
and what is shared is a result. -/
structure World.Runs (nodes : Interner ExprKind) (σ : Bindings) (w : World) : Prop where
  core : w.Core nodes
  fresh : ∀ n, w.scope.tags.next ≤ n → σ.lookup n = none
  shared : ∀ e ∈ w.scope.sharing.entries, σ.Shares e.1 e.2

/-- The statements between two worlds take one set of bindings to the other. -/
structure World.Leads (σ : Bindings) (w : World) (τ : Bindings) (w' : World) : Prop where
  env : w'.scope.env = w.scope.env
  le : σ.Le τ
  code : ∃ stmts, w'.scope.stmts = w.scope.stmts ++ stmts ∧ Stmt.runAll stmts σ = some τ

namespace World.Leads

variable {σ τ υ : Bindings} {w w₁ w₂ : World}

/-- Nothing was added to the code. -/
theorem of_stmts (henv : w₁.scope.env = w.scope.env) (h : w₁.scope.stmts = w.scope.stmts) :
    World.Leads σ w σ w₁ :=
  ⟨henv, .refl σ, [], by rw [h, List.append_nil], rfl⟩

lemma trans (h : World.Leads σ w τ w₁) (k : World.Leads τ w₁ υ w₂) : World.Leads σ w υ w₂ := by
  obtain ⟨as, has, hrun⟩ := h.code
  obtain ⟨bs, hbs, hrun'⟩ := k.code
  refine ⟨k.env.trans h.env, h.le.trans k.le, as ++ bs, ?_, ?_⟩
  · rw [hbs, has, List.append_assoc]
  · rw [Stmt.runAll_append, hrun, Option.bind_some, hrun']

end World.Leads

/-- A new variable is bound to the value of its code. -/
theorem World.Runs.letIn {σ : Bindings} {w : World} (hw : w.Runs nodes σ) {code r : Term}
    (hrun : code.run σ = some r) (ty : Ty) :
    let τ : Bindings := (w.scope.tags.next, r) :: σ
    let w' := (w.setTags ⟨w.scope.tags.next + 1⟩).push
      (.letIn ⟨w.scope.tags.next, ty⟩ code w.scope.trace)
    w'.Runs nodes τ ∧ World.Leads σ w τ w' := by
  intro τ w'
  have hle : σ.Le τ := .cons (hw.fresh _ (Nat.le_refl _))
  refine ⟨⟨⟨hw.core.owner, hw.core.env, hw.core.sharing⟩, fun n hn => ?_, fun e he => ?_⟩,
    rfl, hle, [_], rfl, ?_⟩
  · have hlt : w.scope.tags.next < n := hn
    have hne : (n == w.scope.tags.next) = false := beq_eq_false_iff_ne.2 (Nat.ne_of_gt hlt)
    rw [List.lookup_cons, hne]
    exact hw.fresh n (Nat.le_of_lt hlt)
  · exact (hw.shared e he).mono hle
  · rw [Stmt.runAll, Stmt.run, hrun]
    rfl

namespace Eval

variable {α β : Type} {σ : Bindings} {w : World}

/-- The code that the step adds can be run, and its result has the property afterwards. -/
def Computes (nodes : Interner ExprKind) (σ : Bindings) (w : World) (m : Eval α)
    (Q : Bindings → α → Prop) : Prop :=
  ∀ a w', w.Runs nodes σ → exec m w = (.ok a, w') →
    ∃ τ, w'.Runs nodes τ ∧ World.Leads σ w τ w' ∧ Q τ a

/-- The result of the step means the value. -/
abbrev ComputesTerm (nodes : Interner ExprKind) (σ : Bindings) (w : World) (m : Eval Term)
    (v : Value) : Prop :=
  Computes nodes σ w m fun τ t => t.Means nodes τ v

namespace Computes

variable {m : Eval α} {f : α → Eval β} {P P' : Bindings → α → Prop} {Q : Bindings → β → Prop}

lemma pure {a : α} (h : P σ a) : Computes nodes σ w (Pure.pure a) P := by
  intro b w' hw hrun
  cases hrun
  exact ⟨σ, hw, .of_stmts rfl rfl, h⟩

lemma fail (c : Cause) : Computes nodes σ w (Eval.fail c : Eval α) P := by
  intro b w' hw hrun
  cases hrun

lemma throw (s : Stop) : Computes nodes σ w (MonadExcept.throw s : Eval α) P := by
  intro b w' hw hrun
  cases hrun

lemma bind (hm : Computes nodes σ w m P)
    (hf : ∀ a τ w', World.Leads σ w τ w' → P τ a → Computes nodes τ w' (f a) Q) :
    Computes nodes σ w (m >>= f) Q := by
  intro b w' hw hrun
  obtain ⟨a, w₁, hfirst, hrest⟩ := exec_bind_eq_ok.1 hrun
  obtain ⟨τ, hw₁, hleads, ha⟩ := hm a w₁ hw hfirst
  obtain ⟨υ, hw', hleads', hb⟩ := hf a τ w₁ hleads ha b w' hw₁ hrest
  exact ⟨υ, hw', hleads.trans hleads', hb⟩

lemma imp (hm : Computes nodes σ w m P) (h : ∀ τ a, σ.Le τ → P τ a → P' τ a) :
    Computes nodes σ w m P' := by
  intro a w' hw hrun
  obtain ⟨τ, hw', hleads, ha⟩ := hm a w' hw hrun
  exact ⟨τ, hw', hleads, h τ a hleads.le ha⟩

lemma given (h : w.Runs nodes σ → Computes nodes σ w m P) : Computes nodes σ w m P :=
  fun a w' hw hrun => h hw a w' hw hrun

/-- What is known of the types of results can be added. -/
theorem and_typed {R : α → Prop} (hm : Computes nodes σ w m P) (ht : Typed nodes w m R) :
    Computes nodes σ w m fun τ a => P τ a ∧ R a := by
  intro a w' hw hrun
  obtain ⟨τ, hw', hleads, ha⟩ := hm a w' hw hrun
  exact ⟨τ, hw', hleads, ha, (ht a w' hw.core hrun).2⟩

lemma getScope {f : Scope → Eval β} (h : Computes nodes σ w (f w.scope) Q) :
    Computes nodes σ w (Eval.getScope >>= f) Q :=
  h

lemma getSession {f : Session → Eval β} (h : Computes nodes σ w (f w.session) Q) :
    Computes nodes σ w (Eval.getSession >>= f) Q :=
  h

/-- A step that adds no code. -/
theorem of_exec {a : α} {w' : World} (hm : exec m w = (.ok a, w'))
    (hscope : w'.scope = w.scope) (h : P σ a) : Computes nodes σ w m P := by
  intro b w'' hw hrun
  rw [hm] at hrun
  cases hrun
  refine ⟨σ, ⟨⟨?_, ?_, ?_⟩, ?_, ?_⟩, .of_stmts (by rw [hscope]) (by rw [hscope]), h⟩ <;> rw [hscope]
  · exact hw.core.owner
  · exact hw.core.env
  · exact hw.core.sharing
  · exact hw.fresh
  · exact hw.shared

end Computes

/-! ### Adding code -/

lemma exec_freshVar_eq_ok {ty : Ty} {v : Var} {w' : World}
    (h : exec (freshVar ty) w = (.ok v, w')) :
    v = ⟨w.scope.tags.next, ty⟩ ∧ w' = w.setTags ⟨w.scope.tags.next + 1⟩ := by
  obtain ⟨tag, w₁, htag, hv⟩ := exec_bind_eq_ok.1 h
  cases hv
  unfold freshTag at htag
  rw [exec_bind_of_ok (exec_getScope w)] at htag
  split at htag
  · cases htag
  · rename_i tag' tags hfresh
    cases htag
    obtain ⟨-, rfl, htags⟩ := Tags.fresh?_eq_some_iff.1 hfresh
    cases tags
    cases htags
    exact ⟨rfl, rfl⟩

lemma means_var {r : Term} {v : Value} (hr : r.Stands nodes v) {tag : Tag}
    (hlookup : σ.lookup tag = some r) : (Term.var ⟨tag, r.ty⟩).Means nodes σ v :=
  ⟨hr.core, r, hlookup, hr, rfl⟩

/-- The result of code that has a value means the value. -/
theorem computes_bindResult {code r : Term} {v : Value} (hrun : code.run σ = some r)
    (hr : r.Stands nodes v) : ComputesTerm nodes σ w (bindResult code r.ty) v := by
  intro t w' hw hexec
  unfold bindResult at hexec
  split at hexec
  · rename_i hunit
    cases hexec
    refine ⟨σ, ⟨⟨hw.core.owner, hw.core.env, hw.core.sharing⟩, hw.fresh, hw.shared⟩,
      ⟨rfl, .refl σ, [_], rfl, ?_⟩, Term.Stands.ofUnit r v hr hunit⟩
    rw [Stmt.runAll, Stmt.run, hrun]
    rfl
  · obtain ⟨x, w₁, hx, hexec⟩ := exec_bind_eq_ok.1 hexec
    obtain ⟨rfl, rfl⟩ := exec_freshVar_eq_ok hx
    cases hexec
    obtain ⟨hruns, hleads⟩ := hw.letIn hrun r.ty
    exact ⟨_, hruns, hleads, means_var hr (by simp)⟩

lemma computes_emit {op : Op} {args : List Term} {r : Term} {v : Value} (hop : op ≠ .cond)
    (hatoms : ∀ t ∈ args, t.IsAtom) (hrun : (Term.runAll args σ).bind op.compute = some r)
    (hr : r.Stands nodes v) : ComputesTerm nodes σ w (emit op args r.ty) v := by
  have hcode : (Term.op op args r.ty).run σ = some r := by rw [Term.run, if_neg hop, hrun]
  refine .getSession ?_
  split
  · refine .getScope ?_
    cases hget : w.scope.sharing.get? ⟨op, args⟩ with
    | some x =>
      -- The operation was emitted before, with the same value.
      refine .given fun hw => ?_
      obtain ⟨b, hb, hbeq⟩ := Sharing.mem_of_get? hget
      obtain ⟨r', hlookup, hrun', hty⟩ := (hw.shared _ hb).of_beq hbeq
      rw [hrun] at hrun'
      cases hrun'
      have hx : (Term.var x).Means nodes σ v := by
        obtain ⟨tag, ty⟩ := x
        cases hty
        exact means_var hr hlookup
      exact .bind (P := fun τ _ => τ = σ) (.of_exec (exec_modifyStats _ w) rfl rfl)
        fun _ τ _ _ hτ => .pure (hτ ▸ hx)
    | none =>
      intro t w' hw hexec
      obtain ⟨x, w₁, hx, hexec⟩ := exec_bind_eq_ok.1 hexec
      obtain ⟨rfl, rfl⟩ := exec_freshVar_eq_ok hx
      cases hexec
      obtain ⟨hruns, hleads⟩ := hw.letIn hcode r.ty
      refine ⟨_, ⟨⟨hruns.core.owner, hruns.core.env, fun e he => ?_⟩, hruns.fresh, fun e he => ?_⟩,
        ⟨hleads.env, hleads.le, hleads.code⟩, means_var hr (by simp)⟩
      · rcases List.mem_cons.1 he with rfl | he
        · exact hr.core
        · exact hruns.core.sharing e (List.mem_filter.1 he).1
      · rcases List.mem_cons.1 he with rfl | he
        · obtain ⟨rs, hrs, hcompute⟩ := Option.bind_eq_some_iff.1 hrun
          refine ⟨hatoms, r, by simp, ?_, rfl⟩
          rw [Term.runAll_mono args hleads.le hrs, Option.bind_some, hcompute]
        · exact hruns.shared e (List.mem_filter.1 he).1
  · exact computes_bindResult hcode hr

end Eval

end Residual
