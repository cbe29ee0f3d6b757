import Mathlib.Data.List.Forall2
import Residual.Proofs.Eval.Exec

/-!
The splits that evaluation comes to: conditionals with a test that is left for later, and splits by
union member.
-/

namespace Residual

open Eval

/-- The step for an expression comes to a split that is decided at run time, and the branches
`acts` of the split start from `w₀`. -/
inductive Splits (ev : Expr → Eval Term) : Expr → World → List (Eval Term) → World → Prop where
  | cond {symbol test yes no w t w₀} : exec (ev test) w = (.ok t, w₀) → t.bool? = none →
      (t.ty == .bool) = true →
      Splits ev (.node symbol (.op .cond [test, yes, no])) w [ev yes, ev no] w₀
  | case {symbol args w v f w₁ members w₂ binders w₀} :
      exec (args.mapM ev) w = (.ok [.var v, f], w₁) →
      (∃ ts, v.ty = .union ts) ∨ (∃ key, v.ty = .recur key) →
      exec (unionMembers v.ty) w₁ = (.ok members, w₂) →
      exec (members.mapM freshVar) w₂ = (.ok binders, w₀) →
      Splits ev (.node symbol (.op .case args)) w
        (binders.map fun b => apply ev f (if b.ty.isUnit then .ofUnit b.ty else .var b)) w₀

/-- The bodies of a split by union member are among its operands. -/
lemma Eval.subset_caseArgs {value : Term} {binders : List Var} {bodies : List Term}
    (h : bodies.length = binders.length) : bodies ⊆ caseArgs value binders bodies := by
  refine List.subset_cons_of_subset _ ?_
  induction binders generalizing bodies with
  | nil => rw [List.eq_nil_of_length_eq_zero h]; exact List.nil_subset _
  | cons b binders ih =>
    obtain _ | ⟨body, bodies⟩ := bodies
    · exact List.nil_subset _
    · rw [List.zip_cons_cons, List.flatMap_cons]
      refine List.cons_subset.2 ⟨List.mem_cons_of_mem _ (List.mem_cons_self ..), ?_⟩
      exact List.Subset.trans (ih (Nat.succ.inj h)) (List.subset_append_right _ _)

namespace Splits

variable {ev : Expr → Eval Term} {e : Expr} {w w₀ : World} {acts : List (Eval Term)}

/-- After the branches there is only the split itself to be emitted. -/
theorem exec_step (h : Splits ev e w acts w₀) :
    ∃ op arrange, (∀ bodies : List Term, bodies.length = acts.length → bodies ⊆ arrange bodies) ∧
      exec (step ev e) w = exec (do finishSplit op arrange (← branches acts)) w₀ := by
  cases h with
  | @cond symbol test yes no _ t _ htest hbool hty =>
    refine ⟨.cond, (t :: ·), fun bodies _ => List.subset_cons_self t bodies, ?_⟩
    change exec (Eval.cond ev [test, yes, no]) w = _
    rw [Eval.cond, exec_bind_of_ok htest, hbool]
    simp only [hty, Bool.not_true]
    rfl
  | @case symbol args _ v f w₁ members w₂ binders _ hargs hunion hmembers hbinders =>
    refine ⟨.case, caseArgs (.var v) binders, fun bodies hlength =>
      subset_caseArgs (hlength.trans (List.length_map ..)), ?_⟩
    change exec (evalOp ev .case args) w = _
    rw [evalOp, exec_bind_of_ok hargs]
    change exec (Eval.case ev (.var v) f) w₁ = _
    have hcase : Eval.case ev (.var v) f = (do
        let members ← unionMembers v.ty
        let binders ← members.mapM freshVar
        let bodies ← branches (binders.map fun b =>
          apply ev f (if b.ty.isUnit then .ofUnit b.ty else .var b))
        finishSplit .case (caseArgs (.var v) binders) bodies) := by
      rcases hunion with ⟨ts, hts⟩ | ⟨key, hkey⟩
      · simp only [Eval.case, hts]
      · simp only [Eval.case, hkey]
    rw [hcase, exec_bind_of_ok hmembers, exec_bind_of_ok hbinders]

/-- A split whose branches fail fails with them. -/
theorem exec_step_of_error (h : Splits ev e w acts w₀) {s : Stop} {w' : World}
    (hacts : exec (branches acts) w₀ = (.error s, w')) : exec (step ev e) w = (.error s, w') := by
  obtain ⟨op, arrange, -, hstep⟩ := h.exec_step
  rw [hstep, exec_bind_of_error hacts]

end Splits

namespace Eval

/-- The branches of the split that a step comes to, and the world in which they start. -/
def split? (ev : Expr → Eval Term) (e : Expr) (w : World) : Option (List (Eval Term) × World) :=
  match e with
  | .node _ (.op .cond [test, yes, no]) =>
    match exec (ev test) w with
    | (.ok t, w₀) =>
      if t.bool?.isNone ∧ (t.ty == .bool) = true then some ([ev yes, ev no], w₀) else none
    | _ => none
  | .node _ (.op .case args) =>
    match exec (args.mapM ev) w with
    | (.ok [.var v, f], w₁) =>
      match v.ty, exec (unionMembers v.ty) w₁ with
      | .union _, (.ok members, w₂) | .recur _, (.ok members, w₂) =>
        match exec (members.mapM freshVar) w₂ with
        | (.ok binders, w₀) =>
          some (binders.map fun b => apply ev f (if b.ty.isUnit then .ofUnit b.ty else .var b), w₀)
        | _ => none
      | _, _ => none
    | _ => none
  | _ => none

end Eval

lemma Splits.split?_eq {ev : Expr → Eval Term} {e : Expr} {w w₀ : World}
    {acts : List (Eval Term)} (h : Splits ev e w acts w₀) : split? ev e w = some (acts, w₀) := by
  cases h with
  | cond htest hbool hty =>
    simp only [split?, htest, hbool, hty, Option.isNone_none, and_self, if_true]
  | case hargs hunion hmembers hbinders =>
    rcases hunion with ⟨ts, hts⟩ | ⟨key, hkey⟩
    · rw [hts] at hmembers
      simp only [split?, hargs, hts, hmembers, hbinders]
    · rw [hkey] at hmembers
      simp only [split?, hargs, hkey, hmembers, hbinders]

lemma Splits.of_split? {ev : Expr → Eval Term} {e : Expr} {w w₀ : World}
    {acts : List (Eval Term)} (h : split? ev e w = some (acts, w₀)) : Splits ev e w acts w₀ := by
  unfold split? at h
  split at h
  · split at h
    · rename_i htest
      split at h
      · rename_i hsplit
        cases h
        exact .cond htest (Option.isNone_iff_eq_none.1 hsplit.1) hsplit.2
      · cases h
    · cases h
  · split at h
    · rename_i hargs
      split at h
      · rename_i hty hmembers
        split at h
        · rename_i hbinders
          cases h
          exact .case hargs (.inl ⟨_, hty⟩) hmembers hbinders
        · cases h
      · rename_i hty hmembers
        split at h
        · rename_i hbinders
          cases h
          exact .case hargs (.inr ⟨_, hty⟩) hmembers hbinders
        · cases h
      · cases h
    · cases h
  · cases h

/-! ### The bodies of a split -/

namespace Eval

/-- A run of the branch in the environment of `w` has the body. -/
def Branched (w : World) (act : Eval Term) (body : Term) : Prop :=
  ∃ v : World, v.scope.env = w.scope.env ∧ (exec (inBranch act) v).1 = .ok body

lemma Branched.of_env {w w' : World} (h : w'.scope.env = w.scope.env) {act : Eval Term}
    {body : Term} (hb : Branched w' act body) : Branched w act body := by
  obtain ⟨v, hv, hrun⟩ := hb
  exact ⟨v, hv.trans h, hrun⟩

lemma reads_pendingRecursion (fault : Fault) : Reads (pendingRecursion fault) := by
  intro w
  unfold pendingRecursion
  split
  · rfl
  · rename_i p _
    rw [exec_bind_of_ok (exec_getScope w)]
    split
    · rfl
    · rw [exec_bind_of_ok (exec_getSession w)]
      split <;> rfl

/-- A branch that was tried leaves the environment, and its body if it succeeded. -/
lemma attempt_inBranch_eq_ok {act : Eval Term} {w w' : World} {r : Except Fault Term}
    (h : exec (attempt (inBranch act)) w = (.ok r, w')) :
    w'.scope.env = w.scope.env ∧ ∀ body, r = .ok body → Branched w act body := by
  rw [exec_attempt] at h
  have hworld : (exec (inBranch act) w).2.scope.env = w.scope.env := by rw [exec_inBranch]; rfl
  rcases hrun : (exec (inBranch act) w).1 with (fault | _ | _) | body <;> rw [hrun] at h <;> cases h
  · exact ⟨hworld, fun body hbody => by cases hbody⟩
  · exact ⟨hworld, fun body hbody => by cases hbody; exact ⟨w, rfl, hrun⟩⟩

lemma firstRun_eq_ok {acts : List (Eval Term)} {w w' : World} {found : List (Option Term)}
    {recursed : Option (Fault × Point)}
    (h : exec (firstRun acts) w = (.ok (found, recursed), w')) :
    w'.scope.env = w.scope.env ∧
      List.Forall₂ (fun act b => ∀ body ∈ b, Branched w act body) acts found ∧
      (recursed = none → ∀ b ∈ found, b.isSome = true) := by
  induction acts generalizing w found recursed with
  | nil =>
    cases h
    exact ⟨rfl, .nil, fun _ b hb => absurd hb List.not_mem_nil⟩
  | cons act acts ih =>
    rw [firstRun] at h
    obtain ⟨r, w₁, hact, h⟩ := exec_bind_eq_ok.1 h
    obtain ⟨henv, hbody⟩ := attempt_inBranch_eq_ok hact
    cases r with
    | ok body =>
      obtain ⟨⟨later, recursed'⟩, w₂, hrest, h⟩ := exec_bind_eq_ok.1 h
      cases h
      obtain ⟨henv', hlater, hall⟩ := ih hrest
      refine ⟨henv'.trans henv, .cons ?_ (hlater.imp fun a b hb body hmem =>
        (hb body hmem).of_env henv), fun hnone => ?_⟩
      · rintro _ ⟨⟩
        exact hbody body rfl
      · exact List.forall_mem_cons.2 ⟨rfl, hall hnone⟩
    -- A branch that failed has no body, and the run goes on only if it recursed too early.
    | error fault =>
      obtain ⟨p?, w₂, hpending, h⟩ := exec_bind_eq_ok.1 h
      have hw₂ : w₂ = w₁ := by rw [← reads_pendingRecursion fault w₁, hpending]
      subst hw₂
      cases p? with
      | none => cases h
      | some p =>
        obtain ⟨⟨later, recursed'⟩, w₃, hrest, h⟩ := exec_bind_eq_ok.1 h
        cases h
        obtain ⟨henv', hlater, -⟩ := ih hrest
        exact ⟨henv'.trans henv, .cons (fun _ hb => by cases hb) (hlater.imp fun a b hb body hmem =>
          (hb body hmem).of_env henv), fun hnone => by cases hnone⟩

/-- If all bodies are there after a first run, they are those of the branches. -/
lemma branched_of_found {acts : List (Eval Term)} {w : World} {found : List (Option Term)}
    (hfound : List.Forall₂ (fun act b => ∀ body ∈ b, Branched w act body) acts found)
    (hall : ∀ b ∈ found, b.isSome = true) :
    List.Forall₂ (Branched w) acts (found.filterMap id) := by
  induction hfound with
  | nil => exact .nil
  | cons hb _ ih =>
    obtain ⟨hsome, hrest⟩ := List.forall_mem_cons.1 hall
    obtain ⟨body, rfl⟩ := Option.isSome_iff_exists.1 hsome
    exact .cons (hb body rfl) (ih hrest)

lemma secondRun_eq_ok {acts : List (Eval Term)} {w₀ w w' : World} {found : List (Option Term)}
    {bodies : List Term} (hw : w.scope.env = w₀.scope.env)
    (hfound : List.Forall₂ (fun act b => ∀ body ∈ b, Branched w₀ act body) acts found)
    (h : exec (secondRun found acts) w = (.ok (.ok bodies), w')) :
    List.Forall₂ (Branched w₀) acts bodies := by
  induction hfound generalizing w bodies with
  | nil =>
    cases h
    exact .nil
  | @cons act b acts found hb _ ih =>
    cases b with
    | some body =>
      obtain ⟨rest, w₁, hrest, h⟩ := exec_bind_eq_ok.1 h
      cases rest <;> cases h
      exact .cons (hb body rfl) (ih hw hrest)
    | none =>
      rw [secondRun] at h
      obtain ⟨r, w₁, hact, h⟩ := exec_bind_eq_ok.1 h
      obtain ⟨henv, hbody⟩ := attempt_inBranch_eq_ok hact
      cases r with
      | error fault => cases h
      | ok body =>
        obtain ⟨rest, w₂, hrest, h⟩ := exec_bind_eq_ok.1 h
        cases rest <;> cases h
        exact .cons ((hbody body rfl).of_env hw) (ih (henv.trans hw) hrest)

/-- The bodies of a split that succeeds are those of its branches. -/
theorem branches_eq_ok {acts : List (Eval Term)} {w w' : World} {bodies : List Term}
    (h : exec (branches acts) w = (.ok bodies, w')) :
    List.Forall₂ (Branched w) acts bodies := by
  rw [branches] at h
  obtain ⟨⟨found, recursed⟩, w₁, hfirst, h⟩ := exec_bind_eq_ok.1 h
  obtain ⟨henv, hfound, hall⟩ := firstRun_eq_ok hfirst
  cases recursed with
  | none =>
    cases h
    exact branched_of_found hfound (hall rfl)
  | some r =>
    obtain ⟨fault, p⟩ := r
    dsimp only at h
    cases hty : firstType? (found.filterMap id) with
    | none =>
      rw [hty] at h
      cases h
    | some ty =>
      rw [hty] at h
      dsimp only at h
      rw [exec_bind_of_ok (exec_setPendingType p (some ty) w₁),
        exec_bind_of_ok (exec_getSession _)] at h
      obtain ⟨r, w₂, hsecond, h⟩ := exec_bind_eq_ok.1 h
      cases r with
      | ok bodies =>
        cases h
        exact secondRun_eq_ok (w := w₁.setPending p (some ty)) henv hfound hsecond
      | error fault' => cases h

end Eval

end Residual
