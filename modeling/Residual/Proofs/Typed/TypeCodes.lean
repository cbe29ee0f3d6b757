import Residual.Proofs.Typed.Formed
import Residual.Proofs.Typed.Retag

/-!
What the code of a term or of a type tells.

Terms with one code have types with one code and the same variables, and of two types with one
code either both carry run-time data or neither does.
-/

namespace Residual

mutual

lemma Ty.isUnit_of_code (a b : Ty) (h : a.code = b.code) : a.isUnit = b.isUnit := by
  match a with
  | .list as =>
    cases b with
    | list bs => exact Ty.allUnit_of_code as bs (by simpa [Ty.code] using h)
    | _ => simp [Ty.code] at h
  | .map as k =>
    cases b with
    | map bs l =>
      have h : Ty.codeFields as ++ k.code = Ty.codeFields bs ++ l.code := by
        simpa [Ty.code] using h
      exact Ty.fieldsUnit_of_code as bs ((Ty.splits_codeFields as bs).append_eq_iff.1 h).1
    | _ => simp [Ty.code] at h
  | .lit l => cases b <;> first | rfl | simp [Ty.code] at h
  | .prim _ | .layout _ _ _ | .closure _ _ | .union _ | .recur _ | .array _ _ | .foreign _ _ =>
    cases b <;> first | rfl | simp [Ty.code] at h
termination_by structural a

lemma Ty.allUnit_of_code (as bs : List Ty) (h : Ty.codeAll as = Ty.codeAll bs) :
    Ty.allUnit as = Ty.allUnit bs := by
  match as, bs with
  | [], [] => rfl
  | [], _ :: _ => simp [Ty.codeAll] at h
  | _ :: _, [] => simp [Ty.codeAll] at h
  | a :: as, b :: bs =>
    simp only [Ty.codeAll, List.cons.injEq, true_and, (Ty.splits_code a b).append_eq_iff] at h
    rw [Ty.allUnit, Ty.allUnit, Ty.isUnit_of_code a b h.1, Ty.allUnit_of_code as bs h.2]
termination_by structural as

lemma Ty.fieldsUnit_of_code (as bs : List (Name × Ty))
    (h : Ty.codeFields as = Ty.codeFields bs) : Ty.fieldsUnit as = Ty.fieldsUnit bs := by
  match as, bs with
  | [], [] => rfl
  | [], _ :: _ => simp [Ty.codeFields] at h
  | _ :: _, [] => simp [Ty.codeFields] at h
  | (x, a) :: as, (y, b) :: bs =>
    simp only [Ty.codeFields, List.cons.injEq, true_and, (Ty.splits_code a b).append_eq_iff] at h
    rw [Ty.fieldsUnit, Ty.fieldsUnit, Ty.isUnit_of_code a b h.2.1,
      Ty.fieldsUnit_of_code as bs h.2.2]
termination_by structural as

end

lemma Env.code_eq_iff {a b : Env} :
    a.code = b.code ↔ Fields.code a.visible = Fields.code b.visible := by
  rw [Env.code_eq_visible a, Env.code_eq_visible b]
  rfl

mutual

lemma Term.tyCode_of_code (a b : Term) (h : a.code = b.code) : a.ty.code = b.ty.code := by
  match a with
  | .type a =>
    obtain ⟨b, rfl, hty⟩ := Term.code_eq_type h
    exact hty
  | .var ⟨s, a⟩ =>
    obtain ⟨⟨t, b⟩, rfl, hvar⟩ := Term.code_eq_var h
    exact (Var.code_eq_iff.1 hvar).2
  | .tuple as =>
    obtain ⟨bs, rfl, hitems⟩ := Term.code_eq_tuple h
    rw [Term.ty, Term.ty, Ty.code, Ty.code, Term.tyCodes_of_codes as bs hitems]
  | .map e k =>
    obtain ⟨f, l, rfl, henv, hkind⟩ := Term.code_eq_map h
    rw [Term.ty, Term.ty, Ty.code, Ty.code, Env.tyCodes_of_code e f henv, hkind]
  | .box a s =>
    obtain ⟨b, t, rfl, -, hty⟩ := Term.code_eq_box h
    exact hty
  | .lit l => rw [Term.code_eq_lit h]
  | .letIn v a r s =>
    obtain ⟨w, b, q, rfl, -, -, hrest⟩ := Term.code_eq_letIn h
    exact Term.tyCode_of_code r q hrest
  | .state a r s =>
    obtain ⟨b, q, rfl, -, hrest⟩ := Term.code_eq_state h
    exact Term.tyCode_of_code r q hrest
  | .op o as s =>
    obtain ⟨bs, t, rfl, -, hty⟩ := Term.code_eq_op h
    exact hty
  | .call k j vs s =>
    obtain ⟨ws, t, rfl, -, hty⟩ := Term.code_eq_call h
    exact hty
termination_by structural a

lemma Term.tyCodes_of_codes (as bs : List Term) (h : Term.codeAll as = Term.codeAll bs) :
    Ty.codeAll (Term.tys as) = Ty.codeAll (Term.tys bs) := by
  match as, bs with
  | [], [] => rfl
  | [], _ :: _ => simp [Term.codeAll] at h
  | _ :: _, [] => simp [Term.codeAll] at h
  | a :: as, b :: bs =>
    simp only [Term.codeAll, List.cons.injEq, true_and, (Term.splits_code a b).append_eq_iff] at h
    rw [Term.tys, Term.tys, Ty.codeAll, Ty.codeAll, Term.tyCode_of_code a b h.1,
      Term.tyCodes_of_codes as bs h.2]
termination_by structural as

lemma Env.tyCodes_of_code (a b : Env) (h : a.code = b.code) :
    Ty.codeFields (Term.envTys a) = Ty.codeFields (Term.envTys b) := by
  rw [Env.code_eq_visible b] at h
  rw [Term.envTys_eq b]
  match a with
  | .plain m => exact Env.fieldTyCodes_of_codes _ m b.visible h
  | .restricted m used => exact Env.fieldTyCodes_of_codes _ m b.visible h
  | .consed _ m => exact Env.fieldTyCodes_of_codes _ m b.visible h
termination_by structural a

lemma Env.fieldTyCodes_of_codes (keep : Name → Bool) (as bs : List (Name × Term))
    (h : Env.codeFields keep as = Env.codeFields (fun _ => true) bs) :
    Ty.codeFields (Term.fieldTys keep as) =
      Ty.codeFields (bs.map fun e => (e.1, e.2.ty)) := by
  match as with
  | [] => cases bs <;> first | rfl | simp [Env.codeFields] at h
  | (x, a) :: as =>
    by_cases hx : keep x = true
    · cases bs with
      | nil => simp [Env.codeFields, hx] at h
      | cons b bs =>
        simp only [Env.codeFields, hx, if_true, List.cons.injEq, true_and,
          (Term.splits_code a b.2).append_eq_iff] at h
        rw [Term.fieldTys, if_pos hx, List.map_cons, Ty.codeFields, Ty.codeFields, h.1,
          Term.tyCode_of_code a b.2 h.2.1, Env.fieldTyCodes_of_codes keep as bs h.2.2]
    · rw [Env.codeFields, if_neg hx] at h
      rw [Term.fieldTys, if_neg hx]
      exact Env.fieldTyCodes_of_codes keep as bs h
termination_by structural as

end

lemma Env.mem_varsOfFields {m : List (Name × Term)} {e : Name × Term} {v : Var} (he : e ∈ m)
    (hv : v ∈ e.2.vars) : v ∈ Env.varsOfFields (fun _ => true) m := by
  induction m with
  | nil => cases he
  | cons d rest ih =>
    rw [Env.varsOfFields, if_pos rfl]
    rcases List.mem_cons.1 he with rfl | he
    · exact List.mem_append_left _ hv
    · exact List.mem_append_right _ (ih he)

lemma Env.varsOfFields_erase {m : Fields Term} {x : Name}
    (h : ∀ e ∈ m, e.1 = x → e.2.vars = []) :
    Env.varsOfFields (fun _ => true) (Fields.erase m x) =
      Env.varsOfFields (fun _ => true) m := by
  induction m with
  | nil => rfl
  | cons e rest ih =>
    obtain ⟨hfirst, hrest⟩ := List.forall_mem_cons.1 h
    have ih := ih hrest
    simp only [Fields.erase, ne_eq, decide_not] at ih ⊢
    by_cases he : e.1 = x <;> simp [Env.varsOfFields, he, hfirst, ih]

/-- Terms with one code have the same variables. -/
theorem Term.marks_of_code {a b : Term} (h : a.code = b.code) :
    a.vars.map (Var.mark id) = b.vars.map (Var.mark id) := by
  rw [← Term.code_retag_id a, ← Term.code_retag_id b] at h
  exact ((Term.code_retag_iff a b id id).1 h).2

lemma Fields.marks_of_code {m n : Fields Term} (h : Fields.code m = Fields.code n) :
    (Env.varsOfFields (fun _ => true) m).map (Var.mark id) =
      (Env.varsOfFields (fun _ => true) n).map (Var.mark id) := by
  have hid : ∀ l : Fields Term, Fields.code l = Fields.code (Env.retagFields id l) := fun l =>
    (Env.codeFields_retag_id _ l).symm
  rw [hid m, hid n] at h
  exact ((Env.codeFields_retag_iff _ m n id id).1 h).2

end Residual
