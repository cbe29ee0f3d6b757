import Mathlib.Data.List.Perm.Basic
import Residual.Proofs.Typed.CaptureFree
import Residual.Proofs.Typed.Places

/-!
Scoped code and what differs from it in tags only.

In scoped code the two ways to list what is bound agree, and what is free is in scope. Main
statement: if code is in single assignment, then whatever differs from it in the tags of its
variables only is scoped too, in every scope that the pairs of tags lead to.
-/

namespace Residual

/-! ### Binders and free variables of environments -/

lemma Env.binderTags_eq (env : Env) :
    env.binderTags = env.visible.flatMap fun e => e.2.binderTags := by
  have hall : ∀ m : List (Name × Term),
      binderTagsOfFields (fun _ => true) m = m.flatMap fun e => e.2.binderTags := by
    intro m
    induction m with
    | nil => rfl
    | cons e rest ih => simp [binderTagsOfFields, ih]
  rw [binderTags_visible, hall]

lemma Env.mem_free {env : Env} {v : Var} : v ∈ env.free ↔ ∃ e ∈ env.visible, v ∈ e.2.free := by
  have hall : ∀ m : List (Name × Term),
      v ∈ freeOfFields (fun _ => true) m ↔ ∃ e ∈ m, v ∈ e.2.free := by
    intro m
    induction m with
    | nil => simp [freeOfFields]
    | cons e rest ih => simp [freeOfFields, ih]
  rw [free_visible, hall]

lemma Env.Scoped.of_visible {vars : List Var} {env : Env}
    (h : ∀ e ∈ env.visible, e.2.Scoped vars) : env.Scoped vars := by
  cases env with
  | restricted m used =>
    exact fieldsScoped_iff.2 fun e he hx => h e (List.mem_filter.2 ⟨he, hx⟩)
  | plain m | consed _ m => exact fieldsScoped_iff.2 fun e he _ => h e he

namespace Term

variable {vars : List Var} {t : Term}

lemma binderTagsOfAll_eq (ts : List Term) : binderTagsOfAll ts = ts.flatMap binderTags := by
  induction ts with
  | nil => rfl
  | cons t rest ih => rw [binderTagsOfAll, ih, List.flatMap_cons]

lemma mem_freeOfAll {ts : List Term} {v : Var} : v ∈ freeOfAll ts ↔ ∃ t ∈ ts, v ∈ t.free := by
  induction ts with
  | nil => simp [freeOfAll]
  | cons t rest ih => simp [freeOfAll, ih]

lemma binderTagsOfBranches_flatMap (bs : List (Var × Term)) :
    binderTagsOfBranches (bs.flatMap fun b => [.var b.1, b.2]) =
      bs.flatMap fun b => b.1.tag :: b.2.binderTags := by
  induction bs with
  | nil => rfl
  | cons b rest ih =>
    simp [binderTagsOfBranches, binderTagsOfBodies, var?, binderTags, ih]

lemma mem_freeOfBranches_flatMap {bs : List (Var × Term)} {v : Var} :
    v ∈ freeOfBranches (bs.flatMap fun b => [.var b.1, b.2]) ↔
      ∃ b ∈ bs, v ∈ b.2.free ∧ v.tag ≠ b.1.tag := by
  induction bs with
  | nil => simp [freeOfBranches]
  | cons b rest ih => simp [freeOfBranches, freeOfBody, Var.outside, ih]

/-! ### Scoped code by its parts -/

/-- What scoped code binds is bound in its parts or for them. -/
theorem Scoped.binderTags_eq (h : t.Scoped vars) :
    t.binderTags = t.parts.flatMap fun e => e.1.map Var.tag ++ e.2.binderTags := by
  cases t with
  | type _ | var _ | lit _ | call _ _ _ _ => rfl
  | tuple items => simp [binderTags, binderTagsOfAll_eq, parts, List.flatMap_map]
  | map env kind => simp [binderTags, Env.binderTags_eq, parts, List.flatMap_map]
  | box inner ty => simp [binderTags, parts]
  | letIn bind bound rest trace => simp [binderTags, parts]
  | state stmt rest trace => simp [binderTags, parts]
  | op o args ty =>
    by_cases ho : o = .case
    · subst ho
      rcases h.case_cases with rfl | ⟨value, bs, rfl, -, -, hparts⟩
      · rfl
      · rw [hparts, binderTags, if_pos rfl, binderTagsOfCase, binderTagsOfBranches_flatMap]
        simp [List.flatMap_map]
    · simp [binderTags, ho, binderTagsOfAll_eq, parts, List.flatMap_map]

/-- What is free in scoped code is used by the node, or is free in a part and not bound for it. -/
lemma Scoped.mem_free (h : t.Scoped vars) {v : Var} (hv : v ∈ t.free) :
    v.tag ∈ t.uses ∨ ∃ e ∈ t.parts, v ∈ e.2.free ∧ v.tag ∉ e.1.map Var.tag := by
  -- A part without binders keeps its free variables free.
  have hplain : ∀ ts : List Term, (∃ u ∈ ts, v ∈ u.free) →
      ∃ e ∈ ts.map (fun u => (([] : List Var), u)), v ∈ e.2.free ∧ v.tag ∉ e.1.map Var.tag :=
    fun ts ⟨u, hu, hvu⟩ => ⟨_, List.mem_map_of_mem hu, hvu, List.not_mem_nil⟩
  cases t with
  | type _ | lit _ => exact absurd hv List.not_mem_nil
  | var u =>
    rw [free] at hv
    split at hv
    · exact absurd hv List.not_mem_nil
    · exact .inl (List.mem_map_of_mem hv)
  | call key kind args ty => exact .inl (List.mem_map_of_mem hv)
  | tuple items => exact .inr (hplain items (mem_freeOfAll.1 hv))
  | map env kind =>
    obtain ⟨e, he, hve⟩ := Env.mem_free.1 hv
    exact .inr ⟨_, List.mem_map_of_mem he, hve, List.not_mem_nil⟩
  | box inner ty => exact .inr (hplain [inner] ⟨inner, List.mem_singleton_self _, hv⟩)
  -- The two forms that bind: a binding, and a split with its branches.
  | letIn bind bound rest trace =>
    rcases List.mem_append.1 hv with hv | hv
    · exact .inr ⟨([], bound), List.mem_cons_self .., hv, List.not_mem_nil⟩
    · obtain ⟨hv, hne⟩ := List.mem_filter.1 hv
      exact .inr ⟨([bind], rest), by simp [parts], hv, by simpa using hne⟩
  | state stmt rest trace =>
    exact .inr (hplain [stmt, rest] (by simpa [free] using hv))
  | op o args ty =>
    by_cases ho : o = .case
    · subst ho
      rw [free, if_pos rfl] at hv
      rcases h.case_cases with rfl | ⟨value, bs, rfl, -, -, hparts⟩
      · exact absurd hv List.not_mem_nil
      · rw [hparts]
        rcases List.mem_append.1 hv with hv | hv
        · exact .inr ⟨([], value), List.mem_cons_self .., hv, List.not_mem_nil⟩
        · obtain ⟨b, hb, hvb, hne⟩ := mem_freeOfBranches_flatMap.1 hv
          exact .inr ⟨([b.1], b.2), List.mem_cons_of_mem _ (List.mem_map_of_mem hb), hvb,
            by simpa using hne⟩
    · rw [free, if_neg ho] at hv
      rw [parts, if_neg ho]
      exact .inr (hplain args (mem_freeOfAll.1 hv))

/-- The two lists of what scoped code binds differ in their order only. -/
theorem Scoped.binderTags_perm (t : Term) (vars : List Var) (h : t.Scoped vars) :
    t.binderTags.Perm t.bound := by
  rw [h.binderTags_eq]
  refine (List.Perm.flatMap_left _ fun e he => ?_).trans h.bound_perm.symm
  exact (Scoped.binderTags_perm e.2 (vars ++ e.1) (h.part he)).append_left _
termination_by sizeOf t
decreasing_by exact sizeOf_part he

/-- What is free in scoped code is in scope. -/
theorem Scoped.free_tag_mem (t : Term) (vars : List Var) (h : t.Scoped vars) :
    ∀ v ∈ t.free, v.tag ∈ vars.map Var.tag := by
  intro v hv
  rcases h.mem_free hv with hused | ⟨e, he, hfree, hnew⟩
  · exact h.uses _ hused
  · have hscope := Scoped.free_tag_mem e.2 (vars ++ e.1) (h.part he) v hfree
    rw [List.map_append] at hscope
    exact (List.mem_append.1 hscope).resolve_right hnew
termination_by sizeOf t
decreasing_by exact sizeOf_part he

end Term

/-! ### Values of types without run-time data -/

mutual

/-- What has the content of a value without run-time data is scoped everywhere. -/
lemma Term.scoped_of_code_ofUnit {vars : List Var} (t : Ty) {u : Term}
    (hcode : (Term.ofUnit t).code = u.code) : u.Scoped vars := by
  match t with
  | .list items =>
    obtain ⟨us, rfl, hitems⟩ := Term.code_eq_tuple hcode
    exact Term.allScoped_of_code_ofUnits items hitems
  | .map fields kind =>
    obtain ⟨env, kind', rfl, henv, -⟩ := Term.code_eq_map hcode
    have hvisible := Env.code_eq_iff.1 henv
    exact Env.Scoped.of_visible (Env.scoped_of_code_ofUnitFields fields hvisible)
  | .prim _ | .lit _ | .layout _ _ _ | .closure _ _ | .union _ | .recur _ | .array _ _
  | .foreign _ _ =>
    obtain ⟨ty, rfl, -⟩ := Term.code_eq_type hcode
    trivial
termination_by structural t

lemma Term.allScoped_of_code_ofUnits {vars : List Var} (ts : List Ty) {us : List Term}
    (hcode : Term.codeAll (Term.ofUnits ts) = Term.codeAll us) : Term.AllScoped vars us := by
  match ts with
  | [] =>
    rw [Term.codeAll_eq_nil hcode]
    trivial
  | t :: rest =>
    obtain ⟨u, us, rfl, hu, hus⟩ := Term.codeAll_eq_cons hcode
    exact ⟨Term.scoped_of_code_ofUnit t hu, Term.allScoped_of_code_ofUnits rest hus⟩
termination_by structural ts

lemma Env.scoped_of_code_ofUnitFields {vars : List Var} (m : List (Name × Ty))
    {n : List (Name × Term)} (hcode : Fields.code (Term.ofUnitFields m) = Fields.code n) :
    ∀ e ∈ n, e.2.Scoped vars := by
  match m with
  | [] =>
    rw [Fields.code_eq_nil hcode]
    exact fun e he => absurd he List.not_mem_nil
  | (x, t) :: rest =>
    obtain ⟨u, n, rfl, hu, hn⟩ := Env.codeFields_eq_cons rfl hcode
    exact List.forall_mem_cons.2
      ⟨Term.scoped_of_code_ofUnit t hu, Env.scoped_of_code_ofUnitFields rest hn⟩
termination_by structural m

end

/-! ### Scopes that pairs of tags lead to -/

/-- What goes in pairs with variables of the one scope is in the other. -/
def Var.Leads (ρ : List (Tag × Tag)) (vars vars' : List Var) : Prop :=
  ∀ v w : Var, v.InScope vars → v.Paired ρ w → w.InScope vars'

/-- A binder that is new to the first scope. -/
theorem Var.Leads.bind {ρ : List (Tag × Tag)} {vars vars' : List Var} {b b' : Var}
    (h : Var.Leads ρ vars vars') (hnew : b.tag ∉ vars.map Var.tag) (hty : b.ty.code = b'.ty.code) :
    Var.Leads ((b.tag, b'.tag) :: ρ) (vars ++ [b]) (vars' ++ [b']) := by
  intro v w hv hvw
  obtain ⟨u, hu, htag, huty⟩ := Var.inScope_iff.1 hv
  have hthere := hvw.there
  have hback := hvw.back
  rw [List.lookup_cons] at hthere
  rw [List.map_cons, Prod.swap_prod_mk, List.lookup_cons] at hback
  rcases List.mem_append.1 hu with hu | hu
  · -- A variable of the outer scope has another tag, and so has its partner.
    have hvar : v.tag ∈ vars.map Var.tag := htag ▸ List.mem_map_of_mem hu
    have hne : (v.tag == b.tag) = false := by
      rw [beq_eq_false_iff_ne]
      rintro heq
      exact hnew (heq ▸ hvar)
    have hne' : (w.tag == b'.tag) = false := by
      rw [beq_eq_false_iff_ne]
      rintro heq
      rw [heq, beq_self_eq_true] at hback
      have htag : b.tag = v.tag := Option.some.inj hback
      exact hnew (htag ▸ hvar)
    rw [hne] at hthere
    rw [hne'] at hback
    exact (h v w (Var.inScope_iff.2 ⟨u, hu, htag, huty⟩) ⟨hthere, hback, hvw.ty⟩).subset
      (List.subset_append_left ..)
  · obtain rfl := List.mem_singleton.1 hu
    rw [htag, beq_self_eq_true] at hthere
    refine Var.inScope_iff.2 ⟨b', List.mem_append_right _ (List.mem_singleton_self _), ?_, ?_⟩
    · exact Option.some.inj hthere
    · exact hty.symm.trans (huty.trans hvw.ty)

lemma Var.Leads.forall₂ {ρ : List (Tag × Tag)} {vars vars' vs ws : List Var}
    (h : Var.Leads ρ vars vars') (hvs : ∀ v ∈ vs, v.InScope vars)
    (hvws : List.Forall₂ (Var.Paired ρ) vs ws) : ∀ w ∈ ws, w.InScope vars' := by
  induction hvws with
  | nil => exact fun w hw => absurd hw List.not_mem_nil
  | cons hvw _ ih =>
    obtain ⟨hv, hvs⟩ := List.forall_mem_cons.1 hvs
    exact List.forall_mem_cons.2 ⟨h _ _ hv hvw, ih hvs⟩

namespace Term

section Copied

variable {vars : List Var} {t u : Term}

/-- A part for which nothing is bound. -/
theorem SingleAssignment.plain (h : t.SingleAssignment vars) (hu : ([], u) ∈ t.parts) :
    u.SingleAssignment vars := by
  have hpart := h.part hu
  rwa [List.append_nil] at hpart

lemma SingleAssignment.bound_for (h : t.SingleAssignment vars) {b : Var}
    (hu : ([b], u) ∈ t.parts) : b.tag ∉ vars.map Var.tag ∧ u.SingleAssignment (vars ++ [b]) := by
  refine ⟨fun hmem => ?_, h.part hu⟩
  obtain ⟨v, hv, heq⟩ := List.mem_map.1 hmem
  refine h.new v hv (h.mem_bound hu ?_)
  rw [heq]
  exact List.mem_cons_self ..

end Copied

end Term

mutual

/-- What differs from code in single assignment in its tags only is scoped in every scope that
the pairs lead to. -/
theorem Term.Alpha.scoped {ρ : List (Tag × Tag)} {vars vars' : List Var} (t : Term) {u : Term}
    (h : t.SingleAssignment vars) (hρ : Var.Leads ρ vars vars') (ha : t.Alpha ρ u) :
    u.Scoped vars' := by
  -- Under a binder both scopes grow by it, and the pairs with them.
  match t with
  | .type _ =>
    obtain ⟨_, rfl, -⟩ := Term.code_eq_type ha
    trivial
  | .lit _ =>
    rw [Term.code_eq_lit ha]
    trivial
  | .var v =>
    rw [Term.Alpha] at ha
    split at ha
    · exact Term.scoped_of_code_ofUnit v.ty ha
    · obtain ⟨w, rfl, hvw⟩ := ha
      exact hρ v w h.inScope hvw
  | .tuple items =>
    obtain ⟨us, rfl, ha⟩ := ha
    exact Term.AllAlpha.scoped items (fun t ht => h.plain (List.mem_map_of_mem ht)) hρ ha
  | .map env kind =>
    obtain ⟨f, kind', rfl, ha, -⟩ := ha
    exact Env.Scoped.of_visible
      (Env.Alpha.scoped env (fun e he => h.plain (List.mem_map_of_mem he)) hρ ha)
  | .box inner ty =>
    obtain ⟨inner', ty', rfl, ha, -⟩ := ha
    have hinner : inner'.Scoped vars' :=
      Term.Alpha.scoped inner (h.plain (List.mem_singleton_self _)) hρ ha
    exact hinner
  -- A new binder shadows nothing, so it may join the pairs.
  | .letIn bind bound rest trace =>
    obtain ⟨bind', bound', rest', rfl, hbound, hty, hrest⟩ := ha
    obtain ⟨hnew, hsingle⟩ := h.bound_for (b := bind) (u := rest) (by simp [Term.parts])
    exact ⟨Term.Alpha.scoped bound (h.plain (List.mem_cons_self ..)) hρ hbound,
      Term.Alpha.scoped rest hsingle (hρ.bind hnew hty) hrest⟩
  | .state stmt rest trace =>
    obtain ⟨stmt', rest', rfl, hstmt, hrest⟩ := ha
    exact ⟨Term.Alpha.scoped stmt (h.plain (by simp [Term.parts])) hρ hstmt,
      Term.Alpha.scoped rest (h.plain (by simp [Term.parts])) hρ hrest⟩
  -- A split takes its branches one by one, each under its binder.
  | .op o args ty =>
    obtain ⟨us, ty', rfl, -, ha⟩ := ha
    rw [Term.Scoped]
    split
    · rename_i ho
      subst ho
      rw [if_pos rfl] at ha
      rcases h.inScope.case_cases with rfl | ⟨value, bs, hargs, -, -, hparts⟩
      · cases ha
        trivial
      · refine Term.CaseAlpha.scoped args hargs (h.plain ?_) (fun b hb => h.bound_for ?_) hρ ha
        · rw [hparts]
          exact List.mem_cons_self ..
        · rw [hparts]
          exact List.mem_cons_of_mem _ (List.mem_map_of_mem hb)
    · rename_i ho
      rw [if_neg ho] at ha
      refine Term.AllAlpha.scoped args (fun t ht => h.plain ?_) hρ ha
      rw [Term.parts, if_neg ho]
      exact List.mem_map_of_mem ht
  | .call key kind args ty =>
    obtain ⟨args', ty', rfl, -, hargs⟩ := ha
    exact hρ.forall₂ h.inScope hargs
termination_by structural t

lemma Term.AllAlpha.scoped {ρ : List (Tag × Tag)} {vars vars' : List Var} (ts : List Term)
    {us : List Term} (h : ∀ t ∈ ts, t.SingleAssignment vars) (hρ : Var.Leads ρ vars vars')
    (ha : Term.AllAlpha ρ ts us) : Term.AllScoped vars' us := by
  match ts with
  | [] =>
    cases ha
    trivial
  | t :: rest =>
    obtain ⟨u, us, rfl, ht, hrest⟩ := ha
    obtain ⟨hfirst, h⟩ := List.forall_mem_cons.1 h
    exact ⟨Term.Alpha.scoped t hfirst hρ ht, Term.AllAlpha.scoped rest h hρ hrest⟩
termination_by structural ts

lemma Term.CaseAlpha.scoped {ρ : List (Tag × Tag)} {vars vars' : List Var} (ts : List Term)
    {us : List Term} {value : Term} {bs : List (Var × Term)}
    (hts : ts = value :: bs.flatMap fun b => [.var b.1, b.2]) (hvalue : value.SingleAssignment vars)
    (h : ∀ b ∈ bs, b.1.tag ∉ vars.map Var.tag ∧ b.2.SingleAssignment (vars ++ [b.1]))
    (hρ : Var.Leads ρ vars vars') (ha : Term.CaseAlpha ρ ts us) : Term.CaseScoped vars' us := by
  match ts with
  | [] => cases hts
  | t :: rest =>
    obtain ⟨rfl, hrest⟩ := List.cons.inj hts
    obtain ⟨u, us, rfl, ht, ha⟩ := ha
    exact ⟨Term.Alpha.scoped t hvalue hρ ht, Term.BranchesAlpha.scoped rest hrest h hρ ha⟩
termination_by structural ts

lemma Term.BranchesAlpha.scoped {ρ : List (Tag × Tag)} {vars vars' : List Var} (ts : List Term)
    {us : List Term} {bs : List (Var × Term)}
    (hts : ts = bs.flatMap fun b => [.var b.1, b.2])
    (h : ∀ b ∈ bs, b.1.tag ∉ vars.map Var.tag ∧ b.2.SingleAssignment (vars ++ [b.1]))
    (hρ : Var.Leads ρ vars vars') (ha : Term.BranchesAlpha ρ ts us) :
    Term.BranchesScoped vars' us := by
  match ts with
  | [] =>
    cases ha
    trivial
  | t :: rest =>
    match bs with
    | [] => cases hts
    | b :: bs =>
      obtain ⟨rfl, hrest⟩ := List.cons.inj hts
      obtain ⟨b', us, rfl, hty, ha⟩ := ha
      obtain ⟨hb, h⟩ := List.forall_mem_cons.1 h
      exact Term.BodyAlpha.scoped rest hrest hb hty h hρ ha
termination_by structural ts

/-- The body of a branch with the later branches. -/
theorem Term.BodyAlpha.scoped {ρ : List (Tag × Tag)} {vars vars' : List Var} (ts : List Term)
    {us : List Term} {b : Var × Term} {b' : Var} {bs : List (Var × Term)}
    (hts : ts = b.2 :: bs.flatMap fun b => [.var b.1, b.2])
    (hb : b.1.tag ∉ vars.map Var.tag ∧ b.2.SingleAssignment (vars ++ [b.1]))
    (hty : b.1.ty.code = b'.ty.code)
    (h : ∀ b ∈ bs, b.1.tag ∉ vars.map Var.tag ∧ b.2.SingleAssignment (vars ++ [b.1]))
    (hρ : Var.Leads ρ vars vars') (ha : Term.BodyAlpha ρ (b.1.tag, b'.tag) ts us) :
    Term.BodyScoped vars' b' us := by
  match ts with
  | [] => cases hts
  | t :: rest =>
    obtain ⟨hbody, hrest⟩ := List.cons.inj hts
    obtain ⟨u, us, rfl, ht, ha⟩ := ha
    exact ⟨Term.Alpha.scoped t (hbody ▸ hb.2) (hρ.bind hb.1 hty) ht,
      Term.BranchesAlpha.scoped rest hrest h hρ ha⟩
termination_by structural ts

lemma Env.Alpha.scoped {ρ : List (Tag × Tag)} {vars vars' : List Var} (e : Env)
    {f : Env} (h : ∀ d ∈ e.visible, d.2.SingleAssignment vars) (hρ : Var.Leads ρ vars vars')
    (ha : e.Alpha ρ f) : ∀ d ∈ f.visible, d.2.Scoped vars' := by
  match e with
  | .plain m => exact Env.FieldsAlpha.scoped _ m (fun d hd _ => h d hd) hρ ha
  | .restricted m used =>
    exact Env.FieldsAlpha.scoped _ m (fun d hd hx => h d (List.mem_filter.2 ⟨hd, hx⟩)) hρ ha
  | .consed _ m => exact Env.FieldsAlpha.scoped _ m (fun d hd _ => h d hd) hρ ha
termination_by structural e

lemma Env.FieldsAlpha.scoped {ρ : List (Tag × Tag)} {vars vars' : List Var}
    (keep : Name → Bool) (m : List (Name × Term)) {n : List (Name × Term)}
    (h : ∀ d ∈ m, keep d.1 = true → d.2.SingleAssignment vars) (hρ : Var.Leads ρ vars vars')
    (ha : Env.FieldsAlpha ρ keep m n) : ∀ d ∈ n, d.2.Scoped vars' := by
  match m with
  | [] =>
    cases ha
    exact fun d hd => absurd hd List.not_mem_nil
  | (x, t) :: rest =>
    obtain ⟨ht, h⟩ := List.forall_mem_cons.1 h
    rw [Env.FieldsAlpha] at ha
    split at ha
    · rename_i hx
      obtain ⟨u, n, rfl, hu, ha⟩ := ha
      exact List.forall_mem_cons.2
        ⟨Term.Alpha.scoped t (ht hx) hρ hu, Env.FieldsAlpha.scoped keep rest h hρ ha⟩
    · exact Env.FieldsAlpha.scoped keep rest h hρ ha
termination_by structural m

end

end Residual
