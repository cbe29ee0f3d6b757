import Mathlib.Data.List.Forall2
import Residual.Proofs.Typed.TypeCodes

/-!
Terms that differ in the tags of their variables only.

Two terms are related by a list of pairs of tags, the innermost binders first. A variable goes with
one of the other term if their tags are the latest partners of each other, so a variable of an
outer binder is never taken for one of an inner binder. A variable of a type without run-time data
goes with the value of that type. Types and environments are compared by content. Main statements:
the relation and the tags that a term binds do not depend on more than the content.
-/

namespace Residual

/-- The tags of the variables are the latest partners of each other. -/
structure Var.Paired (ρ : List (Tag × Tag)) (v w : Var) : Prop where
  there : ρ.lookup v.tag = some w.tag
  back : (ρ.map Prod.swap).lookup w.tag = some v.tag
  ty : v.ty.code = w.ty.code

mutual

/-- The terms are equal but for the tags of variables, which go in pairs. -/
def Term.Alpha (ρ : List (Tag × Tag)) (t u : Term) : Prop :=
  match t with
  | .type _ | .lit _ => t.code = u.code
  | .var v =>
    if v.ty.isUnit then (Term.ofUnit v.ty).code = u.code else ∃ w, u = .var w ∧ v.Paired ρ w
  | .tuple items => ∃ items', u = .tuple items' ∧ Term.AllAlpha ρ items items'
  | .map env kind =>
    ∃ env' kind', u = .map env' kind' ∧ env.Alpha ρ env' ∧ kind.code = kind'.code
  | .box inner ty =>
    ∃ inner' ty', u = .box inner' ty' ∧ inner.Alpha ρ inner' ∧ ty.code = ty'.code
  | .letIn bind bound rest trace =>
    ∃ bind' bound' rest', u = .letIn bind' bound' rest' trace ∧ bound.Alpha ρ bound' ∧
      bind.ty.code = bind'.ty.code ∧ rest.Alpha ((bind.tag, bind'.tag) :: ρ) rest'
  | .state stmt rest trace =>
    ∃ stmt' rest', u = .state stmt' rest' trace ∧ stmt.Alpha ρ stmt' ∧ rest.Alpha ρ rest'
  | .op o args ty =>
    ∃ args' ty', u = .op o args' ty' ∧ ty.code = ty'.code ∧
      if o = .case then Term.CaseAlpha ρ args args' else Term.AllAlpha ρ args args'
  | .call key kind args ty =>
    ∃ args' ty', u = .call key kind args' ty' ∧ ty.code = ty'.code ∧
      List.Forall₂ (Var.Paired ρ) args args'
termination_by structural t

def Term.AllAlpha (ρ : List (Tag × Tag)) (ts us : List Term) : Prop :=
  match ts with
  | [] => us = []
  | t :: rest => ∃ u rest', us = u :: rest' ∧ t.Alpha ρ u ∧ Term.AllAlpha ρ rest rest'
termination_by structural ts

/-- The parts of a split: the value, then for each branch its variable and its body. -/
def Term.CaseAlpha (ρ : List (Tag × Tag)) (ts us : List Term) : Prop :=
  match ts with
  | [] => us = []
  | t :: rest => ∃ u rest', us = u :: rest' ∧ t.Alpha ρ u ∧ Term.BranchesAlpha ρ rest rest'
termination_by structural ts

def Term.BranchesAlpha (ρ : List (Tag × Tag)) (ts us : List Term) : Prop :=
  match ts with
  | [] => us = []
  | t :: rest =>
    match t with
    | .var b => ∃ b' rest', us = .var b' :: rest' ∧ b.ty.code = b'.ty.code ∧
        Term.BodyAlpha ρ (b.tag, b'.tag) rest rest'
    | _ => False
termination_by structural ts

def Term.BodyAlpha (ρ : List (Tag × Tag)) (b : Tag × Tag) (ts us : List Term) : Prop :=
  match ts with
  | [] => us = []
  | t :: rest => ∃ u rest', us = u :: rest' ∧ t.Alpha (b :: ρ) u ∧ Term.BranchesAlpha ρ rest rest'
termination_by structural ts

/-- The environments show the same names, bound to related values. -/
def Env.Alpha (ρ : List (Tag × Tag)) (e f : Env) : Prop :=
  match e with
  | .plain m => Env.FieldsAlpha ρ (fun _ => true) m f.visible
  | .restricted m used => Env.FieldsAlpha ρ used.contains m f.visible
  | .consed _ m => Env.FieldsAlpha ρ (fun _ => true) m f.visible
termination_by structural e

def Env.FieldsAlpha (ρ : List (Tag × Tag)) (keep : Name → Bool) (m n : List (Name × Term)) :
    Prop :=
  match m with
  | [] => n = []
  | (x, t) :: rest =>
    if keep x then ∃ u rest', n = (x, u) :: rest' ∧ t.Alpha ρ u ∧ Env.FieldsAlpha ρ keep rest rest'
    else Env.FieldsAlpha ρ keep rest n
termination_by structural m

end

/-- Variables outside the scope of a binder, if there is one. -/
def Var.outside : Option Tag → List Var → List Var
  | none, vs => vs
  | some b, vs => vs.filter fun v => v.tag ≠ b

mutual

/-- The free variables with run-time data, one for each occurrence, in the order in which the term
is gone through. -/
def Term.free (t : Term) : List Var :=
  match t with
  | .type _ | .lit _ => []
  | .var v => if v.ty.isUnit then [] else [v]
  | .tuple items => Term.freeOfAll items
  | .map env _ => env.free
  | .box inner _ => inner.free
  | .letIn bind bound rest _ => bound.free ++ rest.free.filter fun v => v.tag ≠ bind.tag
  | .state stmt rest _ => stmt.free ++ rest.free
  | .op o args _ => if o = .case then Term.freeOfCase args else Term.freeOfAll args
  | .call _ _ args _ => args
termination_by structural t

def Term.freeOfAll (ts : List Term) : List Var :=
  match ts with
  | [] => []
  | t :: rest => t.free ++ Term.freeOfAll rest
termination_by structural ts

def Term.freeOfCase (ts : List Term) : List Var :=
  match ts with
  | [] => []
  | t :: rest => t.free ++ Term.freeOfBranches rest
termination_by structural ts

def Term.freeOfBranches (ts : List Term) : List Var :=
  match ts with
  | [] => []
  | t :: rest =>
    match t with
    | .var b => Term.freeOfBody (some b.tag) rest
    | _ => t.free ++ Term.freeOfBody none rest
termination_by structural ts

def Term.freeOfBody (b : Option Tag) (ts : List Term) : List Var :=
  match ts with
  | [] => []
  | t :: rest => Var.outside b t.free ++ Term.freeOfBranches rest
termination_by structural ts

def Env.free (e : Env) : List Var :=
  match e with
  | .plain m => Env.freeOfFields (fun _ => true) m
  | .restricted m used => Env.freeOfFields used.contains m
  | .consed _ m => Env.freeOfFields (fun _ => true) m
termination_by structural e

def Env.freeOfFields (keep : Name → Bool) (m : List (Name × Term)) : List Var :=
  match m with
  | [] => []
  | (x, t) :: rest =>
    if keep x then t.free ++ Env.freeOfFields keep rest else Env.freeOfFields keep rest
termination_by structural m

end

mutual

/-- The tags of the variables that the term binds, in the order in which it is gone through. -/
def Term.binderTags (t : Term) : List Tag :=
  match t with
  | .type _ | .lit _ | .var _ | .call _ _ _ _ => []
  | .tuple items => Term.binderTagsOfAll items
  | .map env _ => env.binderTags
  | .box inner _ => inner.binderTags
  | .letIn bind bound rest _ => bound.binderTags ++ bind.tag :: rest.binderTags
  | .state stmt rest _ => stmt.binderTags ++ rest.binderTags
  | .op o args _ => if o = .case then Term.binderTagsOfCase args else Term.binderTagsOfAll args
termination_by structural t

def Term.binderTagsOfAll (ts : List Term) : List Tag :=
  match ts with
  | [] => []
  | t :: rest => t.binderTags ++ Term.binderTagsOfAll rest
termination_by structural ts

def Term.binderTagsOfCase (ts : List Term) : List Tag :=
  match ts with
  | [] => []
  | t :: rest => t.binderTags ++ Term.binderTagsOfBranches rest
termination_by structural ts

def Term.binderTagsOfBranches (ts : List Term) : List Tag :=
  match ts with
  | [] => []
  | t :: rest =>
    t.var?.toList.map Var.tag ++ (t.binderTags ++ Term.binderTagsOfBodies rest)
termination_by structural ts

def Term.binderTagsOfBodies (ts : List Term) : List Tag :=
  match ts with
  | [] => []
  | t :: rest => t.binderTags ++ Term.binderTagsOfBranches rest
termination_by structural ts

def Env.binderTags (e : Env) : List Tag :=
  match e with
  | .plain m => Env.binderTagsOfFields (fun _ => true) m
  | .restricted m used => Env.binderTagsOfFields used.contains m
  | .consed _ m => Env.binderTagsOfFields (fun _ => true) m
termination_by structural e

def Env.binderTagsOfFields (keep : Name → Bool) (m : List (Name × Term)) : List Tag :=
  match m with
  | [] => []
  | (x, t) :: rest =>
    if keep x then t.binderTags ++ Env.binderTagsOfFields keep rest
    else Env.binderTagsOfFields keep rest
termination_by structural m

end

mutual

/-- Names ascend in the environments of the term, a variable stands wherever a split binds one, and
calls pass run-time data only. -/
def Term.Renamable (t : Term) : Prop :=
  match t with
  | .type _ | .lit _ | .var _ => True
  | .tuple items => Term.AllRenamable items
  | .map env _ => env.Renamable
  | .box inner _ => inner.Renamable
  | .letIn _ bound rest _ => bound.Renamable ∧ rest.Renamable
  | .state stmt rest _ => stmt.Renamable ∧ rest.Renamable
  | .op o args _ => if o = .case then Term.CaseRenamable args else Term.AllRenamable args
  | .call _ _ args _ => ∀ v ∈ args, v.ty.isUnit = false
termination_by structural t

def Term.AllRenamable (ts : List Term) : Prop :=
  match ts with
  | [] => True
  | t :: rest => t.Renamable ∧ Term.AllRenamable rest
termination_by structural ts

def Term.CaseRenamable (ts : List Term) : Prop :=
  match ts with
  | [] => True
  | t :: rest => t.Renamable ∧ Term.BranchesRenamable rest
termination_by structural ts

def Term.BranchesRenamable (ts : List Term) : Prop :=
  match ts with
  | [] => True
  | t :: rest =>
    match t with
    | .var _ => Term.BodiesRenamable rest
    | _ => False
termination_by structural ts

def Term.BodiesRenamable (ts : List Term) : Prop :=
  match ts with
  | [] => True
  | t :: rest => t.Renamable ∧ Term.BranchesRenamable rest
termination_by structural ts

def Env.Renamable (e : Env) : Prop :=
  match e with
  | .plain m => Fields.Ascending m ∧ Env.FieldsRenamable (fun _ => true) m
  | .restricted m used =>
    (Fields.Ascending m ∧ used.Ascending) ∧ Env.FieldsRenamable used.contains m
  | .consed _ m => Fields.Ascending m ∧ Env.FieldsRenamable (fun _ => true) m
termination_by structural e

def Env.FieldsRenamable (keep : Name → Bool) (m : List (Name × Term)) : Prop :=
  match m with
  | [] => True
  | (x, t) :: rest => (keep x = true → t.Renamable) ∧ Env.FieldsRenamable keep rest
termination_by structural m

end

/-! ### Scopes -/

/-- A binder that no free variable stands for hides what is free in its body only. -/
theorem Term.freeOfBody_some {b : Tag} {ts : List Term}
    (h : b ∉ (Term.freeOfBody (some b) ts).map Var.tag) :
    Term.freeOfBody (some b) ts = (Term.freeOfBody none ts).filter fun v => v.tag ≠ b := by
  match ts with
  | [] => rfl
  | t :: rest =>
    have hrest : (Term.freeOfBranches rest).filter (fun v => v.tag ≠ b) =
        Term.freeOfBranches rest := by
      refine List.filter_eq_self.2 fun v hv => decide_eq_true fun heq => h ?_
      rw [Term.freeOfBody, List.map_append]
      exact List.mem_append_right _ (heq ▸ List.mem_map_of_mem hv)
    rw [Term.freeOfBody, Term.freeOfBody, Var.outside, Var.outside, List.filter_append, hrest]

lemma Var.mem_outside {b : Option Tag} {vs : List Var} {v : Var} (h : v ∈ outside b vs) :
    v ∈ vs := by
  cases b with
  | none => exact h
  | some b => exact (List.mem_filter.1 h).1

mutual

/-- What is free in a term that can be renamed has run-time data. -/
theorem Term.Renamable.isUnit_free (t : Term) (h : t.Renamable) :
    ∀ v ∈ t.free, v.ty.isUnit = false := by
  match t with
  | .type _ | .lit _ => exact fun v hv => absurd hv List.not_mem_nil
  | .var w =>
    intro v hv
    rw [Term.free] at hv
    split at hv
    · cases hv
    · rename_i hdata
      rw [List.mem_singleton.1 hv]
      exact Bool.eq_false_iff.2 hdata
  | .tuple items => exact Term.AllRenamable.isUnit_free items h
  | .map env kind => exact Env.Renamable.isUnit_free env h
  | .box inner ty => exact Term.Renamable.isUnit_free inner h
  | .letIn bind bound rest trace =>
    exact List.forall_mem_append.2 ⟨Term.Renamable.isUnit_free bound h.1,
      fun v hv => Term.Renamable.isUnit_free rest h.2 v (List.mem_filter.1 hv).1⟩
  | .state stmt rest trace =>
    exact List.forall_mem_append.2
      ⟨Term.Renamable.isUnit_free stmt h.1, Term.Renamable.isUnit_free rest h.2⟩
  | .op o args ty =>
    rw [Term.Renamable] at h
    rw [Term.free]
    split
    · rename_i ho
      rw [if_pos ho] at h
      exact Term.CaseRenamable.isUnit_free args h
    · rename_i ho
      rw [if_neg ho] at h
      exact Term.AllRenamable.isUnit_free args h
  | .call key kind args ty => exact h
termination_by structural t

lemma Term.AllRenamable.isUnit_free (ts : List Term) (h : Term.AllRenamable ts) :
    ∀ v ∈ Term.freeOfAll ts, v.ty.isUnit = false := by
  match ts with
  | [] => exact fun v hv => absurd hv List.not_mem_nil
  | t :: rest =>
    exact List.forall_mem_append.2
      ⟨Term.Renamable.isUnit_free t h.1, Term.AllRenamable.isUnit_free rest h.2⟩
termination_by structural ts

lemma Term.CaseRenamable.isUnit_free (ts : List Term) (h : Term.CaseRenamable ts) :
    ∀ v ∈ Term.freeOfCase ts, v.ty.isUnit = false := by
  match ts with
  | [] => exact fun v hv => absurd hv List.not_mem_nil
  | t :: rest =>
    exact List.forall_mem_append.2
      ⟨Term.Renamable.isUnit_free t h.1, Term.BranchesRenamable.isUnit_free rest h.2⟩
termination_by structural ts

lemma Term.BranchesRenamable.isUnit_free (ts : List Term) (h : Term.BranchesRenamable ts) :
    ∀ v ∈ Term.freeOfBranches ts, v.ty.isUnit = false := by
  match ts with
  | [] => exact fun v hv => absurd hv List.not_mem_nil
  | .var b :: rest => exact Term.BodiesRenamable.isUnit_free rest h
  | .type _ :: _ | .lit _ :: _ | .tuple _ :: _ | .map _ _ :: _ | .box _ _ :: _
  | .letIn _ _ _ _ :: _ | .state _ _ _ :: _ | .op _ _ _ :: _ | .call _ _ _ _ :: _ => exact h.elim
termination_by structural ts

lemma Term.BodiesRenamable.isUnit_free {b : Option Tag} (ts : List Term)
    (h : Term.BodiesRenamable ts) : ∀ v ∈ Term.freeOfBody b ts, v.ty.isUnit = false := by
  match ts with
  | [] => exact fun v hv => absurd hv List.not_mem_nil
  | t :: rest =>
    exact List.forall_mem_append.2
      ⟨fun v hv => Term.Renamable.isUnit_free t h.1 v (Var.mem_outside hv),
        Term.BranchesRenamable.isUnit_free rest h.2⟩
termination_by structural ts

lemma Env.Renamable.isUnit_free (e : Env) (h : e.Renamable) :
    ∀ v ∈ e.free, v.ty.isUnit = false := by
  match e with
  | .plain m => exact Env.FieldsRenamable.isUnit_free m h.2
  | .restricted m used => exact Env.FieldsRenamable.isUnit_free m h.2
  | .consed _ m => exact Env.FieldsRenamable.isUnit_free m h.2
termination_by structural e

lemma Env.FieldsRenamable.isUnit_free {keep : Name → Bool} (m : List (Name × Term))
    (h : Env.FieldsRenamable keep m) :
    ∀ v ∈ Env.freeOfFields keep m, v.ty.isUnit = false := by
  match m with
  | [] => exact fun v hv => absurd hv List.not_mem_nil
  | (x, t) :: rest =>
    rw [Env.freeOfFields]
    have hrest := Env.FieldsRenamable.isUnit_free rest h.2
    split
    · rename_i hx
      exact List.forall_mem_append.2 ⟨Term.Renamable.isUnit_free t (h.1 hx), hrest⟩
    · exact hrest
termination_by structural m

end

/-! ### Environments by what they show -/

namespace Env

lemma fieldsAlpha_filter {ρ : List (Tag × Tag)} (keep : Name → Bool) {m n : List (Name × Term)} :
    FieldsAlpha ρ keep m n ↔ FieldsAlpha ρ (fun _ => true) (m.filter fun e => keep e.1) n := by
  induction m generalizing n with
  | nil => rfl
  | cons e rest ih => by_cases h : keep e.1 = true <;> simp [FieldsAlpha, h, ih]

lemma freeOfFields_filter (keep : Name → Bool) (m : List (Name × Term)) :
    freeOfFields keep m = freeOfFields (fun _ => true) (m.filter fun e => keep e.1) := by
  induction m with
  | nil => rfl
  | cons e rest ih => by_cases h : keep e.1 = true <;> simp [freeOfFields, h, ih]

lemma binderTagsOfFields_filter (keep : Name → Bool) (m : List (Name × Term)) :
    binderTagsOfFields keep m =
      binderTagsOfFields (fun _ => true) (m.filter fun e => keep e.1) := by
  induction m with
  | nil => rfl
  | cons e rest ih => by_cases h : keep e.1 = true <;> simp [binderTagsOfFields, h, ih]

lemma alpha_visible {ρ : List (Tag × Tag)} {e f : Env} :
    e.Alpha ρ f ↔ FieldsAlpha ρ (fun _ => true) e.visible f.visible := by
  cases e with
  | plain m | consed s m => rfl
  | restricted m used => exact fieldsAlpha_filter used.contains

lemma free_visible (e : Env) : e.free = freeOfFields (fun _ => true) e.visible := by
  cases e with
  | plain m | consed s m => rfl
  | restricted m used => exact freeOfFields_filter used.contains m

lemma binderTags_visible (e : Env) :
    e.binderTags = binderTagsOfFields (fun _ => true) e.visible := by
  cases e with
  | plain m | consed s m => rfl
  | restricted m used => exact binderTagsOfFields_filter used.contains m

end Env

/-! ### Content -/

lemma Var.Paired.of_code {ρ : List (Tag × Tag)} {v w w' : Var} (h : v.Paired ρ w)
    (hcode : w.code = w'.code) : v.Paired ρ w' := by
  obtain ⟨htag, hty⟩ := Var.code_eq_iff.1 hcode
  exact ⟨htag ▸ h.there, htag ▸ h.back, h.ty.trans hty⟩

lemma Var.forall₂_paired_of_code {ρ : List (Tag × Tag)} {vs ws ws' : List Var}
    (h : List.Forall₂ (Var.Paired ρ) vs ws) (hcode : Var.codeAll ws = Var.codeAll ws') :
    List.Forall₂ (Var.Paired ρ) vs ws' := by
  rw [Var.codeAll_eq_iff] at hcode
  induction h generalizing ws' with
  | nil =>
    rw [List.map_eq_nil_iff.1 hcode.symm]
    exact .nil
  | cons hv _ ih =>
    obtain ⟨w', rest, rfl, hw, hrest⟩ := List.map_eq_cons_iff.1 hcode.symm
    exact .cons (hv.of_code hw.symm) (ih hrest.symm)

mutual

/-- A term is related to all terms of one content or to none. -/
theorem Term.Alpha.of_code {ρ : List (Tag × Tag)} (t : Term) {u u' : Term} (h : t.Alpha ρ u)
    (hcode : u.code = u'.code) : t.Alpha ρ u' := by
  -- Terms with one content have one constructor, and each part has one content.
  match t with
  | .type _ | .lit _ => exact h.trans hcode
  | .var v =>
    rw [Term.Alpha] at h ⊢
    split
    · rename_i hunit
      rw [if_pos hunit] at h
      exact h.trans hcode
    · rename_i hdata
      rw [if_neg hdata] at h
      obtain ⟨w, rfl, hw⟩ := h
      obtain ⟨w', rfl, hvar⟩ := Term.code_eq_var hcode
      exact ⟨w', rfl, hw.of_code hvar⟩
  | .tuple items =>
    obtain ⟨us, rfl, h⟩ := h
    obtain ⟨us', rfl, hitems⟩ := Term.code_eq_tuple hcode
    exact ⟨us', rfl, Term.AllAlpha.of_code items h hitems⟩
  | .map env kind =>
    obtain ⟨f, k, rfl, h, hk⟩ := h
    obtain ⟨f', k', rfl, henv, hkind⟩ := Term.code_eq_map hcode
    exact ⟨f', k', rfl, Env.Alpha.of_code env h henv, hk.trans hkind⟩
  | .box inner ty =>
    obtain ⟨u, s, rfl, h, hs⟩ := h
    obtain ⟨u', s', rfl, hinner, hty⟩ := Term.code_eq_box hcode
    exact ⟨u', s', rfl, Term.Alpha.of_code inner h hinner, hs.trans hty⟩
  -- The binder keeps its tag, so the rest is read under the same pairs.
  | .letIn bind bound rest trace =>
    obtain ⟨w, u, q, rfl, h₁, hty, h₂⟩ := h
    obtain ⟨w', u', q', rfl, hw, hu, hq⟩ := Term.code_eq_letIn hcode
    obtain ⟨htag, hty'⟩ := Var.code_eq_iff.1 hw
    refine ⟨w', u', q', rfl, Term.Alpha.of_code bound h₁ hu, hty.trans hty', ?_⟩
    rw [← htag]
    exact Term.Alpha.of_code rest h₂ hq
  | .state stmt rest trace =>
    obtain ⟨u, q, rfl, h₁, h₂⟩ := h
    obtain ⟨u', q', rfl, hu, hq⟩ := Term.code_eq_state hcode
    exact ⟨u', q', rfl, Term.Alpha.of_code stmt h₁ hu, Term.Alpha.of_code rest h₂ hq⟩
  -- The branches of a split bind; the operands of other operations do not.
  | .op o args ty =>
    obtain ⟨us, s, rfl, hs, h⟩ := h
    obtain ⟨us', s', rfl, hargs, hty⟩ := Term.code_eq_op hcode
    refine ⟨us', s', rfl, hs.trans hty, ?_⟩
    split
    · rename_i ho
      rw [if_pos ho] at h
      exact Term.CaseAlpha.of_code args h hargs
    · rename_i ho
      rw [if_neg ho] at h
      exact Term.AllAlpha.of_code args h hargs
  | .call key kind args ty =>
    obtain ⟨ws, s, rfl, hs, h⟩ := h
    obtain ⟨ws', s', rfl, hargs, hty⟩ := Term.code_eq_call hcode
    exact ⟨ws', s', rfl, hs.trans hty, Var.forall₂_paired_of_code h hargs⟩
termination_by structural t

lemma Term.AllAlpha.of_code {ρ : List (Tag × Tag)} (ts : List Term) {us us' : List Term}
    (h : Term.AllAlpha ρ ts us) (hcode : Term.codeAll us = Term.codeAll us') :
    Term.AllAlpha ρ ts us' := by
  match ts with
  | [] =>
    cases h
    exact Term.codeAll_eq_nil hcode
  | t :: rest =>
    obtain ⟨u, us, rfl, h₁, h₂⟩ := h
    obtain ⟨u', us', rfl, hu, hus⟩ := Term.codeAll_eq_cons hcode
    exact ⟨u', us', rfl, Term.Alpha.of_code t h₁ hu, Term.AllAlpha.of_code rest h₂ hus⟩
termination_by structural ts

lemma Term.CaseAlpha.of_code {ρ : List (Tag × Tag)} (ts : List Term) {us us' : List Term}
    (h : Term.CaseAlpha ρ ts us) (hcode : Term.codeAll us = Term.codeAll us') :
    Term.CaseAlpha ρ ts us' := by
  match ts with
  | [] =>
    cases h
    exact Term.codeAll_eq_nil hcode
  | t :: rest =>
    obtain ⟨u, us, rfl, h₁, h₂⟩ := h
    obtain ⟨u', us', rfl, hu, hus⟩ := Term.codeAll_eq_cons hcode
    exact ⟨u', us', rfl, Term.Alpha.of_code t h₁ hu, Term.BranchesAlpha.of_code rest h₂ hus⟩
termination_by structural ts

lemma Term.BranchesAlpha.of_code {ρ : List (Tag × Tag)} (ts : List Term) {us us' : List Term}
    (h : Term.BranchesAlpha ρ ts us) (hcode : Term.codeAll us = Term.codeAll us') :
    Term.BranchesAlpha ρ ts us' := by
  match ts with
  | [] =>
    cases h
    exact Term.codeAll_eq_nil hcode
  | .var b :: rest =>
    obtain ⟨w, us, rfl, hty, h⟩ := h
    obtain ⟨u', us', rfl, hu, hus⟩ := Term.codeAll_eq_cons hcode
    obtain ⟨w', rfl, hw⟩ := Term.code_eq_var hu
    obtain ⟨htag, hty'⟩ := Var.code_eq_iff.1 hw
    refine ⟨w', us', rfl, hty.trans hty', ?_⟩
    rw [← htag]
    exact Term.BodyAlpha.of_code rest h hus
  | .type _ :: _ | .lit _ :: _ | .tuple _ :: _ | .map _ _ :: _ | .box _ _ :: _
  | .letIn _ _ _ _ :: _ | .state _ _ _ :: _ | .op _ _ _ :: _ | .call _ _ _ _ :: _ => exact h.elim
termination_by structural ts

lemma Term.BodyAlpha.of_code {ρ : List (Tag × Tag)} {b : Tag × Tag} (ts : List Term)
    {us us' : List Term} (h : Term.BodyAlpha ρ b ts us)
    (hcode : Term.codeAll us = Term.codeAll us') : Term.BodyAlpha ρ b ts us' := by
  match ts with
  | [] =>
    cases h
    exact Term.codeAll_eq_nil hcode
  | t :: rest =>
    obtain ⟨u, us, rfl, h₁, h₂⟩ := h
    obtain ⟨u', us', rfl, hu, hus⟩ := Term.codeAll_eq_cons hcode
    exact ⟨u', us', rfl, Term.Alpha.of_code t h₁ hu, Term.BranchesAlpha.of_code rest h₂ hus⟩
termination_by structural ts

lemma Env.Alpha.of_code {ρ : List (Tag × Tag)} (e : Env) {f f' : Env} (h : e.Alpha ρ f)
    (hcode : f.code = f'.code) : e.Alpha ρ f' := by
  have hvisible := Env.code_eq_iff.1 hcode
  match e with
  | .plain m => exact Env.FieldsAlpha.of_code m h hvisible
  | .restricted m used => exact Env.FieldsAlpha.of_code m h hvisible
  | .consed _ m => exact Env.FieldsAlpha.of_code m h hvisible
termination_by structural e

lemma Env.FieldsAlpha.of_code {ρ : List (Tag × Tag)} {keep : Name → Bool}
    (m : List (Name × Term)) {n n' : List (Name × Term)} (h : Env.FieldsAlpha ρ keep m n)
    (hcode : Fields.code n = Fields.code n') : Env.FieldsAlpha ρ keep m n' := by
  match m with
  | [] =>
    cases h
    exact Fields.code_eq_nil hcode
  | (x, t) :: rest =>
    rw [Env.FieldsAlpha] at h ⊢
    split
    · rename_i hx
      rw [if_pos hx] at h
      obtain ⟨u, n, rfl, h₁, h₂⟩ := h
      obtain ⟨u', n', rfl, hu, hn⟩ := Env.codeFields_eq_cons rfl hcode
      exact ⟨u', n', rfl, Term.Alpha.of_code t h₁ hu, Env.FieldsAlpha.of_code rest h₂ hn⟩
    · rename_i hx
      rw [if_neg hx] at h
      exact Env.FieldsAlpha.of_code rest h hcode
termination_by structural m

end

lemma Term.var?_of_code {t u : Term} (hcode : t.code = u.code) :
    t.var?.toList.map Var.tag = u.var?.toList.map Var.tag := by
  cases t with
  | var v =>
    obtain ⟨w, rfl, hw⟩ := Term.code_eq_var hcode
    exact congrArg ([·]) (Var.code_eq_iff.1 hw).1
  | _ =>
    cases u with
    | var w => simp [Term.code] at hcode
    | _ => rfl

mutual

/-- Terms of one content bind the same tags. -/
lemma Term.binderTags_of_code (t : Term) {u : Term} (hcode : t.code = u.code) :
    t.binderTags = u.binderTags := by
  match t with
  -- No binder.
  | .type _ =>
    obtain ⟨_, rfl, -⟩ := Term.code_eq_type hcode
    rfl
  | .lit _ => rw [Term.code_eq_lit hcode]
  | .var _ =>
    obtain ⟨_, rfl, -⟩ := Term.code_eq_var hcode
    rfl
  | .call _ _ _ _ =>
    obtain ⟨_, _, rfl, -⟩ := Term.code_eq_call hcode
    rfl
  -- The binders of the parts, in order.
  | .tuple items =>
    obtain ⟨us, rfl, hitems⟩ := Term.code_eq_tuple hcode
    exact Term.binderTagsOfAll_of_code items hitems
  | .map env kind =>
    obtain ⟨f, k, rfl, henv, -⟩ := Term.code_eq_map hcode
    exact Env.binderTags_of_code env henv
  | .box inner ty =>
    obtain ⟨u, s, rfl, hinner, -⟩ := Term.code_eq_box hcode
    rw [Term.binderTags, Term.binderTags, Term.binderTags_of_code inner hinner]
  | .letIn bind bound rest trace =>
    obtain ⟨w, u, q, rfl, hw, hu, hq⟩ := Term.code_eq_letIn hcode
    rw [Term.binderTags, Term.binderTags, Term.binderTags_of_code bound hu,
      Term.binderTags_of_code rest hq, (Var.code_eq_iff.1 hw).1]
  | .state stmt rest trace =>
    obtain ⟨u, q, rfl, hu, hq⟩ := Term.code_eq_state hcode
    rw [Term.binderTags, Term.binderTags, Term.binderTags_of_code stmt hu,
      Term.binderTags_of_code rest hq]
  | .op o args ty =>
    obtain ⟨us, s, rfl, hargs, -⟩ := Term.code_eq_op hcode
    rw [Term.binderTags, Term.binderTags, Term.binderTagsOfCase_of_code args hargs,
      Term.binderTagsOfAll_of_code args hargs]
termination_by structural t

lemma Term.binderTagsOfAll_of_code (ts : List Term) {us : List Term}
    (hcode : Term.codeAll ts = Term.codeAll us) :
    Term.binderTagsOfAll ts = Term.binderTagsOfAll us := by
  match ts with
  | [] => rw [Term.codeAll_eq_nil hcode]
  | t :: rest =>
    obtain ⟨u, us, rfl, hu, hus⟩ := Term.codeAll_eq_cons hcode
    rw [Term.binderTagsOfAll, Term.binderTagsOfAll, Term.binderTags_of_code t hu,
      Term.binderTagsOfAll_of_code rest hus]
termination_by structural ts

lemma Term.binderTagsOfCase_of_code (ts : List Term) {us : List Term}
    (hcode : Term.codeAll ts = Term.codeAll us) :
    Term.binderTagsOfCase ts = Term.binderTagsOfCase us := by
  match ts with
  | [] => rw [Term.codeAll_eq_nil hcode]
  | t :: rest =>
    obtain ⟨u, us, rfl, hu, hus⟩ := Term.codeAll_eq_cons hcode
    rw [Term.binderTagsOfCase, Term.binderTagsOfCase, Term.binderTags_of_code t hu,
      Term.binderTagsOfBranches_of_code rest hus]
termination_by structural ts

lemma Term.binderTagsOfBranches_of_code (ts : List Term) {us : List Term}
    (hcode : Term.codeAll ts = Term.codeAll us) :
    Term.binderTagsOfBranches ts = Term.binderTagsOfBranches us := by
  match ts with
  | [] => rw [Term.codeAll_eq_nil hcode]
  | t :: rest =>
    obtain ⟨u, us, rfl, hu, hus⟩ := Term.codeAll_eq_cons hcode
    rw [Term.binderTagsOfBranches, Term.binderTagsOfBranches, Term.var?_of_code hu,
      Term.binderTags_of_code t hu, Term.binderTagsOfBodies_of_code rest hus]
termination_by structural ts

lemma Term.binderTagsOfBodies_of_code (ts : List Term) {us : List Term}
    (hcode : Term.codeAll ts = Term.codeAll us) :
    Term.binderTagsOfBodies ts = Term.binderTagsOfBodies us := by
  match ts with
  | [] => rw [Term.codeAll_eq_nil hcode]
  | t :: rest =>
    obtain ⟨u, us, rfl, hu, hus⟩ := Term.codeAll_eq_cons hcode
    rw [Term.binderTagsOfBodies, Term.binderTagsOfBodies, Term.binderTags_of_code t hu,
      Term.binderTagsOfBranches_of_code rest hus]
termination_by structural ts

lemma Env.binderTags_of_code (e : Env) {f : Env} (hcode : e.code = f.code) :
    e.binderTags = f.binderTags := by
  rw [Env.binderTags_visible f]
  rw [Env.code_eq_visible f] at hcode
  match e with
  | .plain m => exact Env.binderTagsOfFields_of_code m hcode
  | .restricted m used => exact Env.binderTagsOfFields_of_code m hcode
  | .consed _ m => exact Env.binderTagsOfFields_of_code m hcode
termination_by structural e

lemma Env.binderTagsOfFields_of_code {keep : Name → Bool} (m : List (Name × Term))
    {n : List (Name × Term)} (hcode : Env.codeFields keep m = Fields.code n) :
    Env.binderTagsOfFields keep m = Env.binderTagsOfFields (fun _ => true) n := by
  match m with
  | [] => rw [Fields.code_eq_nil hcode]; rfl
  | (x, t) :: rest =>
    rw [Env.binderTagsOfFields]
    split
    · rename_i hx
      obtain ⟨u, n, rfl, hu, hn⟩ := Env.codeFields_eq_cons hx hcode
      rw [Env.binderTagsOfFields, if_pos rfl, Term.binderTags_of_code t hu,
        Env.binderTagsOfFields_of_code rest hn]
    · rename_i hx
      rw [Env.codeFields, if_neg hx] at hcode
      exact Env.binderTagsOfFields_of_code rest hcode
termination_by structural m

end

end Residual
