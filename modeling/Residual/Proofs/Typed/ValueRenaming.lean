import Residual.Proofs.Typed.CaptureFree

/-!
Renaming of values and of statements.

A value binds nothing, and what is free in it are its variables with run-time data. So its renaming
can only fail where the supply of tags ends. A renaming that knows all variables of a value already
draws no tag and records no argument: it puts the tags that it knows in their places.
-/

namespace Residual

/-! ### Values bind nothing -/

/-- The variables with run-time data. -/
def Var.dataOf (vs : List Var) : List Var := vs.filter fun v => !v.ty.isUnit

mutual

lemma Term.Formed.renamable (t : Term) (h : t.Formed) : t.Renamable := by
  match t with
  | .type _ | .lit _ | .var _ => exact trivial
  | .tuple items => exact Term.AllFormed.renamable items h
  | .map env kind => exact Env.Formed.renamable env h.1
  | .box inner ty => exact Term.Formed.renamable inner h.1
  | .op o args ty =>
    rw [Term.Renamable, if_neg (by rw [h.1]; decide)]
    exact Term.AllFormed.renamable args h.2.1
termination_by structural t

lemma Term.AllFormed.renamable (ts : List Term) (h : Term.AllFormed ts) :
    Term.AllRenamable ts := by
  match ts with
  | [] => exact trivial
  | t :: rest => exact ⟨Term.Formed.renamable t h.1, Term.AllFormed.renamable rest h.2⟩
termination_by structural ts

lemma Env.Formed.renamable (env : Env) (h : env.Formed) : env.Renamable := by
  match env with
  | .plain m => exact ⟨h.1, Env.FieldsFormed.renamable _ m h.2⟩
  | .restricted m used => exact ⟨⟨h.1, h.2.2⟩, Env.FieldsFormed.renamable _ m h.2.1⟩
  | .consed _ m => exact ⟨h.1, Env.FieldsFormed.renamable _ m h.2⟩
termination_by structural env

lemma Env.FieldsFormed.renamable (keep : Name → Bool) (m : List (Name × Term))
    (h : Env.FieldsFormed m) : Env.FieldsRenamable keep m := by
  match m with
  | [] => exact trivial
  | (x, t) :: rest =>
    exact ⟨fun _ => Term.Formed.renamable t h.1, Env.FieldsFormed.renamable keep rest h.2⟩
termination_by structural m

end

/-! ### Code around values -/

lemma Term.allRenamable_iff {ts : List Term} :
    Term.AllRenamable ts ↔ ∀ t ∈ ts, t.Renamable := by
  induction ts with
  | nil => simp [Term.AllRenamable]
  | cons t rest ih => simp [Term.AllRenamable, ih]

lemma Term.branchesRenamable_flatMap {bs : List (Var × Term)} :
    Term.BranchesRenamable (bs.flatMap fun b => [.var b.1, b.2]) ↔ ∀ b ∈ bs, b.2.Renamable := by
  induction bs with
  | nil => simp [Term.BranchesRenamable]
  | cons b rest ih => simp [Term.BranchesRenamable, Term.BodiesRenamable, ih]

lemma Stmt.renamable_close {stmts : List Stmt} {result : Term}
    (h : ∀ s ∈ stmts, s.term.Renamable) (hresult : result.Renamable) :
    (Stmt.close stmts result).Renamable := by
  induction stmts with
  | nil => exact hresult
  | cons s rest ih =>
    obtain ⟨hs, hrest⟩ := List.forall_mem_cons.1 h
    cases s <;> exact ⟨hs, ih hrest⟩

lemma Term.Renamable.retypeMiss {ty : Ty} {t : Term} (h : t.Renamable) :
    (t.retypeMiss ty).Renamable := by
  induction t using Term.retypeMiss.induct with
  | case1 bind bound rest trace ih => exact ⟨h.1, ih h.2⟩
  | case2 stmt rest trace ih => exact ⟨h.1, ih h.2⟩
  | case3 args _ => exact h
  | case4 t h1 h2 h3 => rwa [Term.retypeMiss.eq_4 _ _ h1 h2 h3]

mutual

lemma Term.Formed.binderTags_eq (t : Term) (h : t.Formed) : t.binderTags = [] := by
  match t with
  | .type _ | .lit _ | .var _ => rfl
  | .tuple items => exact Term.AllFormed.binderTags_eq items h
  | .map env kind => exact Env.Formed.binderTags_eq env h.1
  | .box inner ty => exact Term.Formed.binderTags_eq inner h.1
  | .op o args ty =>
    rw [Term.binderTags, if_neg (by rw [h.1]; decide)]
    exact Term.AllFormed.binderTags_eq args h.2.1
termination_by structural t

lemma Term.AllFormed.binderTags_eq (ts : List Term) (h : Term.AllFormed ts) :
    Term.binderTagsOfAll ts = [] := by
  match ts with
  | [] => rfl
  | t :: rest =>
    rw [Term.binderTagsOfAll, Term.Formed.binderTags_eq t h.1,
      Term.AllFormed.binderTags_eq rest h.2]
    rfl
termination_by structural ts

lemma Env.Formed.binderTags_eq (env : Env) (h : env.Formed) : env.binderTags = [] := by
  match env with
  | .plain m => exact Env.FieldsFormed.binderTags_eq _ m h.2
  | .restricted m used => exact Env.FieldsFormed.binderTags_eq _ m h.2.1
  | .consed _ m => exact Env.FieldsFormed.binderTags_eq _ m h.2
termination_by structural env

lemma Env.FieldsFormed.binderTags_eq (keep : Name → Bool) (m : List (Name × Term))
    (h : Env.FieldsFormed m) : Env.binderTagsOfFields keep m = [] := by
  match m with
  | [] => rfl
  | (x, t) :: rest =>
    rw [Env.binderTagsOfFields, Term.Formed.binderTags_eq t h.1,
      Env.FieldsFormed.binderTags_eq keep rest h.2]
    split <;> rfl
termination_by structural m

end

mutual

lemma Term.Formed.free_eq (t : Term) (h : t.Formed) : t.free = Var.dataOf t.vars := by
  match t with
  | .type _ | .lit _ => rfl
  | .var v =>
    rw [Term.free, Term.vars, Var.dataOf]
    by_cases hv : v.ty.isUnit = true <;> simp [hv]
  | .tuple items => exact Term.AllFormed.free_eq items h
  | .map env kind => exact Env.Formed.free_eq env h.1
  | .box inner ty => exact Term.Formed.free_eq inner h.1
  | .op o args ty =>
    rw [Term.free, if_neg (by rw [h.1]; decide)]
    exact Term.AllFormed.free_eq args h.2.1
termination_by structural t

lemma Term.AllFormed.free_eq (ts : List Term) (h : Term.AllFormed ts) :
    Term.freeOfAll ts = Var.dataOf (Term.varsOfAll ts) := by
  match ts with
  | [] => rfl
  | t :: rest =>
    rw [Term.freeOfAll, Term.varsOfAll, Term.Formed.free_eq t h.1,
      Term.AllFormed.free_eq rest h.2, Var.dataOf, Var.dataOf, Var.dataOf, List.filter_append]
termination_by structural ts

lemma Env.Formed.free_eq (env : Env) (h : env.Formed) : env.free = Var.dataOf env.vars := by
  match env with
  | .plain m => exact Env.FieldsFormed.free_eq _ m h.2
  | .restricted m used => exact Env.FieldsFormed.free_eq _ m h.2.1
  | .consed _ m => exact Env.FieldsFormed.free_eq _ m h.2
termination_by structural env

lemma Env.FieldsFormed.free_eq (keep : Name → Bool) (m : List (Name × Term))
    (h : Env.FieldsFormed m) :
    Env.freeOfFields keep m = Var.dataOf (Env.varsOfFields keep m) := by
  match m with
  | [] => rfl
  | (x, t) :: rest =>
    rw [Env.freeOfFields, Env.varsOfFields, Term.Formed.free_eq t h.1,
      Env.FieldsFormed.free_eq keep rest h.2]
    split
    · rw [Var.dataOf, Var.dataOf, Var.dataOf, List.filter_append]
    · rfl
termination_by structural m

end

/-- The names that a map binds. -/
lemma Fields.get?_isSome_iff {α : Type} {m : Fields α} {x : Name} :
    (Fields.get? m x).isSome = true ↔ x ∈ m.map Prod.fst := by
  induction m with
  | nil => simp
  | cons e rest ih =>
    obtain ⟨y, a⟩ := e
    rw [Fields.get?_cons]
    by_cases h : x = y <;> simp [h, ih]

/-- What a packed form holds are the free variables at their first occurrences. -/
lemma Env.Formed.firsts_free {env : Env} (h : env.Formed) : Var.firsts env.free = env.packed := by
  rw [Env.Formed.free_eq env h]
  rfl

lemma Env.nodup_packed (env : Env) : (env.packed.map Var.tag).Nodup := Var.nodup_firsts _

/-! ### Values in other tags -/

/-- `ρ` gives each variable with run-time data the tag that `σ` does. -/
def Var.Known (ρ : List (Tag × Tag)) (σ : Tag → Tag) (vs : List Var) : Prop :=
  ∀ v ∈ vs, v.ty.isUnit = false → ρ.lookup v.tag = some (σ v.tag)

mutual

/-- A value that is related to one without binders is this one in other tags, but for what has no
run-time data. -/
theorem Term.Alpha.code_eq {ρ : List (Tag × Tag)} {σ : Tag → Tag} (t : Term) (ht : t.Formed)
    (hknown : Var.Known ρ σ t.vars) {u : Term} (h : t.Alpha ρ u) :
    u.code = (t.solid.retag σ).code := by
  -- A value binds nothing, so the pairs are the same at every node.
  match t with
  | .type _ | .lit _ => exact h.symm
  | .var v =>
    rw [Term.Alpha] at h
    rw [Term.solid]
    split
    · rename_i hunit
      rw [if_pos hunit] at h
      rw [Term.code_retag_of_vars (Term.vars_ofUnit _), ← h]
    · -- The partner of a variable is the tag it is renamed to.
      rename_i hdata
      rw [if_neg hdata] at h
      obtain ⟨w, rfl, hw⟩ := h
      have hlookup := hknown v (List.mem_singleton_self v) (Bool.not_eq_true _ ▸ hdata)
      have htag : w.tag = σ v.tag := Option.some.inj (hw.there.symm.trans hlookup)
      have hvar : w.code = (⟨σ v.tag, v.ty⟩ : Var).code := Var.code_eq_iff.2 ⟨htag, hw.ty.symm⟩
      rw [Term.retag, Term.code, Term.code, hvar]
  | .tuple items =>
    obtain ⟨us, rfl, h⟩ := h
    rw [Term.solid, Term.retag, Term.code, Term.code, Term.AllAlpha.code_eq items ht hknown h]
  | .map env kind =>
    obtain ⟨f, k, rfl, h, hk⟩ := h
    rw [Term.solid, Term.retag, Term.code, Term.code, Env.Alpha.code_eq env ht.1 hknown h, hk]
  | .box inner ty =>
    obtain ⟨u, s, rfl, h, hs⟩ := h
    rw [Term.solid, Term.retag, Term.code, Term.code, Term.Alpha.code_eq inner ht.1 hknown h, hs]
  | .op o args ty =>
    obtain ⟨us, s, rfl, hs, h⟩ := h
    rw [if_neg (by rw [ht.1]; decide)] at h
    rw [Term.solid, Term.retag, Term.code, Term.code, Term.AllAlpha.code_eq args ht.2.1 hknown h,
      hs]
termination_by structural t

lemma Term.AllAlpha.code_eq {ρ : List (Tag × Tag)} {σ : Tag → Tag} (ts : List Term)
    (ht : Term.AllFormed ts) (hknown : Var.Known ρ σ (Term.varsOfAll ts)) {us : List Term}
    (h : Term.AllAlpha ρ ts us) :
    Term.codeAll us = Term.codeAll (Term.retagAll σ (Term.solidAll ts)) := by
  match ts with
  | [] =>
    cases h
    rfl
  | t :: rest =>
    obtain ⟨u, us, rfl, h₁, h₂⟩ := h
    obtain ⟨hfirst, hrest⟩ := List.forall_mem_append.1 hknown
    rw [Term.solidAll, Term.retagAll, Term.codeAll, Term.codeAll,
      Term.Alpha.code_eq t ht.1 hfirst h₁, Term.AllAlpha.code_eq rest ht.2 hrest h₂]
termination_by structural ts

lemma Env.Alpha.code_eq {ρ : List (Tag × Tag)} {σ : Tag → Tag} (env : Env) (ht : env.Formed)
    (hknown : Var.Known ρ σ env.vars) {f : Env} (h : env.Alpha ρ f) :
    f.code = (env.solid.retag σ).code := by
  rw [Env.code_eq_visible f]
  match env with
  | .plain m => exact Env.FieldsAlpha.code_eq _ m ht.2 hknown h
  | .restricted m used => exact Env.FieldsAlpha.code_eq _ m ht.2.1 hknown h
  | .consed _ m => exact Env.FieldsAlpha.code_eq _ m ht.2 hknown h
termination_by structural env

lemma Env.FieldsAlpha.code_eq {ρ : List (Tag × Tag)} {σ : Tag → Tag} (keep : Name → Bool)
    (m : List (Name × Term)) (ht : Env.FieldsFormed m)
    (hknown : Var.Known ρ σ (Env.varsOfFields keep m)) {n : List (Name × Term)}
    (h : Env.FieldsAlpha ρ keep m n) :
    Fields.code n = Env.codeFields keep (Env.retagFields σ (Env.solidFields m)) := by
  match m with
  | [] =>
    cases h
    rfl
  | (x, t) :: rest =>
    rw [Env.FieldsAlpha] at h
    rw [Env.varsOfFields] at hknown
    rw [Env.solidFields, Env.retagFields, Env.codeFields]
    split
    · rename_i hx
      rw [if_pos hx] at h hknown
      obtain ⟨u, n, rfl, h₁, h₂⟩ := h
      obtain ⟨hfirst, hrest⟩ := List.forall_mem_append.1 hknown
      have hlater : Env.codeFields (fun _ => true) n =
          Env.codeFields keep (Env.retagFields σ (Env.solidFields rest)) :=
        Env.FieldsAlpha.code_eq keep rest ht.2 hrest h₂
      rw [Fields.code, Env.codeFields, if_pos rfl, Term.Alpha.code_eq t ht.1 hfirst h₁, hlater]
    · rename_i hx
      rw [if_neg hx] at h hknown
      exact Env.FieldsAlpha.code_eq keep rest ht.2 hknown h
termination_by structural m

end

mutual

/-- Nothing becomes a value where all variables have run-time data. -/
theorem Term.code_solid {σ : Tag → Tag} (t : Term) (h : ∀ v ∈ t.vars, v.ty.isUnit = false) :
    (t.solid.retag σ).code = (t.retag σ).code := by
  match t with
  | .type _ | .lit _ | .letIn _ _ _ _ | .state _ _ _ | .call _ _ _ _ => rfl
  | .var v =>
    rw [Term.solid, if_neg (by rw [h v (List.mem_singleton_self v)]; decide)]
  | .tuple items =>
    rw [Term.solid, Term.retag, Term.retag, Term.code, Term.code, Term.codeAll_solid items h]
  | .map env kind =>
    rw [Term.solid, Term.retag, Term.retag, Term.code, Term.code, Env.code_solid env h]
  | .box inner ty =>
    rw [Term.solid, Term.retag, Term.retag, Term.code, Term.code, Term.code_solid inner h]
  | .op o args ty =>
    rw [Term.solid, Term.retag, Term.retag, Term.code, Term.code, Term.codeAll_solid args h]
termination_by structural t

lemma Term.codeAll_solid {σ : Tag → Tag} (ts : List Term)
    (h : ∀ v ∈ Term.varsOfAll ts, v.ty.isUnit = false) :
    Term.codeAll (Term.retagAll σ (Term.solidAll ts)) = Term.codeAll (Term.retagAll σ ts) := by
  match ts with
  | [] => rfl
  | t :: rest =>
    obtain ⟨hfirst, hrest⟩ := List.forall_mem_append.1 h
    rw [Term.solidAll, Term.retagAll, Term.retagAll, Term.codeAll, Term.codeAll,
      Term.code_solid t hfirst, Term.codeAll_solid rest hrest]
termination_by structural ts

lemma Env.code_solid {σ : Tag → Tag} (env : Env) (h : ∀ v ∈ env.vars, v.ty.isUnit = false) :
    (env.solid.retag σ).code = (env.retag σ).code := by
  match env with
  | .plain m => exact Env.codeFields_solid _ m h
  | .restricted m used => exact Env.codeFields_solid _ m h
  | .consed _ m => exact Env.codeFields_solid _ m h
termination_by structural env

lemma Env.codeFields_solid {σ : Tag → Tag} (keep : Name → Bool) (m : List (Name × Term))
    (h : ∀ v ∈ Env.varsOfFields keep m, v.ty.isUnit = false) :
    Env.codeFields keep (Env.retagFields σ (Env.solidFields m)) =
      Env.codeFields keep (Env.retagFields σ m) := by
  match m with
  | [] => rfl
  | (x, t) :: rest =>
    rw [Env.varsOfFields] at h
    rw [Env.solidFields, Env.retagFields, Env.retagFields, Env.codeFields, Env.codeFields]
    split
    · rename_i hx
      rw [if_pos hx] at h
      obtain ⟨hfirst, hrest⟩ := List.forall_mem_append.1 h
      rw [Term.code_solid t hfirst, Env.codeFields_solid keep rest hrest]
    · rename_i hx
      rw [if_neg hx] at h
      exact Env.codeFields_solid keep rest h
termination_by structural m

end

namespace Rename

/-! ### Renaming from the start -/

/-- Where there are tags for its variables, an environment can be renamed from the start. -/
theorem exists_run_env (envs : EnvTable) {e : Env} (h : e.Formed)
    (hroom : e.packed.length ≤ Tags.limit) : ∃ e' s, (env e).run { envs } = some (e', s) := by
  have hunmet : Renaming.unmet { envs } e.free = e.packed := by
    rw [← h.firsts_free]
    exact congrArg Var.firsts (List.filter_eq_self.2 fun v _ => decide_eq_true List.not_mem_nil)
  have hallows : Renaming.Allows { envs } e.binderTags e.free := by
    rw [Env.Formed.binderTags_eq e h]
    refine ⟨.nil, fun x hx => absurd hx List.not_mem_nil,
      fun x hx => absurd hx List.not_mem_nil, ?_⟩
    rw [hunmet]
    simpa using hroom
  obtain ⟨e', s, hrun, -⟩ := renames_env e (Env.Formed.renamable e h) { envs } (.start envs 0)
    hallows
  exact ⟨e', s, hrun⟩

/-- What is renamed from the start has run-time data in all its variables, and is the environment
with its variables numbered by first occurrence. -/
theorem run_env_start {envs : EnvTable} {e e' : Env} {s : Renaming} (h : e.Formed)
    (hrun : (env e).run { envs } = some (e', s)) :
    e'.code = (e.solid.retag (Var.number e.solid.vars)).code ∧
      e'.vars.map (Var.mark id) = e.solid.vars.map (Var.mark (Var.number e.solid.vars)) ∧
      ∀ v ∈ e'.vars, v.ty.isUnit = false := by
  obtain ⟨-, hcode⟩ := numbers_env e h _ _ _ [] hrun (Renaming.After.start envs)
  have hcode := hcode []
  rw [List.append_nil, List.nil_append] at hcode
  have hid : (e'.retag id).code = (e.solid.retag (Var.number e.solid.vars)).code := by
    rw [Env.code_retag_id, hcode]
  have hmarks := ((Env.code_retag_iff e' e.solid id _).1 hid).2
  refine ⟨hcode, hmarks, fun v' hv' => ?_⟩
  obtain ⟨v, hv, -, hty⟩ := Var.exists_mark hmarks.symm hv'
  rw [Env.vars_solid e h] at hv
  rw [← Ty.isUnit_of_code _ _ hty]
  simpa using (List.mem_filter.1 hv).2

/-! ### Renaming by known tags -/

/-- Related environments bind the same names. -/
lemma names_of_alpha {ρ : List (Tag × Tag)} {e f : Env} (h : e.Alpha ρ f) :
    f.visible.map Prod.fst = e.visible.map Prod.fst := by
  have hfields := Env.alpha_visible.1 h
  generalize e.visible = m at hfields ⊢
  generalize f.visible = n at hfields ⊢
  induction m generalizing n with
  | nil =>
    cases hfields
    rfl
  | cons b rest ih =>
    obtain ⟨u, n, rfl, -, hrest⟩ := hfields
    rw [List.map_cons, List.map_cons, ih n hrest]

/-- What is renamed is entered in the table. -/
lemma exists_consed_of_run {r s : Renaming} {e e' : Env} (hrun : (env e).run r = some (e', s)) :
    ∃ symbol m, e' = .consed symbol m := by
  cases e <;>
  · rw [env] at hrun
    obtain ⟨_, _, -, hcons⟩ := run_bind.1 hrun
    obtain ⟨rfl, -⟩ := run_consFields.1 hcons
    exact ⟨_, _, rfl⟩

/-- The renamed environment binds the same names. -/
theorem get?_isSome_of_alpha {ρ : List (Tag × Tag)} {r s : Renaming} {e e' : Env}
    (he : e.Ascending) (hrun : (env e).run r = some (e', s)) (h : e.Alpha ρ e') (x : Name) :
    (e'.get? x).isSome = (e.get? x).isSome := by
  obtain ⟨symbol, m, rfl⟩ := exists_consed_of_run hrun
  have hnames : m.map Prod.fst = e.visible.map Prod.fst := names_of_alpha h
  rw [he.get?_eq, Bool.eq_iff_iff, Fields.get?_isSome_iff, ← hnames]
  exact Fields.get?_isSome_iff

/-- If the variables with run-time data are known, the renaming puts their tags in their places and
draws none. -/
theorem run_env_known {n : Tag} {r : Renaming} (hr : r.Tidy n) {e : Env} (h : e.Formed)
    (hknown : ∀ v ∈ e.packed, v.tag ∈ r.olds) (hroom : r.tags.next ≤ Tags.limit) :
    ∃ e' s, (env e).run r = some (e', s) ∧ s.tags = r.tags ∧ e.Alpha r.renamed e' := by
  have holds : ∀ v ∈ e.free, v.tag ∈ r.olds := by
    intro v hv
    have hmem := Var.mem_firsts.2 (List.mem_map_of_mem (f := Var.tag) hv)
    rw [h.firsts_free] at hmem
    obtain ⟨u, hu, htag⟩ := List.mem_map.1 hmem
    exact htag ▸ hknown u hu
  have hunmet : r.unmet e.free = [] := by
    rw [Renaming.unmet, List.filter_eq_nil_iff.2 fun v hv => by simpa using holds v hv]
    rfl
  have hbinders := Env.Formed.binderTags_eq e h
  have hallows : r.Allows e.binderTags e.free := by
    rw [hbinders]
    refine ⟨.nil, fun x hx => absurd hx List.not_mem_nil,
      fun x hx => absurd hx List.not_mem_nil, ?_⟩
    rw [hunmet]
    simpa using hroom
  obtain ⟨e', s, hrun, hs, hmet, hfollows, -⟩ :=
    renames_env e (Env.Formed.renamable e h) r hr hallows
  have hnext : s.tags.next = r.tags.next := by rw [hmet.next, hbinders, hunmet]; rfl
  refine ⟨e', s, hrun, congrArg Tags.mk hnext, ?_⟩
  exact hfollows.related _ _ (List.Subset.refl _) hs.oneToOne hmet.renamed holds

end Rename

end Residual
