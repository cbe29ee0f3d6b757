import Residual.Proofs.Typed.Content

/-!
Values that differ in the tags of their variables only.

A value is cut into its shape, in which all tags are the same, and the variables in it from left
to right. Two values with other tags have the same code exactly if they have the same shape and
the same new tags in all places. Numbering the variables by their first occurrence gives equal
codes to just those lists of values that are one up to an injective change of tags.
-/

namespace Residual

mutual

/-- Variables of types without run-time data are replaced by their values. -/
def Term.solid : Term → Term
  | .var v => if v.ty.isUnit then .ofUnit v.ty else .var v
  | .tuple items => .tuple (Term.solidAll items)
  | .map env kind => .map env.solid kind
  | .box inner ty => .box inner.solid ty
  | .op o args ty => .op o (Term.solidAll args) ty
  | t => t

def Term.solidAll : List Term → List Term
  | [] => []
  | t :: rest => t.solid :: Term.solidAll rest

def Env.solid : Env → Env
  | .plain m => .plain (Env.solidFields m)
  | .restricted m used => .restricted (Env.solidFields m) used
  | .consed _ m => .plain (Env.solidFields m)

def Env.solidFields : List (Name × Term) → List (Name × Term)
  | [] => []
  | (x, t) :: rest => (x, t.solid) :: Env.solidFields rest

end

mutual

/-- Change the tags of the variables in a value. -/
def Term.retag (σ : Tag → Tag) : Term → Term
  | .var v => .var ⟨σ v.tag, v.ty⟩
  | .tuple items => .tuple (Term.retagAll σ items)
  | .map env kind => .map (env.retag σ) kind
  | .box inner ty => .box (inner.retag σ) ty
  | .op o args ty => .op o (Term.retagAll σ args) ty
  | t => t

def Term.retagAll (σ : Tag → Tag) : List Term → List Term
  | [] => []
  | t :: rest => t.retag σ :: Term.retagAll σ rest

def Env.retag (σ : Tag → Tag) : Env → Env
  | .plain m => .plain (Env.retagFields σ m)
  | .restricted m used => .restricted (Env.retagFields σ m) used
  | .consed _ m => .plain (Env.retagFields σ m)

def Env.retagFields (σ : Tag → Tag) : List (Name × Term) → List (Name × Term)
  | [] => []
  | (x, t) :: rest => (x, t.retag σ) :: Env.retagFields σ rest

end

mutual

/-- The variables in a value from left to right, one for each occurrence. -/
def Term.vars : Term → List Var
  | .var v => [v]
  | .tuple items => Term.varsOfAll items
  | .map env _ => env.vars
  | .box inner _ => inner.vars
  | .op _ args _ => Term.varsOfAll args
  | _ => []

def Term.varsOfAll : List Term → List Var
  | [] => []
  | t :: rest => t.vars ++ Term.varsOfAll rest

def Env.vars : Env → List Var
  | .plain m => Env.varsOfFields (fun _ => true) m
  | .restricted m used => Env.varsOfFields used.contains m
  | .consed _ m => Env.varsOfFields (fun _ => true) m

def Env.varsOfFields (keep : Name → Bool) : List (Name × Term) → List Var
  | [] => []
  | (x, t) :: rest =>
    if keep x then t.vars ++ Env.varsOfFields keep rest else Env.varsOfFields keep rest

end

/-- An occurrence of a variable under other tags. -/
def Var.mark (σ : Tag → Tag) (v : Var) : Tag × Code := (σ v.tag, v.ty.code)

/-! ### Shapes -/

def Term.shape (t : Term) : Code := (t.retag fun _ => 0).code

def Term.shapeOfAll (ts : List Term) : Code := Term.codeAll (Term.retagAll (fun _ => 0) ts)

def Env.shape (env : Env) : Code := (env.retag fun _ => 0).code

def Env.shapeOfFields (keep : Name → Bool) (m : List (Name × Term)) : Code :=
  Env.codeFields keep (Env.retagFields (fun _ => 0) m)

lemma Env.varsOfFields_filter (keep : Name → Bool) (m : List (Name × Term)) :
    Env.varsOfFields keep m =
      Env.varsOfFields (fun _ => true) (m.filter fun e => keep e.1) := by
  induction m with
  | nil => rfl
  | cons e rest ih => by_cases h : keep e.1 = true <;> simp [Env.varsOfFields, h, ih]

lemma Env.retagFields_filter (σ : Tag → Tag) (keep : Name → Bool) (m : List (Name × Term)) :
    (Env.retagFields σ m).filter (fun e => keep e.1) =
      Env.retagFields σ (m.filter fun e => keep e.1) := by
  induction m with
  | nil => rfl
  | cons e rest ih => by_cases h : keep e.1 = true <;> simp [Env.retagFields, h, ih]

lemma Env.vars_eq_visible (env : Env) :
    env.vars = Env.varsOfFields (fun _ => true) env.visible := by
  cases env with
  | plain m => rfl
  | consed s m => rfl
  | restricted m used => exact Env.varsOfFields_filter used.contains m

lemma Env.code_retag_visible (σ : Tag → Tag) (env : Env) :
    (env.retag σ).code = Fields.code (Env.retagFields σ env.visible) := by
  rw [Env.code_eq_visible]
  cases env with
  | plain m => rfl
  | consed s m => rfl
  | restricted m used =>
    exact congrArg Fields.code (Env.retagFields_filter σ used.contains m)

/-- Two parts that are compared by shape and variables, one after the other. -/
lemma shapes_append_iff {S T : Prop} {f g : Var → Tag × Code} {l₁ l₂ m₁ m₂ : List Var}
    (hlen : S → l₁.length = m₁.length) :
    (S ∧ l₁.map f = m₁.map g) ∧ (T ∧ l₂.map f = m₂.map g) ↔
      (S ∧ T) ∧ (l₁ ++ l₂).map f = (m₁ ++ m₂).map g := by
  rw [List.map_append, List.map_append]
  constructor
  · rintro ⟨⟨hS, h₁⟩, hT, h₂⟩
    rw [h₁, h₂]
    exact ⟨⟨hS, hT⟩, rfl⟩
  · rintro ⟨⟨hS, hT⟩, h⟩
    obtain ⟨h₁, h₂⟩ := List.append_inj h (by simp [hlen hS])
    exact ⟨⟨hS, h₁⟩, hT, h₂⟩

mutual

/-- Values with other tags have the same code if they have the same shape and the same new tags. -/
theorem Term.code_retag_iff (a b : Term) (σ τ : Tag → Tag) :
    (a.retag σ).code = (b.retag τ).code ↔
      a.shape = b.shape ∧ a.vars.map (Var.mark σ) = b.vars.map (Var.mark τ) := by
  unfold Term.shape
  -- The shape is the code with all tags forgotten, and the variables tell them, in order.
  match a with
  | .type a | .lit a =>
    cases b <;> simp [Term.retag, Term.code, Term.vars]
  | .var v =>
    cases b with
    | var w =>
      simp [Term.retag, Term.code, Var.code, Term.vars, Var.mark, and_comm]
    | _ => simp [Term.retag, Term.code]
  | .tuple as =>
    cases b with
    | tuple bs =>
      simp [Term.retag, Term.code, Term.vars, Term.codeAll_retag_iff as bs σ τ, Term.shapeOfAll]
    | _ => simp [Term.retag, Term.code]
  | .map e k =>
    cases b with
    | map f l =>
      simp only [Term.retag, Term.code, Term.vars, List.cons.injEq, true_and,
        (Env.splits_code _ _).append_eq_iff, Env.code_retag_iff e f σ τ, Env.shape]
      exact and_right_comm
    | _ => simp [Term.retag, Term.code]
  | .box a s =>
    cases b with
    | box b t =>
      simp only [Term.retag, Term.code, Term.vars, List.cons.injEq, true_and,
        (Term.splits_code _ _).append_eq_iff, Term.code_retag_iff a b σ τ, Term.shape]
      exact and_right_comm
    | _ => simp [Term.retag, Term.code]
  | .op o as s =>
    cases b with
    | op p bs t =>
      simp only [Term.retag, Term.code, Term.vars, List.cons.injEq, true_and, List.append_assoc,
        (Op.splits_code _ _).append_eq_iff, (Term.splits_codeAll _ _).append_eq_iff,
        Term.codeAll_retag_iff as bs σ τ, Term.shapeOfAll]
      exact ⟨fun ⟨h₁, ⟨h₂, h₃⟩, h₄⟩ => ⟨⟨h₁, h₂, h₄⟩, h₃⟩,
        fun ⟨⟨h₁, h₂, h₄⟩, h₃⟩ => ⟨h₁, ⟨h₂, h₃⟩, h₄⟩⟩
    | _ => simp [Term.retag, Term.code]
  | .letIn _ _ _ _ | .state _ _ _ | .call _ _ _ _ =>
    cases b <;> simp [Term.retag, Term.code, Term.vars]
termination_by structural a

lemma Term.codeAll_retag_iff (as bs : List Term) (σ τ : Tag → Tag) :
    Term.codeAll (Term.retagAll σ as) = Term.codeAll (Term.retagAll τ bs) ↔
      Term.shapeOfAll as = Term.shapeOfAll bs ∧
        (Term.varsOfAll as).map (Var.mark σ) = (Term.varsOfAll bs).map (Var.mark τ) := by
  unfold Term.shapeOfAll
  match as, bs with
  | [], [] => simp [Term.retagAll, Term.varsOfAll]
  | [], _ :: _ => simp [Term.retagAll, Term.codeAll]
  | _ :: _, [] => simp [Term.retagAll, Term.codeAll]
  | a :: as, b :: bs =>
    have hlen : a.shape = b.shape → a.vars.length = b.vars.length := by
      intro h
      have h0 := ((Term.code_retag_iff a b (fun _ => 0) (fun _ => 0)).1 h).2
      simpa using congrArg List.length h0
    simp only [Term.retagAll, Term.codeAll, Term.varsOfAll, List.cons.injEq, true_and,
      (Term.splits_code _ _).append_eq_iff, Term.code_retag_iff a b σ τ,
      Term.codeAll_retag_iff as bs σ τ]
    exact shapes_append_iff hlen
termination_by structural as

lemma Env.code_retag_iff (a b : Env) (σ τ : Tag → Tag) :
    (a.retag σ).code = (b.retag τ).code ↔
      a.shape = b.shape ∧ a.vars.map (Var.mark σ) = b.vars.map (Var.mark τ) := by
  unfold Env.shape
  rw [Env.vars_eq_visible b, Env.code_retag_visible τ b, Env.code_retag_visible _ b]
  match a with
  | .plain m => exact Env.codeFields_retag_iff _ m b.visible σ τ
  | .restricted m used => exact Env.codeFields_retag_iff _ m b.visible σ τ
  | .consed s m => exact Env.codeFields_retag_iff _ m b.visible σ τ
termination_by structural a

lemma Env.codeFields_retag_iff (keep : Name → Bool) (as bs : List (Name × Term))
    (σ τ : Tag → Tag) :
    Env.codeFields keep (Env.retagFields σ as) = Fields.code (Env.retagFields τ bs) ↔
      Env.shapeOfFields keep as = Env.shapeOfFields (fun _ => true) bs ∧
        (Env.varsOfFields keep as).map (Var.mark σ) =
          (Env.varsOfFields (fun _ => true) bs).map (Var.mark τ) := by
  unfold Env.shapeOfFields Fields.code
  match as with
  | [] => cases bs <;> simp [Env.retagFields, Env.codeFields, Env.varsOfFields]
  | (x, a) :: as =>
    by_cases h : keep x = true
    · cases bs with
      | nil => simp [Env.retagFields, Env.codeFields, h]
      | cons b bs =>
        obtain ⟨y, b⟩ := b
        have hlen : a.shape = b.shape → a.vars.length = b.vars.length := by
          intro h
          have h0 := ((Term.code_retag_iff a b (fun _ => 0) (fun _ => 0)).1 h).2
          simpa using congrArg List.length h0
        have ih := Env.codeFields_retag_iff keep as bs σ τ
        simp only [Env.retagFields, Env.codeFields, Env.varsOfFields, h, if_true, List.cons.injEq,
          true_and, (Term.splits_code _ _).append_eq_iff, Term.code_retag_iff a b σ τ]
        refine Iff.trans ?_ and_assoc.symm
        exact and_congr_right' ((and_congr_right' ih).trans (shapes_append_iff hlen))
    · simp only [Env.retagFields, Env.codeFields, Env.varsOfFields, h, if_false, Bool.false_eq_true]
      exact Env.codeFields_retag_iff keep as bs σ τ
termination_by structural as

end

mutual

lemma Term.code_retag_id (t : Term) : (t.retag id).code = t.code := by
  match t with
  | .type _ | .lit _ | .letIn _ _ _ _ | .state _ _ _ | .call _ _ _ _ | .var ⟨_, _⟩ => rfl
  | .tuple items => simp [Term.retag, Term.code, Term.codeAll_retag_id items]
  | .map env kind => simp [Term.retag, Term.code, Env.code_retag_id env]
  | .box inner ty => simp [Term.retag, Term.code, Term.code_retag_id inner]
  | .op o args ty => simp [Term.retag, Term.code, Term.codeAll_retag_id args]
termination_by structural t

lemma Term.codeAll_retag_id (ts : List Term) :
    Term.codeAll (Term.retagAll id ts) = Term.codeAll ts := by
  match ts with
  | [] => rfl
  | t :: rest =>
    simp [Term.retagAll, Term.codeAll, Term.code_retag_id t, Term.codeAll_retag_id rest]
termination_by structural ts

lemma Env.code_retag_id (env : Env) : (env.retag id).code = env.code := by
  match env with
  | .plain m => exact Env.codeFields_retag_id _ m
  | .restricted m used => exact Env.codeFields_retag_id _ m
  | .consed _ m => exact Env.codeFields_retag_id _ m
termination_by structural env

lemma Env.codeFields_retag_id (keep : Name → Bool) (m : List (Name × Term)) :
    Env.codeFields keep (Env.retagFields id m) = Env.codeFields keep m := by
  match m with
  | [] => rfl
  | (x, t) :: rest =>
    simp [Env.retagFields, Env.codeFields, Term.code_retag_id t, Env.codeFields_retag_id keep rest]
termination_by structural m

end

/-- Only the tags of the variables matter. -/
theorem Term.code_retag_congr {t : Term} {σ τ : Tag → Tag}
    (h : ∀ v ∈ t.vars, σ v.tag = τ v.tag) : (t.retag σ).code = (t.retag τ).code := by
  refine (Term.code_retag_iff t t σ τ).2 ⟨rfl, List.map_congr_left fun v hv => ?_⟩
  rw [Var.mark, Var.mark, h v hv]

lemma Term.codeAll_retag_congr {ts : List Term} {σ τ : Tag → Tag}
    (h : ∀ v ∈ Term.varsOfAll ts, σ v.tag = τ v.tag) :
    Term.codeAll (Term.retagAll σ ts) = Term.codeAll (Term.retagAll τ ts) := by
  refine (Term.codeAll_retag_iff ts ts σ τ).2 ⟨rfl, List.map_congr_left fun v hv => ?_⟩
  rw [Var.mark, Var.mark, h v hv]

lemma Var.marks_coarsen {us vs : List Var} {σ τ : Tag → Tag}
    (h : us.map (mark σ) = vs.map (mark σ))
    (hτ : ∀ u ∈ us, ∀ v ∈ vs, σ u.tag = σ v.tag → τ u.tag = τ v.tag) :
    us.map (mark τ) = vs.map (mark τ) := by
  induction us generalizing vs with
  | nil =>
    rw [List.map_nil] at h
    rw [List.map_eq_nil_iff.1 h.symm]
  | cons u us ih =>
    cases vs with
    | nil => cases h
    | cons v vs =>
      obtain ⟨hfirst, hrest⟩ := List.cons.inj h
      obtain ⟨htag, hty⟩ := Prod.mk.inj hfirst
      have hnew := hτ u (List.mem_cons_self ..) v (List.mem_cons_self ..) htag
      rw [List.map_cons, List.map_cons, mark, mark, hnew, hty,
        ih hrest fun a ha b hb => hτ a (List.mem_cons_of_mem _ ha) b (List.mem_cons_of_mem _ hb)]

/-- Terms with one code under tags that tell variables apart have one code under tags that do not
tell apart more. -/
theorem Term.codeAll_retag_coarsen {as bs : List Term} {σ τ : Tag → Tag}
    (h : Term.codeAll (Term.retagAll σ as) = Term.codeAll (Term.retagAll σ bs))
    (hτ : ∀ v ∈ Term.varsOfAll as, ∀ w ∈ Term.varsOfAll bs, σ v.tag = σ w.tag →
      τ v.tag = τ w.tag) :
    Term.codeAll (Term.retagAll τ as) = Term.codeAll (Term.retagAll τ bs) := by
  obtain ⟨hshape, hmarks⟩ := (Term.codeAll_retag_iff as bs σ σ).1 h
  exact (Term.codeAll_retag_iff as bs τ τ).2 ⟨hshape, Var.marks_coarsen hmarks hτ⟩

/-! ### Numbering by first occurrence -/

namespace Var

/-- The first occurrence of each variable. -/
def firsts : List Var → List Var
  | [] => []
  | v :: rest => v :: (firsts rest).filter fun u => u.tag ≠ v.tag

/-- How many variables occur before that with tag `t`. -/
def number (us : List Var) (t : Tag) : Tag := ((firsts us).map tag).idxOf t

lemma mem_firsts {us : List Var} {t : Tag} :
    t ∈ (firsts us).map tag ↔ t ∈ us.map tag := by
  induction us with
  | nil => rfl
  | cons v rest ih =>
    rw [List.mem_map] at ih
    by_cases h : t = v.tag
    · simp [firsts, h]
    · simp only [firsts, List.map_cons, List.mem_cons, h, false_or]
      rw [← ih, List.mem_map]
      refine exists_congr fun u => ?_
      rw [List.mem_filter, and_assoc]
      refine and_congr_right' ⟨fun hu => hu.2, fun hu => ⟨?_, hu⟩⟩
      simpa [hu] using h

lemma nodup_firsts (us : List Var) : ((firsts us).map tag).Nodup := by
  induction us with
  | nil => exact List.nodup_nil
  | cons v rest ih =>
    refine List.nodup_cons.2 ⟨fun h => ?_, (List.filter_sublist.map _).nodup ih⟩
    obtain ⟨u, hu, heq⟩ := List.mem_map.1 h
    simpa [heq] using (List.mem_filter.1 hu).2

/-- A further occurrence counts only if the variable is new. -/
theorem firsts_concat (us : List Var) (v : Var) :
    firsts (us ++ [v]) = if v.tag ∈ us.map tag then firsts us else firsts us ++ [v] := by
  induction us with
  | nil => simp [firsts]
  | cons u rest ih =>
    rw [List.cons_append, firsts, ih, firsts]
    rw [List.map_cons]
    by_cases hrest : v.tag ∈ rest.map tag
    · rw [if_pos hrest, if_pos (List.mem_cons_of_mem _ hrest)]
    · rw [if_neg hrest]
      by_cases hu : v.tag = u.tag
      · simp [hu, List.filter_append]
      · simp only [List.filter_append, List.mem_cons, hu, hrest, or_self, if_false]
        simp [hu]

lemma prefix_firsts (us vs : List Var) : firsts us <+: firsts (us ++ vs) := by
  induction vs generalizing us with
  | nil => simp only [List.append_nil, List.prefix_rfl]
  | cons v rest ih =>
    have h := ih (us ++ [v])
    rw [List.append_assoc, List.singleton_append, firsts_concat] at h
    split at h
    · exact h
    · exact (List.prefix_append _ _).trans h

/-- What comes later does not change a number. -/
theorem number_append {us : List Var} {t : Tag} (h : t ∈ us.map tag) (vs : List Var) :
    number (us ++ vs) t = number us t := by
  obtain ⟨rest, hrest⟩ := prefix_firsts us vs
  rw [number, number, ← hrest, List.map_append, List.idxOf_append, if_pos (mem_firsts.2 h)]

lemma number_new {us : List Var} {v : Var} (h : v.tag ∉ us.map tag) :
    number (us ++ [v]) v.tag = (firsts us).length := by
  rw [number, firsts_concat, if_neg h, List.map_append, List.idxOf_append,
    if_neg fun hv => h (mem_firsts.1 hv)]
  simp

/-- The tag with a number. -/
lemma getElem?_number {us : List Var} {t : Tag} (h : t ∈ us.map tag) :
    ((firsts us).map tag)[number us t]? = some t := by
  have hlt := List.idxOf_lt_length_of_mem (mem_firsts.2 h)
  rw [number, List.getElem?_eq_getElem hlt, List.getElem_idxOf]

lemma number_inj {us : List Var} {s t : Tag} (hs : s ∈ us.map tag) (ht : t ∈ us.map tag)
    (h : number us s = number us t) : s = t := by
  have hget := getElem?_number hs
  rw [h, getElem?_number ht] at hget
  exact (Option.some.inj hget).symm

/-- The change of tags keeps different tags different. -/
def InjOn (σ : Tag → Tag) (us : List Var) : Prop :=
  ∀ s ∈ us.map tag, ∀ t ∈ us.map tag, σ s = σ t → s = t

lemma filter_mark {σ : Tag → Tag} {us vs : List Var} {u : Var}
    (hσ : ∀ w ∈ us, σ w.tag = σ u.tag → w.tag = u.tag)
    (h : us.map (mark σ) = vs.map (mark id)) :
    (us.filter fun w => w.tag ≠ u.tag).map (mark σ) =
      (vs.filter fun w => w.tag ≠ σ u.tag).map (mark id) := by
  induction us generalizing vs with
  | nil =>
    rw [List.map_nil, eq_comm, List.map_eq_nil_iff] at h
    rw [h]
    rfl
  | cons w rest ih =>
    obtain ⟨v, vs, rfl, hv, hrest⟩ := List.map_eq_cons_iff.1 h.symm
    obtain ⟨hw, hσ⟩ := List.forall_mem_cons.1 hσ
    have htag : v.tag = σ w.tag := congrArg Prod.fst hv
    have ih := ih hσ hrest.symm
    by_cases heq : w.tag = u.tag
    · have heq' : v.tag = σ u.tag := by rw [htag, heq]
      simpa [heq, heq'] using ih
    · have heq' : v.tag ≠ σ u.tag := fun hv => heq (hw (htag ▸ hv))
      simpa [heq, heq', hv] using ih

/-- The first occurrences are in the same places. -/
theorem firsts_mark {σ : Tag → Tag} {us vs : List Var} (hσ : InjOn σ us)
    (h : us.map (mark σ) = vs.map (mark id)) :
    (firsts us).map (mark σ) = (firsts vs).map (mark id) := by
  induction us generalizing vs with
  | nil =>
    rw [List.map_nil, eq_comm, List.map_eq_nil_iff] at h
    rw [h]
    rfl
  | cons u rest ih =>
    obtain ⟨v, vs, rfl, hv, hrest⟩ := List.map_eq_cons_iff.1 h.symm
    have htag : v.tag = σ u.tag := congrArg Prod.fst hv
    have hrest' : InjOn σ rest := fun s hs t ht =>
      hσ s (List.mem_cons_of_mem _ hs) t (List.mem_cons_of_mem _ ht)
    rw [firsts, firsts, List.map_cons, List.map_cons, hv, htag]
    congr 1
    refine filter_mark (fun w hw heq => ?_) (ih hrest' hrest.symm)
    have hmem : w.tag ∈ rest.map tag := mem_firsts.1 (List.mem_map_of_mem hw)
    exact hσ w.tag (List.mem_cons_of_mem _ hmem) u.tag (List.mem_cons_self ..) heq

lemma number_mark {σ : Tag → Tag} {us vs : List Var} (hσ : InjOn σ us)
    (h : us.map (mark σ) = vs.map (mark id)) {t : Tag} (ht : t ∈ us.map tag) :
    number vs (σ t) = number us t := by
  have hfirsts : (firsts vs).map tag = ((firsts us).map tag).map σ := by
    have h := congrArg (List.map Prod.fst) (firsts_mark hσ h)
    simpa [mark, Function.comp_def] using h.symm
  have hmem : ∀ s ∈ (firsts us).map tag, σ s = σ t → s = t :=
    fun s hs => hσ s (mem_firsts.1 hs) t ht
  rw [number, number, hfirsts]
  generalize (firsts us).map tag = l at hmem
  induction l with
  | nil => rfl
  | cons s rest ih =>
    obtain ⟨hs, hrest⟩ := List.forall_mem_cons.1 hmem
    rw [List.map_cons, List.idxOf_cons, List.idxOf_cons, ih hrest]
    by_cases heq : s = t
    · rw [heq, BEq.rfl, BEq.rfl]
    · rw [beq_false_of_ne heq, beq_false_of_ne fun h => heq (hs h)]

/-- Occurrences have the same numbers in the same places exactly if one list comes from the other
by an injective change of tags. -/
theorem exists_retag_iff {us vs : List Var} :
    us.map (mark (number us)) = vs.map (mark (number vs)) ↔
      ∃ σ, InjOn σ us ∧ us.map (mark σ) = vs.map (mark id) := by
  constructor
  · intro h
    -- The tag at the same first place on the other side.
    let σ : Tag → Tag := fun t => (((firsts vs).map tag)[number us t]?).getD 0
    have hσ : ∀ u v, v ∈ vs → mark (number us) u = mark (number vs) v → mark σ u = mark id v := by
      intro u v hv huv
      obtain ⟨htag, hty⟩ := Prod.mk.inj huv
      have hget := getElem?_number (List.mem_map_of_mem hv)
      rw [← htag] at hget
      simp only [mark, σ, hget, hty]
      rfl
    -- Every variable has a partner: one at the same place.
    have hpartner : ∀ u ∈ us, ∃ v ∈ vs, mark (number us) u = mark (number vs) v := by
      intro u hu
      have hmem : mark (number us) u ∈ us.map (mark (number us)) := List.mem_map_of_mem hu
      rw [h] at hmem
      obtain ⟨v, hv, heq⟩ := List.mem_map.1 hmem
      exact ⟨v, hv, heq.symm⟩
    refine ⟨σ, ?_, ?_⟩
    · intro s hs t ht heq
      obtain ⟨u, hu, rfl⟩ := List.mem_map.1 hs
      obtain ⟨u', hu', rfl⟩ := List.mem_map.1 ht
      obtain ⟨v, hv, huv⟩ := hpartner u hu
      obtain ⟨v', hv', huv'⟩ := hpartner u' hu'
      have h₁ : σ u.tag = v.tag := congrArg Prod.fst (hσ u v hv huv)
      have h₂ : σ u'.tag = v'.tag := congrArg Prod.fst (hσ u' v' hv' huv')
      refine number_inj hs ht ?_
      calc number us u.tag = number vs v.tag := congrArg Prod.fst huv
        _ = number vs v'.tag := by rw [← h₁, heq, h₂]
        _ = number us u'.tag := (congrArg Prod.fst huv').symm
    · refine List.ext_getElem? fun i => ?_
      have hi := congrArg (·[i]?) h
      simp only [List.getElem?_map] at hi ⊢
      cases hu : us[i]? with
      | none =>
        rw [hu] at hi
        rw [Option.map_eq_none_iff.1 hi.symm]
        rfl
      | some u =>
        rw [hu] at hi
        obtain ⟨v, hv, huv⟩ := Option.map_eq_some_iff.1 hi.symm
        rw [hv, Option.map_some, Option.map_some,
          hσ u v (List.mem_of_getElem? hv) huv.symm]
  · -- An injective renaming keeps first places.
    rintro ⟨σ, hσ, h⟩
    have hus : us.map (mark (number us)) = us.map (mark (number vs ∘ σ)) := by
      refine List.map_congr_left fun u hu => ?_
      rw [mark, mark, Function.comp, number_mark hσ h (List.mem_map_of_mem hu)]
    have hcomp := congrArg (List.map fun m : Tag × Code => (number vs m.1, m.2)) h
    rw [List.map_map, List.map_map] at hcomp
    rw [hus]
    exact hcomp

end Var

/-! ### Lists of values -/

/-- The values with their variables numbered by first occurrence. -/
def Term.numbered (ts : List Term) : List Term :=
  Term.retagAll (Var.number (Term.varsOfAll (Term.solidAll ts))) (Term.solidAll ts)

/-- The change of tags `σ` is injective and makes the values `bs` of the values `as`. Types stay
as they are. Environments are compared by what they bind, and a variable of a type without
run-time data counts as the value of its type. -/
structure Relabels (σ : Tag → Tag) (as bs : List Term) : Prop where
  injective : Var.InjOn σ (Term.varsOfAll (Term.solidAll as))
  same : Term.beqAll .content (Term.retagAll σ (Term.solidAll as)) (Term.solidAll bs) = true

namespace Relabels

variable {σ : Tag → Tag} {as bs : List Term}

lemma same_iff :
    Term.beqAll .content (Term.retagAll σ (Term.solidAll as)) (Term.solidAll bs) = true ↔
      Term.shapeOfAll (Term.solidAll as) = Term.shapeOfAll (Term.solidAll bs) ∧
        (Term.varsOfAll (Term.solidAll as)).map (Var.mark σ) =
          (Term.varsOfAll (Term.solidAll bs)).map (Var.mark id) := by
  rw [Term.beqAll_content_iff, ← Term.codeAll_retag_id (Term.solidAll bs)]
  exact Term.codeAll_retag_iff _ _ σ id

/-- The first occurrences of the variables are made of each other. -/
theorem firsts (h : Relabels σ as bs) :
    (Var.firsts (Term.varsOfAll (Term.solidAll as))).map (Var.mark σ) =
      (Var.firsts (Term.varsOfAll (Term.solidAll bs))).map (Var.mark id) :=
  Var.firsts_mark h.injective (same_iff.1 h.same).2

end Relabels

/-- Numbered values are the same exactly if the values are one up to an injective change of
tags. -/
theorem Term.numbered_iff {as bs : List Term} :
    Term.codeAll (Term.numbered as) = Term.codeAll (Term.numbered bs) ↔
      ∃ σ, Relabels σ as bs := by
  rw [Term.numbered, Term.numbered, Term.codeAll_retag_iff, Var.exists_retag_iff]
  constructor
  · rintro ⟨hshape, σ, hinj, hmark⟩
    exact ⟨σ, hinj, Relabels.same_iff.2 ⟨hshape, hmark⟩⟩
  · rintro ⟨σ, hinj, hsame⟩
    obtain ⟨hshape, hmark⟩ := Relabels.same_iff.1 hsame
    exact ⟨hshape, σ, hinj, hmark⟩

end Residual
