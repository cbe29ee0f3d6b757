import Residual.Proofs.Typed.Rules

/-!
Where variables stand in residual code.

The parts of a node are the terms right under it, each with the variables that the node brings
into its scope. A variable stands where it is used, and where it is bound. Main statement: where
every tag is bound once and every use is in scope, what a part of a node binds stands in that part
only. The branches of a split are parts, so the variables of one branch stand nowhere outside it.
-/

namespace Residual

/-! ### Nodes and scopes of environments -/

lemma Term.nodesOfAll_eq (ts : List Term) : Term.nodesOfAll ts = ts.flatMap Term.nodes := by
  induction ts with
  | nil => rfl
  | cons t rest ih => simp [Term.nodesOfAll, ih]

namespace Env

lemma nodesOfFields_eq (keep : Name → Bool) (m : List (Name × Term)) :
    nodesOfFields keep m = (m.filter fun e => keep e.1).flatMap fun e => e.2.nodes := by
  induction m with
  | nil => rfl
  | cons e rest ih => by_cases h : keep e.1 = true <;> simp [nodesOfFields, h, ih]

lemma boundOfFields_eq (keep : Name → Bool) (m : List (Name × Term)) :
    boundOfFields keep m = (m.filter fun e => keep e.1).flatMap fun e => e.2.bound := by
  induction m with
  | nil => rfl
  | cons e rest ih => by_cases h : keep e.1 = true <;> simp [boundOfFields, h, ih]

lemma fieldsScoped_iff {vars : List Var} {keep : Name → Bool} {m : List (Name × Term)} :
    FieldsScoped vars keep m ↔ ∀ e ∈ m, keep e.1 = true → e.2.Scoped vars := by
  induction m with
  | nil => simp [FieldsScoped]
  | cons e rest ih => simp [FieldsScoped, ih]

lemma nodes_eq_visible (env : Env) : env.nodes = env.visible.flatMap fun e => e.2.nodes := by
  cases env with
  | restricted m used => exact nodesOfFields_eq used.contains m
  | plain m | consed _ m =>
    rw [nodes, nodesOfFields_eq, List.filter_eq_self.2 fun _ _ => rfl]
    rfl

lemma bound_eq_visible (env : Env) : env.bound = env.visible.flatMap fun e => e.2.bound := by
  cases env with
  | restricted m used => exact boundOfFields_eq used.contains m
  | plain m | consed _ m =>
    rw [bound, boundOfFields_eq, List.filter_eq_self.2 fun _ _ => rfl]
    rfl

lemma Scoped.visible {vars : List Var} {env : Env} (h : env.Scoped vars) :
    ∀ e ∈ env.visible, e.2.Scoped vars := by
  cases env with
  | restricted m used =>
    exact fun e he => fieldsScoped_iff.1 h e (List.mem_filter.1 he).1 (List.mem_filter.1 he).2
  | plain m | consed _ m => exact fun e he => fieldsScoped_iff.1 h e he rfl

end Env

namespace Term

/-! ### Parts -/

/-- The terms right under a node, each with the variables that the node binds for it. -/
def parts : Term → List (List Var × Term)
  | .tuple items => items.map ([], ·)
  | .map env _ => env.visible.map fun e => ([], e.2)
  | .box inner _ => [([], inner)]
  | .letIn bind bound rest _ => [([], bound), ([bind], rest)]
  | .state stmt rest _ => [([], stmt), ([], rest)]
  | .op o args _ =>
    if o = .case then
      (args.take 1).map ([], ·) ++ ((branches? args.tail).getD []).map fun b => ([b.1], b.2)
    else args.map ([], ·)
  | .type _ | .var _ | .lit _ | .call _ _ _ _ => []

/-- The tags of the variables that a single node uses. -/
def uses : Term → List Tag
  | .var v => [v.tag]
  | .call _ _ args _ => args.map Var.tag
  | _ => []

/-- The tags of the variables that stand at a single node, as used or as bound. The variables of
the branches of a split have nodes of their own. -/
def here : Term → List Tag
  | .letIn bind _ _ _ => [bind.tag]
  | t => t.uses

/-- The tags of the variables wherever they stand. -/
def places (t : Term) : List Tag := t.nodes.flatMap here

/-- The tags that a part binds, or that are bound for it. -/
def boundIn (e : List Var × Term) : List Tag := e.1.map Var.tag ++ e.2.bound

/-- The tags that stand in a part, and those that are bound for it. -/
def placesIn (e : List Var × Term) : List Tag := e.1.map Var.tag ++ e.2.places

/-- The node is one of the code, at any depth. -/
inductive Within (n : Term) : Term → Prop where
  | here : Within n n
  | part {t : Term} {e : List Var × Term} : e ∈ t.parts → Within n e.2 → Within n t

lemma mem_of_mem_branches? {ts : List Term} {bs : List (Var × Term)}
    (h : branches? ts = some bs) : ∀ b ∈ bs, b.2 ∈ ts := by
  fun_induction branches? ts generalizing bs with
  | case1 => cases h; exact fun b hb => absurd hb List.not_mem_nil
  | case2 b body rest ih =>
    obtain ⟨rest', hrest, rfl⟩ := Option.map_eq_some_iff.1 h
    refine List.forall_mem_cons.2 ⟨by simp, fun c hc => ?_⟩
    exact List.mem_cons_of_mem _ (List.mem_cons_of_mem _ (ih hrest c hc))
  | case3 => cases h

/-- Parts are smaller. -/
theorem sizeOf_part {t : Term} {e : List Var × Term} (h : e ∈ t.parts) :
    sizeOf e.2 < sizeOf t := by
  have hall : ∀ {ts : List Term} {u : Term}, u ∈ ts → sizeOf u < sizeOf ts :=
    fun hu => List.sizeOf_lt_of_mem hu
  cases t with
  | type _ | var _ | lit _ | call _ _ _ _ => cases h
  | tuple items =>
    obtain ⟨u, hu, rfl⟩ := List.mem_map.1 h
    have := hall hu
    simp only [tuple.sizeOf_spec]
    omega
  -- The fields of a restricted environment are some of those it holds.
  | map env kind =>
    obtain ⟨⟨x, u⟩, hu, rfl⟩ := List.mem_map.1 h
    have hfield : ∀ m : List (Name × Term), (x, u) ∈ m → sizeOf u < sizeOf m := by
      intro m hm
      have := List.sizeOf_lt_of_mem hm
      simp only [Prod.mk.sizeOf_spec] at this
      omega
    have henv : sizeOf u < sizeOf env := by
      cases env with
      | plain m =>
        have := hfield m hu
        simp only [Env.plain.sizeOf_spec]
        omega
      | restricted m used =>
        have := hfield m (List.mem_filter.1 hu).1
        simp only [Env.restricted.sizeOf_spec]
        omega
      | consed s m =>
        have := hfield m hu
        simp only [Env.consed.sizeOf_spec]
        omega
    simp only [map.sizeOf_spec]
    omega
  | box inner ty =>
    rw [List.mem_singleton.1 h]
    simp only [box.sizeOf_spec]
    omega
  | letIn bind bound rest trace =>
    simp only [parts, List.mem_cons, List.not_mem_nil, or_false] at h
    rcases h with rfl | rfl <;> simp only [letIn.sizeOf_spec] <;> omega
  | state stmt rest trace =>
    simp only [parts, List.mem_cons, List.not_mem_nil, or_false] at h
    rcases h with rfl | rfl <;> simp only [state.sizeOf_spec] <;> omega
  -- The parts of a split are the value and the bodies, all among the operands.
  | op o args ty =>
    have hmem : e.2 ∈ args := by
      simp only [parts] at h
      split at h
      · rcases List.mem_append.1 h with h | h
        · obtain ⟨u, hu, rfl⟩ := List.mem_map.1 h
          exact List.mem_of_mem_take hu
        · obtain ⟨b, hb, rfl⟩ := List.mem_map.1 h
          cases hbs : branches? args.tail with
          | none => rw [hbs] at hb; cases hb
          | some bs =>
            rw [hbs] at hb
            exact List.mem_of_mem_tail (mem_of_mem_branches? hbs b hb)
      · obtain ⟨u, hu, rfl⟩ := List.mem_map.1 h
        exact hu
    have := hall hmem
    simp only [op.sizeOf_spec]
    omega

/-! ### Scoped code -/

section Scoped

variable {vars : List Var} {t : Term} {e : List Var × Term}

/-- The parts of a scoped split are a variable and a body for each branch. -/
lemma BranchesScoped.exists_branches (ts : List Term) (h : BranchesScoped vars ts) :
    ∃ bs : List (Var × Term), ts = bs.flatMap fun b => [.var b.1, b.2] := by
  match ts with
  | [] => exact ⟨[], rfl⟩
  | [.var b] => exact h.elim
  | .var b :: body :: rest =>
    obtain ⟨bs, hbs⟩ := BranchesScoped.exists_branches rest h.2
    exact ⟨(b, body) :: bs, by rw [hbs]; rfl⟩
  | .type _ :: _ | .lit _ :: _ | .tuple _ :: _ | .map _ _ :: _ | .box _ _ :: _
  | .letIn _ _ _ _ :: _ | .state _ _ _ :: _ | .op _ _ _ :: _ | .call _ _ _ _ :: _ => exact h.elim

/-- A scoped split: nothing, or a value and branches. -/
theorem Scoped.case_cases {args : List Term} {ty : Ty} (h : (op .case args ty).Scoped vars) :
    args = [] ∨ ∃ value, ∃ bs : List (Var × Term),
      args = value :: bs.flatMap (fun b => [.var b.1, b.2]) ∧ value.Scoped vars ∧
        (∀ b ∈ bs, b.2.Scoped (vars ++ [b.1])) ∧
        (op .case args ty).parts = ([], value) :: bs.map fun b => ([b.1], b.2) := by
  rw [Scoped, if_pos rfl] at h
  cases args with
  | nil => exact .inl rfl
  | cons value rest =>
    obtain ⟨bs, rfl⟩ := BranchesScoped.exists_branches rest h.2
    refine .inr ⟨value, bs, rfl, h.1, branchesScoped_flatMap.1 h.2, ?_⟩
    rw [parts, if_pos rfl, List.tail_cons, branches?_flatMap]
    rfl

lemma Scoped.part (h : t.Scoped vars) (he : e ∈ t.parts) : e.2.Scoped (vars ++ e.1) := by
  -- Parts that bind nothing stand in the scope of the whole.
  have hplain : ∀ ts : List Term, AllScoped vars ts →
      e ∈ ts.map (fun u => (([] : List Var), u)) → e.2.Scoped (vars ++ e.1) := by
    intro ts hts he
    obtain ⟨u, hu, rfl⟩ := List.mem_map.1 he
    rw [List.append_nil]
    exact allScoped_iff.1 hts u hu
  cases t with
  | type _ | var _ | lit _ | call _ _ _ _ => cases he
  | tuple items => exact hplain _ h he
  | map env kind =>
    obtain ⟨f, hf, rfl⟩ := List.mem_map.1 he
    rw [List.append_nil]
    exact Env.Scoped.visible h f hf
  | box inner ty => exact hplain [inner] ⟨h, trivial⟩ he
  | letIn bind bound rest trace =>
    simp only [parts, List.mem_cons, List.not_mem_nil, or_false] at he
    rcases he with rfl | rfl
    · rw [List.append_nil]
      exact h.1
    · exact h.2
  | state stmt rest trace => exact hplain [stmt, rest] ⟨h.1, h.2, trivial⟩ he
  -- A split binds in its bodies; other operations bind nothing.
  | op o args ty =>
    by_cases ho : o = .case
    · subst ho
      rcases h.case_cases with rfl | ⟨value, bs, -, hvalue, hbodies, hparts⟩
      · cases he
      · rw [hparts] at he
        rcases List.mem_cons.1 he with rfl | he
        · rw [List.append_nil]
          exact hvalue
        · obtain ⟨b, hb, rfl⟩ := List.mem_map.1 he
          exact hbodies b hb
    · rw [Scoped, if_neg ho] at h
      rw [parts, if_neg ho] at he
      exact hplain _ h he

/-- What a node uses is in scope there. -/
theorem Scoped.uses (h : t.Scoped vars) : ∀ tag ∈ t.uses, tag ∈ vars.map Var.tag := by
  cases t with
  | var v => exact List.forall_mem_singleton.2 (Var.InScope.tag_mem h)
  | call key kind args ty => exact List.forall_mem_map.2 fun v hv => (h v hv).tag_mem
  | _ => exact fun _ htag => absurd htag List.not_mem_nil

lemma map_append_flatMap_perm {α : Type} (l : List α) (f : α → Tag) (g : α → List Tag) :
    (l.map f ++ l.flatMap g).Perm (l.flatMap fun a => f a :: g a) := by
  induction l with
  | nil => exact .nil
  | cons a rest ih =>
    simp only [List.map_cons, List.flatMap_cons, List.cons_append]
    refine .cons _ ?_
    calc rest.map f ++ (g a ++ rest.flatMap g)
      _ = rest.map f ++ g a ++ rest.flatMap g := (List.append_assoc ..).symm
      List.Perm _ (g a ++ rest.map f ++ rest.flatMap g) := .append_right _ List.perm_append_comm
      _ = g a ++ (rest.map f ++ rest.flatMap g) := List.append_assoc ..
      List.Perm _ (g a ++ rest.flatMap fun a => f a :: g a) := .append_left _ ih

/-- The parts of scoped code bind what it binds. -/
theorem Scoped.bound_perm (h : t.Scoped vars) : t.bound.Perm (t.parts.flatMap boundIn) := by
  cases t with
  | type _ | var _ | lit _ | call _ _ _ _ => exact .nil
  | tuple items => simp [Term.bound, boundOfAll_eq, parts, boundIn, List.flatMap_map]
  | map env kind => simp [Term.bound, Env.bound_eq_visible, parts, boundIn, List.flatMap_map]
  | box inner ty => simp [Term.bound, parts, boundIn]
  | letIn bind bound rest trace => simp [Term.bound, parts, boundIn]
  | state stmt rest trace => simp [Term.bound, parts, boundIn]
  | op o args ty =>
    by_cases ho : o = .case
    · subst ho
      rcases h.case_cases with rfl | ⟨value, bs, rfl, -, -, hparts⟩
      · exact .nil
      · have hbodies : (bs.flatMap fun b => [Term.var b.1, b.2]).flatMap Term.bound =
            bs.flatMap fun b => b.2.bound := by
          rw [List.flatMap_assoc]
          simp [Term.bound]
        have hparts' : (op .case (value :: bs.flatMap fun b => [.var b.1, b.2]) ty).parts.flatMap
            boundIn = value.bound ++ bs.flatMap fun b => b.1.tag :: b.2.bound := by
          rw [hparts]
          simp [boundIn, List.flatMap_map]
        rw [hparts', Term.bound, if_pos rfl, List.tail_cons, binders, branches?_flatMap,
          Option.getD_some, List.map_map, boundOfAll, boundOfAll_eq, hbodies]
        refine (List.perm_append_comm_assoc ..).trans (.append_left _ ?_)
        exact map_append_flatMap_perm bs _ _
    · rw [Term.bound, if_neg ho, parts, if_neg ho]
      simp [boundOfAll_eq, boundIn, List.flatMap_map]

/-- Variables stand where the node uses them, and in its parts. -/
lemma Scoped.places_perm (h : t.Scoped vars) :
    t.places.Perm (t.uses ++ t.parts.flatMap placesIn) := by
  have hall : ∀ ts : List Term, (ts.flatMap nodes).flatMap here =
      (ts.map fun u => (([] : List Var), u)).flatMap placesIn := by
    intro ts
    rw [List.flatMap_assoc, List.flatMap_map]
    rfl
  cases t with
  | type _ | lit _ => exact .nil
  | var v => exact .refl _
  | call key kind args ty => simp [places, nodes, here, Term.uses, parts]
  | tuple items =>
    rw [places, nodes, nodesOfAll_eq, List.flatMap_cons, hall]
    exact .refl _
  | map env kind =>
    rw [places, nodes, Env.nodes_eq_visible, List.flatMap_cons, List.flatMap_assoc]
    simp [here, Term.uses, parts, placesIn, List.flatMap_map, places]
  | box inner ty => simp [places, nodes, here, Term.uses, parts, placesIn]
  -- The binder stands before the bound term here and after it there.
  | letIn bind bound rest trace =>
    simp only [places, nodes, here, Term.uses, parts, placesIn, List.flatMap_cons,
      List.flatMap_append, List.flatMap_nil, List.map_nil, List.map_cons, List.nil_append,
      List.append_nil, List.singleton_append]
    exact List.perm_middle.symm
  | state stmt rest trace => simp [places, nodes, here, Term.uses, parts, placesIn]
  | op o args ty =>
    have hnodes : (op o args ty).places = (args.flatMap nodes).flatMap here := by
      rw [places, nodes, nodesOfAll_eq, List.flatMap_cons]
      rfl
    by_cases ho : o = .case
    · subst ho
      rcases h.case_cases with rfl | ⟨value, bs, rfl, -, -, hparts⟩
      · exact .nil
      · rw [hnodes, hparts]
        simp [List.flatMap_assoc, List.flatMap_map, placesIn, places, nodes, here, Term.uses]
    · rw [hnodes, hall, parts, if_neg ho]
      exact .refl _

/-- A tag that stands in scoped code is in scope or is bound in it. -/
theorem Scoped.mem_places (t : Term) (vars : List Var) (h : t.Scoped vars) :
    ∀ tag ∈ t.places, tag ∈ vars.map Var.tag ∨ tag ∈ t.bound := by
  intro tag htag
  have hbound : ∀ e ∈ t.parts, tag ∈ boundIn e → tag ∈ t.bound := fun e he hmem =>
    h.bound_perm.mem_iff.2 (List.mem_flatMap.2 ⟨e, he, hmem⟩)
  rcases List.mem_append.1 (h.places_perm.mem_iff.1 htag) with hused | hpart
  · exact .inl (h.uses tag hused)
  · obtain ⟨e, he, htag⟩ := List.mem_flatMap.1 hpart
    rcases List.mem_append.1 htag with htag | htag
    · exact .inr (hbound e he (List.mem_append_left _ htag))
    · rcases Scoped.mem_places e.2 (vars ++ e.1) (h.part he) tag htag with hscope | htag
      · rw [List.map_append] at hscope
        rcases List.mem_append.1 hscope with hscope | htag
        · exact .inl hscope
        · exact .inr (hbound e he (List.mem_append_left _ htag))
      · exact .inr (hbound e he (List.mem_append_right _ htag))
termination_by sizeOf t
decreasing_by exact sizeOf_part he

end Scoped

/-! ### Single assignment -/

/-- Code that uses these variables from outside: every occurrence is in scope where it stands, at
the type of its binder, no tag is bound twice, and none of a variable from outside is bound. -/
structure SingleAssignment (vars : List Var) (t : Term) : Prop where
  inScope : t.Scoped vars
  once : t.bound.Nodup
  new : ∀ v ∈ vars, v.tag ∉ t.bound

/-- What is bound in a part of a node of the code, or for the part, stands in that part only. -/
def Confined (t : Term) : Prop :=
  ∀ n : Term, n.Within t → ∀ e ∈ n.parts, ∀ tag ∈ boundIn e,
    t.places.count tag = (placesIn e).count tag

namespace SingleAssignment

variable {vars : List Var} {t : Term} {e : List Var × Term}

lemma parts_nodup (h : t.SingleAssignment vars) : (t.parts.flatMap boundIn).Nodup :=
  h.inScope.bound_perm.nodup_iff.1 h.once

lemma mem_bound (h : t.SingleAssignment vars) (he : e ∈ t.parts) {tag : Tag}
    (htag : tag ∈ boundIn e) : tag ∈ t.bound :=
  h.inScope.bound_perm.mem_iff.2 (List.mem_flatMap.2 ⟨e, he, htag⟩)

lemma boundIn_nodup (h : t.SingleAssignment vars) (he : e ∈ t.parts) : (boundIn e).Nodup := by
  obtain ⟨before, after, hparts⟩ := List.append_of_mem he
  have hnodup := h.parts_nodup
  rw [hparts, List.flatMap_append, List.flatMap_cons] at hnodup
  exact (List.nodup_append.1 (List.nodup_append.1 hnodup).2.1).1

lemma part (h : t.SingleAssignment vars) (he : e ∈ t.parts) :
    e.2.SingleAssignment (vars ++ e.1) := by
  obtain ⟨-, hnodup, hdisjoint⟩ := List.nodup_append.1 (h.boundIn_nodup he)
  refine ⟨h.inScope.part he, hnodup, List.forall_mem_append.2 ⟨fun v hv htag => ?_,
    fun v hv htag => hdisjoint v.tag (List.mem_map_of_mem hv) v.tag htag rfl⟩⟩
  exact h.new v hv (h.mem_bound he (List.mem_append_right _ htag))

/-- What is bound in one part stands in no other. -/
lemma count_part (h : t.SingleAssignment vars) (he : e ∈ t.parts) {tag : Tag}
    (htag : tag ∈ boundIn e) : t.places.count tag = (placesIn e).count tag := by
  have hscope : tag ∉ vars.map Var.tag := by
    intro hmem
    obtain ⟨v, hv, rfl⟩ := List.mem_map.1 hmem
    exact h.new v hv (h.mem_bound he htag)
  obtain ⟨before, after, hparts⟩ := List.append_of_mem he
  have hnodup := h.parts_nodup
  rw [hparts, List.flatMap_append, List.flatMap_cons] at hnodup
  obtain ⟨-, hrest, hbefore⟩ := List.nodup_append.1 hnodup
  have hafter := (List.nodup_append.1 hrest).2.2
  -- What another part uses is bound there or outside, so the tag is not used in it.
  have hother : ∀ d ∈ t.parts, tag ∉ boundIn d → tag ∉ placesIn d := by
    intro d hd hnot hmem
    rcases List.mem_append.1 hmem with hmem | hmem
    · exact hnot (List.mem_append_left _ hmem)
    · rcases Scoped.mem_places d.2 _ (h.inScope.part hd) tag hmem with hin | hin
      · rw [List.map_append] at hin
        exact (List.mem_append.1 hin).elim hscope fun hin => hnot (List.mem_append_left _ hin)
      · exact hnot (List.mem_append_right _ hin)
  have hzero : ∀ ds : List (List Var × Term), (∀ d ∈ ds, d ∈ t.parts) →
      tag ∉ ds.flatMap boundIn → (ds.flatMap placesIn).count tag = 0 := by
    intro ds hds hnot
    refine List.count_eq_zero.2 fun hmem => ?_
    obtain ⟨d, hd, hmem⟩ := List.mem_flatMap.1 hmem
    exact hother d (hds d hd) (fun hin => hnot (List.mem_flatMap.2 ⟨d, hd, hin⟩)) hmem
  have hused : t.uses.count tag = 0 :=
    List.count_eq_zero.2 fun hmem => hscope (h.inScope.uses tag hmem)
  have hb : (before.flatMap placesIn).count tag = 0 := by
    refine hzero before (fun d hd => by simp [hparts, hd]) fun hmem => ?_
    exact hbefore tag hmem tag (List.mem_append_left _ htag) rfl
  have ha : (after.flatMap placesIn).count tag = 0 := by
    refine hzero after (fun d hd => by simp [hparts, hd]) fun hmem => ?_
    exact hafter tag htag tag hmem rfl
  rw [h.inScope.places_perm.count_eq, hparts, List.flatMap_append, List.flatMap_cons,
    List.count_append, List.count_append, List.count_append, hused, hb, ha]
  omega

/-- What is bound in a part of any node stands in that part only. -/
theorem confined (h : t.SingleAssignment vars) : t.Confined := by
  intro n hn e he tag htag
  suffices hboth : tag ∈ t.bound ∧ t.places.count tag = (placesIn e).count tag from hboth.2
  induction hn generalizing vars with
  | here => exact ⟨h.mem_bound he htag, h.count_part he htag⟩
  | @part t d hd _ ih =>
    obtain ⟨hbound, hcount⟩ := ih (h.part hd)
    have hd' : tag ∈ boundIn d := List.mem_append_right _ hbound
    refine ⟨h.mem_bound hd hd', ?_⟩
    have hzero : (d.1.map Var.tag).count tag = 0 := by
      refine List.count_eq_zero.2 fun hmem => ?_
      exact (List.nodup_append.1 (h.boundIn_nodup hd)).2.2 tag hmem tag hbound rfl
    rw [h.count_part hd hd', placesIn, List.count_append, hzero, Nat.zero_add, hcount]

end SingleAssignment

end Term

end Residual
