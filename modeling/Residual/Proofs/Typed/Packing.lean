import Residual.Proofs.Typed.RenameSound

/-!
Packed environments.

A renaming that starts without arguments lists the variables with run-time data in order of first
occurrence: these are the variables that a packed form holds. The renamed environment lists the
same types, and has one type for each tag if the given one has.
-/

namespace Residual

namespace Var

variable {σ : Tag → Tag} {us vs : List Var}

lemma firsts_subset (us : List Var) : firsts us ⊆ us := by
  induction us with
  | nil => exact fun _ h => h
  | cons u rest ih =>
    intro v hv
    rcases List.mem_cons.1 hv with rfl | hv
    · exact List.mem_cons_self ..
    · exact List.mem_cons_of_mem _ (ih (List.mem_filter.1 hv).1)

lemma exists_mark (h : us.map (mark σ) = vs.map (mark id)) {v : Var} (hv : v ∈ vs) :
    ∃ u ∈ us, σ u.tag = v.tag ∧ u.ty.code = v.ty.code := by
  have hmem : v.mark id ∈ us.map (mark σ) := h ▸ List.mem_map_of_mem hv
  obtain ⟨u, hu, hmark⟩ := List.mem_map.1 hmem
  obtain ⟨htag, hty⟩ := Prod.mk.inj hmark
  exact ⟨u, hu, htag, hty⟩

/-- One type for each tag is kept under other tags. -/
theorem OneType.of_marks (hone : OneType us) (hσ : InjOn σ us)
    (h : us.map (mark σ) = vs.map (mark id)) : OneType vs := by
  intro v₁ hv₁ v₂ hv₂ htag
  obtain ⟨u₁, hu₁, htag₁, hty₁⟩ := exists_mark h hv₁
  obtain ⟨u₂, hu₂, htag₂, hty₂⟩ := exists_mark h hv₂
  have hσtag : σ u₁.tag = σ u₂.tag := htag₁.trans (htag.trans htag₂.symm)
  rw [← hty₁, ← hty₂]
  exact hone u₁ hu₁ u₂ hu₂
    (hσ _ (List.mem_map_of_mem hu₁) _ (List.mem_map_of_mem hu₂) hσtag)

/-- Occurrences with one type for each tag are in the scope of the first ones. -/
theorem OneType.inScope_firsts (hone : OneType us) {v : Var} (hv : v ∈ us) :
    v.InScope (firsts us) := by
  obtain ⟨u, hu, htag⟩ := List.mem_map.1 (mem_firsts.2 (List.mem_map_of_mem hv))
  exact inScope_iff.2 ⟨u, hu, htag, hone u (firsts_subset us hu) v hv htag⟩

lemma injOn_number (us : List Var) : InjOn (number us) us :=
  fun _ hs _ ht heq => number_inj hs ht heq

end Var

mutual

/-- The variables that stay are those with run-time data. -/
theorem Term.vars_solid (t : Term) (h : t.Formed) :
    t.solid.vars = t.vars.filter fun v => !v.ty.isUnit := by
  match t with
  | .type _ | .lit _ => rfl
  | .var v =>
    rw [Term.solid]
    by_cases hv : v.ty.isUnit = true
    · rw [if_pos hv, Term.vars_ofUnit]
      simp [Term.vars, hv]
    · rw [if_neg hv]
      simp [Term.vars, hv]
  | .tuple items => exact Term.varsOfAll_solid items h
  | .map env kind => exact Env.vars_solid env h.1
  | .box inner ty => exact Term.vars_solid inner h.1
  | .op o args ty => exact Term.varsOfAll_solid args h.2.1
termination_by structural t

lemma Term.varsOfAll_solid (ts : List Term) (h : Term.AllFormed ts) :
    Term.varsOfAll (Term.solidAll ts) = (Term.varsOfAll ts).filter fun v => !v.ty.isUnit := by
  match ts with
  | [] => rfl
  | t :: rest =>
    rw [Term.solidAll, Term.varsOfAll, Term.varsOfAll, List.filter_append,
      Term.vars_solid t h.1, Term.varsOfAll_solid rest h.2]
termination_by structural ts

lemma Env.vars_solid (env : Env) (h : env.Formed) :
    env.solid.vars = env.vars.filter fun v => !v.ty.isUnit := by
  match env with
  | .plain m => exact Env.varsOfFields_solid_filter _ m h.2
  | .restricted m used => exact Env.varsOfFields_solid_filter _ m h.2.1
  | .consed _ m => exact Env.varsOfFields_solid_filter _ m h.2
termination_by structural env

lemma Env.varsOfFields_solid_filter (keep : Name → Bool) (m : List (Name × Term))
    (h : Env.FieldsFormed m) : Env.varsOfFields keep (Env.solidFields m) =
      (Env.varsOfFields keep m).filter fun v => !v.ty.isUnit := by
  match m with
  | [] => rfl
  | (x, t) :: rest =>
    rw [Env.solidFields, Env.varsOfFields, Env.varsOfFields, Term.vars_solid t h.1,
      Env.varsOfFields_solid_filter keep rest h.2]
    split
    · rw [List.filter_append]
    · rfl
termination_by structural m

end

lemma Env.packed_subset (env : Env) : env.packed ⊆ env.vars :=
  fun _ hv => (List.mem_filter.1 (Var.firsts_subset _ hv)).1

lemma Env.not_isUnit_of_mem_packed {env : Env} {v : Var} (h : v ∈ env.packed) :
    v.ty.isUnit = false := by
  simpa using (List.mem_filter.1 (Var.firsts_subset _ h)).2

namespace Rename

/-- What a packed form of a map holds, and what the environment in its type lists. -/
structure Packed (e e' : Env) (args : List Var) : Prop where
  listed : args = e.packed
  tys : e'.packed.map (fun v => v.ty.code) = args.map fun v => v.ty.code
  oneType : Var.OneType e.vars → Var.OneType e'.vars

lemma packed_env {e e' : Env} {envs : EnvTable} {s : Renaming} (h : e.Formed)
    (hrun : (env e).run { envs } = some (e', s)) : Packed e e' s.args := by
  obtain ⟨hafter, hcode⟩ := numbers_env e h _ _ _ [] hrun (Renaming.After.start envs)
  have hcode := hcode []
  rw [List.append_nil, List.nil_append] at hcode
  rw [List.nil_append] at hafter
  have hid : (e'.retag id).code = (e.solid.retag (Var.number e.solid.vars)).code := by
    rw [Env.code_retag_id, hcode]
  have hmarks := ((Env.code_retag_iff e' e.solid id _).1 hid).2.symm
  have hfilter : e'.vars.filter (fun v => !v.ty.isUnit) = e'.vars := by
    refine List.filter_eq_self.2 fun v' hv' => ?_
    obtain ⟨v, hv, -, hty⟩ := Var.exists_mark hmarks hv'
    rw [Env.vars_solid e h] at hv
    rw [← Ty.isUnit_of_code _ _ hty]
    exact (List.mem_filter.1 hv).2
  have hargs : s.args = e.packed := by rw [hafter.args, Env.vars_solid e h, Env.packed]
  refine ⟨hargs, ?_, fun hone => ?_⟩
  · have hfirsts := Var.firsts_mark (Var.injOn_number _) hmarks
    have htys := congrArg (List.map Prod.snd) hfirsts
    rw [List.map_map, List.map_map] at htys
    rw [Env.packed, hfilter, hafter.args]
    exact htys.symm
  · refine Var.OneType.of_marks ?_ (Var.injOn_number _) hmarks
    rw [Env.vars_solid e h]
    exact fun u hu v hv => hone u (List.mem_filter.1 hu).1 v (List.mem_filter.1 hv).1

end Rename

end Residual
