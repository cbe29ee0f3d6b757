import Residual.Proofs.Typed.Formed

/-!
Renaming makes formed values from formed values, as long as only formed environments were entered.
-/

namespace Residual

/-- Only formed environments were entered. -/
def EnvTable.Formed (t : EnvTable) : Prop := ∀ m ∈ t.entries, Fields.Formed m

lemma EnvTable.Formed.enter {t : EnvTable} (h : t.Formed) {m : Fields Term}
    (hm : Fields.Formed m) : (t.enter m).2.Formed ∧ Fields.Formed (t.enter m).1.value := by
  refine ⟨fun n hn => ?_, ?_⟩
  · rcases @Interner.entries_intern _ ⟨Fields.sameContent⟩ t m n hn with rfl | hn
    · exact hm
    · exact h n hn
  · rcases @Interner.intern_mem _ ⟨Fields.sameContent⟩ t m with hv | hv
    · have hm' := hm
      rw [← hv] at hm'
      exact hm'
    · exact h _ hv

/-- What a renaming entered and recorded is formed, and its arguments are run-time data. -/
structure Renaming.Formed (r : Renaming) : Prop where
  envs : r.envs.Formed
  args : ∀ v ∈ r.args, v.Formed
  data : ∀ v ∈ r.args, v.ty.isUnit = false
  params : ∀ v ∈ r.params, v.Formed

namespace Rename

variable {α β : Type}

/-- The action keeps a formed renaming formed, and has a result with the property. -/
def Keeps (m : Rename α) (Q : α → Prop) : Prop :=
  ∀ r a s, m.run r = some (a, s) → r.Formed → s.Formed ∧ Q a

lemma keeps_pure {Q : α → Prop} {a : α} (h : Q a) : Keeps (pure a) Q := by
  intro r b s hrun hr
  obtain ⟨rfl, rfl⟩ := run_pure.1 hrun
  exact ⟨hr, h⟩

lemma Keeps.bind {m : Rename α} {f : α → Rename β} {P : α → Prop} {Q : β → Prop}
    (hm : Keeps m P) (hf : ∀ a, P a → Keeps (f a) Q) : Keeps (m >>= f) Q := by
  intro r b s hrun hr
  obtain ⟨a, t, h1, h2⟩ := run_bind.1 hrun
  obtain ⟨ht, ha⟩ := hm r a t h1 hr
  exact hf a ha t b s h2 ht

lemma Keeps.mapM {f : α → Rename β} {Q : β → Prop} {l : List α}
    (hf : ∀ a ∈ l, Keeps (f a) Q) : Keeps (l.mapM f) fun bs => ∀ b ∈ bs, Q b := by
  induction l with
  | nil => exact keeps_pure fun b hb => by cases hb
  | cons a l ih =>
    rw [List.mapM_cons]
    refine (hf a (List.mem_cons_self ..)).bind fun b hb => ?_
    refine (ih fun a ha => hf a (List.mem_cons_of_mem _ ha)).bind fun bs hbs => keeps_pure ?_
    exact List.forall_mem_cons.2 ⟨hb, hbs⟩

lemma keeps_freshTag : Keeps freshTag fun _ => True := by
  intro r t s hrun hr
  obtain ⟨-, -, rfl⟩ := run_freshTag.1 hrun
  exact ⟨⟨hr.envs, hr.args, hr.data, hr.params⟩, trivial⟩

lemma keeps_freshVar {t : Ty} (h : t.Formed) : Keeps (freshVar t) Var.Formed :=
  keeps_freshTag.bind fun _ _ => keeps_pure h

lemma keeps_useVar {v : Var} (h : v.Formed) (hdata : v.ty.isUnit = false) :
    Keeps (useVar v) Var.Formed := by
  obtain ⟨old, ty⟩ := v
  intro r u s hrun hr
  rcases run_useVar.1 hrun with ⟨tag, -, rfl, rfl⟩ | ⟨-, -, rfl, rfl⟩
  · exact ⟨hr, h⟩
  · refine ⟨⟨hr.envs, fun u hu => ?_, fun u hu => ?_, fun u hu => ?_⟩, h⟩
    · rcases List.mem_append.1 hu with hu | hu
      · exact hr.args u hu
      · exact List.mem_singleton.1 hu ▸ h
    · rcases List.mem_append.1 hu with hu | hu
      · exact hr.data u hu
      · exact List.mem_singleton.1 hu ▸ hdata
    · rcases List.mem_append.1 hu with hu | hu
      · exact hr.params u hu
      · exact List.mem_singleton.1 hu ▸ h

lemma keeps_consFields {m : Fields Term} (h : Fields.Formed m) :
    Keeps (consFields m) Env.Formed := by
  intro r e s hrun hr
  obtain ⟨rfl, rfl⟩ := run_consFields.1 hrun
  have henter := hr.envs.enter h
  exact ⟨⟨henter.1, hr.args, hr.data, hr.params⟩, henter.2⟩

/-- Renaming the bindings keeps their names. -/
theorem keeps_inOrder {l : List (Name × Rename Term)} (h : ∀ b ∈ l, Keeps b.2 Term.Formed) :
    Keeps (inOrder l) fun m => m.map Prod.fst = l.map Prod.fst ∧ ∀ e ∈ m, e.2.Formed := by
  unfold inOrder
  induction l with
  | nil => exact keeps_pure ⟨rfl, fun e he => by cases he⟩
  | cons b l ih =>
    rw [List.mapM_cons]
    have hb : Keeps (do return (b.1, ← b.2)) fun e => e.1 = b.1 ∧ e.2.Formed :=
      (h b (List.mem_cons_self ..)).bind fun t ht => keeps_pure ⟨rfl, ht⟩
    refine hb.bind fun e he => ?_
    refine (ih fun b hb => h b (List.mem_cons_of_mem _ hb)).bind fun m hm => keeps_pure ?_
    refine ⟨?_, List.forall_mem_cons.2 ⟨he.2, hm.2⟩⟩
    simp only [List.map_cons, he.1, hm.1]

lemma fields_names (m : List (Name × Term)) : (fields m).map Prod.fst = m.map Prod.fst := by
  induction m with
  | nil => rfl
  | cons e rest ih => simp [fields, ih]

lemma ascending_of_names {γ δ : Type} {m : Fields γ} {n : Fields δ}
    (h : m.map Prod.fst = n.map Prod.fst) (hn : Fields.Ascending n) : Fields.Ascending m := by
  have hn' : (n.map Prod.fst).Pairwise fun x y => x.index < y.index := List.pairwise_map.2 hn
  rw [← h, List.pairwise_map] at hn'
  exact hn'

mutual

lemma keeps_term (t : Term) (h : t.Formed) : Keeps (term t) Term.Formed := by
  match t with
  | .type _ => exact keeps_pure h
  | .lit _ => exact keeps_pure h
  | .var ⟨tag, ty⟩ =>
    rw [term]
    split
    · exact keeps_pure (Term.formed_ofUnit _ h)
    · rename_i hdata
      exact (keeps_useVar h (Bool.eq_false_iff.2 hdata)).bind fun _ hv => keeps_pure hv
  | .tuple items => exact (keeps_terms items h).bind fun _ hi => keeps_pure hi
  | .map e kind => exact (keeps_env e h.1).bind fun _ he => keeps_pure ⟨he, h.2⟩
  | .box inner ty => exact (keeps_term inner h.1).bind fun _ hi => keeps_pure ⟨hi, h.2⟩
  | .op o args ty =>
    obtain ⟨rfl, hargs, hty⟩ := h
    exact (keeps_terms args hargs).bind fun _ ha => keeps_pure ⟨rfl, ha, hty⟩
termination_by structural t

lemma keeps_terms (ts : List Term) (h : Term.AllFormed ts) :
    Keeps (terms ts) Term.AllFormed := by
  match ts with
  | [] => exact keeps_pure trivial
  | t :: rest =>
    exact (keeps_term t h.1).bind fun _ ht => (keeps_terms rest h.2).bind fun _ hr =>
      keeps_pure ⟨ht, hr⟩
termination_by structural ts

lemma keeps_env (e : Env) (h : e.Formed) : Keeps (env e) Env.Formed := by
  match e with
  | .plain m =>
    refine (keeps_inOrder (keeps_fields m h.2)).bind fun n hn => keeps_consFields ⟨?_, ?_⟩
    · exact ascending_of_names (hn.1.trans (fields_names m)) h.1
    · exact Env.fieldsFormed_iff.2 hn.2
  | .restricted m used =>
    refine (keeps_inOrder fun b hb => keeps_fields m h.2.1 b (mem_pick hb)).bind
      fun n hn => keeps_consFields (Fields.formed_ofList hn.2)
  | .consed _ m =>
    refine (keeps_inOrder (keeps_fields m h.2)).bind fun n hn => keeps_consFields ⟨?_, ?_⟩
    · exact ascending_of_names (hn.1.trans (fields_names m)) h.1
    · exact Env.fieldsFormed_iff.2 hn.2
termination_by structural e

lemma keeps_fields (m : List (Name × Term)) (h : Env.FieldsFormed m) :
    ∀ b ∈ fields m, Keeps b.2 Term.Formed := by
  match m with
  | [] => intro b hb; simp [fields] at hb
  | (x, t) :: rest =>
    intro b hb
    rw [fields, List.mem_cons] at hb
    rcases hb with rfl | hb
    · exact keeps_term t h.1
    · exact keeps_fields rest h.2 b hb
termination_by structural m

end

end Rename

end Residual
