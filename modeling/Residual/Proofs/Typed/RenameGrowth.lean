import Mathlib.Tactic.Lemma
import Residual.Typed.Rename

/-!
Renaming only adds: to the table of environments, to the supply of tags that are used up, to the
variables that are renamed, and to the arguments with their parameters.
-/

namespace Residual

/-- The second table has the entries of the first at their places, and perhaps more. -/
def Interner.Extends {α : Type} (t u : Interner α) : Prop := t.entries <+: u.entries

namespace Interner

variable {α : Type}

lemma Extends.refl (t : Interner α) : t.Extends t := List.prefix_refl _

lemma Extends.trans {t u v : Interner α} (h : t.Extends u) (k : u.Extends v) : t.Extends v :=
  List.IsPrefix.trans h k

lemma extends_intern [BEq α] (t : Interner α) (a : α) : t.Extends (t.intern a).2 := by
  cases hs : t.symbol? a with
  | some s => rw [(intern_of_symbol?_eq_some hs).1]; exact Extends.refl t
  | none => rw [intern_of_symbol?_eq_none hs]; exact List.prefix_append ..

lemma Extends.getElem? {t u : Interner α} (h : t.Extends u) {n : Nat} {a : α}
    (hn : t.entries[n]? = some a) : u.entries[n]? = some a := by
  obtain ⟨rest, hrest⟩ := h
  have hlt : n < t.entries.length := (List.getElem?_eq_some_iff.1 hn).1
  rw [← hrest, List.getElem?_append_left hlt, hn]

end Interner

lemma EnvTable.extends_enter (t : EnvTable) (m : Fields Term) : t.Extends (t.enter m).2 :=
  @Interner.extends_intern _ ⟨Fields.sameContent⟩ t m

/-- What a renaming knows is kept, and more is added. No tag is drawn past the last one. -/
structure Renaming.Grows (r s : Renaming) : Prop where
  envs : r.envs.Extends s.envs
  tags : r.tags.next ≤ s.tags.next
  room : s.tags.next ≤ max r.tags.next Tags.limit
  args : r.args <+: s.args
  params : r.params <+: s.params

namespace Renaming.Grows

lemma refl (r : Renaming) : r.Grows r :=
  ⟨.refl _, Nat.le_refl _, Nat.le_max_left .., List.prefix_refl _, List.prefix_refl _⟩

lemma trans {r s t : Renaming} (h : r.Grows s) (k : s.Grows t) : r.Grows t :=
  ⟨h.envs.trans k.envs, Nat.le_trans h.tags k.tags,
    Nat.le_trans k.room (Nat.max_le.2 ⟨h.room, Nat.le_max_right ..⟩), h.args.trans k.args,
    h.params.trans k.params⟩

end Renaming.Grows

namespace Rename

variable {α β : Type}

/-- The action only adds to what the renaming knows. -/
def Grows (m : Rename α) : Prop := ∀ r a s, m.run r = some (a, s) → r.Grows s

lemma run_bind {m : Rename α} {f : α → Rename β} {r : Renaming} {b : β} {s : Renaming} :
    (m >>= f).run r = some (b, s) ↔ ∃ a t, m.run r = some (a, t) ∧ (f a).run t = some (b, s) := by
  simp [StateT.run_bind, Option.bind_eq_some_iff]

lemma run_pure {a b : α} {r s : Renaming} :
    (pure a : Rename α).run r = some (b, s) ↔ a = b ∧ r = s := by
  simp [StateT.run_pure, Option.pure_def]

lemma run_freshTag {r : Renaming} {t : Tag} {s : Renaming} :
    freshTag.run r = some (t, s) ↔
      r.tags.next < Tags.limit ∧ t = r.tags.next ∧ s = { r with tags := ⟨r.tags.next + 1⟩ } := by
  simp only [freshTag, StateT.run, Tags.fresh?]
  split
  · simp_all [eq_comm]
  · rename_i h
    simp [h]

lemma run_modify {f : Renaming → Renaming} {r s : Renaming} {u : Unit} :
    (modify f : Rename Unit).run r = some (u, s) ↔ s = f r := by
  have hrun : (modify f : Rename Unit).run r = some ((), f r) := rfl
  rw [hrun]
  simp [eq_comm]

lemma grows_pure (a : α) : Grows (pure a) := by
  intro r b s h
  obtain ⟨-, rfl⟩ := run_pure.1 h
  exact .refl r

lemma Grows.bind {m : Rename α} {f : α → Rename β} (hm : Grows m) (hf : ∀ a, Grows (f a)) :
    Grows (m >>= f) := by
  intro r b s h
  obtain ⟨a, t, h1, h2⟩ := run_bind.1 h
  exact (hm _ _ _ h1).trans (hf a _ _ _ h2)

lemma grows_freshTag : Grows freshTag := by
  intro r t s h
  obtain ⟨hlt, -, rfl⟩ := run_freshTag.1 h
  exact ⟨.refl _, Nat.le_succ _, Nat.le_trans hlt (Nat.le_max_right ..), List.prefix_refl _,
    List.prefix_refl _⟩

lemma grows_bindVar (v : Var) : Grows (bindVar v) := by
  refine grows_freshTag.bind fun tag => Grows.bind ?_ fun _ => grows_pure _
  intro r u s h
  rw [run_modify.1 h]
  exact ⟨.refl _, Nat.le_refl _, Nat.le_max_left .., List.prefix_refl _, List.prefix_refl _⟩

lemma run_useVar {v : Var} {r s : Renaming} {u : Var} :
    (useVar v).run r = some (u, s) ↔
      (∃ tag, r.renamed.lookup v.tag = some tag ∧ u = ⟨tag, v.ty⟩ ∧ s = r) ∨
      (r.renamed.lookup v.tag = none ∧ r.tags.next < Tags.limit ∧ u = ⟨r.tags.next, v.ty⟩ ∧
        s = { r with
          tags := ⟨r.tags.next + 1⟩
          renamed := (v.tag, r.tags.next) :: r.renamed
          args := r.args ++ [v]
          params := r.params ++ [⟨r.tags.next, v.ty⟩] }) := by
  unfold useVar
  rw [run_bind]
  have hget : ∀ a t, (get : Rename Renaming).run r = some (a, t) ↔ a = r ∧ t = r := by
    intro a t
    simp [eq_comm]
  simp only [hget]
  cases hl : r.renamed.lookup v.tag with
  -- The variable was met before.
  | some tag =>
    constructor
    · rintro ⟨a, t, ⟨rfl, rfl⟩, h⟩
      rw [hl] at h
      obtain ⟨rfl, rfl⟩ := run_pure.1 h
      exact .inl ⟨tag, rfl, rfl, rfl⟩
    · rintro (⟨tag', h, rfl, rfl⟩ | ⟨h, -⟩)
      · cases h
        refine ⟨_, _, ⟨rfl, rfl⟩, ?_⟩
        rw [hl]
        exact run_pure.2 ⟨rfl, rfl⟩
      · cases h
  -- It is met now: it becomes an argument and gets the next tag.
  | none =>
    constructor
    · rintro ⟨a, t, ⟨rfl, rfl⟩, h⟩
      rw [hl] at h
      obtain ⟨tag, t1, h1, h2⟩ := run_bind.1 h
      obtain ⟨u', t2, h3, h4⟩ := run_bind.1 h2
      obtain ⟨hlt, rfl, rfl⟩ := run_freshTag.1 h1
      rw [run_modify] at h3
      obtain ⟨rfl, rfl⟩ := run_pure.1 h4
      exact .inr ⟨rfl, hlt, rfl, h3⟩
    · rintro (⟨tag', h, -⟩ | ⟨-, hlt, rfl, rfl⟩)
      · cases h
      · refine ⟨_, _, ⟨rfl, rfl⟩, ?_⟩
        rw [hl]
        refine run_bind.2 ⟨_, _, run_freshTag.2 ⟨hlt, rfl, rfl⟩, ?_⟩
        exact run_bind.2 ⟨(), _, run_modify.2 rfl, run_pure.2 ⟨rfl, rfl⟩⟩

lemma grows_useVar (v : Var) : Grows (useVar v) := by
  intro r u s h
  rcases run_useVar.1 h with ⟨_, _, _, rfl⟩ | ⟨_, hlt, _, rfl⟩
  · exact .refl _
  · exact ⟨.refl _, Nat.le_succ _, Nat.le_trans hlt (Nat.le_max_right ..),
      List.prefix_append .., List.prefix_append ..⟩

lemma run_consFields {m : Fields Term} {r s : Renaming} {e : Env} :
    (consFields m).run r = some (e, s) ↔
      e = .consed (r.envs.enter m).1.symbol (r.envs.enter m).1.value ∧
        s = { r with envs := (r.envs.enter m).2 } := by
  simp [consFields, modifyGet, MonadStateOf.modifyGet, StateT.modifyGet, StateT.run,
    EnvTable.cons, eq_comm]

lemma grows_consFields (m : Fields Term) : Grows (consFields m) := by
  intro r e s h
  obtain ⟨-, rfl⟩ := run_consFields.1 h
  exact ⟨r.envs.extends_enter m, Nat.le_refl _, Nat.le_max_left .., List.prefix_refl _,
    List.prefix_refl _⟩

lemma Grows.mapM {f : α → Rename β} {l : List α} (hf : ∀ a ∈ l, Grows (f a)) :
    Grows (l.mapM f) := by
  induction l with
  | nil => exact grows_pure _
  | cons a l ih =>
    rw [List.mapM_cons]
    refine (hf a (List.mem_cons_self ..)).bind fun b => Grows.bind ?_ fun _ => grows_pure _
    exact ih fun a ha => hf a (List.mem_cons_of_mem _ ha)

lemma grows_inOrder {l : List (Name × Rename Term)} (h : ∀ b ∈ l, Grows b.2) :
    Grows (inOrder l) :=
  Grows.mapM fun b hb => (h b hb).bind fun _ => grows_pure _

lemma mem_pick {γ : Type} {used : Captures} {m : Fields γ} {e : Name × γ}
    (h : e ∈ used.pick m) : e ∈ m := by
  simp only [Captures.pick, List.mem_filterMap, Option.map_eq_some_iff] at h
  obtain ⟨x, -, a, ha, rfl⟩ := h
  exact Fields.mem_of_get? ha

mutual

lemma grows_term (t : Term) : Grows (term t) := by
  match t with
  | .type _ => exact grows_pure _
  | .lit _ => exact grows_pure _
  | .var v =>
    rw [term]
    split
    · exact grows_pure _
    · exact (grows_useVar v).bind fun _ => grows_pure _
  | .tuple items => exact (grows_terms items).bind fun _ => grows_pure _
  | .map e kind => exact (grows_env e).bind fun _ => grows_pure _
  | .box inner ty => exact (grows_term inner).bind fun _ => grows_pure _
  | .letIn bind bound rest trace =>
    exact (grows_term bound).bind fun _ => (grows_bindVar bind).bind fun _ =>
      (grows_term rest).bind fun _ => grows_pure _
  | .state stmt rest trace =>
    exact (grows_term stmt).bind fun _ => (grows_term rest).bind fun _ => grows_pure _
  | .op o args ty =>
    rw [term]
    split
    · exact (grows_caseArgs args).bind fun _ => grows_pure _
    · exact (grows_terms args).bind fun _ => grows_pure _
  | .call key kind args ty =>
    exact (Grows.mapM fun v _ => grows_useVar v).bind fun _ => grows_pure _
termination_by structural t

lemma grows_terms (ts : List Term) : Grows (terms ts) := by
  match ts with
  | [] => exact grows_pure _
  | t :: rest =>
    exact (grows_term t).bind fun _ => (grows_terms rest).bind fun _ => grows_pure _
termination_by structural ts

lemma grows_caseArgs (ts : List Term) : Grows (caseArgs ts) := by
  match ts with
  | [] => exact grows_pure _
  | t :: rest =>
    exact (grows_term t).bind fun _ => (grows_caseBinders rest).bind fun _ => grows_pure _
termination_by structural ts

lemma grows_caseBinders (ts : List Term) : Grows (caseBinders ts) := by
  match ts with
  | [] => exact grows_pure _
  | t :: rest =>
    have hrest : ∀ a : Term, Grows (do return a :: (← caseBodies rest)) := fun a =>
      (grows_caseBodies rest).bind fun _ => grows_pure _
    have ht := grows_term t
    cases t with
    | var v => exact (grows_bindVar v).bind fun u => hrest (.var u)
    | _ => exact ht.bind hrest
termination_by structural ts

lemma grows_caseBodies (ts : List Term) : Grows (caseBodies ts) := by
  match ts with
  | [] => exact grows_pure _
  | t :: rest =>
    exact (grows_term t).bind fun _ => (grows_caseBinders rest).bind fun _ => grows_pure _
termination_by structural ts

lemma grows_env (e : Env) : Grows (env e) := by
  match e with
  | .plain m => exact (grows_inOrder (grows_fields m)).bind fun _ => grows_consFields _
  | .restricted m used =>
    exact (grows_inOrder fun b hb => grows_fields m b (mem_pick hb)).bind fun _ =>
      grows_consFields _
  | .consed _ m => exact (grows_inOrder (grows_fields m)).bind fun _ => grows_consFields _
termination_by structural e

lemma grows_fields (m : List (Name × Term)) : ∀ b ∈ fields m, Grows b.2 := by
  match m with
  | [] => intro b hb; simp [fields] at hb
  | (x, t) :: rest =>
    intro b hb
    rw [fields, List.mem_cons] at hb
    rcases hb with rfl | hb
    · exact grows_term t
    · exact grows_fields rest b hb
termination_by structural m

end

end Rename

end Residual
