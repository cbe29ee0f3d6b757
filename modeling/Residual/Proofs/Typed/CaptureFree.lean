import Mathlib.Data.List.Nodup
import Residual.Proofs.Surface.Sorted
import Residual.Proofs.Typed.Alpha
import Residual.Proofs.Typed.Packing

/-!
Renaming captures no variable.

A renaming keeps one table of new tags by old ones for the whole term, without scopes. If no tag is
bound twice and no bound tag occurs free, no entry of the table is ever replaced, and then the
table does the work of scopes. Main statement: from any start of the supply of tags, renaming gives
a term that differs in the tags of its variables only, and of the same type; the arguments are the
first occurrences of the free variables, the parameters go with them, and all tags of parameters
and binders are new and different.
-/

namespace Residual

/-! ### First occurrences -/

lemma Var.firsts_filter (us : List Var) (p : Tag → Bool) :
    firsts (us.filter fun v => p v.tag) = (firsts us).filter fun v => p v.tag := by
  induction us with
  | nil => rfl
  | cons u rest ih =>
    by_cases h : p u.tag = true
    · simp only [List.filter_cons, h, if_true, firsts, ih, List.filter_filter, Bool.and_comm]
    · have hdrop : ∀ w : Var, (p w.tag && decide (w.tag ≠ u.tag)) = p w.tag := by
        intro w
        by_cases hw : w.tag = u.tag
        · simp [hw, h]
        · simp [hw]
      simp only [List.filter_cons, h, Bool.false_eq_true, if_false, firsts, ih,
        List.filter_filter, hdrop]

lemma Var.firsts_append (us ws : List Var) :
    firsts (us ++ ws) = firsts us ++ firsts (ws.filter fun w => w.tag ∉ us.map tag) := by
  induction us with
  | nil => simp [firsts]
  | cons u rest ih =>
    rw [List.cons_append, firsts, ih, firsts, List.filter_append, List.cons_append]
    congr 2
    have h := Var.firsts_filter (ws.filter fun w => w.tag ∉ rest.map tag) fun t => t ≠ u.tag
    rw [← h, List.filter_filter]
    congr 2
    funext w
    by_cases hw : w.tag = u.tag <;> simp [hw]

/-! ### Tables of pairs -/

/-- No tag stands in two pairs of the table. -/
structure OneToOne (l : List (Tag × Tag)) : Prop where
  olds : (l.map Prod.fst).Nodup
  news : (l.map Prod.snd).Nodup

namespace OneToOne

variable {l ρ : List (Tag × Tag)} {a b c : Tag} {v w : Var}

lemma swap (h : OneToOne l) : OneToOne (l.map Prod.swap) :=
  ⟨by simpa [Function.comp_def] using h.news, by simpa [Function.comp_def] using h.olds⟩

lemma eq (h : OneToOne l) (hb : (a, b) ∈ l) (hc : (a, c) ∈ l) : b = c :=
  congrArg Prod.snd (List.inj_on_of_nodup_map h.olds hb hc rfl)

/-- Part of a table finds the partner in the table. -/
theorem lookup (h : OneToOne l) (hρ : ρ ⊆ l) (hab : (a, b) ∈ l) (ha : a ∈ ρ.map Prod.fst) :
    ρ.lookup a = some b := by
  cases hlookup : ρ.lookup a with
  | none =>
    obtain ⟨p, hp, rfl⟩ := List.mem_map.1 ha
    simpa using List.lookup_eq_none_iff.1 hlookup p hp
  | some c => rw [h.eq (hρ (mem_of_lookup hlookup)) hab]

/-- Part of a table pairs variables as the table does. -/
lemma paired (h : OneToOne l) (hρ : ρ ⊆ l) (hvw : (v.tag, w.tag) ∈ l)
    (hv : v.tag ∈ ρ.map Prod.fst) (hty : v.ty.code = w.ty.code) : v.Paired ρ w := by
  have hthere := h.lookup hρ hvw hv
  have hmem : w.tag ∈ (ρ.map Prod.swap).map Prod.fst := by
    rw [List.map_map]
    exact List.mem_map_of_mem (f := Prod.fst ∘ Prod.swap) (mem_of_lookup hthere)
  exact ⟨hthere, h.swap.lookup (List.map_subset _ hρ) (List.mem_map_of_mem hvw) hmem, hty⟩

lemma exists_partner {as bs : List Tag} (hall : List.Forall₂ (fun a b => (a, b) ∈ l) as bs)
    (hb : b ∈ bs) : ∃ a ∈ as, (a, b) ∈ l := by
  induction hall with
  | nil => cases hb
  | cons hab _ ih =>
    rcases List.mem_cons.1 hb with rfl | hb
    · exact ⟨_, List.mem_cons_self .., hab⟩
    · obtain ⟨a, ha, hmem⟩ := ih hb
      exact ⟨a, List.mem_cons_of_mem _ ha, hmem⟩

/-- Different tags have different partners. -/
theorem nodup (h : OneToOne l) {as bs : List Tag}
    (hall : List.Forall₂ (fun a b => (a, b) ∈ l) as bs) (has : as.Nodup) : bs.Nodup := by
  induction hall with
  | nil => exact .nil
  | @cons a b as bs hab hrest ih =>
    obtain ⟨ha, has⟩ := List.nodup_cons.1 has
    refine List.nodup_cons.2 ⟨fun hb => ha ?_, ih has⟩
    obtain ⟨c, hc, hcb⟩ := exists_partner hrest hb
    have heq : (a, b) = (c, b) := List.inj_on_of_nodup_map h.news hab hcb rfl
    exact (Prod.mk.inj heq).1 ▸ hc

lemma forall₂_paired (h : OneToOne l) (hρ : ρ ⊆ l) {vs ws : List Var}
    (hvws : List.Forall₂ (fun v w : Var => (v.tag, w.tag) ∈ l ∧ v.ty = w.ty) vs ws)
    (hvs : ∀ v ∈ vs, v.tag ∈ ρ.map Prod.fst) : List.Forall₂ (Var.Paired ρ) vs ws := by
  induction hvws with
  | nil => exact .nil
  | cons hvw _ ih =>
    obtain ⟨hv, hrest⟩ := List.forall_mem_cons.1 hvs
    exact .cons (h.paired hρ hvw.1 hv (congrArg Ty.code hvw.2)) (ih hrest)

end OneToOne

/-! ### Relations by the table -/

/-- The binders go in pairs of the table, and terms are related by every part of it that has the
free variables. -/
structure Follows (l : List (Tag × Tag)) (free : List Var) (bs bs' : List Tag)
    (R : List (Tag × Tag) → Prop) : Prop where
  binders : List.Forall₂ (fun a b => (a, b) ∈ l) bs bs'
  related : ∀ l' ρ, l ⊆ l' → OneToOne l' → ρ ⊆ l' → (∀ v ∈ free, v.tag ∈ ρ.map Prod.fst) → R ρ

namespace Follows

variable {l l' : List (Tag × Tag)} {free free' : List Var} {bs bs' cs cs' : List Tag}
  {R S : List (Tag × Tag) → Prop}

lemma mono (h : Follows l free bs bs' R) (hl : l ⊆ l') : Follows l' free bs bs' R :=
  ⟨h.binders.imp fun _ _ hab => hl hab, fun l'' ρ hl' => h.related l'' ρ (List.Subset.trans hl hl')⟩

lemma imp (h : Follows l free bs bs' R) (himp : ∀ ρ, R ρ → S ρ) : Follows l free bs bs' S :=
  ⟨h.binders, fun l' ρ hl h₁ hρ hfree => himp ρ (h.related l' ρ hl h₁ hρ hfree)⟩

lemma of_forall (h : ∀ ρ, R ρ) : Follows l free [] [] R := ⟨.nil, fun _ ρ _ _ _ _ => h ρ⟩

lemma append (h : Follows l free bs bs' R) (h' : Follows l free' cs cs' S) :
    Follows l (free ++ free') (bs ++ cs) (bs' ++ cs') fun ρ => R ρ ∧ S ρ := by
  refine ⟨List.rel_append h.binders h'.binders, fun l' ρ hl h₁ hρ hfree => ?_⟩
  obtain ⟨hleft, hright⟩ := List.forall_mem_append.1 hfree
  exact ⟨h.related l' ρ hl h₁ hρ hleft, h'.related l' ρ hl h₁ hρ hright⟩

/-- A pair that is bound. -/
theorem bind {a b : Tag} (h : Follows l free bs bs' R) (hab : (a, b) ∈ l) :
    Follows l (free.filter fun v => v.tag ≠ a) (a :: bs) (b :: bs') fun ρ => R ((a, b) :: ρ) := by
  refine ⟨.cons hab h.binders, fun l' ρ hl h₁ hρ hfree => ?_⟩
  refine h.related l' _ hl h₁ (List.cons_subset.2 ⟨hl hab, hρ⟩) fun v hv => ?_
  by_cases ha : v.tag = a
  · exact ha ▸ List.mem_cons_self ..
  · exact List.mem_cons_of_mem _ (hfree v (List.mem_filter.2 ⟨hv, decide_eq_true ha⟩))

end Follows

/-! ### What a renaming has met -/

namespace Renaming

variable {n : Tag} {r s t : Renaming} {bs cs : List Tag} {vs ws : List Var} {v : Var}

/-- The tags that are renamed. -/
def olds (r : Renaming) : List Tag := r.renamed.map Prod.fst

/-- The first occurrences of the variables that are not renamed. -/
def unmet (r : Renaming) (vs : List Var) : List Var :=
  Var.firsts (vs.filter fun v => v.tag ∉ r.olds)

/-- Every tag was renamed once, and the new tags are numbered from `n` on. -/
structure Tidy (n : Tag) (r : Renaming) : Prop where
  olds : r.olds.Nodup
  news : r.renamed.map Prod.snd = (List.range' n r.renamed.length).reverse
  next : r.tags.next = n + r.renamed.length
  params : List.Forall₂ (fun v w : Var => (v.tag, w.tag) ∈ r.renamed ∧ v.ty = w.ty) r.args r.params

lemma Tidy.oneToOne (h : r.Tidy n) : OneToOne r.renamed :=
  ⟨h.olds, h.news ▸ List.nodup_reverse.2 List.nodup_range'⟩

lemma Tidy.lt (h : r.Tidy n) {a b : Tag} (hab : (a, b) ∈ r.renamed) :
    n ≤ b ∧ b < r.tags.next := by
  have hmem : b ∈ r.renamed.map Prod.snd := List.mem_map_of_mem hab
  rw [h.news, List.mem_reverse, List.mem_range'_1] at hmem
  rw [h.next]
  exact hmem

lemma Tidy.start (envs : EnvTable) (n : Tag) : Renaming.Tidy n { envs, tags := ⟨n⟩ } :=
  ⟨.nil, rfl, rfl, .nil⟩

/-- The next tag is the new one of a tag. -/
def push (r : Renaming) (a : Tag) : Renaming :=
  { r with tags := ⟨r.tags.next + 1⟩, renamed := (a, r.tags.next) :: r.renamed }

lemma Tidy.push (h : r.Tidy n) {a : Tag} (ha : a ∉ r.olds) : (r.push a).Tidy n where
  olds := List.nodup_cons.2 ⟨ha, h.olds⟩
  news := by
    simp only [Renaming.push, List.map_cons, h.news, h.next, List.length_cons,
      List.range'_1_concat, List.reverse_append, List.reverse_singleton, List.singleton_append]
  next := by simp only [Renaming.push, h.next, List.length_cons, Nat.add_assoc]
  params := h.params.imp fun _ _ hvw => ⟨List.mem_cons_of_mem _ hvw.1, hvw.2⟩

/-- What the second renaming has met more than the first one. -/
structure Met (r s : Renaming) (bs : List Tag) (vs : List Var) : Prop where
  renamed : r.renamed ⊆ s.renamed
  olds : ∀ x, x ∈ s.olds ↔ x ∈ r.olds ∨ x ∈ bs ∨ x ∈ vs.map Var.tag
  args : s.args = r.args ++ r.unmet vs
  next : s.tags.next = r.tags.next + bs.length + (r.unmet vs).length

/-- The binders and the variables can be renamed: each binder is new and no variable stands for
it, and there are tags for them. -/
structure Allows (r : Renaming) (bs : List Tag) (vs : List Var) : Prop where
  once : bs.Nodup
  apart : ∀ x ∈ bs, x ∉ vs.map Var.tag
  new : ∀ x ∈ bs, x ∉ r.olds
  room : r.tags.next + bs.length + (r.unmet vs).length ≤ Tags.limit

lemma Met.refl (r : Renaming) : r.Met r [] [] :=
  ⟨List.Subset.refl _, fun x => by simp, by simp [unmet, Var.firsts], by simp [unmet, Var.firsts]⟩

lemma Met.unmet_append (h : r.Met s bs vs) (hapart : ∀ x ∈ bs, x ∉ ws.map Var.tag) :
    r.unmet (vs ++ ws) = r.unmet vs ++ s.unmet ws := by
  rw [unmet, List.filter_append, Var.firsts_append, unmet, unmet, List.filter_filter]
  congr 2
  refine List.filter_congr fun w hw => ?_
  have hbs : w.tag ∉ bs := fun hmem => hapart _ hmem (List.mem_map_of_mem hw)
  have hvs : w.tag ∈ (vs.filter fun v => v.tag ∉ r.olds).map Var.tag ↔
      w.tag ∈ vs.map Var.tag ∧ w.tag ∉ r.olds := by
    simp only [List.mem_map, List.mem_filter, decide_eq_true_eq]
    constructor
    · rintro ⟨v, ⟨hv, hnew⟩, heq⟩
      exact ⟨⟨v, hv, heq⟩, heq ▸ hnew⟩
    · rintro ⟨⟨v, hv, heq⟩, hnew⟩
      exact ⟨v, ⟨hv, heq ▸ hnew⟩, heq⟩
  rw [Bool.eq_iff_iff]
  simp only [Bool.and_eq_true, decide_eq_true_eq, hvs, h.olds]
  tauto

lemma Met.trans (h : r.Met s bs vs) (h' : s.Met t cs ws) (hapart : ∀ x ∈ bs, x ∉ ws.map Var.tag) :
    r.Met t (bs ++ cs) (vs ++ ws) := by
  refine ⟨List.Subset.trans h.renamed h'.renamed, fun x => ?_, ?_, ?_⟩
  · rw [h'.olds, h.olds, List.mem_append, List.map_append, List.mem_append]
    tauto
  · rw [h'.args, h.args, h.unmet_append hapart, List.append_assoc]
  · rw [h'.next, h.next, h.unmet_append hapart, List.length_append, List.length_append]
    ac_rfl

lemma unmet_prefix (r : Renaming) (vs ws : List Var) : r.unmet vs <+: r.unmet (vs ++ ws) := by
  rw [unmet, unmet, List.filter_append]
  exact Var.prefix_firsts _ _

lemma Allows.left (h : r.Allows (bs ++ cs) (vs ++ ws)) : r.Allows bs vs := by
  refine ⟨(List.nodup_append.1 h.once).1, fun x hx hv => ?_,
    fun x hx => h.new x (List.mem_append_left _ hx), ?_⟩
  · exact h.apart x (List.mem_append_left _ hx) (List.map_append ▸ List.mem_append_left _ hv)
  · have hlen := (r.unmet_prefix vs ws).length_le
    have hroom := h.room
    rw [List.length_append] at hroom
    exact Nat.le_trans (by omega) hroom

lemma Allows.apart_left (h : r.Allows (bs ++ cs) (vs ++ ws)) : ∀ x ∈ bs, x ∉ ws.map Var.tag :=
  fun x hx hw =>
    h.apart x (List.mem_append_left _ hx) (List.map_append ▸ List.mem_append_right _ hw)

lemma Allows.right (h : r.Allows (bs ++ cs) (vs ++ ws)) (hmet : r.Met s bs vs) :
    s.Allows cs ws := by
  obtain ⟨-, honce, hne⟩ := List.nodup_append.1 h.once
  refine ⟨honce, fun x hx hw => ?_, fun x hx hs => ?_, ?_⟩
  · exact h.apart x (List.mem_append_right _ hx) (List.map_append ▸ List.mem_append_right _ hw)
  · rcases (hmet.olds x).1 hs with hr | hb | hv
    · exact h.new x (List.mem_append_right _ hx) hr
    · exact hne x hb x hx rfl
    · exact h.apart x (List.mem_append_right _ hx) (List.map_append ▸ List.mem_append_left _ hv)
  · have hroom := h.room
    rw [hmet.unmet_append h.apart_left, List.length_append, List.length_append] at hroom
    rw [hmet.next]
    exact Nat.le_trans (by omega) hroom

/-! ### Scopes of binders -/

lemma mem_olds_push {a x : Tag} : x ∈ (r.push a).olds ↔ x = a ∨ x ∈ r.olds := List.mem_cons

lemma unmet_push (r : Renaming) (a : Tag) (vs : List Var) :
    (r.push a).unmet vs = r.unmet (vs.filter fun v => v.tag ≠ a) := by
  rw [unmet, unmet, List.filter_filter]
  congr 2
  funext v
  rw [Bool.eq_iff_iff]
  simp only [Bool.and_eq_true, decide_eq_true_eq, mem_olds_push]
  tauto

lemma mem_tags_filter {a x : Tag} (hx : x ≠ a) :
    x ∈ (vs.filter fun v => v.tag ≠ a).map Var.tag ↔ x ∈ vs.map Var.tag := by
  simp only [List.mem_map, List.mem_filter, decide_eq_true_eq]
  exact ⟨fun ⟨v, hv, heq⟩ => ⟨v, hv.1, heq⟩, fun ⟨v, hv, heq⟩ => ⟨v, ⟨hv, heq ▸ hx⟩, heq⟩⟩

lemma Allows.push {a : Tag} (h : r.Allows (a :: bs) (vs.filter fun v => v.tag ≠ a)) :
    (r.push a).Allows bs vs := by
  obtain ⟨hout, honce⟩ := List.nodup_cons.1 h.once
  have hne : ∀ x ∈ bs, x ≠ a := fun x hx heq => hout (heq ▸ hx)
  refine ⟨honce, fun x hx hv => ?_, fun x hx hold => ?_, ?_⟩
  · exact h.apart x (List.mem_cons_of_mem _ hx) ((mem_tags_filter (hne x hx)).2 hv)
  · rcases mem_olds_push.1 hold with heq | hold
    · exact hne x hx heq
    · exact h.new x (List.mem_cons_of_mem _ hx) hold
  · have hroom := h.room
    rw [List.length_cons] at hroom
    rw [unmet_push]
    exact Nat.le_trans (by simp only [Renaming.push]; omega) hroom

lemma Met.push {a : Tag} (h : (r.push a).Met s bs vs) :
    r.Met s (a :: bs) (vs.filter fun v => v.tag ≠ a) := by
  refine ⟨List.Subset.trans (List.subset_cons_self ..) h.renamed, fun x => ?_, ?_, ?_⟩
  · rw [h.olds, mem_olds_push, List.mem_cons]
    by_cases hx : x = a
    · simp [hx]
    · simp only [hx, mem_tags_filter hx, false_or]
  · rw [h.args, unmet_push]
    rfl
  · rw [h.next, unmet_push, List.length_cons]
    change r.tags.next + 1 + bs.length + _ = _
    ac_rfl

end Renaming

namespace Rename

variable {α β : Type} {n : Tag} {act : Rename α} {f : α → Rename β} {bs cs : List Tag}
  {vs ws : List Var} {P : List (Tag × Tag) → α → Prop} {Q : List (Tag × Tag) → β → Prop}

/-- The action renames the binders and the free variables wherever that is allowed, and its result
has the property for the table that it leaves behind. -/
def Renames (n : Tag) (act : Rename α) (bs : List Tag) (vs : List Var)
    (Q : List (Tag × Tag) → α → Prop) : Prop :=
  ∀ r : Renaming, r.Tidy n → r.Allows bs vs →
    ∃ a s, act.run r = some (a, s) ∧ s.Tidy n ∧ r.Met s bs vs ∧ Q s.renamed a

lemma renames_pure {a : α} (h : ∀ l, P l a) : Renames n (pure a) [] [] P :=
  fun r hr _ => ⟨a, r, rfl, hr, .refl r, h _⟩

lemma Renames.imp {P' : List (Tag × Tag) → α → Prop} (h : Renames n act bs vs P)
    (himp : ∀ l a, P l a → P' l a) : Renames n act bs vs P' := by
  intro r hr hallows
  obtain ⟨a, s, hrun, hs, hmet, hP⟩ := h r hr hallows
  exact ⟨a, s, hrun, hs, hmet, himp _ _ hP⟩

/-- No variable stands for a binder. -/
lemma Renames.of_apart (h : (∀ x ∈ bs, x ∉ vs.map Var.tag) → Renames n act bs vs P) :
    Renames n act bs vs P :=
  fun r hr hallows => h hallows.apart r hr hallows

lemma Renames.bind (ha : Renames n act bs vs P)
    (hf : ∀ a l, P l a → Renames n (f a) cs ws fun l' b => l ⊆ l' → Q l' b) :
    Renames n (act >>= f) (bs ++ cs) (vs ++ ws) Q := by
  intro r hr hallows
  obtain ⟨a, s, hrun, hs, hmet, hP⟩ := ha r hr hallows.left
  obtain ⟨b, t, hrun', ht, hmet', hQ⟩ := hf a _ hP s hs (hallows.right hmet)
  exact ⟨b, t, run_bind.2 ⟨a, s, hrun, hrun'⟩, ht, hmet.trans hmet' hallows.apart_left,
    hQ hmet'.renamed⟩

lemma Renames.map {g : α → β} (ha : Renames n act bs vs P) (h : ∀ l a, P l a → Q l (g a)) :
    Renames n (do return g (← act)) bs vs Q := by
  intro r hr hallows
  obtain ⟨a, s, hrun, hs, hmet, hP⟩ := ha r hr hallows
  exact ⟨g a, s, run_bind.2 ⟨a, s, hrun, rfl⟩, hs, hmet, h _ _ hP⟩

lemma renames_useVar (v : Var) : Renames n (useVar v) [] [v] fun l w =>
    (v.tag, w.tag) ∈ l ∧ v.ty = w.ty := by
  intro r hr hallows
  cases hlookup : r.renamed.lookup v.tag with
  | some tag =>
    have hmem := mem_of_lookup hlookup
    have hold : v.tag ∈ r.olds := List.mem_map_of_mem hmem
    have hunmet : r.unmet [v] = [] := by simp [Renaming.unmet, hold, Var.firsts]
    refine ⟨⟨tag, v.ty⟩, r, run_useVar.2 (.inl ⟨tag, hlookup, rfl, rfl⟩), hr, ?_, hmem, rfl⟩
    exact ⟨List.Subset.refl _, fun x => by simpa using fun h => h ▸ hold, by simp [hunmet],
      by simp [hunmet]⟩
  | none =>
    have hnew : v.tag ∉ r.olds := by
      intro hmem
      obtain ⟨p, hp, heq⟩ := List.mem_map.1 hmem
      simpa [heq] using List.lookup_eq_none_iff.1 hlookup p hp
    have hunmet : r.unmet [v] = [v] := by simp [Renaming.unmet, hnew, Var.firsts]
    have hroom := hallows.room
    rw [hunmet] at hroom
    refine ⟨⟨r.tags.next, v.ty⟩, _, run_useVar.2 (.inr ⟨hlookup, hroom, rfl, rfl⟩), ?_, ?_,
      List.mem_cons_self .., rfl⟩
    · have hpush := hr.push hnew
      refine ⟨hpush.olds, hpush.news, hpush.next, List.rel_append hpush.params ?_⟩
      exact .cons ⟨List.mem_cons_self .., rfl⟩ .nil
    · exact ⟨List.subset_cons_self .., fun x => by simp [Renaming.olds, or_comm],
        by rw [hunmet], by rw [hunmet]; rfl⟩

lemma run_bindVar {v u : Var} {r s : Renaming} : (bindVar v).run r = some (u, s) ↔
    r.tags.next < Tags.limit ∧ u = ⟨r.tags.next, v.ty⟩ ∧ s = r.push v.tag := by
  simp only [bindVar, run_bind, run_freshTag, run_modify, run_pure]
  constructor
  · rintro ⟨tag, t, ⟨hlt, rfl, rfl⟩, _, t', rfl, rfl, rfl⟩
    exact ⟨hlt, rfl, rfl⟩
  · rintro ⟨hlt, rfl, rfl⟩
    exact ⟨_, _, ⟨hlt, rfl, rfl⟩, (), _, rfl, rfl, rfl⟩

/-- What comes after a binder is in its scope. -/
theorem Renames.bindVar {v : Var} {f : Var → Rename β}
    (hf : ∀ tag, Renames n (f ⟨tag, v.ty⟩) cs ws fun l b => (v.tag, tag) ∈ l → Q l b) :
    Renames n (bindVar v >>= f) (v.tag :: cs) (ws.filter fun w => w.tag ≠ v.tag) Q := by
  intro r hr hallows
  have hlt : r.tags.next < Tags.limit := by
    have hroom := hallows.room
    rw [List.length_cons] at hroom
    exact Nat.lt_of_lt_of_le (by omega) hroom
  have hnew := hallows.new v.tag (List.mem_cons_self ..)
  obtain ⟨b, s, hrun, hs, hmet, hQ⟩ := hf r.tags.next _ (hr.push hnew) hallows.push
  exact ⟨b, s, run_bind.2 ⟨_, _, run_bindVar.2 ⟨hlt, rfl, rfl⟩, hrun⟩, hs, hmet.push,
    hQ (hmet.renamed (List.mem_cons_self ..))⟩

/-! ### Terms -/

/-- What becomes of a term. -/
def Becomes (t : Term) (l : List (Tag × Tag)) (t' : Term) : Prop :=
  Follows l t.free t.binderTags t'.binderTags (fun ρ => t.Alpha ρ t') ∧ t'.ty.code = t.ty.code

/-- What becomes of a list of terms. -/
def AllBecome (ts : List Term) (l : List (Tag × Tag)) (ts' : List Term) : Prop :=
  Follows l (Term.freeOfAll ts) (Term.binderTagsOfAll ts) (Term.binderTagsOfAll ts')
    (fun ρ => Term.AllAlpha ρ ts ts') ∧ Ty.codeAll (Term.tys ts') = Ty.codeAll (Term.tys ts)

/-- What becomes of bindings. -/
def FieldsBecome (m : List (Name × Term)) (l : List (Tag × Tag)) (m' : List (Name × Term)) : Prop :=
  Follows l (Env.freeOfFields (fun _ => true) m) (Env.binderTagsOfFields (fun _ => true) m)
      (Env.binderTagsOfFields (fun _ => true) m')
        (fun ρ => Env.FieldsAlpha ρ (fun _ => true) m m') ∧
    m'.map (fun e => (e.1, e.2.ty.code)) = m.map fun e => (e.1, e.2.ty.code)

/-- What becomes of an environment. -/
def EnvBecomes (e : Env) (l : List (Tag × Tag)) (e' : Env) : Prop :=
  Follows l e.free e.binderTags e'.binderTags (fun ρ => e.Alpha ρ e') ∧
    Ty.codeFields (Term.envTys e') = Ty.codeFields (Term.envTys e)

mutual

lemma binderTags_ofUnit (t : Ty) : (Term.ofUnit t).binderTags = [] := by
  match t with
  | .list items => exact binderTags_ofUnits items
  | .map fields kind => exact binderTags_ofUnitFields fields
  | .prim _ | .lit _ | .layout _ _ _ | .closure _ _ | .union _ | .recur _ | .array _ _
  | .foreign _ _ => rfl
termination_by structural t

lemma binderTags_ofUnits (ts : List Ty) : Term.binderTagsOfAll (Term.ofUnits ts) = [] := by
  match ts with
  | [] => rfl
  | t :: rest =>
    rw [Term.ofUnits, Term.binderTagsOfAll, binderTags_ofUnit t, binderTags_ofUnits rest]
    rfl
termination_by structural ts

lemma binderTags_ofUnitFields (m : List (Name × Ty)) :
    Env.binderTagsOfFields (fun _ => true) (Term.ofUnitFields m) = [] := by
  match m with
  | [] => rfl
  | (x, t) :: rest =>
    rw [Term.ofUnitFields, Env.binderTagsOfFields, if_pos rfl, binderTags_ofUnit t,
      binderTags_ofUnitFields rest]
    rfl
termination_by structural m

end

lemma renames_useVars (vs : List Var) : Renames n (vs.mapM useVar) [] vs fun l ws =>
    List.Forall₂ (fun v w : Var => (v.tag, w.tag) ∈ l ∧ v.ty = w.ty) vs ws := by
  induction vs with
  | nil => exact renames_pure fun _ => .nil
  | cons v rest ih =>
    rw [List.mapM_cons]
    refine (renames_useVar v).bind fun w l hw => ih.map fun l' ws hws hl => ?_
    exact .cons ⟨hl hw.1, hw.2⟩ hws

/-- Entering bindings keeps what became of them. -/
theorem Renames.cons {e : Env} {act : Rename (List (Name × Term))}
    (h : Renames n act e.binderTags e.free (FieldsBecome e.visible))
    {f : List (Name × Term) → Fields Term} (hf : ∀ l m, FieldsBecome e.visible l m → f m = m) :
    Renames n (do consFields (f (← act))) e.binderTags e.free (EnvBecomes e) := by
  intro r hr hallows
  obtain ⟨m, s, hrun, hs, hmet, hm⟩ := h r hr hallows
  have hcode := EnvTable.code_enter s.envs m
  refine ⟨_, _, run_bind.2 ⟨m, s, hrun, run_consFields.2 ⟨rfl, rfl⟩⟩,
    ⟨hs.olds, hs.news, hs.next, hs.params⟩,
    ⟨hmet.renamed, hmet.olds, hmet.args, hmet.next⟩, ?_, ?_⟩
  all_goals rw [hf _ m hm]
  · have hfollows := hm.1
    rw [← Env.free_visible, ← Env.binderTags_visible,
      Env.binderTagsOfFields_of_code m hcode.symm] at hfollows
    exact hfollows.imp fun ρ hρ => Env.alpha_visible.2 (hρ.of_code _ hcode.symm)
  · rw [Term.envTys_eq, Term.envTys_eq, Ty.codeFields_eq ?_]
    rw [List.map_map, List.map_map]
    exact (Fields.tys_of_code hcode).trans hm.2

/-- The bindings of a map, one after the other. -/
lemma renames_inOrder {m : List (Name × Term)}
    (h : ∀ e ∈ m, Renames n (term e.2) e.2.binderTags e.2.free (Becomes e.2)) :
    Renames n (inOrder (fields m)) (Env.binderTagsOfFields (fun _ => true) m)
      (Env.freeOfFields (fun _ => true) m) (FieldsBecome m) := by
  induction m with
  | nil => exact renames_pure fun _ => ⟨.of_forall fun _ => rfl, rfl⟩
  | cons e rest ih =>
    obtain ⟨x, t⟩ := e
    obtain ⟨ht, hrest⟩ := List.forall_mem_cons.1 h
    rw [fields, inOrder, List.mapM_cons]
    have hfirst := ht.map (g := fun t => (x, t)) (Q := fun l e => e.1 = x ∧ Becomes t l e.2)
      fun _ _ ha => ⟨rfl, ha⟩
    refine hfirst.bind fun e l he => (ih hrest).map fun l' m' hm hl => ?_
    obtain ⟨y, t'⟩ := e
    obtain ⟨rfl, hfollows, hty⟩ := he
    refine ⟨((hfollows.mono hl).append hm.1).imp fun ρ hρ => ?_, ?_⟩
    · exact ⟨t', m', rfl, hρ.1, hρ.2⟩
    · rw [List.map_cons, List.map_cons, hty, hm.2]

mutual

lemma renames_term (t : Term) (h : t.Renamable) :
    Renames n (term t) t.binderTags t.free (Becomes t) := by
  -- A node is related if its parts are; only a binder extends the pairs.
  match t with
  | .type _ | .lit _ => exact renames_pure fun _ => ⟨.of_forall fun _ => rfl, rfl⟩
  | .var v =>
    rw [term, Term.free]
    split
    · rename_i hunit
      refine renames_pure fun l => ⟨?_, by cases v; rw [Term.ty_ofUnit]; rfl⟩
      rw [Term.free, if_pos hunit, binderTags_ofUnit]
      exact .of_forall fun ρ => by rw [Term.Alpha, if_pos hunit]
    · -- A variable is paired with the one that stands for it, also if it is met again.
      rename_i hdata
      refine (renames_useVar v).map fun l w hw => ⟨⟨.nil, fun l' ρ hl h₁ hρ hfree => ?_⟩, ?_⟩
      · rw [Term.free, if_neg hdata] at hfree
        rw [Term.Alpha, if_neg hdata]
        exact ⟨w, rfl, h₁.paired hρ (hl hw.1) (hfree v (List.mem_singleton_self v))
          (congrArg Ty.code hw.2)⟩
      · cases v
        cases w
        exact congrArg Ty.code hw.2.symm
  | .tuple items =>
    refine (renames_terms items h).map fun l ts hts => ⟨hts.1.imp fun ρ hρ => ⟨ts, rfl, hρ⟩, ?_⟩
    rw [Term.ty, Term.ty, Ty.code, Ty.code, hts.2]
  | .map e kind =>
    refine (renames_env e h).map fun l e' he =>
      ⟨he.1.imp fun ρ hρ => ⟨e', kind, rfl, hρ, rfl⟩, ?_⟩
    rw [Term.ty, Term.ty, Ty.code, Ty.code, he.2]
  | .box inner ty =>
    exact (renames_term inner h).map fun l t' ht =>
      ⟨ht.1.imp fun ρ hρ => ⟨t', ty, rfl, hρ, rfl⟩, rfl⟩
  -- The bound term is outside the scope of the binder.
  | .letIn bind bound rest trace =>
    refine (renames_term bound h.1).bind fun bound' l hbound => Renames.bindVar fun tag =>
      (renames_term rest h.2).map fun l' rest' hrest htag hl => ⟨?_, hrest.2⟩
    refine ((hbound.1.mono hl).append (hrest.1.bind htag)).imp fun ρ hρ => ?_
    exact ⟨⟨tag, bind.ty⟩, bound', rest', rfl, hρ.1, rfl, hρ.2⟩
  | .state stmt rest trace =>
    refine (renames_term stmt h.1).bind fun stmt' l hstmt => (renames_term rest h.2).map
      fun l' rest' hrest hl => ⟨?_, hrest.2⟩
    exact ((hstmt.1.mono hl).append hrest.1).imp fun ρ hρ => ⟨stmt', rest', rfl, hρ.1, hρ.2⟩
  -- The branches of a split have binders of their own.
  | .op o args ty =>
    rw [Term.Renamable] at h
    rw [term, Term.binderTags, Term.free]
    split
    · rename_i ho
      rw [if_pos ho] at h
      refine (renames_caseArgs args h).map fun l args' hargs => ⟨?_, rfl⟩
      simp only [Term.free, Term.binderTags, if_pos ho]
      exact hargs.imp fun ρ hρ => ⟨args', ty, rfl, rfl, by rwa [if_pos ho]⟩
    · rename_i ho
      rw [if_neg ho] at h
      refine (renames_terms args h).map fun l args' hargs => ⟨?_, rfl⟩
      simp only [Term.free, Term.binderTags, if_neg ho]
      exact hargs.1.imp fun ρ hρ => ⟨args', ty, rfl, rfl, by rwa [if_neg ho]⟩
  | .call key kind args ty =>
    refine (renames_useVars args).map fun l args' hargs =>
      ⟨⟨.nil, fun l' ρ hl h₁ hρ hfree => ⟨args', ty, rfl, rfl, ?_⟩⟩, rfl⟩
    exact h₁.forall₂_paired hρ (hargs.imp fun _ _ hvw => ⟨hl hvw.1, hvw.2⟩) hfree
termination_by structural t

lemma renames_terms (ts : List Term) (h : Term.AllRenamable ts) :
    Renames n (terms ts) (Term.binderTagsOfAll ts) (Term.freeOfAll ts) (AllBecome ts) := by
  match ts with
  | [] => exact renames_pure fun _ => ⟨.of_forall fun _ => rfl, rfl⟩
  | t :: rest =>
    refine (renames_term t h.1).bind fun t' l ht => (renames_terms rest h.2).map
      fun l' ts' hts hl => ⟨?_, ?_⟩
    · exact ((ht.1.mono hl).append hts.1).imp fun ρ hρ => ⟨t', ts', rfl, hρ.1, hρ.2⟩
    · rw [Term.tys, Term.tys, Ty.codeAll, Ty.codeAll, ht.2, hts.2]
termination_by structural ts

lemma renames_caseArgs (ts : List Term) (h : Term.CaseRenamable ts) :
    Renames n (caseArgs ts) (Term.binderTagsOfCase ts) (Term.freeOfCase ts) fun l ts' =>
      Follows l (Term.freeOfCase ts) (Term.binderTagsOfCase ts) (Term.binderTagsOfCase ts') fun ρ =>
        Term.CaseAlpha ρ ts ts' := by
  match ts with
  | [] => exact renames_pure fun _ => .of_forall fun _ => rfl
  | t :: rest =>
    refine (renames_term t h.1).bind fun t' l ht => (renames_caseBinders rest h.2).map
      fun l' ts' hts hl => ?_
    exact ((ht.1.mono hl).append hts).imp fun ρ hρ => ⟨t', ts', rfl, hρ.1, hρ.2⟩
termination_by structural ts

lemma renames_caseBinders (ts : List Term) (h : Term.BranchesRenamable ts) :
    Renames n (caseBinders ts) (Term.binderTagsOfBranches ts) (Term.freeOfBranches ts)
      fun l ts' => Follows l (Term.freeOfBranches ts) (Term.binderTagsOfBranches ts)
        (Term.binderTagsOfBranches ts') fun ρ => Term.BranchesAlpha ρ ts ts' := by
  match ts with
  | [] => exact renames_pure fun _ => .of_forall fun _ => rfl
  | .var b :: rest =>
    refine .of_apart fun hapart => ?_
    have hfree : Term.freeOfBody (some b.tag) rest =
        (Term.freeOfBody none rest).filter fun v => v.tag ≠ b.tag :=
      Term.freeOfBody_some (hapart b.tag (List.mem_cons_self ..))
    rw [Term.freeOfBranches, hfree]
    refine Renames.bindVar fun tag => (renames_caseBodies rest h).map fun l ts' hts htag => ?_
    have hfollows := hts b.tag tag htag
    rw [hfree] at hfollows
    exact hfollows.imp fun ρ hρ => ⟨⟨tag, b.ty⟩, ts', rfl, rfl, hρ⟩
  | .type _ :: _ | .lit _ :: _ | .tuple _ :: _ | .map _ _ :: _ | .box _ _ :: _
  | .letIn _ _ _ _ :: _ | .state _ _ _ :: _ | .op _ _ _ :: _ | .call _ _ _ _ :: _ => exact h.elim
termination_by structural ts

/-- The body of a branch with the later branches. -/
lemma renames_caseBodies (ts : List Term) (h : Term.BodiesRenamable ts) :
    Renames n (caseBodies ts) (Term.binderTagsOfBodies ts) (Term.freeOfBody none ts)
      fun l ts' => ∀ a b, (a, b) ∈ l → Follows l (Term.freeOfBody (some a) ts)
        (a :: Term.binderTagsOfBodies ts) (b :: Term.binderTagsOfBodies ts') fun ρ =>
          Term.BodyAlpha ρ (a, b) ts ts' := by
  match ts with
  | [] =>
    exact renames_pure fun l a b hab => ⟨.cons hab .nil, fun _ _ _ _ _ _ => rfl⟩
  | t :: rest =>
    refine (renames_term t h.1).bind fun t' l ht => (renames_caseBinders rest h.2).map
      fun l' ts' hts hl a b hab => ?_
    exact (((ht.1.mono hl).bind hab).append hts).imp fun ρ hρ => ⟨t', ts', rfl, hρ.1, hρ.2⟩
termination_by structural ts

lemma renames_env (e : Env) (h : e.Renamable) :
    Renames n (env e) e.binderTags e.free (EnvBecomes e) := by
  match e with
  | .plain m =>
    exact (renames_inOrder fun e he => renames_fields _ m h.2 e he rfl).cons (f := id)
      fun _ _ _ => rfl
  | .restricted m used =>
    have hpick : used.pick m = m.filter fun e => used.contains e.1 :=
      Captures.pick_eq_filter h.1.2 h.1.1
    rw [env, pick_fields, hpick]
    refine Renames.cons (e := .restricted m used) (f := Fields.ofList) ?_ fun l m' hm => ?_
    · rw [Env.binderTags_visible, Env.free_visible]
      exact renames_inOrder fun e he =>
        renames_fields _ m h.2 e (List.mem_filter.1 he).1 (List.mem_filter.1 he).2
    · have hnames := congrArg (List.map Prod.fst) hm.2
      rw [List.map_map, List.map_map] at hnames
      have hasc : Fields.Ascending m' := ascending_of_names hnames (List.Pairwise.filter _ h.1.1)
      exact hasc.ofList_eq
  | .consed _ m =>
    exact (renames_inOrder fun e he => renames_fields _ m h.2 e he rfl).cons (f := id)
      fun _ _ _ => rfl
termination_by structural e

lemma renames_fields (keep : Name → Bool) (m : List (Name × Term))
    (h : Env.FieldsRenamable keep m) : ∀ e ∈ m, keep e.1 = true →
      Renames n (term e.2) e.2.binderTags e.2.free (Becomes e.2) := by
  match m with
  | [] => exact fun e he => absurd he List.not_mem_nil
  | (x, t) :: rest =>
    exact List.forall_mem_cons.2
      ⟨fun hx => renames_term t (h.1 hx), renames_fields keep rest h.2⟩
termination_by structural m

end

/-- Renaming a term captures no variable: the result differs from the term in the tags of its
variables only, where the parameters stand for the free variables with run-time data, each of them
recorded at its first occurrence, and all tags of parameters and binders are new and different. -/
theorem run_term_alpha (envs : EnvTable) (n : Tag) (e : Term) (hok : e.Renamable)
    (honce : e.binderTags.Nodup) (hfree : ∀ tag ∈ e.binderTags, tag ∉ e.free.map Var.tag)
    (hroom : n + e.binderTags.length + (Var.firsts e.free).length ≤ Tags.limit) :
    ∃ e' r, (term e).run { envs, tags := ⟨n⟩ } = some (e', r) ∧
      e.Alpha ((r.args.map Var.tag).zip (r.params.map Var.tag)) e' ∧ e'.ty.code = e.ty.code ∧
      r.args = Var.firsts e.free ∧ (∀ v ∈ r.args, v.ty.isUnit = false) ∧
      r.params.map Var.ty = r.args.map Var.ty ∧ (r.params.map Var.tag ++ e'.binderTags).Nodup ∧
      ∀ tag ∈ r.params.map Var.tag ++ e'.binderTags, n ≤ tag ∧ tag < r.tags.next := by
  -- At the start nothing is renamed, so every free variable is still to be met.
  have hunmet : Renaming.unmet { envs, tags := ⟨n⟩ } e.free = Var.firsts e.free :=
    congrArg Var.firsts (List.filter_eq_self.2 fun v _ => decide_eq_true List.not_mem_nil)
  obtain ⟨e', r, hrun, hr, hmet, hfollows, hty⟩ := renames_term e hok _ (.start envs n)
    ⟨honce, hfree, fun _ _ => List.not_mem_nil, hunmet ▸ hroom⟩
  have hargs : r.args = Var.firsts e.free := by rw [hmet.args, hunmet]; rfl
  have hpairs : List.Forall₂ (fun a b => (a, b) ∈ r.renamed) (r.args.map Var.tag)
      (r.params.map Var.tag) :=
    List.forall₂_map_left_iff.2 (List.forall₂_map_right_iff.2 (hr.params.imp fun _ _ h => h.1))
  -- Parameters and binders together are paired one to one.
  have hall := List.rel_append hpairs hfollows.binders
  have hlen : (r.args.map Var.tag).length ≤ (r.params.map Var.tag).length :=
    Nat.le_of_eq hpairs.length_eq
  have htys : List.Forall₂ Eq (r.args.map Var.ty) (r.params.map Var.ty) :=
    List.forall₂_map_left_iff.2 (List.forall₂_map_right_iff.2 (hr.params.imp fun _ _ h => h.2))
  refine ⟨e', r, hrun, ?_, hty, hargs, fun v hv => ?_, ?_, ?_, fun tag htag => ?_⟩
  · refine hfollows.related _ _ (List.Subset.refl _) hr.oneToOne (fun p hp => ?_) fun v hv => ?_
    · exact List.forall₂_iff_zip.1 hpairs |>.2 hp
    · rw [List.map_fst_zip hlen, hargs]
      exact Var.mem_firsts.2 (List.mem_map_of_mem hv)
  · exact hok.isUnit_free e v (Var.firsts_subset _ (hargs ▸ hv))
  · rw [List.forall₂_eq_eq_eq] at htys
    exact htys.symm
  · -- The pairs are one to one, so the new tags differ as the old ones do.
    refine hr.oneToOne.nodup hall (List.nodup_append.2
      ⟨hargs ▸ Var.nodup_firsts e.free, honce, fun a ha b hb heq => ?_⟩)
    rw [hargs] at ha
    exact hfree b hb (heq ▸ Var.mem_firsts.1 ha)
  · obtain ⟨a, -, hmem⟩ := OneToOne.exists_partner hall htag
    exact hr.lt hmem

/-- A sum of two variables that is bound and used, beside a variable without run-time data. -/
def sumInScope : Term :=
  let int : Ty := .prim (.int .i32)
  .letIn ⟨9, int⟩ (.op (.prim (.arith .add)) [.var ⟨3, int⟩, .var ⟨7, int⟩] int)
    (.tuple [.op (.prim (.arith .mul)) [.var ⟨9, int⟩, .var ⟨3, int⟩] int,
      .var ⟨4, .lit (.bool true)⟩]) {}

theorem run_term_alpha_sumInScope :
    ∃ e' r, (term sumInScope).run { envs := {}, tags := ⟨5⟩ } = some (e', r) ∧
      sumInScope.Alpha ((r.args.map Var.tag).zip (r.params.map Var.tag)) e' ∧
      r.args.map Var.tag = [3, 7] := by
  obtain ⟨e', r, hrun, halpha, -, hargs, -⟩ := run_term_alpha {} 5 sumInScope
    ⟨⟨trivial, trivial, trivial⟩, ⟨⟨trivial, trivial, trivial⟩, trivial, trivial⟩⟩ (by decide)
    (by decide) (by decide)
  exact ⟨e', r, hrun, halpha, by rw [hargs]; rfl⟩

end Rename

end Residual
