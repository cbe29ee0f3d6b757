import Residual.Proofs.Typed.Canonical
import Residual.Proofs.Typed.Sound

/-!
Sound types are compared by their canonical forms.

Whether sound types are equal, how they are ordered and what their union is do not depend on the
form in which environments are held.
-/

namespace Residual

/-! ### Types of one canonical form -/

section Canonical

variable {g g' : Ground}

/-- Whether two types are equal shows in their canonical forms. -/
theorem Ty.beq_of_canon {s t s' t' : Ty} (hs : s.Sound g) (ht : t.Sound g) (hs' : s'.Sound g')
    (ht' : t'.Sound g') (h₁ : s.canon = s'.canon) (h₂ : t.canon = t'.canon) :
    (s == t) = (s' == t') := by
  rw [Bool.eq_iff_iff, hs.beq_iff ht, hs'.beq_iff ht', Ty.code_of_canon h₁, Ty.code_of_canon h₂]

namespace Ty

lemma flatMembers_of_canon {s t : Ty} (h : s.canon = t.canon) :
    s.flatMembers.map canon = t.flatMembers.map canon := by
  cases s with
  | union members =>
    obtain ⟨members', rfl, hm⟩ := canon_eq_union h
    exact hm
  | _ => cases t <;> simp_all [flatMembers, canon]

lemma insertLast_of_canon {t t' : Ty} (ht : t.Sound g) (ht' : t'.Sound g')
    (h : t.canon = t'.canon) {us us' : List Ty} (hus : ∀ u ∈ us, u.Sound g)
    (hus' : ∀ u ∈ us', u.Sound g') (hsame : us.map canon = us'.map canon) :
    (insertLast t us).map canon = (insertLast t' us').map canon := by
  induction us generalizing us' with
  | nil =>
    obtain rfl : us' = [] := by simpa using hsame.symm
    simp [insertLast, h]
  | cons u rest ih =>
    cases us' with
    | nil => cases hsame
    | cons u' rest' =>
      obtain ⟨hu, hrest⟩ := List.forall_mem_cons.1 hus
      obtain ⟨hu', hrest'⟩ := List.forall_mem_cons.1 hus'
      obtain ⟨hfirst, hothers⟩ := List.cons.inj hsame
      have hcmp : t.cmp .symbol u = t'.cmp .symbol u' := by
        rw [ht.cmp_eq hu, ht'.cmp_eq hu', code_of_canon h, code_of_canon hfirst]
      rw [insertLast, insertLast, hcmp]
      split
      · rw [List.map_cons, List.map_cons, hfirst, ih hrest hrest' hothers]
      · exact List.cons_eq_cons.2 ⟨h, hsame⟩

lemma sort_of_canon {ts ts' : List Ty} (hts : ∀ t ∈ ts, t.Sound g)
    (hts' : ∀ t ∈ ts', t.Sound g') (h : ts.map canon = ts'.map canon) :
    (sort ts).map canon = (sort ts').map canon := by
  suffices ∀ us us' : List Ty, (∀ u ∈ us, u.Sound g) → (∀ u ∈ us', u.Sound g') →
      us.map canon = us'.map canon →
      (ts.foldl (fun sorted t => insertLast t sorted) us).map canon =
        (ts'.foldl (fun sorted t => insertLast t sorted) us').map canon by
    rw [sort, sort, List.map_reverse, List.map_reverse,
      this [] [] (fun _ h => absurd h List.not_mem_nil) (fun _ h => absurd h List.not_mem_nil) rfl]
  have hmem : ∀ (g : Ground) (t : Ty) (us : List Ty), t.Sound g → (∀ u ∈ us, u.Sound g) →
      ∀ u ∈ insertLast t us, u.Sound g := fun g t us ht hus u hu => by
    rcases mem_insertLast hu with rfl | hu
    · exact ht
    · exact hus u hu
  induction ts generalizing ts' with
  | nil =>
    obtain rfl : ts' = [] := by simpa using h.symm
    exact fun us us' _ _ hsame => hsame
  | cons t rest ih =>
    cases ts' with
    | nil => cases h
    | cons t' rest' =>
      intro us us' hus hus' hsame
      obtain ⟨ht, hrest⟩ := List.forall_mem_cons.1 hts
      obtain ⟨ht', hrest'⟩ := List.forall_mem_cons.1 hts'
      obtain ⟨hfirst, hothers⟩ := List.cons.inj h
      exact ih hrest hrest' hothers _ _ (hmem g t us ht hus) (hmem g' t' us' ht' hus')
        (insertLast_of_canon ht ht' hfirst hus hus' hsame)

lemma eraseReps_of_canon {ts ts' : List Ty} (hts : ∀ t ∈ ts, t.Sound g)
    (hts' : ∀ t ∈ ts', t.Sound g') (h : ts.map canon = ts'.map canon) :
    ts.eraseReps.map canon = ts'.eraseReps.map canon := by
  -- The loop carries the last member kept and the members so far.
  suffices ∀ (rest rest' : List Ty) (last last' : Ty) (out out' : List Ty),
      (∀ t ∈ rest, t.Sound g) → (∀ t ∈ rest', t.Sound g') → last.Sound g → last'.Sound g' →
      rest.map canon = rest'.map canon → last.canon = last'.canon →
      out.map canon = out'.map canon →
      (List.eraseRepsBy.loop (· == ·) last rest out).map canon =
        (List.eraseRepsBy.loop (· == ·) last' rest' out').map canon by
    cases ts with
    | nil =>
      obtain rfl : ts' = [] := by simpa using h.symm
      rfl
    | cons t rest =>
      cases ts' with
      | nil => cases h
      | cons t' rest' =>
        obtain ⟨ht, hrest⟩ := List.forall_mem_cons.1 hts
        obtain ⟨ht', hrest'⟩ := List.forall_mem_cons.1 hts'
        obtain ⟨hfirst, hothers⟩ := List.cons.inj h
        exact this rest rest' t t' [] [] hrest hrest' ht ht' hothers hfirst rfl
  intro rest
  induction rest with
  | nil =>
    intro rest' last last' out out' _ _ _ _ hrest hlast hout
    obtain rfl : rest' = [] := by simpa using hrest.symm
    simp [List.eraseRepsBy.loop, hlast, hout]
  | cons t rest ih =>
    intro rest' last last' out out' hr hr' hl hl' hrest hlast hout
    cases rest' with
    | nil => cases hrest
    | cons t' rest' =>
      obtain ⟨ht, hr⟩ := List.forall_mem_cons.1 hr
      obtain ⟨ht', hr'⟩ := List.forall_mem_cons.1 hr'
      obtain ⟨hfirst, hothers⟩ := List.cons.inj hrest
      rw [List.eraseRepsBy.loop, List.eraseRepsBy.loop, beq_of_canon hl ht hl' ht' hlast hfirst]
      split
      · exact ih _ _ _ _ _ hr hr' hl hl' hothers hlast hout
      · exact ih _ _ _ _ _ hr hr' ht ht' hothers hfirst (by simp [hlast, hout])

/-- Unions of types of one canonical form have one canonical form. -/
theorem unionOf_of_canon {ts ts' : List Ty} (hts : ∀ t ∈ ts, t.Sound g)
    (hts' : ∀ t ∈ ts', t.Sound g') (h : ts.map canon = ts'.map canon) :
    (unionOf ts).canon = (unionOf ts').canon := by
  -- Members of sound types are sound, so comparison is by canonical form.
  have hflat : ∀ (g : Ground) (ts : List Ty), (∀ t ∈ ts, t.Sound g) →
      ∀ u ∈ ts.flatMap flatMembers, u.Sound g := by
    intro g ts hts u hu
    obtain ⟨t, ht, hut⟩ := List.mem_flatMap.1 hu
    have hsound := hts t ht
    cases t with
    | union members => exact allSound_iff.1 hsound u hut
    | _ => rw [List.mem_singleton.1 hut]; exact hsound
  have hmembers : (ts.flatMap flatMembers).map canon = (ts'.flatMap flatMembers).map canon := by
    clear hts hts'
    induction ts generalizing ts' with
    | nil =>
      obtain rfl : ts' = [] := by simpa using h.symm
      rfl
    | cons t rest ih =>
      cases ts' with
      | nil => cases h
      | cons t' rest' =>
        obtain ⟨hfirst, hothers⟩ := List.cons.inj h
        rw [List.flatMap_cons, List.flatMap_cons, List.map_append, List.map_append,
          flatMembers_of_canon hfirst, ih hothers]
  have hsorted : ∀ (g : Ground) (ts : List Ty), (∀ t ∈ ts, t.Sound g) →
      ∀ u ∈ sort (ts.flatMap flatMembers), u.Sound g :=
    fun g ts hts u hu => hflat g ts hts u (mem_sort hu)
  have hreps := eraseReps_of_canon (hsorted g ts hts) (hsorted g' ts' hts')
    (sort_of_canon (hflat g ts hts) (hflat g' ts' hts') hmembers)
  rw [unionOf, unionOf]
  generalize (sort (ts.flatMap flatMembers)).eraseReps = us at hreps
  generalize (sort (ts'.flatMap flatMembers)).eraseReps = us' at hreps
  -- One member stands for itself; both sides have as many.
  match us, us' with
  | [], [] => rfl
  | [t], [t'] => exact List.head_eq_of_cons_eq hreps
  | t :: u :: us, t' :: u' :: us' =>
    simp only [canon, canonAll_eq, hreps]
  | [], _ :: _ | _ :: _, [] | [_], _ :: _ :: _ | _ :: _ :: _, [_] =>
    exact absurd (congrArg List.length hreps) (by simp)

end Ty

end Canonical

end Residual
