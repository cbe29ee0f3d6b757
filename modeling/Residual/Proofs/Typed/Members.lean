import Mathlib.Tactic.Lemma
import Residual.Typed.Order

/-!
The members of a union, as a list: they are the given types in another order, with the first of
equal neighbours standing for all of them.
-/

namespace Residual

/-! ### Equal neighbours -/

section Neighbours

variable {α : Type} [BEq α]

lemma List.eraseReps_loop (a : α) (l out : List α) :
    List.eraseRepsBy.loop (· == ·) a l out =
      out.reverse ++ List.eraseRepsBy.loop (· == ·) a l [] := by
  induction l generalizing a out with
  | nil => simp [List.eraseRepsBy.loop]
  | cons b l ih =>
    rw [List.eraseRepsBy.loop, List.eraseRepsBy.loop]
    split
    · exact ih a out
    · rw [ih b (a :: out), ih b [a], List.reverse_cons, List.append_assoc, List.reverse_singleton]

/-- The first of two equal neighbours stays. -/
theorem List.eraseReps_cons_cons (a b : α) (l : List α) :
    (a :: b :: l).eraseReps = if a == b then (a :: l).eraseReps else a :: (b :: l).eraseReps := by
  change List.eraseRepsBy.loop (· == ·) a (b :: l) [] = _
  rw [List.eraseRepsBy.loop]
  split
  · rename_i h
    rw [if_pos h]
    rfl
  · rename_i h
    rw [if_neg (by simp [h]), List.eraseReps_loop]
    rfl

lemma List.eraseReps_sublist (l : List α) : l.eraseReps.Sublist l := by
  match l with
  | [] => exact .slnil
  | [a] => exact .refl _
  | a :: b :: l =>
    rw [List.eraseReps_cons_cons]
    split
    · exact (List.eraseReps_sublist (a :: l)).trans ((List.sublist_cons_self b l).cons_cons a)
    · exact (List.eraseReps_sublist (b :: l)).cons_cons a
termination_by l.length

lemma List.head_mem_eraseReps (a : α) (l : List α) : a ∈ (a :: l).eraseReps := by
  induction l with
  | nil => exact List.mem_singleton_self a
  | cons b l ih =>
    rw [List.eraseReps_cons_cons]
    split
    · exact ih
    · exact List.mem_cons_self ..

/-- Whatever goes is equal to something that stays. -/
theorem List.exists_mem_eraseReps [ReflBEq α] {l : List α} {u : α} (hu : u ∈ l) :
    ∃ v ∈ l.eraseReps, (v == u) = true := by
  match l, hu with
  | [a], hu => exact ⟨u, hu, BEq.rfl⟩
  | a :: b :: l, hu =>
    rw [List.eraseReps_cons_cons]
    split
    · rename_i hab
      by_cases hb : u ∈ a :: l
      · exact List.exists_mem_eraseReps hb
      · obtain rfl : u = b := by simp_all
        exact ⟨a, List.head_mem_eraseReps a l, hab⟩
    · rcases List.mem_cons.1 hu with rfl | hu
      · exact ⟨u, List.mem_cons_self .., BEq.rfl⟩
      · obtain ⟨v, hv, hvu⟩ := List.exists_mem_eraseReps hu
        exact ⟨v, List.mem_cons_of_mem _ hv, hvu⟩
termination_by l.length

end Neighbours

/-! ### Sorting -/

namespace Ty

lemma insertLast_perm (t : Ty) (us : List Ty) : (insertLast t us).Perm (t :: us) := by
  induction us with
  | nil => exact .refl _
  | cons u rest ih =>
    rw [insertLast]
    split
    · exact (ih.cons u).trans (.swap ..)
    · exact .refl _

lemma mem_insertLast {t u : Ty} {ts : List Ty} (h : u ∈ insertLast t ts) : u = t ∨ u ∈ ts :=
  List.mem_cons.1 ((insertLast_perm t ts).mem_iff.1 h)

lemma sort_perm (ts : List Ty) : (sort ts).Perm ts := by
  suffices ∀ us, (ts.foldl (fun sorted t => insertLast t sorted) us).Perm (ts ++ us) by
    have h := this []
    rw [List.append_nil] at h
    exact (List.reverse_perm _).trans h
  induction ts with
  | nil => exact fun us => .refl _
  | cons t rest ih =>
    intro us
    exact (ih _).trans (((insertLast_perm t us).append_left rest).trans List.perm_middle)

lemma mem_sort {u : Ty} {ts : List Ty} (h : u ∈ sort ts) : u ∈ ts := (sort_perm ts).mem_iff.1 h

lemma mem_eraseReps {u : Ty} {ts : List Ty} (h : u ∈ ts.eraseReps) : u ∈ ts :=
  (List.eraseReps_sublist ts).mem h

end Ty

end Residual
