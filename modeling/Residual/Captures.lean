import Residual.Fields

/-!
The names that a function takes from its surroundings.

A list of captures that was computed ascends; one that was given is kept as it stands. Either is
searched by halving, so a name in a list that does not ascend can be there and not be found.
Where the list ascends, exactly its names are found.
-/

namespace Residual

abbrev Captures := List Name

namespace Captures

/-- The names in ascending order, each of them once. -/
def ofList (names : List Name) : Captures :=
  (Fields.ofList (names.map fun x => (x, ()))).map Prod.fst

/-- Cut the list in two, `n` times at most, keeping the part where `x` has to be. -/
def narrow (x : Name) : Nat → Captures → Captures
  | 0, used => used
  | n + 1, used =>
    let half := used.length / 2
    if half = 0 then used
    else if used[half]?.any fun y => x.index < y.index then
      narrow x n (used.take (used.length - half))
    else narrow x n (used.drop half)

/-- The search by halving finds `x`. -/
def sees (used : Captures) (x : Name) : Bool := narrow x used.length used == [x]

/-- What `m` binds the names to, in the order of the list; a name listed twice comes twice. -/
def pick {α : Type} (used : Captures) (m : Fields α) : List (Name × α) :=
  used.filterMap fun x => (Fields.get? m x).map fun a => (x, a)

def Ascending (used : Captures) : Prop := used.Pairwise fun x y => x.index < y.index

theorem length_narrow (x : Name) (n : Nat) (used : Captures) (h : used.length ≤ n + 1) :
    (narrow x n used).length ≤ 1 := by
  induction n generalizing used with
  | zero => simpa [narrow] using h
  | succ n ih =>
    simp only [narrow]
    split
    · omega
    · split
      · exact ih _ (by rw [List.length_take]; omega)
      · exact ih _ (by rw [List.length_drop]; omega)

theorem mem_narrow {used : Captures} (h : used.Ascending) (x : Name) (n : Nat) :
    x ∈ narrow x n used ↔ x ∈ used := by
  induction n generalizing used with
  | zero => rfl
  | succ n ih =>
    simp only [narrow]
    split
    · rfl
    · rename_i hhalf
      have hlt : used.length / 2 < used.length := by omega
      have hget : used[used.length / 2]? = some used[used.length / 2] :=
        List.getElem?_eq_getElem hlt
      have hpair := List.pairwise_iff_getElem.1 h
      split
      · rename_i hx
        simp only [hget, Option.any_some, decide_eq_true_eq] at hx
        rw [ih (List.Pairwise.sublist (List.take_sublist ..) h)]
        refine ⟨List.mem_of_mem_take, fun hmem => ?_⟩
        obtain ⟨j, hj, rfl⟩ := List.getElem_of_mem hmem
        refine List.mem_take_iff_getElem.2 ⟨j, ?_, rfl⟩
        rcases Nat.lt_trichotomy j (used.length / 2) with hcut | rfl | hcut
        · omega
        · omega
        · have := hpair (used.length / 2) j hlt hj hcut
          omega
      · rename_i hx
        simp only [hget, Option.any_some, decide_eq_true_eq] at hx
        rw [ih (List.Pairwise.sublist (List.drop_sublist ..) h)]
        refine ⟨List.mem_of_mem_drop, fun hmem => ?_⟩
        obtain ⟨j, hj, rfl⟩ := List.getElem_of_mem hmem
        refine List.mem_drop_iff_getElem.2 ⟨j - used.length / 2, ?_, ?_⟩
        · omega
        · by_cases hcut : used.length / 2 ≤ j
          · simp only [Nat.add_sub_cancel' hcut]
          · have := hpair j (used.length / 2) hj hlt (by omega)
            omega

/-- In an ascending list the search finds what is there. -/
theorem sees_eq_contains {used : Captures} (h : used.Ascending) (x : Name) :
    used.sees x = used.contains x := by
  have hmem := mem_narrow h x used.length
  have hlen := length_narrow x used.length used (by omega)
  rw [Bool.eq_iff_iff, List.contains_iff_mem, ← hmem, sees, beq_iff_eq]
  match hn : narrow x used.length used, hlen with
  | [], _ => simp
  | [y], _ => simp [eq_comm]

/-! ### Bindings of the names -/

theorem get?_pick {α : Type} (used : Captures) (m : Fields α) (x : Name) :
    Fields.get? (used.pick m) x = if used.contains x then Fields.get? m x else none := by
  induction used with
  | nil => rfl
  | cons y rest ih =>
    simp only [pick] at ih
    by_cases hxy : x = y
    · subst hxy
      cases hm : Fields.get? m x <;> simp_all [pick, Fields.get?_cons]
    · have hcons : (y :: rest).contains x = rest.contains x := by simp [hxy]
      rw [hcons]
      cases hm : Fields.get? m y <;> simp [pick, hm, Fields.get?_cons, hxy, ih]

theorem ascending_pick {α : Type} {used : Captures} (h : used.Ascending) (m : Fields α) :
    Fields.Ascending (used.pick m) := by
  refine List.Pairwise.filterMap _ ?_ h
  intro x y hxy a ha b hb
  simp only [Option.map_eq_some_iff] at ha hb
  obtain ⟨_, _, rfl⟩ := ha
  obtain ⟨_, _, rfl⟩ := hb
  exact hxy

theorem get?_filter {α : Type} (used : Captures) (m : Fields α) (x : Name) :
    Fields.get? (m.filter fun e => used.contains e.1) x =
      if used.contains x then Fields.get? m x else none := by
  induction m with
  | nil => simp
  | cons e rest ih => grind [Fields.get?_cons]

/-- From an ascending map, ascending names pick the bindings that the map has for them, in the
order of the map. -/
theorem pick_eq_filter {α : Type} {used : Captures} {m : Fields α} (h : used.Ascending)
    (hm : Fields.Ascending m) : used.pick m = m.filter fun e => used.contains e.1 :=
  (ascending_pick h m).ext (List.Pairwise.sublist List.filter_sublist hm) fun x =>
    (get?_pick used m x).trans (get?_filter used m x).symm

end Captures

end Residual
