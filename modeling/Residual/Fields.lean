import Residual.Name

/-!
Finite maps from names, kept as lists in ascending order of names.
-/

namespace Residual

universe u

abbrev Fields (α : Type u) := List (Name × α)

namespace Fields

variable {α : Type u}

def get? (m : Fields α) (x : Name) : Option α := m.lookup x

def insert (m : Fields α) (x : Name) (a : α) : Fields α :=
  match m with
  | [] => [(x, a)]
  | (y, b) :: rest =>
    if x.index < y.index then (x, a) :: (y, b) :: rest
    else if x = y then (x, a) :: rest
    else (y, b) :: insert rest x a

def erase (m : Fields α) (x : Name) : Fields α := m.filter fun e => e.1 ≠ x

/-- Of several entries for one name the last counts. -/
def ofList (entries : List (Name × α)) : Fields α :=
  entries.foldl (fun m e => insert m e.1 e.2) []

/-! ### Lookups -/

@[simp] theorem get?_nil (x : Name) : get? ([] : Fields α) x = none := rfl

theorem get?_cons (y : Name) (a : α) (m : Fields α) (x : Name) :
    get? ((y, a) :: m) x = if x = y then some a else get? m x := by
  by_cases h : x = y
  · simp [get?, h]
  · simp [get?, List.lookup_cons, h, beq_false_of_ne h]

theorem get?_eq_none {m : Fields α} {x : Name} (h : ∀ e ∈ m, e.1 ≠ x) : get? m x = none := by
  induction m with
  | nil => rfl
  | cons e rest ih =>
    obtain ⟨y, a⟩ := e
    rw [get?_cons, if_neg fun hx => h _ (List.mem_cons_self ..) hx.symm]
    exact ih fun e he => h e (List.mem_cons_of_mem _ he)

/-- Insertion changes one name only. -/
theorem get?_insert (m : Fields α) (x y : Name) (a : α) :
    get? (insert m x a) y = if y = x then some a else get? m y := by
  induction m with
  | nil => simp [insert, get?_cons]
  | cons e rest ih =>
    obtain ⟨z, b⟩ := e
    rw [insert]
    split
    · simp [get?_cons]
    · split <;> grind [get?_cons]

theorem get?_erase (m : Fields α) (x y : Name) :
    get? (erase m x) y = if y = x then none else get? m y := by
  induction m with
  | nil => simp [erase]
  | cons e rest ih =>
    obtain ⟨z, b⟩ := e
    have ih' : get? (List.filter (fun e => decide (e.1 ≠ x)) rest) y = _ := ih
    by_cases h : z = x <;> grind [erase, get?_cons]

/-! ### Maps with other values -/

section

universe v

variable {β : Type v} (g : α → β)

theorem get?_map (m : Fields α) (x : Name) :
    get? (m.map fun e => (e.1, g e.2)) x = (get? m x).map g := by
  induction m with
  | nil => rfl
  | cons e rest ih =>
    rw [List.map_cons, get?_cons, get?_cons, ih]
    split <;> rfl

theorem insert_map (m : Fields α) (x : Name) (a : α) :
    insert (m.map fun e => (e.1, g e.2)) x (g a) = (insert m x a).map fun e => (e.1, g e.2) := by
  induction m with
  | nil => rfl
  | cons e rest ih =>
    obtain ⟨y, b⟩ := e
    simp only [insert, List.map_cons]
    split
    · rfl
    · split
      · rfl
      · rw [ih, List.map_cons]

theorem erase_map (m : Fields α) (x : Name) :
    erase (m.map fun e => (e.1, g e.2)) x = (erase m x).map fun e => (e.1, g e.2) := by
  rw [erase, erase, List.filter_map]
  rfl

theorem ofList_map (entries : List (Name × α)) :
    ofList (entries.map fun e => (e.1, g e.2)) = (ofList entries).map fun e => (e.1, g e.2) := by
  have h : ∀ m : Fields α,
      (entries.map fun e => (e.1, g e.2)).foldl (fun m e => insert m e.1 e.2)
        (m.map fun e => (e.1, g e.2)) =
      (entries.foldl (fun m e => insert m e.1 e.2) m).map fun e => (e.1, g e.2) := by
    induction entries with
    | nil => exact fun _ => rfl
    | cons e rest ih =>
      intro m
      rw [List.map_cons, List.foldl_cons, List.foldl_cons, insert_map, ih]
  exact h []

end

/-! ### Order -/

/-- The entries are in ascending order of names, so each name has one entry at most. -/
def Ascending (m : Fields α) : Prop := m.Pairwise fun a b => a.1.index < b.1.index

theorem ascending_nil : Ascending ([] : Fields α) := List.Pairwise.nil

theorem mem_insert {m : Fields α} {x : Name} {a : α} {e : Name × α} (h : e ∈ insert m x a) :
    e = (x, a) ∨ e ∈ m := by
  induction m with
  | nil => simpa [insert] using h
  | cons d rest ih => grind [insert]

theorem Ascending.insert {m : Fields α} (h : Ascending m) (x : Name) (a : α) :
    Ascending (Fields.insert m x a) := by
  induction m with
  | nil => simp [Fields.insert, Ascending]
  | cons d rest ih =>
    obtain ⟨y, b⟩ := d
    obtain ⟨hy, hrest⟩ := List.pairwise_cons.1 h
    rw [Fields.insert]
    split
    · rename_i hlt
      refine List.pairwise_cons.2 ⟨fun e he => ?_, h⟩
      rcases List.mem_cons.1 he with rfl | he
      · exact hlt
      · exact Nat.lt_trans hlt (hy e he)
    · split
      · rename_i heq
        exact List.pairwise_cons.2 ⟨fun e he => heq ▸ hy e he, hrest⟩
      · rename_i hlt hne
        refine List.pairwise_cons.2 ⟨fun e he => ?_, ih hrest⟩
        rcases mem_insert he with rfl | he
        · have : y.index ≠ x.index := fun hi => hne (by cases x; cases y; simp_all)
          simp only
          omega
        · exact hy e he

theorem ascending_ofList (entries : List (Name × α)) : Ascending (ofList entries) := by
  suffices ∀ m, Ascending m →
      Ascending (entries.foldl (fun m e => Fields.insert m e.1 e.2) m) from this [] ascending_nil
  induction entries with
  | nil => exact fun m h => h
  | cons e rest ih => exact fun m h => ih _ (h.insert e.1 e.2)

theorem Ascending.get?_rest {e : Name × α} {m : Fields α} (h : Ascending (e :: m)) :
    get? m e.1 = none :=
  get?_eq_none fun d hd heq => by
    have := (List.pairwise_cons.1 h).1 d hd
    simp [heq] at this

theorem mem_of_get? {m : Fields α} {x : Name} {a : α} (h : get? m x = some a) : (x, a) ∈ m := by
  induction m with
  | nil => simp at h
  | cons e rest ih =>
    obtain ⟨y, b⟩ := e
    rw [get?_cons] at h
    split at h
    · simp_all
    · exact List.mem_cons_of_mem _ (ih h)

/-- An ascending map has one entry for a name. -/
theorem Ascending.get?_of_mem {m : Fields α} (h : Ascending m) {e : Name × α} (he : e ∈ m) :
    get? m e.1 = some e.2 := by
  induction m with
  | nil => cases he
  | cons d rest ih =>
    obtain ⟨hd, hrest⟩ := List.pairwise_cons.1 h
    rw [get?_cons d.1 d.2]
    rcases List.mem_cons.1 he with rfl | he
    · rw [if_pos rfl]
    · have hlt : d.1.index < e.1.index := hd e he
      have hne : e.1 ≠ d.1 := fun heq => by
        rw [heq] at hlt
        omega
      rw [if_neg hne]
      exact ih hrest he

/-- Ascending maps are told apart by what they bind. -/
theorem Ascending.ext {m n : Fields α} (hm : Ascending m) (hn : Ascending n)
    (h : ∀ x, get? m x = get? n x) : m = n := by
  induction m generalizing n with
  | nil =>
    cases n with
    | nil => rfl
    | cons e rest =>
      have := h e.1
      simp [get?_cons e.1 e.2] at this
  | cons d rest ih =>
    cases n with
    | nil =>
      have := h d.1
      simp [get?_cons d.1 d.2] at this
    | cons e rest' =>
      obtain ⟨x, a⟩ := d
      obtain ⟨y, b⟩ := e
      have hx := (List.pairwise_cons.1 hm).1
      have hy := (List.pairwise_cons.1 hn).1
      have hxy : x = y := by
        refine Decidable.byContradiction fun hne => ?_
        have h1 := h x
        have h2 := h y
        rw [get?_cons, if_pos rfl, get?_cons, if_neg hne] at h1
        rw [get?_cons, if_neg (Ne.symm hne), get?_cons, if_pos rfl] at h2
        exact Nat.lt_asymm (hx _ (mem_of_get? h2)) (hy _ (mem_of_get? h1.symm))
      subst hxy
      have hab : a = b := by simpa [get?_cons] using h x
      subst hab
      congr 1
      refine ih (List.pairwise_cons.1 hm).2 (List.pairwise_cons.1 hn).2 fun z => ?_
      by_cases hz : z = x
      · subst hz
        exact hm.get?_rest.trans hn.get?_rest.symm
      · simpa [get?_cons, hz] using h z

end Fields

end Residual
