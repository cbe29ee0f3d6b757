/-!
Sort codes: a value is ordered by a list of integers, read from the front.

Codes are built so that no code is a proper start of another one of the same sort. The code of
a list announces each element by `1` and the end by `0`, so a list comes after its own starts.
-/

namespace Residual

abbrev Code := List Int

namespace Code

def list {α : Type} (f : α → Code) : List α → Code
  | [] => [0]
  | a :: rest => 1 :: (f a ++ list f rest)

def nat (n : Nat) : Code := [n]

def string (s : String) : Code := list (fun c => nat c.toNat) s.toList

/-- The order of two codes, decided where they first differ. -/
def cmp : Code → Code → Ordering
  | [], [] => .eq
  | [], _ :: _ => .lt
  | _ :: _, [] => .gt
  | a :: as, b :: bs => if a < b then .lt else if b < a then .gt else cmp as bs

attribute [grind =] cmp

@[simp] theorem cmp_self (a : Code) : cmp a a = .eq := by
  induction a with
  | nil => rfl
  | cons x xs ih => simp [cmp, ih]

theorem cmp_eq_eq {a b : Code} : cmp a b = .eq ↔ a = b := by
  induction a generalizing b with
  | nil => cases b <;> simp [cmp]
  | cons x xs ih =>
    cases b with
    | nil => simp [cmp]
    | cons y ys =>
      simp only [cmp, List.cons.injEq, ← ih]
      split
      · simp; omega
      · split
        · simp; omega
        · have : x = y := by omega
          simp [this]

theorem cmp_swap (a b : Code) : (cmp a b).swap = cmp b a := by
  induction a generalizing b with
  | nil => cases b <;> rfl
  | cons x xs ih =>
    cases b with
    | nil => rfl
    | cons y ys =>
      simp only [cmp]
      split
      · rename_i h
        simp [Int.not_lt.2 (Int.le_of_lt h)]
      · split <;> simp [*]

theorem cmp_isLE_trans {a b c : Code} (hab : (cmp a b).isLE) (hbc : (cmp b c).isLE) :
    (cmp a c).isLE := by
  induction a generalizing b c with
  | nil => cases c <;> simp [cmp]
  | cons x xs ih =>
    cases b with
    | nil => simp [cmp] at hab
    | cons y ys =>
      cases c with
      | nil => simp [cmp] at hbc
      | cons z zs =>
        have ih := @ih ys zs
        simp only [cmp] at hab hbc ⊢
        by_cases h1 : x < z
        · simp [h1]
        · by_cases h2 : x < y
          · by_cases h3 : z < y
            · simp [h3, show ¬ y < z by omega] at hbc
            · omega
          · by_cases h3 : y < x
            · simp [h2, h3] at hab
            · have : x = y := by omega
              subst this
              by_cases h4 : z < x
              · simp [h1, h4] at hbc
              · simp only [h1, h4, Int.lt_irrefl, if_false] at hab hbc ⊢
                exact ih hab hbc

/-! ### Codes in sequence -/

theorem cmp_cons (a b : Int) (x y : Code) :
    cmp (a :: x) (b :: y) = (compare a b).then (cmp x y) := by
  rw [cmp]
  rcases Int.lt_trichotomy a b with h | rfl | h
  · simp [h, compare, compareOfLessAndEq, Ordering.then]
  · simp [compare, compareOfLessAndEq]
  · simp [compare, compareOfLessAndEq, h, Int.not_lt.2 (Int.le_of_lt h), Int.ne_of_gt h]

theorem compare_natCast (m n : Nat) : compare (m : Int) (n : Int) = compare m n := by
  simp only [compare, compareOfLessAndEq, Int.ofNat_lt, Int.natCast_inj]

theorem cmp_cons_nat (m n : Nat) (x y : Code) :
    cmp ((m : Int) :: x) ((n : Int) :: y) = (compare m n).then (cmp x y) := by
  rw [cmp_cons, compare_natCast]

theorem then_eq_then {m n : Nat} (h : m ≠ n) (p q : Ordering) :
    (compare m n).then p = (compare m n).then q := by
  have : compare m n ≠ .eq := fun he => h (Nat.compare_eq_eq.1 he)
  cases hc : compare m n <;> simp_all

/-- What is compared first decides; what follows counts only between equal codes. -/
def Splits (c d : Code) : Prop := ∀ x y, cmp (c ++ x) (d ++ y) = (cmp c d).then (cmp x y)

theorem splits_of_length {c d : Code} (h : c.length = d.length) : Splits c d := by
  intro x y
  induction c generalizing d with
  | nil => cases d <;> simp_all [cmp]
  | cons a c ih =>
    cases d with
    | nil => simp at h
    | cons b d =>
      simp only [List.cons_append, cmp_cons, ih (Nat.succ.inj h), Ordering.then_assoc]

theorem Splits.cons {c d : Code} (h : Splits c d) (a : Int) : Splits (a :: c) (a :: d) := by
  intro x y
  simp only [List.cons_append, cmp_cons, h x y, Ordering.then_assoc]

theorem splits_of_ne {a b : Int} (h : a ≠ b) (c d : Code) : Splits (a :: c) (b :: d) := by
  intro x y
  rcases Int.lt_trichotomy a b with hab | hab | hab
  · simp [cmp, hab]
  · exact absurd hab h
  · simp [cmp, hab, Int.not_lt.2 (Int.le_of_lt hab)]

theorem splits_list {α : Type} {f : α → Code} (h : ∀ a b, Splits (f a) (f b)) (as bs : List α) :
    Splits (list f as) (list f bs) := by
  induction as generalizing bs with
  | nil =>
    cases bs with
    | nil => exact splits_of_length rfl
    | cons b bs => exact splits_of_ne (by decide) _ _
  | cons a as ih =>
    cases bs with
    | nil => exact splits_of_ne (by decide) _ _
    | cons b bs =>
      refine Splits.cons (fun x y => ?_) 1
      rw [List.append_assoc, List.append_assoc, h a b, h a b, ih bs, Ordering.then_assoc]

theorem splits_string (s t : String) : Splits (string s) (string t) :=
  splits_list (fun _ _ => splits_of_length rfl) _ _

end Code

end Residual
