import Mathlib.Data.List.Sort
import Mathlib.Order.MinMax
import Mathlib.Tactic.Common

/-!
# Order statistics

The value at a given rank of a list, as one reads it off the sorted list, and how it is found by
counting. `le_countP_iff` is the rule for histograms: if a monotone map sorts the values into
classes, the class of the value at rank `k` is the first one up to which there are at least `k`
values.
-/

namespace OrderStatistics

section Rank

variable {α β : Type*} [LinearOrder α] [LinearOrder β]

/-- The value at rank `k`, counted from one. -/
def atRank (xs : List α) (k : Nat) : Option α := (xs.insertionSort (· ≤ ·))[k - 1]?

variable {xs : List α} {j k : Nat} {x y : α}

/-- Every rank up to the number of values has a value. -/
theorem exists_atRank (hpos : 0 < k) (hle : k ≤ xs.length) : ∃ x, atRank xs k = some x := by
  have hlt : k - 1 < (xs.insertionSort (· ≤ ·)).length := by
    rw [List.length_insertionSort]
    omega
  exact ⟨_, List.getElem?_eq_getElem hlt⟩

/-- The value at a rank is one of the values. -/
theorem mem_of_atRank (hx : atRank xs k = some x) : x ∈ xs :=
  (List.mem_insertionSort _).mp (List.mem_of_getElem? hx)

/-- A higher rank has a larger value. -/
theorem atRank_mono (h : j ≤ k) (hx : atRank xs j = some x) (hy : atRank xs k = some y) :
    x ≤ y := by
  obtain ⟨hj, rfl⟩ := List.getElem?_eq_some_iff.mp hx
  obtain ⟨hk, rfl⟩ := List.getElem?_eq_some_iff.mp hy
  exact List.sortedLE_insertionSort.getElem_le_getElem_of_le (Nat.sub_le_sub_right h 1)

/-- No value is above the one at the last rank. -/
theorem le_of_atRank_length (hx : atRank xs xs.length = some x) (hy : y ∈ xs) : y ≤ x := by
  obtain ⟨i, hi, rfl⟩ := List.getElem_of_mem ((List.mem_insertionSort (· ≤ ·)).mpr hy)
  have hlast : i + 1 ≤ xs.length := by rwa [List.length_insertionSort] at hi
  exact atRank_mono hlast (List.getElem?_eq_getElem hi) hx

/-- At least `k` values are in a class or before it if and only if the value at rank `k` is. -/
theorem le_countP_iff {f : α → β} (hf : Monotone f) (hpos : 0 < k) (hx : atRank xs k = some x)
    (c : β) : k ≤ xs.countP (fun y => f y ≤ c) ↔ f x ≤ c := by
  rw [← (List.perm_insertionSort (· ≤ ·) xs).countP_eq]
  have hsorted := List.sortedLE_insertionSort (l := xs)
  obtain ⟨hlt, rfl⟩ := List.getElem?_eq_some_iff.mp hx
  generalize xs.insertionSort (· ≤ ·) = ys at hsorted hlt ⊢
  constructor
  · -- otherwise only the `k - 1` values before it can be in the classes
    intro hcount
    by_contra hnot
    have hdrop : (ys.drop (k - 1)).countP (fun y => f y ≤ c) = 0 := by
      refine List.countP_eq_zero.mpr fun y hy => ?_
      obtain ⟨i, hi, rfl⟩ := List.getElem_of_mem hy
      rw [List.getElem_drop, decide_eq_true_iff]
      intro hle
      exact hnot ((hf (hsorted.getElem_le_getElem_of_le (Nat.le_add_right _ _))).trans hle)
    have htake := List.countP_le_length (p := fun y => decide (f y ≤ c)) (l := ys.take (k - 1))
    rw [← List.take_append_drop (k - 1) ys, List.countP_append, hdrop] at hcount
    rw [List.length_take] at htake
    omega
  · intro hle
    have hall : (ys.take k).countP (fun y => f y ≤ c) = (ys.take k).length := by
      refine List.countP_eq_length.mpr fun y hy => ?_
      obtain ⟨i, hi, rfl⟩ := List.getElem_of_mem hy
      rw [List.length_take] at hi
      rw [List.getElem_take, decide_eq_true_iff]
      exact (hf (hsorted.getElem_le_getElem_of_le (by omega))).trans hle
    rw [List.length_take, Nat.min_eq_left (by omega)] at hall
    rw [← hall]
    exact (List.take_sublist k ys).countP_le

/-- If the values of one list are below those of another, one by one, so are those at each rank. -/
theorem atRank_le_atRank {ys : List α} (h : List.Forall₂ (· ≤ ·) xs ys) (hpos : 0 < k)
    (hx : atRank xs k = some x) (hy : atRank ys k = some y) : x ≤ y := by
  have hcount : ys.countP (fun z => id z ≤ y) ≤ xs.countP (fun z => id z ≤ y) := by
    clear hx hy
    induction h with
    | nil => exact le_refl _
    | cons hle _ ih =>
        rw [List.countP_cons, List.countP_cons]
        refine Nat.add_le_add ih ?_
        split
        · next hb => exact (if_pos (decide_eq_true (hle.trans (of_decide_eq_true hb)))).ge
        · exact Nat.zero_le _
  have hrank := (le_countP_iff monotone_id hpos hy y).mpr le_rfl
  exact (le_countP_iff monotone_id hpos hx y).mp (hrank.trans hcount)

end Rank

/-- Every value of the second of two related lists has a partner in the first. -/
theorem exists_mem_left {α β : Type*} {r : α → β → Prop} {xs : List α} {ys : List β} {y : β}
    (h : List.Forall₂ r xs ys) (hy : y ∈ ys) : ∃ x ∈ xs, r x y := by
  induction h with
  | nil => cases hy
  | cons hxy _ ih =>
      rcases List.mem_cons.mp hy with rfl | hy
      · exact ⟨_, List.mem_cons_self, hxy⟩
      · obtain ⟨x, hx, hxy⟩ := ih hy
        exact ⟨x, List.mem_cons_of_mem _ hx, hxy⟩

/-! ## Running extremes -/

section Extremes

variable {α : Type*} [LinearOrder α] {xs : List α} {start m x : α}

/-- The smallest of the values so far, from a start value on. -/
theorem min_mem_append (hm : m ∈ start :: xs) : min x m ∈ start :: (xs ++ [x]) := by
  rw [← List.cons_append, List.mem_append, List.mem_singleton]
  rcases min_choice x m with hmin | hmin
  · exact Or.inr hmin
  · rw [hmin]
    exact Or.inl hm

/-- The smallest of the values so far bounds them. -/
theorem min_le_append (hm : ∀ y ∈ xs, m ≤ y) : ∀ y ∈ xs ++ [x], min x m ≤ y := by
  intro y hy
  rw [List.mem_append, List.mem_singleton] at hy
  rcases hy with hy | rfl
  · exact (min_le_right _ _).trans (hm y hy)
  · exact min_le_left _ _

/-- The largest of the values so far, from a start value on. -/
theorem max_mem_append (hm : m ∈ start :: xs) : max x m ∈ start :: (xs ++ [x]) :=
  @min_mem_append αᵒᵈ _ xs start m x hm

/-- The largest of the values so far bounds them. -/
theorem le_max_append (hm : ∀ y ∈ xs, y ≤ m) : ∀ y ∈ xs ++ [x], y ≤ max x m :=
  @min_le_append αᵒᵈ _ xs m x hm

end Extremes

/-! ## Running counts -/

/-- The values in the classes up to `n` are those before `n` and those in `n`. -/
theorem countP_le {α : Type*} (f : α → Nat) (n : Nat) (xs : List α) :
    xs.countP (fun y => f y ≤ n) = xs.countP (fun y => f y < n) + xs.countP (fun y => f y = n) := by
  induction xs with
  | nil => rfl
  | cons y xs ih =>
      simp only [List.countP_cons, ih, decide_eq_true_eq]
      split_ifs <;> omega

end OrderStatistics
