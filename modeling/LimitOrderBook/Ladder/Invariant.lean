import LimitOrderBook.Ladder.Model
import LimitOrderBook.Ladder.TailCorrectness
import Mathlib.Data.Nat.Prime.Basic

/-!
# The ladder invariant

A price lives in exactly one place: in the window if it lies in the window's range, otherwise in
the tail. `WellFormed` states this together with the agreement of the bitmap, the count and the
cached best index, and `Live` is the set of levels a ladder holds. Each operation that does not
move the window is described here by what it does to `Live`.

Prices stay at least `windowSize` ticks away from the 64-bit limits, which makes the 64-bit
arithmetic on prices exact.
-/

namespace LimitOrderBook

/-- The static assertion on the window size: a power of two, and at least one bitmap word. -/
def ValidWindow (windowSize : Nat) : Prop := windowSize.isPowerOfTwo ∧ 64 ≤ windowSize

/-- The price is at least `windowSize` ticks away from the 64-bit limits. -/
def PriceInRange (windowSize : Nat) (p : Price) : Prop :=
  int64Min + windowSize ≤ p ∧ p ≤ int64Max - windowSize

instance {windowSize : Nat} {p : Price} : Decidable (PriceInRange windowSize p) :=
  inferInstanceAs (Decidable (_ ∧ _))

/-- A valid window is a whole number of bitmap words. -/
theorem ValidWindow.words {windowSize : Nat} (h : ValidWindow windowSize) :
    LevelLadder.kWords windowSize * 64 = windowSize := by
  obtain ⟨⟨k, rfl⟩, hle⟩ := h
  have hk : 6 ≤ k := (Nat.pow_le_pow_iff_right (a := 2) (by omega)).mp hle
  exact Nat.div_mul_cancel (pow_dvd_pow 2 hk)

/-- A valid window is even. -/
theorem ValidWindow.half {windowSize : Nat} (h : ValidWindow windowSize) :
    windowSize / 2 + windowSize / 2 = windowSize := by
  have hwords := h.words
  omega

/-- A valid window that fits between the 64-bit limits has at most `2 ^ 63` ticks. -/
theorem ValidWindow.le_of_fits {windowSize : Nat} (h : ValidWindow windowSize) {base : Price}
    (hlo : int64Min ≤ base) (hhi : base + windowSize ≤ int64Max) : windowSize ≤ 2 ^ 63 := by
  obtain ⟨⟨k, rfl⟩, -⟩ := h
  have hlt : 2 ^ k < 2 ^ 64 := by
    unfold int64Min at hlo
    unfold int64Max at hhi
    lia
  have hk : k < 64 := (Nat.pow_lt_pow_iff_right (a := 2) (by omega)).mp hlt
  exact Nat.pow_le_pow_right (by omega) (by omega)

namespace LevelLadder

variable {isBid : Bool} {windowSize tailCapacity : Nat}

/-- `r` is the best index below `size` at which `P` holds, or -1 if there is none. -/
def IsBest (isBid : Bool) (P : Nat → Bool) (size : Nat) (r : Int) : Prop :=
  (r = -1 ∧ ∀ j < size, P j = false) ∨
    ∃ k < size, r = (k : Int) ∧ P k = true ∧
      ∀ j < size, P j = true → j ≠ k → betterIdx isBid k j = true

/-- The representation invariant. -/
structure WellFormed (l : LevelLadder isBid windowSize tailCapacity) : Prop where
  tail : l.tail.WellFormed
  unanchored : l.anchored = false → (∀ i < windowSize, l.testBit i = false) ∧ l.tail.n = 0
  range : l.anchored = true → int64Min ≤ l.base ∧ l.base + windowSize ≤ int64Max
  home : ∀ i < windowSize, l.testBit i = true → (l.levels i).price = l.base + i
  outside : ∀ level, l.tail.Holds level →
    ¬ (l.base ≤ level.price ∧ level.price < l.base + windowSize)
  count : l.windowCount = (Bitmap.setIndices l.bits windowSize).card
  best : IsBest isBid l.testBit windowSize l.bestIdx

/-- The pointer points to a level of the ladder. -/
def Points (l : LevelLadder isBid windowSize tailCapacity) : LevelRef → Prop
  | .window i => i < windowSize ∧ l.testBit i = true
  | .tail i => i < l.tail.n

/-- The ladder holds the level. -/
def Live (l : LevelLadder isBid windowSize tailCapacity) (level : PriceLevel) : Prop :=
  ∃ r, l.Points r ∧ l.get r = level

/-- The number of levels. -/
def size (l : LevelLadder isBid windowSize tailCapacity) : Nat := l.windowCount + l.tail.n

variable {l : LevelLadder isBid windowSize tailCapacity}

/-- A level is in the window or in the tail. -/
theorem live_iff {level : PriceLevel} :
    l.Live level ↔
      (∃ i < windowSize, l.testBit i = true ∧ l.levels i = level) ∨ l.tail.Holds level := by
  constructor
  · rintro ⟨r, hr, rfl⟩
    cases r with
    | window i => exact Or.inl ⟨i, hr.1, hr.2, rfl⟩
    | tail i => exact Or.inr ⟨i, Nat.zero_le _, hr, rfl⟩
  · rintro (⟨i, hi, hset, rfl⟩ | ⟨i, _, hi, rfl⟩)
    · exact ⟨.window i, ⟨hi, hset⟩, rfl⟩
    · exact ⟨.tail i, hi, rfl⟩

/-- A fresh ladder is well formed. -/
theorem fresh_well_formed : WellFormed ({} : LevelLadder isBid windowSize tailCapacity) where
  tail := ⟨fun i j _ _ hj => absurd hj (Nat.not_lt_zero _), Nat.zero_le _, rfl⟩
  unanchored := fun _ => ⟨fun i _ => by simp [testBit, Bitmap.test], rfl⟩
  range := fun h => by cases h
  home := fun i _ h => absurd h (by simp [testBit, Bitmap.test])
  outside := fun level h => by
    obtain ⟨i, _, hi, _⟩ := h
    exact absurd hi (Nat.not_lt_zero _)
  count := by simp [Bitmap.setIndices, Bitmap.test]
  best := Or.inl ⟨rfl, fun i _ => by simp [testBit, Bitmap.test]⟩

/-- A fresh ladder holds nothing. -/
theorem fresh_not_live (level : PriceLevel) :
    ¬ Live ({} : LevelLadder isBid windowSize tailCapacity) level := by
  rw [live_iff]
  rintro (⟨i, _, h, _⟩ | ⟨i, _, hi, _⟩)
  · simp [testBit, Bitmap.test] at h
  · exact absurd hi (Nat.not_lt_zero _)

/-! ## Places -/

/-- The window test is the range test. -/
theorem inWindow_iff (hwf : WellFormed l) (p : Price) :
    l.inWindow p = true ↔ l.anchored = true ∧ l.base ≤ p ∧ p < l.base + windowSize := by
  unfold inWindow
  simp only [Bool.and_eq_true, decide_eq_true_eq, and_assoc]
  refine and_congr_right fun hanch => ?_
  obtain ⟨hlo, hhi⟩ := hwf.range hanch
  rw [wrap64_eq (by lia) hhi]

/-- The index of a price is its distance from the base. -/
theorem indexOf_base_add (hsize : windowSize ≤ 2 ^ 63) {i : Nat} (hi : i < windowSize) :
    l.indexOf (l.base + i) = i := by
  unfold indexOf
  rw [add_sub_cancel_left, wrap64_eq]
  · exact Int.toNat_natCast i
  · unfold int64Min
    lia
  · unfold int64Max
    lia

/-- Inside the window the index is the distance from the base. -/
theorem indexOf_eq (hwf : WellFormed l) (hvalid : ValidWindow windowSize)
    (hanch : l.anchored = true) {i : Nat} (hi : i < windowSize) :
    l.indexOf (l.base + i) = i := by
  obtain ⟨hlo, hhi⟩ := hwf.range hanch
  exact indexOf_base_add (hvalid.le_of_fits hlo hhi) hi

/-- A price in the window is the base plus its index. -/
theorem exists_index (hwf : WellFormed l) (hvalid : ValidWindow windowSize) {p : Price}
    (hin : l.inWindow p = true) :
    l.indexOf p < windowSize ∧ p = l.base + l.indexOf p ∧ l.anchored = true := by
  obtain ⟨hanch, hlo, hhi⟩ := (inWindow_iff hwf p).mp hin
  obtain ⟨i, hi⟩ : ∃ i : Nat, p = l.base + i := ⟨(p - l.base).toNat, by lia⟩
  subst hi
  rw [indexOf_eq hwf hvalid hanch (by lia)]
  exact ⟨by lia, rfl, hanch⟩

/-- A set bit belongs to an anchored window. -/
theorem anchored_of_set (hwf : WellFormed l) {i : Nat} (hi : i < windowSize)
    (hset : l.testBit i = true) : l.anchored = true := by
  by_contra hanch
  rw [Bool.not_eq_true] at hanch
  rw [(hwf.unanchored hanch).1 i hi] at hset
  cases hset

/-- A window that was never anchored is empty. -/
theorem windowCount_eq_zero (hwf : WellFormed l) (hanch : l.anchored = false) :
    l.windowCount = 0 := by
  rw [hwf.count, Finset.card_eq_zero, Finset.eq_empty_iff_forall_notMem]
  intro i hi
  obtain ⟨hi, hset⟩ := Bitmap.mem_setIndices.mp hi
  rw [show Bitmap.test l.bits i = false from (hwf.unanchored hanch).1 i hi] at hset
  cases hset

/-- The level at a set bit has a price in the window. -/
theorem inWindow_of_set (hwf : WellFormed l) {i : Nat} (hi : i < windowSize)
    (hset : l.testBit i = true) : l.inWindow (l.levels i).price = true := by
  rw [inWindow_iff hwf, hwf.home i hi hset]
  exact ⟨anchored_of_set hwf hi hset, by lia, by lia⟩

/-- The levels of the tail have prices outside the window. -/
theorem inWindow_of_tail (hwf : WellFormed l) {level : PriceLevel} (h : l.tail.Holds level) :
    l.inWindow level.price = false := by
  by_contra hin
  rw [Bool.not_eq_false, inWindow_iff hwf] at hin
  exact hwf.outside level h hin.2

/-- A level of the tail and one of the window have different prices. -/
theorem tail_price_ne (hwf : WellFormed l) {level : PriceLevel} (h : l.tail.Holds level) {i : Nat}
    (hi : i < windowSize) (hset : l.testBit i = true) : level.price ≠ (l.levels i).price := by
  intro hprice
  have hin := inWindow_of_set hwf hi hset
  rw [← hprice, inWindow_of_tail hwf h] at hin
  cases hin

/-- A level in the window range stands at its index. -/
theorem live_inWindow (hwf : WellFormed l) (hvalid : ValidWindow windowSize)
    {level : PriceLevel} (hin : l.inWindow level.price = true) :
    l.Live level ↔
      l.testBit (l.indexOf level.price) = true ∧ l.levels (l.indexOf level.price) = level := by
  obtain ⟨hlt, hprice, hanch⟩ := exists_index hwf hvalid hin
  rw [live_iff]
  constructor
  · rintro (⟨i, hi, hset, rfl⟩ | htail)
    · have hidx : l.indexOf (l.levels i).price = i := by
        rw [hwf.home i hi hset]
        exact indexOf_eq hwf hvalid hanch hi
      rw [hidx]
      exact ⟨hset, rfl⟩
    · rw [inWindow_of_tail hwf htail] at hin
      cases hin
  · rintro ⟨hset, heq⟩
    exact Or.inl ⟨_, hlt, hset, heq⟩

/-- A level outside the window range stands in the tail. -/
theorem live_outside (hwf : WellFormed l) {level : PriceLevel}
    (hout : l.inWindow level.price = false) : l.Live level ↔ l.tail.Holds level := by
  rw [live_iff]
  constructor
  · rintro (⟨i, hi, hset, rfl⟩ | htail)
    · rw [inWindow_of_set hwf hi hset] at hout
      cases hout
    · exact htail
  · exact Or.inr

/-- Different pointers point to levels of different prices. -/
theorem Points.eq_of_price (hwf : WellFormed l) {r s : LevelRef} (hr : l.Points r)
    (hs : l.Points s) (heq : (l.get r).price = (l.get s).price) : r = s := by
  have hmixed : ∀ i j, l.Points (.window i) → l.Points (.tail j) →
      (l.levels i).price ≠ (l.tail.buf j).price := by
    intro i j hi hj hprice
    refine hwf.outside _ ⟨j, Nat.zero_le _, hj, rfl⟩ ?_
    rw [← hprice, hwf.home i hi.1 hi.2]
    exact ⟨by lia, by have := hi.1; lia⟩
  cases r with
  | window i =>
      cases s with
      | window j =>
          have hprices : (l.levels i).price = (l.levels j).price := heq
          rw [hwf.home i hr.1 hr.2, hwf.home j hs.1 hs.2] at hprices
          rw [show i = j by lia]
      | tail j => exact absurd heq (hmixed i j hr hs)
  | tail i =>
      cases s with
      | window j => exact absurd heq.symm (hmixed j i hs hr)
      | tail j => rw [hwf.tail.sorted.slot_eq (Nat.zero_le _) hr (Nat.zero_le _) hs heq]

/-! ## Lookup -/

/-- `find` points to the level at the price. -/
theorem find_some (hwf : WellFormed l) (hvalid : ValidWindow windowSize) {p : Price}
    {r : LevelRef} (h : l.find p = some r) : l.Points r ∧ (l.get r).price = p := by
  unfold find at h
  split at h
  · next hin =>
      obtain ⟨hlt, hprice, _⟩ := exists_index hwf hvalid hin
      dsimp only at h
      split at h
      · next hset =>
          cases h
          exact ⟨⟨hlt, hset⟩, (hwf.home _ hlt hset).trans hprice.symm⟩
      · cases h
  · obtain ⟨i, hi, rfl⟩ := Option.map_eq_some_iff.mp h
    exact (LevelTail.find_eq_some hwf.tail.sorted).mp hi

/-- `find` returns null exactly if the price has no level. -/
theorem find_none (hwf : WellFormed l) (hvalid : ValidWindow windowSize) {p : Price} :
    l.find p = none ↔ ∀ level, l.Live level → level.price ≠ p := by
  unfold find
  split
  · next hin =>
      obtain ⟨hlt, hprice, _⟩ := exists_index hwf hvalid hin
      dsimp only
      split
      · next hset =>
          refine iff_of_false (by simp) fun h => ?_
          exact h _ ⟨.window _, ⟨hlt, hset⟩, rfl⟩ ((hwf.home _ hlt hset).trans hprice.symm)
      · next hclear =>
          refine iff_of_true rfl fun level hlevel heq => hclear ?_
          subst heq
          exact ((live_inWindow hwf hvalid hin).mp hlevel).1
  · next hout =>
      rw [Bool.not_eq_true] at hout
      rw [Option.map_eq_none_iff, LevelTail.find_eq_none hwf.tail.sorted]
      constructor
      · intro h level hlevel heq
        subst heq
        exact h level ((live_outside hwf hout).mp hlevel) rfl
      · intro h level hlevel
        exact h level (live_iff.mpr (Or.inr hlevel))

/-- The order of the indices is the order of the prices. -/
theorem betterIdx_iff {i j : Nat} :
    betterIdx isBid i j = better isBid (l.base + (i : Int)) (l.base + (j : Int)) := by
  unfold betterIdx better
  cases isBid <;> simp

/-- The best level of the window. -/
theorem best_window (hwf : WellFormed l) :
    (l.bestIdx < 0 ∧ ∀ i < windowSize, l.testBit i = false) ∨
      ∃ k < windowSize, l.bestIdx = k ∧ l.testBit k = true ∧
        ∀ i < windowSize, l.testBit i = true → i ≠ k →
          better isBid (l.levels k).price (l.levels i).price = true := by
  rcases hwf.best with ⟨hneg, hnone⟩ | ⟨k, hk, heq, hset, hbest⟩
  · exact Or.inl ⟨by omega, hnone⟩
  · refine Or.inr ⟨k, hk, heq, hset, fun i hi hseti hne => ?_⟩
    rw [hwf.home k hk hset, hwf.home i hi hseti, ← betterIdx_iff]
    exact hbest i hi hseti hne

/-- The best level of the tail is the last one. -/
theorem best_tail (hwf : WellFormed l) {level : PriceLevel} (hlevel : l.tail.Holds level)
    (hne : level ≠ l.tail.buf (l.tail.n - 1)) :
    better isBid (l.tail.buf (l.tail.n - 1)).price level.price = true := by
  obtain ⟨i, _, hi, rfl⟩ := hlevel
  rw [better_eq]
  have hi' : i ≠ l.tail.n - 1 := fun heq => hne (by rw [heq])
  exact hwf.tail.sorted i _ (Nat.zero_le _) (by omega) (by omega)

/-- `best` points to the level with the best price, and is null exactly if there is no level. -/
theorem best_spec (hwf : WellFormed l) :
    (l.best = none ∧ (∀ level, ¬ l.Live level)) ∨
      ∃ r, l.best = some r ∧ l.Points r ∧
        ∀ level, l.Live level → level ≠ l.get r →
          better isBid (l.get r).price level.price = true := by
  have hst := better_strict isBid
  have htail : ∀ level, l.tail.Holds level → l.tail.n ≠ 0 := by
    rintro level ⟨i, _, hi, _⟩
    omega
  by_cases hn : l.tail.n = 0
  · -- the tail is empty: the best level of the window, if any
    have hbest : l.best = if l.bestIdx ≥ 0 then some (.window l.bestIdx.toNat) else none := by
      simp [best, LevelTail.best, hn]
    rw [hbest]
    rcases best_window hwf with ⟨hneg, hnone⟩ | ⟨k, hk, heq, hset, hwin⟩
    · refine Or.inl ⟨if_neg (by omega), fun level hlevel => ?_⟩
      rcases live_iff.mp hlevel with ⟨i, hi, hset, _⟩ | h
      · rw [hnone i hi] at hset
        cases hset
      · exact htail level h hn
    · refine Or.inr ⟨.window k, by simp [heq], ⟨hk, hset⟩, fun level hlevel hne => ?_⟩
      rcases live_iff.mp hlevel with ⟨i, hi, hseti, rfl⟩ | h
      · exact hwin i hi hseti fun hik => hne (by rw [hik]; rfl)
      · exact absurd hn (htail level h)
  · have hlast : l.tail.Holds (l.tail.buf (l.tail.n - 1)) := ⟨_, Nat.zero_le _, by omega, rfl⟩
    have hpoints : l.Points (.tail (l.tail.n - 1)) := show l.tail.n - 1 < l.tail.n by omega
    refine Or.inr ?_
    rcases best_window hwf with ⟨hneg, hnone⟩ | ⟨k, hk, heq, hset, hwin⟩
    · -- the window is empty: the last level of the tail
      refine ⟨.tail (l.tail.n - 1), ?_, hpoints, fun level hlevel hne => ?_⟩
      · simp [best, LevelTail.best, hn, show ¬ 0 ≤ l.bestIdx by omega]
      · rcases live_iff.mp hlevel with ⟨i, hi, hseti, _⟩ | h
        · rw [hnone i hi] at hseti
          cases hseti
        · exact best_tail hwf h hne
    · -- both have a best level, and the better one of the two is the best of all
      have hbest : l.best = if better isBid (l.tail.buf (l.tail.n - 1)).price (l.levels k).price
          then some (.tail (l.tail.n - 1)) else some (.window k) := by
        simp [best, LevelTail.best, hn, heq, get]
        rfl
      rw [hbest]
      split
      · next hbetter =>
          refine ⟨_, rfl, hpoints, fun level hlevel hne => ?_⟩
          rcases live_iff.mp hlevel with ⟨i, hi, hseti, rfl⟩ | h
          · by_cases hik : i = k
            · rw [hik]
              exact hbetter
            · exact hst.trans hbetter (hwin i hi hseti hik)
          · exact best_tail hwf h hne
      · next hbetter =>
          have hwt : better isBid (l.levels k).price (l.tail.buf (l.tail.n - 1)).price = true := by
            apply hst.lt_of_not_lt (by simpa using hbetter)
            exact tail_price_ne hwf hlast hk hset
          refine ⟨_, rfl, ⟨hk, hset⟩, fun level hlevel hne => ?_⟩
          rcases live_iff.mp hlevel with ⟨i, hi, hseti, rfl⟩ | h
          · exact hwin i hi hseti fun hik => hne (by rw [hik]; rfl)
          · by_cases hl : level = l.tail.buf (l.tail.n - 1)
            · rw [hl]
              exact hwt
            · exact hst.trans hwt (best_tail hwf h hl)

/-! ## Scans -/

/-- The best index depends on the set indices only. -/
theorem IsBest.congr {P Q : Nat → Bool} {size : Nat} {r : Int} (h : IsBest isBid P size r)
    (heq : ∀ j < size, P j = Q j) : IsBest isBid Q size r := by
  rcases h with ⟨hneg, hnone⟩ | ⟨k, hk, hr, hset, hbest⟩
  · exact Or.inl ⟨hneg, fun j hj => by rw [← heq j hj]; exact hnone j hj⟩
  · refine Or.inr ⟨k, hk, hr, by rw [← heq k hk]; exact hset, fun j hj hsetj hne => ?_⟩
    exact hbest j hj (by rw [heq j hj]; exact hsetj) hne

/-- The order of the indices is a strict total order. -/
theorem betterIdx_strict (isBid : Bool) : OrderedMap.StrictTotal (betterIdx isBid) :=
  better_strict isBid

/-- The best index after a new one has been set. -/
theorem IsBest.insert {P : Nat → Bool} {size idx : Nat} {r : Int} (h : IsBest isBid P size r)
    (hidx : idx < size) (hclear : P idx = false) :
    IsBest isBid (fun j => decide (j = idx) || P j) size
      (if r < 0 ∨ betterIdx isBid idx r then idx else r) := by
  have hst := betterIdx_strict isBid
  rcases h with ⟨rfl, hnone⟩ | ⟨k, hk, rfl, hset, hbest⟩
  · refine Or.inr ⟨idx, hidx, if_pos (Or.inl (by omega)), by simp, fun j hj hsetj hne => ?_⟩
    simp [hnone j hj, hne] at hsetj
  · have hki : k ≠ idx := by
      rintro rfl
      rw [hclear] at hset
      cases hset
    split
    · next hcond =>
        have hnew : betterIdx isBid idx k = true := hcond.resolve_left (by omega)
        refine Or.inr ⟨idx, hidx, rfl, by simp, fun j hj hsetj hne => ?_⟩
        have hsetj : P j = true := by simpa [hne] using hsetj
        by_cases hjk : j = k
        · rw [hjk]
          exact hnew
        · exact hst.trans hnew (hbest j hj hsetj hjk)
    · next hcond =>
        refine Or.inr ⟨k, hk, rfl, by simp [hset], fun j hj hsetj hne => ?_⟩
        by_cases hji : j = idx
        · rw [hji]
          refine hst.lt_of_not_lt ?_ (by omega)
          by_contra hcon
          exact hcond (Or.inr (by simpa using hcon))
        · exact hbest j hj (by simpa [hji] using hsetj) hne

/-- The best index after another one has been cleared. -/
theorem IsBest.erase_other {P : Nat → Bool} {size idx : Nat} {r : Int}
    (h : IsBest isBid P size r) (hne : (idx : Int) ≠ r) :
    IsBest isBid (fun j => !decide (j = idx) && P j) size r := by
  rcases h with ⟨rfl, hnone⟩ | ⟨k, hk, rfl, hset, hbest⟩
  · exact Or.inl ⟨rfl, fun j hj => by simp [hnone j hj]⟩
  · refine Or.inr ⟨k, hk, rfl, by simpa [hset] using fun heq : k = idx => hne (by rw [heq]), ?_⟩
    intro j hj hsetj hjk
    simp only [Bool.and_eq_true] at hsetj
    exact hbest j hj hsetj.2 hjk

/-- For bids the best index is the highest one. -/
theorem isBest_of_highest {P : Nat → Bool} {hi size : Nat} {r : Int}
    (h : Bitmap.IsHighest P hi r) (hle : hi ≤ size) :
    IsBest true (fun j => P j && decide (j < hi)) size r := by
  rcases h with ⟨hneg, hnone⟩ | ⟨k, hk, hr, hset, habove⟩
  · refine Or.inl ⟨hneg, fun j _ => ?_⟩
    by_cases hj : j < hi
    · simp [hnone j hj]
    · simp [hj]
  · refine Or.inr ⟨k, by omega, hr, by simp [hset, hk], fun j _ hsetj hne => ?_⟩
    simp only [Bool.and_eq_true, decide_eq_true_eq] at hsetj
    by_contra hnot
    have hlt : k < j := by
      simp [betterIdx] at hnot
      omega
    rw [habove j hsetj.2 hlt] at hsetj
    exact absurd hsetj.1 (by simp)

/-- For asks the best index is the lowest one. -/
theorem isBest_of_lowest {P : Nat → Bool} {lo size : Nat} {r : Int}
    (h : Bitmap.IsLowest P lo size r) :
    IsBest false (fun j => P j && decide (lo ≤ j)) size r := by
  rcases h with ⟨hneg, hnone⟩ | ⟨k, hk, hk', hr, hset, hbelow⟩
  · refine Or.inl ⟨hneg, fun j hj => ?_⟩
    by_cases hlo : lo ≤ j
    · simp [hnone j hlo hj]
    · simp [hlo]
  · refine Or.inr ⟨k, hk', hr, by simp [hset, hk], fun j _ hsetj hne => ?_⟩
    simp only [Bool.and_eq_true, decide_eq_true_eq] at hsetj
    by_contra hnot
    have hlt : j < k := by
      simp [betterIdx] at hnot
      omega
    rw [hbelow j hsetj.2 hlt] at hsetj
    exact absurd hsetj.1 (by simp)

/-- `bestInWindow` is the best set index. -/
theorem bestInWindow_spec (hwords : kWords windowSize * 64 = windowSize)
    (l : LevelLadder isBid windowSize tailCapacity) :
    IsBest isBid l.testBit windowSize l.bestInWindow := by
  cases isBid with
  | true =>
      have h := Bitmap.scanDown_spec l.bits ((windowSize : Int) - 1) (by omega)
      rw [show ((windowSize : Int) - 1 + 1).toNat = windowSize by omega] at h
      exact (isBest_of_highest h (le_refl _)).congr fun j hj => by simp [hj, testBit]
  | false =>
      have h := Bitmap.scanUp_spec l.bits (kWords windowSize) 0 (le_refl _)
      rw [hwords] at h
      exact (isBest_of_lowest h).congr fun j hj => by simp [testBit]

/-- `nextWorse` is the best set index among the worse ones. -/
theorem nextWorse_spec (hwords : kWords windowSize * 64 = windowSize)
    (l : LevelLadder isBid windowSize tailCapacity) {k : Nat} (hk : k < windowSize) :
    IsBest isBid (fun j => l.testBit j && betterIdx isBid k j) windowSize (l.nextWorse k) := by
  cases isBid with
  | true =>
      have h := Bitmap.scanDown_spec l.bits ((k : Int) - 1) (by omega)
      rw [show ((k : Int) - 1 + 1).toNat = k by omega] at h
      exact (isBest_of_highest h hk.le).congr fun j hj => by simp [testBit, betterIdx]
  | false =>
      have h := Bitmap.scanUp_spec l.bits (kWords windowSize) ((k : Int) + 1) (by omega)
      rw [hwords, show ((k : Int) + 1).toNat = k + 1 by omega] at h
      exact (isBest_of_lowest h).congr fun j hj => by
        simp only [testBit, betterIdx, Bool.false_eq_true, if_false, Int.ofNat_lt, Nat.succ_le_iff]

/-! ## Changing a level in place -/

section Put

variable {r : LevelRef} {level : PriceLevel}

/-- Writing a level moves no pointer. -/
@[simp] theorem points_put {r' : LevelRef} : (l.put r level).Points r' ↔ l.Points r' := by
  cases r <;> cases r' <;> rfl

/-- What is read after writing a level. -/
theorem get_put {r' : LevelRef} :
    (l.put r level).get r' = if r' = r then level else l.get r' := by
  cases r with
  | window i =>
      cases r' with
      | window j => simp [put, get, Function.update_apply]
      | tail j => simp [put, get]
  | tail i =>
      cases r' with
      | window j => simp [put, get]
      | tail j => simp [put, get, Function.update_apply]

/-- Writing a level of the same price keeps the invariant. -/
theorem WellFormed.put (hwf : WellFormed l) (hr : l.Points r)
    (hprice : level.price = (l.get r).price) : WellFormed (l.put r level) := by
  cases r with
  | window i =>
      refine ⟨hwf.tail, hwf.unanchored, hwf.range, fun j hj hset => ?_, hwf.outside, hwf.count,
        hwf.best⟩
      show (Function.update l.levels i level j).price = l.base + j
      by_cases hji : j = i
      · subst hji
        rw [Function.update_self, hprice]
        exact hwf.home j hj hset
      · rw [Function.update_of_ne hji]
        exact hwf.home j hj hset
  | tail i =>
      have hprices : ∀ k, (Function.update l.tail.buf i level k).price = (l.tail.buf k).price := by
        intro k
        by_cases hki : k = i
        · subst hki
          rw [Function.update_self, hprice]
          rfl
        · rw [Function.update_of_ne hki]
      refine ⟨⟨fun a b ha hab hb => ?_, hwf.tail.size_le, hwf.tail.staged_eq⟩, hwf.unanchored,
        hwf.range, hwf.home, ?_, hwf.count, hwf.best⟩
      · show worse isBid (Function.update l.tail.buf i level a).price
          (Function.update l.tail.buf i level b).price = true
        rw [hprices, hprices]
        exact hwf.tail.sorted a b ha hab hb
      · rintro other ⟨k, hk, hk', rfl⟩
        show ¬ (l.base ≤ (Function.update l.tail.buf i level k).price ∧
          (Function.update l.tail.buf i level k).price < l.base + windowSize)
        rw [hprices]
        exact hwf.outside _ ⟨k, hk, hk', rfl⟩

/-- Writing a level of the same price replaces the level at that price. -/
theorem live_put (hwf : WellFormed l) (hr : l.Points r) (hprice : level.price = (l.get r).price)
    (other : PriceLevel) :
    (l.put r level).Live other ↔ (l.Live other ∧ other.price ≠ level.price) ∨ other = level := by
  unfold Live
  simp only [points_put, get_put]
  constructor
  · rintro ⟨r', hr', rfl⟩
    split
    · exact Or.inr rfl
    · next hne =>
        refine Or.inl ⟨⟨r', hr', rfl⟩, fun heq => hne ?_⟩
        exact hr'.eq_of_price hwf hr (heq.trans hprice)
  · rintro (⟨⟨r', hr', rfl⟩, hne⟩ | rfl)
    · exact ⟨r', hr', if_neg fun heq => hne (by rw [heq, hprice])⟩
    · exact ⟨r, hr, if_pos rfl⟩

end Put

/-! ## Opening and erasing a level -/

/-- A price without a level in the window range has a clear bit. -/
theorem clear_of_absent (hwf : WellFormed l) (hvalid : ValidWindow windowSize) {p : Price}
    (hin : l.inWindow p = true) (hclear : l.testBit (l.indexOf p) = false) :
    ∀ level, l.Live level → level.price ≠ p := by
  intro level hlevel heq
  subst heq
  have h := ((live_inWindow hwf hvalid hin).mp hlevel).1
  rw [hclear] at h
  cases h

/-- `openSlot` makes sure that there is a level at a price in the window range. -/
theorem openSlot_spec (hwf : WellFormed l) (hvalid : ValidWindow windowSize) {p : Price}
    (hin : l.inWindow p = true) :
    ∃ l' r, l.openSlot p = (l', r) ∧ WellFormed l' ∧ l'.Points r ∧ (l'.get r).price = p ∧
      l'.size ≤ l.size + 1 ∧
      ∀ level, l'.Live level ↔ l.Live level ∨
        ((∀ a, l.Live a → a.price ≠ p) ∧ level = ⟨p, 0, none, none⟩) := by
  obtain ⟨hlt, hprice, hanch⟩ := exists_index hwf hvalid hin
  unfold openSlot
  dsimp only
  split
  · -- the slot is in use already, so nothing changes
    next hset =>
      have hhome := (hwf.home _ hlt hset).trans hprice.symm
      refine ⟨_, _, rfl, hwf, ⟨hlt, hset⟩, hhome, Nat.le_succ _, fun level => ⟨Or.inl, ?_⟩⟩
      rintro (h | ⟨h, _⟩)
      · exact h
      · exact absurd hhome (h _ ⟨.window _, ⟨hlt, hset⟩, rfl⟩)
  · next hclear =>
      rw [Bool.not_eq_true] at hclear
      -- no level has the price, in the tail neither
      have habsent := clear_of_absent hwf hvalid hin hclear
      generalize hidx : l.indexOf p = idx at *
      have htest : ∀ j, Bitmap.test (Bitmap.set l.bits idx) j =
          (decide (j = idx) || l.testBit j) := fun j => Bitmap.test_set _ _ _
      have hlevels : ∀ j, j ≠ idx → Function.update l.levels idx ⟨p, 0, none, none⟩ j =
          l.levels j := fun j hj => Function.update_of_ne hj _ _
      refine ⟨_, _, rfl, ?_, ⟨hlt, ?_⟩, ?_, ?_, fun level => ?_⟩
      · refine ⟨hwf.tail, fun h => ?_, hwf.range, fun j hj hset => ?_, hwf.outside, ?_, ?_⟩
        · rw [show l.anchored = false from h] at hanch
          cases hanch
        · show (Function.update l.levels idx _ j).price = l.base + j
          by_cases hj' : j = idx
          · subst hj'
            rw [Function.update_self]
            exact hprice
          · rw [hlevels j hj']
            refine hwf.home j hj ?_
            have hset : Bitmap.test (Bitmap.set l.bits idx) j = true := hset
            rw [htest] at hset
            simpa [hj'] using hset
        · show l.windowCount + 1 = (Bitmap.setIndices (Bitmap.set l.bits idx) windowSize).card
          rw [hwf.count, Bitmap.card_setIndices_set hlt hclear]
        · exact (hwf.best.insert hlt hclear).congr fun j _ => (htest j).symm
      · show Bitmap.test (Bitmap.set l.bits idx) idx = true
        simp
      · show (Function.update l.levels idx _ idx).price = p
        rw [Function.update_self]
      · show l.windowCount + 1 + l.tail.n ≤ l.windowCount + l.tail.n + 1
        omega
      · rw [live_iff, live_iff]
        show (∃ i < windowSize, Bitmap.test (Bitmap.set l.bits idx) i = true ∧
          Function.update l.levels idx _ i = level) ∨ l.tail.Holds level ↔ _
        constructor
        · rintro (⟨i, hi, hset, rfl⟩ | h)
          · by_cases hii : i = idx
            · subst hii
              exact Or.inr ⟨habsent, by rw [Function.update_self]⟩
            · rw [htest] at hset
              exact Or.inl (Or.inl ⟨i, hi, by simpa [hii] using hset, (hlevels i hii).symm⟩)
          · exact Or.inl (Or.inr h)
        · rintro ((⟨i, hi, hset, rfl⟩ | h) | ⟨_, rfl⟩)
          · have hii : i ≠ idx := by
              rintro rfl
              rw [hclear] at hset
              cases hset
            exact Or.inl ⟨i, hi, by simp [htest, hset], hlevels i hii⟩
          · exact Or.inr h
          · exact Or.inl ⟨idx, hlt, by simp, Function.update_self _ _ _⟩

/-- Erasing a level of the tail. -/
theorem eraseLevel_tail (hwf : WellFormed l) {i : Nat} (hr : l.Points (.tail i)) :
    WellFormed (l.eraseLevel (.tail i)) ∧ (l.eraseLevel (.tail i)).size + 1 = l.size ∧
      ∀ level, (l.eraseLevel (.tail i)).Live level ↔
        l.Live level ∧ level.price ≠ (l.tail.buf i).price := by
  have hholds : l.tail.Holds (l.tail.buf i) := ⟨i, Nat.zero_le _, hr, rfl⟩
  have hout := inWindow_of_tail hwf hholds
  have heq : l.eraseLevel (.tail i) = { l with tail := l.tail.erase (l.tail.buf i).price } := by
    simp [eraseLevel, get, hout]
  obtain ⟨hordered, hstage, hn, hmem⟩ := LevelTail.erase_hit hwf.tail.ordered hholds
  have htail := hordered.wellFormed hstage hwf.tail
  rw [heq]
  refine ⟨⟨htail, fun h => ⟨(hwf.unanchored h).1, ?_⟩, hwf.range, hwf.home, ?_, hwf.count,
    hwf.best⟩, ?_, fun level => ?_⟩
  · have := (hwf.unanchored h).2
    omega
  · exact fun level hlevel => hwf.outside level ((hmem level).mp hlevel).1
  · show l.windowCount + (l.tail.erase _).n + 1 = l.windowCount + l.tail.n
    omega
  · rw [live_iff, live_iff]
    show (∃ j < windowSize, l.testBit j = true ∧ l.levels j = level) ∨
      (l.tail.erase (l.tail.buf i).price).Holds level ↔ _
    rw [hmem]
    constructor
    · rintro (⟨j, hj, hset, rfl⟩ | ⟨h, hne⟩)
      · exact ⟨Or.inl ⟨j, hj, hset, rfl⟩, (tail_price_ne hwf hholds hj hset).symm⟩
      · exact ⟨Or.inr h, hne⟩
    · rintro ⟨h | h, hne⟩
      · exact Or.inl h
      · exact Or.inr ⟨h, hne⟩

/-- The ladder after the slot `i` of the window has been cleared, with `b` for the best index. -/
def clearSlot (l : LevelLadder isBid windowSize tailCapacity) (i : Nat) (b : Int) :
    LevelLadder isBid windowSize tailCapacity :=
  { l with bits := Bitmap.clear l.bits i, windowCount := l.windowCount - 1, bestIdx := b }

section ClearSlot

variable {i : Nat} {b : Int}

/-- The bits after a slot has been cleared. -/
theorem testBit_clearSlot (j : Nat) :
    (l.clearSlot i b).testBit j = (!decide (j = i) && l.testBit j) := Bitmap.test_clear _ _ _

/-- Clearing a slot keeps the invariant, if the best index is right afterwards. -/
theorem WellFormed.clearSlot (hwf : WellFormed l) (hr : l.Points (.window i))
    (hb : IsBest isBid (l.clearSlot i b).testBit windowSize b) : WellFormed (l.clearSlot i b) := by
  have hcount := Bitmap.card_setIndices_clear hr.1 hr.2
  refine ⟨hwf.tail, fun h => ?_, hwf.range, fun j hj hsetj => ?_, hwf.outside, ?_, hb⟩
  · have hanch := anchored_of_set hwf hr.1 hr.2
    rw [show l.anchored = false from h] at hanch
    cases hanch
  · rw [testBit_clearSlot, Bool.and_eq_true] at hsetj
    exact hwf.home j hj hsetj.2
  · show l.windowCount - 1 = (Bitmap.setIndices (Bitmap.clear l.bits i) windowSize).card
    rw [hwf.count]
    omega

/-- Clearing a slot takes one level out. -/
theorem size_clearSlot (hwf : WellFormed l) (hr : l.Points (.window i)) :
    (l.clearSlot i b).size + 1 = l.size := by
  have hcount := Bitmap.card_setIndices_clear hr.1 hr.2
  show l.windowCount - 1 + l.tail.n + 1 = l.windowCount + l.tail.n
  rw [hwf.count]
  omega

/-- Clearing a slot leaves the levels at other prices. -/
theorem live_clearSlot (hwf : WellFormed l) (hr : l.Points (.window i)) {level : PriceLevel} :
    (l.clearSlot i b).Live level ↔ l.Live level ∧ level.price ≠ (l.levels i).price := by
  have hpoints : ∀ r, (l.clearSlot i b).Points r ↔ l.Points r ∧ r ≠ .window i := by
    intro r
    cases r with
    | window j =>
        simp only [Points, testBit_clearSlot, Bool.and_eq_true, Bool.not_eq_true',
          decide_eq_false_iff_not, ne_eq, LevelRef.window.injEq]
        tauto
    | tail j => simp [Points, LevelLadder.clearSlot]
  have hget : ∀ r, (l.clearSlot i b).get r = l.get r := fun r => by cases r <;> rfl
  unfold Live
  simp only [hpoints, hget]
  constructor
  · rintro ⟨r, ⟨hr', hne⟩, rfl⟩
    exact ⟨⟨r, hr', rfl⟩, fun heq => hne (hr'.eq_of_price hwf (s := .window i) hr heq)⟩
  · rintro ⟨⟨r, hr', rfl⟩, hne⟩
    exact ⟨r, ⟨hr', fun heq => hne (by rw [heq]; rfl)⟩, rfl⟩

/-- When the best level of the window leaves, the next worse one is the best: every other one is
worse than the one that leaves. -/
theorem isBest_nextWorse (hwf : WellFormed l) (hvalid : ValidWindow windowSize)
    (hr : l.Points (.window i)) (hbest : (i : Int) = l.bestIdx) (c : Int) :
    IsBest isBid (l.clearSlot i b).testBit windowSize ((l.clearSlot i c).nextWorse l.bestIdx) := by
  have hnext := nextWorse_spec hvalid.words (l.clearSlot i c) hr.1
  rw [hbest] at hnext
  refine hnext.congr fun j hj => ?_
  rw [testBit_clearSlot, testBit_clearSlot, ← hbest]
  rcases hwf.best with ⟨hneg, _⟩ | ⟨k, hk, heq, _, hall⟩
  · omega
  · obtain rfl : i = k := by omega
    by_cases hji : j = i
    · simp [hji]
    · cases hsetj : l.testBit j with
      | false => simp
      | true => simp [hall j hj hsetj hji]

end ClearSlot

/-- `eraseLevel` takes out the level it is given. -/
theorem eraseLevel_spec (hwf : WellFormed l) (hvalid : ValidWindow windowSize) {r : LevelRef}
    (hr : l.Points r) :
    WellFormed (l.eraseLevel r) ∧ (l.eraseLevel r).size + 1 = l.size ∧
      ∀ level, (l.eraseLevel r).Live level ↔ l.Live level ∧ level.price ≠ (l.get r).price := by
  cases r with
  | tail i => exact eraseLevel_tail hwf hr
  | window i =>
      have hidx : l.indexOf (l.levels i).price = i := by
        rw [hwf.home i hr.1 hr.2]
        exact indexOf_eq hwf hvalid (anchored_of_set hwf hr.1 hr.2) hr.1
      have hclear : ∀ b, IsBest isBid (l.clearSlot i b).testBit windowSize b →
          WellFormed (l.clearSlot i b) ∧ (l.clearSlot i b).size + 1 = l.size ∧
          ∀ level, (l.clearSlot i b).Live level ↔
            l.Live level ∧ level.price ≠ (l.levels i).price := fun b hb =>
        ⟨hwf.clearSlot hr hb, size_clearSlot hwf hr, fun _ => live_clearSlot hwf hr⟩
      simp only [eraseLevel, get, inWindow_of_set hwf hr.1 hr.2, hidx, if_true]
      split
      · next hbest => exact hclear _ (isBest_nextWorse hwf hvalid hr hbest l.bestIdx)
      · next hbest =>
          exact hclear _ ((hwf.best.erase_other hbest).congr fun j _ => (testBit_clearSlot j).symm)

end LevelLadder

end LimitOrderBook
