import Mathlib.Data.Finset.Card
import Mathlib.Data.List.Nodup
import Mathlib.Data.List.Range
import Mathlib.Logic.Function.Basic
import Mathlib.Tactic.Common

/-!
# Bitmaps of 64-bit words

A set of natural numbers kept as one bit each in an array of 64-bit words. The operations are
written with shifts, masks and zero counts, and each has a lemma that says what it does to
`test`. `scanDown` and `scanUp` look for the nearest set index word by word, `lowBits` lists the
set bits of one word by clearing the lowest bit again and again, and `forEachSet` is the nested
loop over all words that runs a body on every set index.
-/

namespace Bitmap

/-- An array of words. -/
abbrev Words := Nat → BitVec 64

/-- Whether bit `i` is set. -/
def test (words : Words) (i : Nat) : Bool :=
  ((words (i >>> 6) >>> (i &&& 63)) &&& 1#64) != 0#64

/-- Set bit `i`. -/
def set (words : Words) (i : Nat) : Words :=
  Function.update words (i >>> 6) (words (i >>> 6) ||| (1#64 <<< (i &&& 63)))

/-- Clear bit `i`. -/
def clear (words : Words) (i : Nat) : Words :=
  Function.update words (i >>> 6) (words (i >>> 6) &&& ~~~(1#64 <<< (i &&& 63)))

/-! ## Single bits -/

/-- A shift by six is a division by 64. -/
theorem shift_six (i : Nat) : i >>> 6 = i / 64 := by
  rw [Nat.shiftRight_eq_div_pow]

/-- A mask by 63 is the remainder by 64. -/
theorem and_sixty_three (i : Nat) : i &&& 63 = i % 64 :=
  Nat.and_two_pow_sub_one_eq_mod i 6

/-- `test` reads bit `i % 64` of word `i / 64`. -/
theorem test_eq (words : Words) (i : Nat) : test words i = (words (i / 64)).getLsbD (i % 64) := by
  have hmask : ∀ x : BitVec 64, (x &&& 1#64 != 0#64) = x.getLsbD 0 := by
    intro x
    rw [Bool.eq_iff_iff, bne_iff_ne]
    constructor
    · intro hne
      by_contra hbit
      apply hne
      apply BitVec.eq_of_getLsbD_eq
      intro j hj
      by_cases hj0 : j = 0
      · subst hj0; simpa using hbit
      · simp [hj0]
    · intro hbit heq
      have hzero : (x &&& 1#64).getLsbD 0 = (0#64).getLsbD 0 := by rw [heq]
      rw [BitVec.getLsbD_and, hbit] at hzero
      cases hzero
  unfold test
  rw [hmask, shift_six, and_sixty_three]
  simp

/-- Two indices are equal if their words and their bits are. -/
theorem index_eq_iff (i j : Nat) : j = i ↔ j / 64 = i / 64 ∧ j % 64 = i % 64 := by
  omega

/-- Setting a bit sets that bit. -/
@[simp] theorem test_set (words : Words) (i j : Nat) :
    test (set words i) j = (decide (j = i) || test words j) := by
  rw [test_eq, test_eq, set, shift_six, and_sixty_three]
  have hi : i % 64 < 64 := Nat.mod_lt _ (by decide)
  have hj : j % 64 < 64 := Nat.mod_lt _ (by decide)
  by_cases hw : j / 64 = i / 64
  · rw [hw, Function.update_self]
    by_cases hb : j % 64 = i % 64
    · have hji : j = i := (index_eq_iff i j).mpr ⟨hw, hb⟩
      simp [hji, hi]
    · have hji : j ≠ i := fun heq => hb (by rw [heq])
      have hbit : ¬(j % 64 < 64 ∧ i % 64 ≤ j % 64 ∧ j % 64 - i % 64 = 0) := by omega
      simp only [BitVec.getLsbD_or, BitVec.getLsbD_shiftLeft, BitVec.getLsbD_one]
      simp [hji]
      omega
  · have hji : j ≠ i := fun heq => hw (by rw [heq])
    rw [Function.update_of_ne hw]
    simp [hji]

/-- Clearing a bit clears that bit. -/
@[simp] theorem test_clear (words : Words) (i j : Nat) :
    test (clear words i) j = (!decide (j = i) && test words j) := by
  rw [test_eq, test_eq, clear, shift_six, and_sixty_three]
  have hi : i % 64 < 64 := Nat.mod_lt _ (by decide)
  have hj : j % 64 < 64 := Nat.mod_lt _ (by decide)
  by_cases hw : j / 64 = i / 64
  · rw [hw, Function.update_self]
    by_cases hb : j % 64 = i % 64
    · have hji : j = i := (index_eq_iff i j).mpr ⟨hw, hb⟩
      simp [hji, hi]
    · have hji : j ≠ i := fun heq => hb (by rw [heq])
      simp only [BitVec.getLsbD_and, BitVec.getLsbD_not, BitVec.getLsbD_shiftLeft,
        BitVec.getLsbD_one]
      simp [hji, hj]
      intro hset
      omega
  · have hji : j ≠ i := fun heq => hw (by rw [heq])
    rw [Function.update_of_ne hw]
    simp [hji]

/-- Clearing a bit leaves the other words alone. -/
theorem clear_word {words : Words} {i w : Nat} (hw : w ≠ i / 64) :
    clear words i w = words w := by
  rw [clear, shift_six, Function.update_of_ne hw]

/-! ## Counting -/

/-- The set indices below `size`. -/
def setIndices (words : Words) (size : Nat) : Finset Nat :=
  (Finset.range size).filter fun i => test words i = true

/-- Membership in `setIndices`. -/
@[simp] theorem mem_setIndices {words : Words} {size i : Nat} :
    i ∈ setIndices words size ↔ i < size ∧ test words i = true := by
  simp [setIndices]

/-- Setting a clear bit adds one index. -/
theorem card_setIndices_set {words : Words} {size i : Nat} (hi : i < size)
    (hclear : test words i = false) :
    (setIndices (set words i) size).card = (setIndices words size).card + 1 := by
  have heq : setIndices (set words i) size = insert i (setIndices words size) := by
    ext j
    simp only [mem_setIndices, test_set, Finset.mem_insert, Bool.or_eq_true, decide_eq_true_eq]
    constructor
    · rintro ⟨hj, rfl | hset⟩
      · exact Or.inl rfl
      · exact Or.inr ⟨hj, hset⟩
    · rintro (rfl | ⟨hj, hset⟩)
      · exact ⟨hi, Or.inl rfl⟩
      · exact ⟨hj, Or.inr hset⟩
  rw [heq, Finset.card_insert_of_notMem (by simp [hclear])]

/-- Clearing a set bit removes one index. -/
theorem card_setIndices_clear {words : Words} {size i : Nat} (hi : i < size)
    (hset : test words i = true) :
    (setIndices (clear words i) size).card + 1 = (setIndices words size).card := by
  have heq : setIndices (clear words i) size = (setIndices words size).erase i := by
    ext j
    simp only [mem_setIndices, test_clear, Finset.mem_erase, Bool.and_eq_true,
      Bool.not_eq_true', decide_eq_false_iff_not]
    tauto
  rw [heq, Finset.card_erase_add_one (by simp [hi, hset])]

/-! ## Scans -/

/-- The scan down from word `w`, whose bits still to be seen are `word`. -/
def scanDownFrom (words : Words) : Nat → BitVec 64 → Int
  | w, word =>
      if word ≠ 0#64 then (w * 64 + 63 - word.clz.toNat : Nat)
      else match w with
        | 0 => -1
        | w + 1 => scanDownFrom words w (words w)

/-- The highest set index that is at most `i`, or -1. -/
def scanDown (words : Words) (i : Int) : Int :=
  if i < 0 then -1
  else
    let w := i.toNat >>> 6
    scanDownFrom words w (words w &&& ((~~~0#64) >>> (63 - (i.toNat &&& 63))))

/-- The scan up from word `w`, whose bits still to be seen are `word`, with `left` words after
it. -/
def scanUpFrom (words : Words) : Nat → Nat → BitVec 64 → Int
  | left, w, word =>
      if word ≠ 0#64 then (w * 64 + word.ctz.toNat : Nat)
      else match left with
        | 0 => -1
        | left + 1 => scanUpFrom words left (w + 1) (words (w + 1))

/-- The lowest set index that is at least `i`, among `count` words, or -1. -/
def scanUp (words : Words) (count : Nat) (i : Int) : Int :=
  if (count * 64 : Nat) ≤ i then -1
  else
    let w := i.toNat >>> 6
    scanUpFrom words (count - 1 - w) w (words w &&& ((~~~0#64) <<< (i.toNat &&& 63)))

/-- `r` is the highest index below `hi` at which `P` holds, or -1. -/
def IsHighest (P : Nat → Bool) (hi : Nat) (r : Int) : Prop :=
  (r = -1 ∧ ∀ j < hi, P j = false) ∨
    ∃ k < hi, r = (k : Int) ∧ P k = true ∧ ∀ j < hi, k < j → P j = false

/-- `r` is the lowest index from `lo` on and below `hi` at which `P` holds, or -1. -/
def IsLowest (P : Nat → Bool) (lo hi : Nat) (r : Int) : Prop :=
  (r = -1 ∧ ∀ j, lo ≤ j → j < hi → P j = false) ∨
    ∃ k, lo ≤ k ∧ k < hi ∧ r = (k : Int) ∧ P k = true ∧ ∀ j, lo ≤ j → j < k → P j = false

/-- The leading zero count names the highest set bit of a nonzero word. -/
theorem clz_spec {x : BitVec 64} (hx : x ≠ 0#64) :
    ∃ b < 64, x.clz.toNat + b = 63 ∧ x.getLsbD b = true ∧ ∀ j, b < j → x.getLsbD j = false := by
  have hlt : x.clz.toNat < 64 := by
    have h := BitVec.clz_lt_iff_ne_zero.mpr hx
    simpa [BitVec.lt_def] using h
  refine ⟨63 - x.clz.toNat, by omega, by omega, ?_, ?_⟩
  · exact BitVec.getLsbD_true_clz_of_ne_zero (by decide) hx
  · intro j hj
    by_cases hj64 : j < 64
    · have hbound := BitVec.toNat_lt_two_pow_sub_clz (x := x)
      rw [← BitVec.testBit_toNat]
      apply Nat.testBit_lt_two_pow
      exact lt_of_lt_of_le hbound (Nat.pow_le_pow_right (by decide) (by omega))
    · exact BitVec.getLsbD_of_ge x j (by omega)

/-- The trailing zero count names the lowest set bit of a nonzero word. -/
theorem ctz_spec {x : BitVec 64} (hx : x ≠ 0#64) :
    x.ctz.toNat < 64 ∧ x.getLsbD x.ctz.toNat = true ∧
      ∀ j < x.ctz.toNat, x.getLsbD j = false := by
  refine ⟨?_, BitVec.getLsbD_true_ctz_of_ne_zero hx, fun j hj => BitVec.getLsbD_false_of_lt_ctz hj⟩
  have h := BitVec.ctz_lt_iff_ne_zero.mpr hx
  simpa [BitVec.lt_def] using h

/-- All bits of the zero word are clear. -/
theorem getLsbD_of_eq_zero {x : BitVec 64} (hx : ¬ x ≠ 0#64) (j : Nat) : x.getLsbD j = false := by
  rw [not_not.mp hx]
  simp

/-- Bit `b` of word `w` is the bit of the whole map at `w * 64 + b`. -/
theorem test_mul_add (words : Words) (w : Nat) {b : Nat} (hb : b < 64) :
    test words (w * 64 + b) = (words w).getLsbD b := by
  rw [test_eq, show (w * 64 + b) / 64 = w by omega, show (w * 64 + b) % 64 = b by omega]

/-- If `word` shows the bits of word `w` at which `P` holds, it shows the bit at such an index. -/
theorem test_of_shown {words : Words} {w : Nat} {word : BitVec 64} {P : Nat → Bool}
    (hword : ∀ b < 64, word.getLsbD b = (P (w * 64 + b) && test words (w * 64 + b))) {j : Nat}
    (hlo : w * 64 ≤ j) (hhi : j < (w + 1) * 64) (hP : P j = true) :
    test words j = word.getLsbD (j - w * 64) := by
  rw [hword _ (by omega), Nat.add_sub_cancel' hlo, hP, Bool.true_and]

/-- If the word that shows them is zero, none of the bits is set. -/
theorem test_of_shown_zero {words : Words} {w : Nat} {word : BitVec 64} {P : Nat → Bool}
    (hword : ∀ b < 64, word.getLsbD b = (P (w * 64 + b) && test words (w * 64 + b)))
    (hzero : ¬ word ≠ 0#64) {j : Nat} (hlo : w * 64 ≤ j) (hhi : j < (w + 1) * 64)
    (hP : P j = true) : test words j = false := by
  rw [test_of_shown hword hlo hhi hP]
  exact getLsbD_of_eq_zero hzero _

/-- The highest bit of a word that shows the bits below `hi` is the highest of them. -/
theorem isHighest_of_ne_zero {words : Words} {w hi : Nat} {word : BitVec 64}
    (hlim : hi ≤ (w + 1) * 64)
    (hword : ∀ b < 64, word.getLsbD b = (decide (w * 64 + b < hi) && test words (w * 64 + b)))
    (hne : word ≠ 0#64) :
    IsHighest (test words) hi (w * 64 + 63 - word.clz.toNat : Nat) := by
  obtain ⟨b, hb, hclz, hbit, habove⟩ := clz_spec hne
  have hshown := hword b hb
  rw [hbit, eq_comm, Bool.and_eq_true, decide_eq_true_eq] at hshown
  refine Or.inr ⟨w * 64 + b, hshown.1, by congr 1; omega, hshown.2, fun j hj hbj => ?_⟩
  rw [test_of_shown (P := fun j => decide (j < hi)) hword (by omega) (by omega)
    (decide_eq_true hj)]
  exact habove _ (by omega)

/-- The scan down finds the highest set index below `hi`, if `word` shows the bits of word `w`
below `hi`. -/
theorem scanDownFrom_spec (words : Words) (w hi : Nat) (word : BitVec 64)
    (hhi : w * 64 ≤ hi) (hlim : hi ≤ (w + 1) * 64)
    (hword : ∀ b < 64, word.getLsbD b = (decide (w * 64 + b < hi) && test words (w * 64 + b))) :
    IsHighest (test words) hi (scanDownFrom words w word) := by
  induction w generalizing hi word with
  | zero =>
      rw [scanDownFrom]
      split
      · next hne => exact isHighest_of_ne_zero hlim hword hne
      · next hzero =>
          exact Or.inl ⟨rfl, fun j hj => test_of_shown_zero (P := fun j => decide (j < hi)) hword
            hzero (by omega) (by omega) (decide_eq_true hj)⟩
  | succ w ih =>
      rw [scanDownFrom]
      split
      · next hne => exact isHighest_of_ne_zero hlim hword hne
      · next hzero =>
          -- no index of this word is set, so the answer for the words below is the answer
          have hnone : ∀ j < hi, (w + 1) * 64 ≤ j → test words j = false := fun j hj hle =>
            test_of_shown_zero (P := fun j => decide (j < hi)) hword hzero hle (by omega)
              (decide_eq_true hj)
          have hrest := ih ((w + 1) * 64) (words w) (by omega) (by omega) fun b hb => by
            rw [test_mul_add words w hb, decide_eq_true (by omega), Bool.true_and]
          rcases hrest with ⟨hr, hall⟩ | ⟨k, hk, hr, hset, hall⟩
          · refine Or.inl ⟨hr, fun j hj => ?_⟩
            rcases Nat.lt_or_ge j ((w + 1) * 64) with hlt | hge
            · exact hall j hlt
            · exact hnone j hj hge
          · refine Or.inr ⟨k, by omega, hr, hset, fun j hj hkj => ?_⟩
            rcases Nat.lt_or_ge j ((w + 1) * 64) with hlt | hge
            · exact hall j hlt hkj
            · exact hnone j hj hge

/-- `scanDown` finds the highest set index that is at most `i`. -/
theorem scanDown_spec (words : Words) (i : Int) (hi : -1 ≤ i) :
    IsHighest (test words) (i + 1).toNat (scanDown words i) := by
  unfold scanDown
  split
  · next hneg => exact Or.inl ⟨rfl, fun j hj => by omega⟩
  · next hneg =>
      obtain ⟨n, rfl⟩ := Int.eq_ofNat_of_zero_le (by omega : 0 ≤ i)
      simp only [Int.toNat_natCast, shift_six, and_sixty_three]
      rw [show ((n : Int) + 1).toNat = n + 1 by omega]
      apply scanDownFrom_spec words (n / 64) (n + 1) _ (by omega) (by omega)
      intro b hb
      rw [test_mul_add words _ hb]
      have hmask : ((~~~0#64) >>> (63 - n % 64)).getLsbD b =
          decide (n / 64 * 64 + b < n + 1) := by
        simp only [BitVec.getLsbD_ushiftRight, BitVec.getLsbD_not, BitVec.getLsbD_zero]
        simp
        omega
      rw [BitVec.getLsbD_and, hmask, Bool.and_comm]

/-- The lowest bit of a word that shows the bits from `lo` on is the lowest of them. -/
theorem isLowest_of_ne_zero {words : Words} {w lo hi : Nat} {word : BitVec 64}
    (hlo : w * 64 ≤ lo) (hhi : (w + 1) * 64 ≤ hi)
    (hword : ∀ b < 64, word.getLsbD b = (decide (lo ≤ w * 64 + b) && test words (w * 64 + b)))
    (hne : word ≠ 0#64) :
    IsLowest (test words) lo hi (w * 64 + word.ctz.toNat : Nat) := by
  obtain ⟨hb, hbit, hbelow⟩ := ctz_spec hne
  have hshown := hword _ hb
  rw [hbit, eq_comm, Bool.and_eq_true, decide_eq_true_eq] at hshown
  refine Or.inr ⟨w * 64 + word.ctz.toNat, hshown.1, by omega, rfl, hshown.2, fun j hj hjb => ?_⟩
  rw [test_of_shown (P := fun j => decide (lo ≤ j)) hword (by omega) (by omega)
    (decide_eq_true hj)]
  exact hbelow _ (by omega)

/-- The scan up finds the lowest set index from `lo` on, if `word` shows the bits of word `w`
from `lo` on. -/
theorem scanUpFrom_spec (words : Words) (left w lo : Nat) (word : BitVec 64)
    (hlo : w * 64 ≤ lo) (hlim : lo ≤ (w + 1) * 64)
    (hword : ∀ b < 64, word.getLsbD b = (decide (lo ≤ w * 64 + b) && test words (w * 64 + b))) :
    IsLowest (test words) lo ((w + 1 + left) * 64) (scanUpFrom words left w word) := by
  induction left generalizing w lo word with
  | zero =>
      rw [scanUpFrom]
      split
      · next hne => exact isLowest_of_ne_zero hlo (by omega) hword hne
      · next hzero =>
          exact Or.inl ⟨rfl, fun j hj hjlt => test_of_shown_zero (P := fun j => decide (lo ≤ j))
            hword hzero (by omega) hjlt (decide_eq_true hj)⟩
  | succ left ih =>
      rw [scanUpFrom]
      split
      · next hne => exact isLowest_of_ne_zero hlo (by omega) hword hne
      · next hzero =>
          -- no index of this word is set, so the answer for the words above is the answer
          have hnone : ∀ j, lo ≤ j → j < (w + 1) * 64 → test words j = false := fun j hj hlt =>
            test_of_shown_zero (P := fun j => decide (lo ≤ j)) hword hzero (by omega) hlt
              (decide_eq_true hj)
          have hrest := ih (w + 1) ((w + 1) * 64) (words (w + 1)) (by omega) (by omega)
            fun b hb => by
              rw [test_mul_add words _ hb, decide_eq_true (by omega), Bool.true_and]
          rw [show (w + 1 + 1 + left) * 64 = (w + 1 + (left + 1)) * 64 by omega] at hrest
          rcases hrest with ⟨hr, hall⟩ | ⟨k, hk, hkhi, hr, hset, hall⟩
          · refine Or.inl ⟨hr, fun j hj hjhi => ?_⟩
            rcases Nat.lt_or_ge j ((w + 1) * 64) with hlt | hge
            · exact hnone j hj hlt
            · exact hall j hge hjhi
          · refine Or.inr ⟨k, by omega, hkhi, hr, hset, fun j hj hjk => ?_⟩
            rcases Nat.lt_or_ge j ((w + 1) * 64) with hlt | hge
            · exact hnone j hj hlt
            · exact hall j hge hjk

/-- `scanUp` finds the lowest set index that is at least `i`. -/
theorem scanUp_spec (words : Words) (count : Nat) (i : Int) (hi : 0 ≤ i) :
    IsLowest (test words) i.toNat (count * 64) (scanUp words count i) := by
  obtain ⟨n, rfl⟩ := Int.eq_ofNat_of_zero_le hi
  unfold scanUp
  split
  · next hge => exact Or.inl ⟨rfl, fun j hj hjlt => by omega⟩
  · next hlt =>
      simp only [Int.toNat_natCast, shift_six, and_sixty_three]
      rw [show count * 64 = (n / 64 + 1 + (count - 1 - n / 64)) * 64 by omega]
      apply scanUpFrom_spec words _ (n / 64) n _ (by omega) (by omega)
      intro b hb
      rw [test_mul_add words _ hb]
      have hmask : ((~~~0#64) <<< (n % 64)).getLsbD b = decide (n ≤ n / 64 * 64 + b) := by
        simp only [BitVec.getLsbD_shiftLeft, BitVec.getLsbD_not, BitVec.getLsbD_zero]
        rw [Bool.eq_iff_iff]
        simp [hb]
        omega
      rw [BitVec.getLsbD_and, hmask, Bool.and_comm]

/-! ## Listing the set bits -/

/-- Clearing the lowest set bit by `word &= word - 1`. -/
theorem getLsbD_clear_lowest {x : BitVec 64} (hx : x ≠ 0#64) (j : Nat) :
    (x &&& (x - 1#64)).getLsbD j = (!decide (j = x.ctz.toNat) && x.getLsbD j) := by
  obtain ⟨hc, hbit, hbelow⟩ := ctz_spec hx
  generalize x.ctz.toNat = c at hc hbit hbelow
  -- the value of the word is a multiple of `2 ^ (c + 1)` plus `2 ^ c`
  have hlow : x.toNat % 2 ^ (c + 1) = 2 ^ c := by
    apply Nat.eq_of_testBit_eq
    intro i
    rw [Nat.testBit_mod_two_pow, BitVec.testBit_toNat, Nat.testBit_two_pow]
    rcases Nat.lt_trichotomy i c with hlt | rfl | hgt
    · simp [hbelow i hlt, show i < c + 1 by omega, show c ≠ i by omega]
    · simp [hbit]
    · simp [show ¬ i < c + 1 by omega, show c ≠ i by omega]
  have hsplit := Nat.div_add_mod x.toNat (2 ^ (c + 1))
  rw [hlow] at hsplit
  have hpow : 2 ^ c < 2 ^ (c + 1) := Nat.pow_lt_pow_right (by decide) (by omega)
  have hpos : 0 < 2 ^ c := Nat.two_pow_pos c
  have hsub : (x - 1#64).toNat = 2 ^ (c + 1) * (x.toNat / 2 ^ (c + 1)) + (2 ^ c - 1) := by
    have hlt := x.isLt
    rw [BitVec.toNat_sub]
    simp only [BitVec.toNat_ofNat]
    rw [show (2 ^ 64 - 1 % 2 ^ 64 + x.toNat) = x.toNat - 1 + 2 ^ 64 by omega, Nat.add_mod_right,
      Nat.mod_eq_of_lt (by omega)]
    omega
  rw [BitVec.getLsbD_and, ← BitVec.testBit_toNat (x - 1#64), hsub,
    Nat.testBit_two_pow_mul_add _ (by omega), ← BitVec.testBit_toNat x]
  rcases Nat.lt_trichotomy j c with hlt | rfl | hgt
  · have hclear := hbelow j hlt
    rw [← BitVec.testBit_toNat] at hclear
    simp [hclear]
  · simp [Nat.testBit_two_pow_sub_one]
  · have hhigh : (x.toNat / 2 ^ (c + 1)).testBit (j - (c + 1)) = x.toNat.testBit j := by
      rw [Nat.testBit_div_two_pow, Nat.sub_add_cancel (by omega)]
    rw [if_neg (by omega), hhigh]
    simp [show j ≠ c by omega]

/-- The bits visited by `for (; word; word &= word - 1)`, which visits at most `fuel` bits. -/
def lowBitsFuel : Nat → BitVec 64 → List Nat
  | 0, _ => []
  | fuel + 1, word =>
      if word ≠ 0#64 then word.ctz.toNat :: lowBitsFuel fuel (word &&& (word - 1#64)) else []

/-- The set bits of a word, lowest first. A word has at most 64 of them. -/
def lowBits (word : BitVec 64) : List Nat := lowBitsFuel 64 word

/-- With enough fuel the loop visits exactly the set bits, in ascending order. -/
theorem lowBitsFuel_spec (fuel : Nat) (word : BitVec 64)
    (hlow : ∀ j < 64 - fuel, word.getLsbD j = false) :
    (∀ j, j ∈ lowBitsFuel fuel word ↔ word.getLsbD j = true) ∧
      (lowBitsFuel fuel word).Pairwise (· < ·) := by
  induction fuel generalizing word with
  | zero =>
      refine ⟨fun j => ?_, List.Pairwise.nil⟩
      by_cases hj : j < 64
      · simp [lowBitsFuel, hlow j (by omega)]
      · simp [lowBitsFuel, BitVec.getLsbD_of_ge word j (by omega)]
  | succ fuel ih =>
      rw [lowBitsFuel]
      split
      · next hne =>
          obtain ⟨hc, hbit, hbelow⟩ := ctz_spec hne
          -- the bits below `64 - fuel` have been cleared, so the fuel lasts
          have hfuel : 64 - (fuel + 1) ≤ word.ctz.toNat := by
            by_contra hlt
            rw [hlow _ (by omega)] at hbit
            cases hbit
          obtain ⟨hmem, hsorted⟩ := ih (word &&& (word - 1#64)) (by
            intro j hj
            rw [getLsbD_clear_lowest hne]
            rcases Nat.lt_or_ge j word.ctz.toNat with hlt | hge
            · simp [hbelow j hlt]
            · simp [show j = word.ctz.toNat by omega])
          refine ⟨fun j => ?_, List.pairwise_cons.mpr ⟨fun j hj => ?_, hsorted⟩⟩
          · rw [List.mem_cons, hmem, getLsbD_clear_lowest hne]
            by_cases hj : j = word.ctz.toNat
            · simp [hj, hbit]
            · simp [hj]
          · rw [hmem, getLsbD_clear_lowest hne] at hj
            by_contra hlt
            rcases Nat.lt_or_ge j word.ctz.toNat with hlt' | hge
            · simp [hbelow j hlt'] at hj
            · simp [show j = word.ctz.toNat by omega] at hj
      · next hzero =>
          refine ⟨fun j => ?_, List.Pairwise.nil⟩
          simp [getLsbD_of_eq_zero hzero j]

/-- The set bits of a word. -/
theorem mem_lowBits {word : BitVec 64} {j : Nat} : j ∈ lowBits word ↔ word.getLsbD j = true :=
  (lowBitsFuel_spec 64 word (by omega)).1 j

/-- The set bits of a word come in ascending order. -/
theorem lowBits_sorted (word : BitVec 64) : (lowBits word).Pairwise (· < ·) :=
  (lowBitsFuel_spec 64 word (by omega)).2

/-- The set indices of the given words, word by word. -/
def indicesOf (words : Words) (ws : List Nat) : List Nat :=
  ws.flatMap fun w => (lowBits (words w)).map fun b => w * 64 + b

/-- The set indices among `count` words, lowest first. -/
def indices (words : Words) (count : Nat) : List Nat := indicesOf words (List.range count)

/-- `indices` lists exactly the set indices, in ascending order. -/
theorem indices_eq (words : Words) (count : Nat) :
    indices words count = (List.range (count * 64)).filter (test words) := by
  induction count with
  | zero => simp [indices, indicesOf]
  | succ count ih =>
      have hsorted : ∀ l : List Nat, l.Pairwise (· < ·) →
          (l.map (count * 64 + ·)).Pairwise (· < ·) :=
        fun l hl => hl.map _ (fun a b hab => Nat.add_lt_add_left hab _)
      have hword : (lowBits (words count)).map (count * 64 + ·) =
          ((List.range 64).map (count * 64 + ·)).filter (test words) := by
        have hleft := hsorted _ (lowBits_sorted (words count))
        have hright := (hsorted (List.range 64) List.pairwise_lt_range).filter (test words)
        apply List.Perm.eq_of_pairwise (fun a b _ _ hab hba => absurd hab (Nat.lt_asymm hba))
          hleft hright
        rw [List.perm_ext_iff_of_nodup (hleft.imp Nat.ne_of_lt) (hright.imp Nat.ne_of_lt)]
        intro j
        simp only [List.mem_map, mem_lowBits, List.mem_filter, List.mem_range]
        constructor
        · rintro ⟨b, hb, rfl⟩
          have hlt : b < 64 := BitVec.lt_of_getLsbD hb
          refine ⟨⟨b, hlt, rfl⟩, ?_⟩
          rw [test_eq, show (count * 64 + b) / 64 = count by omega,
            show (count * 64 + b) % 64 = b by omega, hb]
        · rintro ⟨⟨b, hb, rfl⟩, hset⟩
          refine ⟨b, ?_, rfl⟩
          rwa [test_eq, show (count * 64 + b) / 64 = count by omega,
            show (count * 64 + b) % 64 = b by omega] at hset
      have hsplit : indices words (count + 1) =
          indices words count ++ (lowBits (words count)).map fun b => count * 64 + b := by
        simp [indices, indicesOf, List.range_succ]
      rw [hsplit, ih, hword, show (count + 1) * 64 = count * 64 + 64 by omega, List.range_add,
        List.filter_append]

/-! ## The loop over all set indices -/

section Loop

variable {σ ε : Type} (words : σ → Words) (body : σ → Nat → Except ε σ)

/-- The inner loop over the set bits of word `w`, as they are when the loop starts. -/
def forEachBit (s : σ) (w : Nat) : Except ε σ :=
  (lowBits (words s w)).foldlM (fun s b => body s (w * 64 + b)) s

/-- The nested loop over all words: the bits of a word are read when the word is reached. -/
def forEachSet (count : Nat) (s : σ) : Except ε σ :=
  (List.range count).foldlM (forEachBit words body) s

variable {words body}

/-- Running the body on indices of one word leaves the other words alone. -/
theorem foldlM_frame (hframe : ∀ s i s', body s i = .ok s' →
      ∀ w, w ≠ i / 64 → words s' w = words s w)
    (l : List Nat) (w : Nat) (hl : ∀ b ∈ l, b < 64) (s s' : σ)
    (hrun : l.foldlM (fun s b => body s (w * 64 + b)) s = .ok s') (v : Nat) (hv : v ≠ w) :
    words s' v = words s v := by
  induction l generalizing s with
  | nil => cases hrun; rfl
  | cons b l ih =>
      rw [List.foldlM_cons] at hrun
      cases hb : body s (w * 64 + b) with
      | error e => rw [hb] at hrun; cases hrun
      | ok s₁ =>
          rw [hb] at hrun
          have hlt := hl b (by simp)
          rw [ih (fun c hc => hl c (by simp [hc])) s₁ hrun,
            hframe s _ s₁ hb v (by omega)]

/-- If the body changes only the word of its own index, the nested loop runs the body on the
indices that were set when the loop started. -/
theorem forEachSet_eq (hframe : ∀ s i s', body s i = .ok s' →
      ∀ w, w ≠ i / 64 → words s' w = words s w)
    (count : Nat) (s : σ) :
    forEachSet words body count s = (indices (words s) count).foldlM body s := by
  have hlist : ∀ (ws : List Nat), ws.Nodup → ∀ s,
      ws.foldlM (forEachBit words body) s = (indicesOf (words s) ws).foldlM body s := by
    intro ws hnodup
    induction ws with
    | nil => intro s; rfl
    | cons w ws ih =>
        intro s
        obtain ⟨hw, hnodup⟩ := List.nodup_cons.mp hnodup
        simp only [indicesOf, List.flatMap_cons, List.foldlM_append, List.foldlM_cons,
          List.foldlM_map]
        rw [forEachBit]
        cases hrun : (lowBits (words s w)).foldlM (fun s b => body s (w * 64 + b)) s with
        | error e => rfl
        | ok s₁ =>
            have hsame : indicesOf (words s₁) ws = indicesOf (words s) ws := by
              unfold indicesOf
              apply List.flatMap_congr
              intro v hv
              rw [foldlM_frame hframe _ w (fun b hb => BitVec.lt_of_getLsbD (mem_lowBits.mp hb))
                s s₁ hrun v (fun heq => hw (heq ▸ hv))]
            have hrest := ih hnodup s₁
            rw [hsame] at hrest
            exact hrest
  exact hlist _ List.nodup_range s

end Loop

end Bitmap
