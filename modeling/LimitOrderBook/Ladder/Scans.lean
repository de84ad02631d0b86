import LimitOrderBook.Ladder.Correctness

/-!
# The bitmap scans, step by step

`scan_down` and `scan_up` of `level_ladder.hpp` once more, with every word read and every shift
checked and the `for (;;)` loops run on fuel: a read beyond the last word, a shift by 64 or more,
and a loop that has not ended are faults. `checkedScanDown_eq` and `checkedScanUp_eq` say that no
fault occurs and that the result is that of the model's scans. `visitWindow` goes from
`best_in_window` to `next_worse` until there is none, and `visitWindow_spec` says that it meets
every set index once, best first.

The window only has to be a whole number of words here. Indices are exact integers, as in the rest
of the ladder: there is a `PriceLevel` in memory for each, so they are far from the 64-bit limits.
-/

namespace LimitOrderBook

/-- What a scan must not do. -/
inductive ScanFault where
  /-- `bits_[w]` beyond the last word. -/
  | outOfRange (w : Nat)
  /-- A 64-bit word is shifted by 64 or more. -/
  | wideShift (n : Nat)
  /-- A loop has not ended within its fuel. -/
  | unfinished
  deriving DecidableEq, Repr

namespace LevelLadder

variable {isBid : Bool} {windowSize tailCapacity : Nat}

section Checked

variable (l : LevelLadder isBid windowSize tailCapacity)

/-- `bits_[w]`, in an array of `kWords` words. -/
def readWord (w : Nat) : Except ScanFault (BitVec 64) :=
  if w < kWords windowSize then .ok (l.bits w) else .error (.outOfRange w)

/-- `x >> n` on a 64-bit word. -/
def checkedShr (x : BitVec 64) (n : Nat) : Except ScanFault (BitVec 64) :=
  if n < 64 then .ok (x >>> n) else .error (.wideShift n)

/-- `x << n` on a 64-bit word. -/
def checkedShl (x : BitVec 64) (n : Nat) : Except ScanFault (BitVec 64) :=
  if n < 64 then .ok (x <<< n) else .error (.wideShift n)

/-- The loop of `scan_down`. -/
def scanDownLoop : Nat → Nat → BitVec 64 → Except ScanFault Int
  | 0, _, _ => .error .unfinished
  | fuel + 1, w, word =>
      if word ≠ 0#64 then .ok (w * 64 + 63 - word.clz.toNat : Nat)
      else if w = 0 then .ok (-1)
      else do
        let word ← l.readWord (w - 1)
        scanDownLoop fuel (w - 1) word

/-- `scan_down`. -/
def checkedScanDown (fuel : Nat) (i : Int) : Except ScanFault Int :=
  if i < 0 then .ok (-1)
  else do
    let w := i.toNat >>> 6
    let first ← l.readWord w
    let mask ← checkedShr (~~~0#64) (63 - (i.toNat &&& 63))
    l.scanDownLoop fuel w (first &&& mask)

/-- The loop of `scan_up`. -/
def scanUpLoop : Nat → Nat → BitVec 64 → Except ScanFault Int
  | 0, _, _ => .error .unfinished
  | fuel + 1, w, word =>
      if word ≠ 0#64 then .ok (w * 64 + word.ctz.toNat : Nat)
      -- an equality test: a loop that had started beyond the last word would not stop here
      else if w + 1 = kWords windowSize then .ok (-1)
      else do
        let word ← l.readWord (w + 1)
        scanUpLoop fuel (w + 1) word

/-- `scan_up`. -/
def checkedScanUp (fuel : Nat) (i : Int) : Except ScanFault Int :=
  if (windowSize : Int) ≤ i then .ok (-1)
  else do
    let w := i.toNat >>> 6
    let first ← l.readWord w
    let mask ← checkedShl (~~~0#64) (i.toNat &&& 63)
    l.scanUpLoop fuel w (first &&& mask)

/-- `next_worse`. -/
def checkedNextWorse (fuel : Nat) (idx : Int) : Except ScanFault Int :=
  if isBid then l.checkedScanDown fuel (idx - 1) else l.checkedScanUp fuel (idx + 1)

/-- `best_in_window`. -/
def checkedBestInWindow (fuel : Nat) : Except ScanFault Int :=
  if isBid then l.checkedScanDown fuel ((windowSize : Int) - 1) else l.checkedScanUp fuel 0

/-- The indices met from `idx` on by `idx = next_worse(idx)`, as long as `idx >= 0`. -/
def visitFrom (fuel : Nat) : Nat → Int → Except ScanFault (List Int)
  | 0, _ => .error .unfinished
  | n + 1, idx =>
      if idx ≥ 0 then do
        let next ← l.checkedNextWorse fuel idx
        let rest ← visitFrom fuel n next
        pure (idx :: rest)
      else .ok []

/-- The indices met from `best_in_window` on. -/
def visitWindow (fuel : Nat) : Except ScanFault (List Int) := do
  let best ← l.checkedBestInWindow fuel
  l.visitFrom fuel fuel best

end Checked

/-! ## No faults -/

/-- A checked operation that has succeeded hands its value on. -/
@[simp] theorem checked_ok_bind {α β : Type} (a : α) (f : α → Except ScanFault β) :
    ((Except.ok a : Except ScanFault α) >>= f) = f a := rfl

variable (l : LevelLadder isBid windowSize tailCapacity)

/-- A word of the array can be read. -/
theorem readWord_eq {w : Nat} (hw : w < kWords windowSize) : l.readWord w = .ok (l.bits w) :=
  if_pos hw

/-- A shift by less than 64 is defined. -/
theorem checkedShr_eq (x : BitVec 64) {n : Nat} (hn : n < 64) : checkedShr x n = .ok (x >>> n) :=
  if_pos hn

/-- A shift by less than 64 is defined. -/
theorem checkedShl_eq (x : BitVec 64) {n : Nat} (hn : n < 64) : checkedShl x n = .ok (x <<< n) :=
  if_pos hn

/-- The loop of `scan_down` ends after at most `w + 1` words, all of them in the array. -/
theorem scanDownLoop_eq {fuel w : Nat} (hw : w < kWords windowSize) (hfuel : w < fuel)
    (word : BitVec 64) :
    l.scanDownLoop fuel w word = .ok (Bitmap.scanDownFrom l.bits w word) := by
  induction w generalizing fuel word with
  | zero =>
      obtain ⟨fuel, rfl⟩ := Nat.exists_eq_add_one_of_ne_zero (by omega : fuel ≠ 0)
      rw [scanDownLoop, Bitmap.scanDownFrom]
      split <;> rfl
  | succ w ih =>
      obtain ⟨fuel, rfl⟩ := Nat.exists_eq_add_one_of_ne_zero (by omega : fuel ≠ 0)
      rw [scanDownLoop, Bitmap.scanDownFrom, if_neg (Nat.succ_ne_zero w), Nat.add_sub_cancel,
        readWord_eq l (by omega), checked_ok_bind, ih (by omega) (by omega)]
      split <;> rfl

/-- `scan_down` reads and shifts within bounds and returns what the model returns. -/
theorem checkedScanDown_eq {fuel : Nat} (hfuel : kWords windowSize ≤ fuel) {i : Int}
    (hi : i < (kWords windowSize * 64 : Nat)) :
    l.checkedScanDown fuel i = .ok (l.scanDown i) := by
  unfold checkedScanDown scanDown Bitmap.scanDown
  split
  · rfl
  · next hneg =>
      have hw : i.toNat >>> 6 < kWords windowSize := by
        rw [Bitmap.shift_six]
        omega
      have hshift : 63 - (i.toNat &&& 63) < 64 := by omega
      simp only [readWord_eq l hw, checkedShr_eq _ hshift, checked_ok_bind]
      exact l.scanDownLoop_eq hw (by omega) _

/-- The loop of `scan_up` ends before it leaves the array. -/
theorem scanUpLoop_eq {fuel left w : Nat} (hw : w + 1 + left = kWords windowSize)
    (hfuel : left < fuel) (word : BitVec 64) :
    l.scanUpLoop fuel w word = .ok (Bitmap.scanUpFrom l.bits left w word) := by
  induction left generalizing fuel w word with
  | zero =>
      obtain ⟨fuel, rfl⟩ := Nat.exists_eq_add_one_of_ne_zero (by omega : fuel ≠ 0)
      have hlast : w + 1 = kWords windowSize := by omega
      rw [scanUpLoop, Bitmap.scanUpFrom, if_pos hlast]
      split <;> rfl
  | succ left ih =>
      obtain ⟨fuel, rfl⟩ := Nat.exists_eq_add_one_of_ne_zero (by omega : fuel ≠ 0)
      have hmore : ¬ w + 1 = kWords windowSize := by omega
      rw [scanUpLoop, Bitmap.scanUpFrom, if_neg hmore, readWord_eq l (by omega), checked_ok_bind,
        ih (by omega) (by omega)]
      split <;> rfl

/-- `scan_up` reads and shifts within bounds and returns what the model returns. -/
theorem checkedScanUp_eq (hwords : kWords windowSize * 64 = windowSize) {fuel : Nat}
    (hfuel : kWords windowSize ≤ fuel) {i : Int} (hi : 0 ≤ i) :
    l.checkedScanUp fuel i = .ok (l.scanUp i) := by
  unfold checkedScanUp scanUp Bitmap.scanUp
  rw [hwords]
  split
  · rfl
  · next hlt =>
      have hw : i.toNat >>> 6 < kWords windowSize := by
        rw [Bitmap.shift_six]
        omega
      have hshift : i.toNat &&& 63 < 64 := by
        rw [Bitmap.and_sixty_three]
        omega
      simp only [readWord_eq l hw, checkedShl_eq _ hshift, checked_ok_bind]
      exact l.scanUpLoop_eq (by omega) (by omega) _

/-! ## Best to worst -/

/-- The number of indices of the window from `idx` on, towards the worse end. -/
def room (isBid : Bool) (windowSize : Nat) (idx : Int) : Nat :=
  if idx < 0 then 0 else if isBid then idx.toNat + 1 else windowSize - idx.toNat

/-- The room of an index of the window. -/
theorem room_natCast (isBid : Bool) (windowSize k : Nat) :
    room isBid windowSize k = if isBid then k + 1 else windowSize - k := by
  unfold room
  rw [if_neg (by omega), Int.toNat_natCast]

/-- An index of the window has room. -/
theorem room_pos {k : Nat} (hk : k < windowSize) : 0 < room isBid windowSize k := by
  rw [room_natCast]
  split <;> omega

/-- A worse index has less room. -/
theorem room_lt {k k' : Nat} (hbetter : betterIdx isBid k k' = true) (hk' : k' < windowSize) :
    room isBid windowSize k' < room isBid windowSize k := by
  rw [room_natCast, room_natCast]
  cases isBid with
  | true =>
      have hlt : (k' : Int) < k := by simpa [betterIdx] using hbetter
      simp only [if_true]
      omega
  | false =>
      have hlt : (k : Int) < k' := by simpa [betterIdx] using hbetter
      simp only [Bool.false_eq_true, if_false]
      omega

/-- The window is all the room there is. -/
theorem room_le {idx : Int} (hidx : idx < windowSize) :
    room isBid windowSize idx ≤ windowSize := by
  unfold room
  split_ifs <;> omega

section Visit

variable {fuel : Nat} (hwords : kWords windowSize * 64 = windowSize)
  (hfuel : kWords windowSize ≤ fuel)

include hwords hfuel

/-- `next_worse` of an index of the window is without fault. -/
theorem checkedNextWorse_eq {k : Nat} (hk : k < windowSize) :
    l.checkedNextWorse fuel k = .ok (l.nextWorse k) := by
  unfold checkedNextWorse nextWorse
  split
  · exact l.checkedScanDown_eq hfuel (by omega)
  · exact l.checkedScanUp_eq hwords hfuel (by omega)

/-- `best_in_window` is without fault. -/
theorem checkedBestInWindow_eq : l.checkedBestInWindow fuel = .ok l.bestInWindow := by
  unfold checkedBestInWindow bestInWindow
  split
  · exact l.checkedScanDown_eq hfuel (by omega)
  · exact l.checkedScanUp_eq hwords hfuel (le_refl 0)

/-- The visit from a set index on lists what is ahead of it, best first, if the fuel exceeds the
number of indices there may be. -/
theorem visitFrom_spec {n : Nat} {idx : Int} (hidx : l.AtIndex idx)
    (hn : room isBid windowSize idx < n) :
    ∃ indices : List Nat, l.visitFrom fuel n idx = .ok (indices.map Int.ofNat) ∧
      indices.Pairwise (fun a b : Nat => betterIdx isBid a b = true) ∧
      ∀ i, i ∈ indices ↔ l.Ahead idx i := by
  induction n generalizing idx with
  | zero => omega
  | succ n ih =>
      rw [visitFrom]
      rcases hidx with rfl | ⟨k, hk, rfl, hset⟩
      · refine ⟨[], rfl, List.Pairwise.nil, fun i => ?_⟩
        exact iff_of_false (by simp) fun ⟨_, _, j, hj, _⟩ => by omega
      · obtain ⟨hnext, hahead⟩ := ahead_nextWorse (l := l) hwords hk
        have hroom : room isBid windowSize (l.nextWorse k) < n := by
          rcases hnext with hneg | ⟨k', hk', heq, hset'⟩
          · rw [hneg]
            exact Nat.lt_of_lt_of_le (room_pos hk) (Nat.le_of_lt_succ hn)
          · -- the next index is ahead of `k` and is not `k`
            have hworse := (hahead k').mp ⟨hk', hset', k', heq, Or.inl rfl⟩
            obtain ⟨⟨_, _, j, hj, hor⟩, hne⟩ := hworse
            obtain rfl : k = j := by omega
            have hlt := room_lt (hor.resolve_left hne) hk'
            rw [heq]
            omega
        obtain ⟨rest, hrest, hsorted, hmem⟩ := ih hnext hroom
        -- what is ahead of `k` is `k` and what is ahead of the next index, which is all worse
        refine ⟨k :: rest, ?_, List.pairwise_cons.mpr ⟨fun i hi => ?_, hsorted⟩, fun i => ?_⟩
        · rw [if_pos (by omega), checkedNextWorse_eq l hwords hfuel hk, checked_ok_bind, hrest]
          rfl
        · obtain ⟨⟨_, _, j, hj, hor⟩, hne⟩ := (hahead i).mp ((hmem i).mp hi)
          obtain rfl : k = j := by omega
          exact hor.resolve_left hne
        · rw [List.mem_cons, hmem, hahead]
          constructor
          · intro h
            rcases h with rfl | h
            · exact ⟨hk, hset, i, rfl, Or.inl rfl⟩
            · exact h.1
          · intro h
            by_cases hik : i = k
            · exact Or.inl hik
            · exact Or.inr ⟨h, hik⟩

/-- The visit of the window lists its set indices, best first. -/
theorem visitWindow_spec (hroom : windowSize < fuel) :
    ∃ indices : List Nat, l.visitWindow fuel = .ok (indices.map Int.ofNat) ∧
      indices.Pairwise (fun a b : Nat => betterIdx isBid a b = true) ∧
      ∀ i, i ∈ indices ↔ i < windowSize ∧ l.testBit i = true := by
  have hbest := bestInWindow_spec hwords l
  have hlt : l.bestInWindow < windowSize := by
    rcases hbest with ⟨hneg, _⟩ | ⟨k, hk, heq, _⟩ <;> omega
  obtain ⟨indices, hvisit, hsorted, hmem⟩ := visitFrom_spec l hwords hfuel hbest.atIndex
    (Nat.lt_of_le_of_lt (room_le hlt) hroom)
  refine ⟨indices, ?_, hsorted, fun i => (hmem i).trans (hbest.ahead i)⟩
  rw [visitWindow, checkedBestInWindow_eq l hwords hfuel, checked_ok_bind, hvisit]

end Visit

/-- For every window of whole words and every bitmap: `scan_down` returns the highest set index
that is at most `i`, `scan_up` the lowest one that is at least `i`, both without a fault, and going
from `best_in_window` to `next_worse` meets every set index once, from best to worst. -/
theorem scans_exact (hdvd : 64 ∣ windowSize) {fuel : Nat} (hfuel : windowSize < fuel) :
    (∀ i : Int, -1 ≤ i → i < windowSize →
      l.checkedScanDown fuel i = .ok (l.scanDown i) ∧
        Bitmap.IsHighest l.testBit (i + 1).toNat (l.scanDown i)) ∧
    (∀ i : Int, 0 ≤ i → i ≤ windowSize →
      l.checkedScanUp fuel i = .ok (l.scanUp i) ∧
        Bitmap.IsLowest l.testBit i.toNat windowSize (l.scanUp i)) ∧
    ∃ indices : List Nat, l.visitWindow fuel = .ok (indices.map Int.ofNat) ∧
      indices.Nodup ∧ indices.Pairwise (fun a b : Nat => betterIdx isBid a b = true) ∧
      ∀ i, i ∈ indices ↔ i < windowSize ∧ l.testBit i = true := by
  have hwords : kWords windowSize * 64 = windowSize := Nat.div_mul_cancel hdvd
  have hle : kWords windowSize ≤ fuel := by omega
  refine ⟨fun i hlo hhi => ?_, fun i hlo _ => ?_, ?_⟩
  · exact ⟨l.checkedScanDown_eq hle (by omega), Bitmap.scanDown_spec l.bits i hlo⟩
  · refine ⟨l.checkedScanUp_eq hwords hle hlo, ?_⟩
    have h := Bitmap.scanUp_spec l.bits (kWords windowSize) i hlo
    rw [hwords] at h
    exact h
  · obtain ⟨indices, hvisit, hsorted, hmem⟩ := visitWindow_spec l hwords hle hfuel
    refine ⟨indices, hvisit, hsorted.imp fun hbetter heq => ?_, hsorted, hmem⟩
    rw [heq, (betterIdx_strict isBid).irrefl] at hbetter
    cases hbetter

/-- The first and the last bit of each of two words. -/
theorem scans_exact_two_words :
    let l : LevelLadder true 128 1 := { bits := fun _ => 0x8000000000000001#64 }
    l.visitWindow 129 = .ok [127, 64, 63, 0] ∧
      Bitmap.IsHighest l.testBit 127 (l.scanDown 126) ∧ l.scanDown 126 = 64 ∧
      Bitmap.IsLowest l.testBit 1 128 (l.scanUp 1) ∧ l.scanUp 1 = 63 := by
  intro l
  obtain ⟨hdown, hup, -⟩ := l.scans_exact (by decide : 64 ∣ 128) (by decide : 128 < 129)
  exact ⟨by decide +kernel, (hdown 126 (by decide) (by decide)).2, by decide +kernel,
    (hup 1 (by decide) (by decide)).2, by decide +kernel⟩

end LevelLadder

end LimitOrderBook
