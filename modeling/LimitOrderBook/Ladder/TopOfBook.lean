import LimitOrderBook.Ladder.Correctness

/-!
# The window follows the top of the book

Where the levels of a side are kept is a matter of speed: the window is the fast place, and the
tail is equally correct. `FollowsTop` states the policy of `level_for_insert`. After an insert the
price is in the window or is worse than a level there, so a price that becomes the best of its side
is in the window. The window moves only to a price outside it, and only if it is empty or the price
lies beyond its better edge. It is then centred on that price (`centre?_levelForInsert`).
-/

namespace LimitOrderBook

namespace LevelLadder

variable {isBid : Bool} {windowSize tailCapacity : Nat}

variable {l l' : LevelLadder isBid windowSize tailCapacity} {p : Price} {r : LevelRef}

/-- The price lies in the window. -/
def InRange (l : LevelLadder isBid windowSize tailCapacity) (p : Price) : Prop :=
  l.anchored = true ∧ l.base ≤ p ∧ p < l.base + windowSize

/-- The price lies beyond the better edge of the window. -/
def BeyondBetter (l : LevelLadder isBid windowSize tailCapacity) (p : Price) : Prop :=
  if isBid then l.base + windowSize ≤ p else p < l.base

/-- The price lies beyond the worse edge of the window. -/
def BeyondWorse (l : LevelLadder isBid windowSize tailCapacity) (p : Price) : Prop :=
  if isBid then p < l.base else l.base + windowSize ≤ p

/-- What `level_for_insert(p)` does to the window, where `r` points to the level that it returns. -/
structure FollowsTop (l l' : LevelLadder isBid windowSize tailCapacity) (p : Price)
    (r : LevelRef) : Prop where
  level : l'.Points r ∧ (l'.get r).price = p
  /-- The price is in the window, or the window holds a better one. -/
  hot : l'.inHotWindow p = true ∨
    ∃ i < windowSize, l'.testBit i = true ∧ better isBid (l'.levels i).price p = true
  /-- If the price is the best one, its level is in the window. -/
  best : (∀ other, l'.Live other → other.price ≠ p → better isBid p other.price = true) →
    ∃ i < windowSize, r = .window i
  /-- The window moves for a price outside it, if it is empty or the price is beyond its better
  edge. -/
  moves : ¬ l.InRange p → l.windowCount = 0 ∨ l.BeyondBetter p →
    l'.anchored = true ∧ l'.base = p - (windowSize / 2 : Nat) ∧
      l'.base + windowSize = p + (windowSize / 2 : Nat)
  /-- It moves for no other price. -/
  only : l'.anchored ≠ l.anchored ∨ l'.base ≠ l.base →
    ¬ l.InRange p ∧ (l.windowCount = 0 ∨ l.BeyondBetter p)
  inside : l.InRange p → l'.base = l.base
  beyond_worse : l.windowCount ≠ 0 → l.BeyondWorse p → l'.base = l.base

/-- What the code tests is whether an insert moves the window. -/
theorem moves_iff (hwf : WellFormed l) :
    l.Moves p ↔ ¬ l.InRange p ∧ (l.windowCount = 0 ∨ l.BeyondBetter p) := by
  unfold Moves
  rw [← Bool.not_eq_true, inWindow_iff hwf]
  refine and_congr_right fun _ => ?_
  by_cases hzero : l.windowCount = 0
  · exact iff_of_true (Or.inl hzero) (Or.inl hzero)
  · rw [or_iff_right hzero, or_iff_right hzero]
    have hanch : l.anchored = true := by
      by_contra hanch
      exact hzero (windowCount_eq_zero hwf (Bool.eq_false_of_not_eq_true hanch))
    obtain ⟨hlo, hhi⟩ := hwf.range hanch
    unfold beyondBetterEdge BeyondBetter
    rw [wrap64_eq (by lia) hhi]
    cases isBid <;> simp

/-- `levelAt` leaves the window where it is, and does not change it for a price outside it. -/
theorem levelAt_keeps_window (hrun : l.levelAt p = .ok (l', r)) :
    l'.base = l.base ∧ l'.anchored = l.anchored ∧
      (l.inWindow p = false → l'.bits = l.bits ∧ l'.levels = l.levels) := by
  unfold levelAt at hrun
  split at hrun
  · next hin =>
      rw [pure_eq_ok, Except.ok.injEq, openSlot] at hrun
      split at hrun <;> cases hrun
      all_goals exact ⟨rfl, rfl, fun hout => by rw [hin] at hout; cases hout⟩
  · cases hfound : l.tail.findOrInsert p with
    | error fault =>
        rw [hfound] at hrun
        cases hrun
    | ok found =>
        rw [hfound, ok_bind] at hrun
        cases hrun
        exact ⟨rfl, rfl, fun _ => ⟨rfl, rfl⟩⟩

/-- The levels of the window are better than a price beyond its worse edge. -/
theorem better_of_beyond (hwf : WellFormed l) (hcount : l.windowCount ≠ 0) (hout : ¬ l.InRange p)
    (hnot : ¬ l.BeyondBetter p) :
    ∃ i < windowSize, l.testBit i = true ∧ better isBid (l.levels i).price p = true := by
  obtain ⟨i, hi⟩ : (Bitmap.setIndices l.bits windowSize).Nonempty := by
    rw [← Finset.card_ne_zero, ← hwf.count]
    exact hcount
  obtain ⟨hi, hset⟩ := Bitmap.mem_setIndices.mp hi
  have hanch := anchored_of_set hwf hi hset
  refine ⟨i, hi, hset, ?_⟩
  rw [hwf.home i hi hset]
  unfold InRange at hout
  unfold BeyondBetter at hnot
  cases isBid <;>
    simp only [better, Bool.false_eq_true, if_false, if_true, decide_eq_true_eq] at hnot ⊢ <;> lia

/-- The window after an insert, by whether it moves. Either the price is in it, or it holds a level
with a better one. -/
theorem levelForInsert_window (hwf : WellFormed l) (hvalid : ValidWindow windowSize)
    (hp : PriceInRange windowSize p) (hsize : l.size ≤ tailCapacity) (hwf' : WellFormed l')
    (hrun : l.levelForInsert p = .ok (l', r)) :
    (l.Moves p → l'.anchored = true ∧ l'.base = p - (windowSize / 2 : Nat)) ∧
      (¬ l.Moves p → l'.anchored = l.anchored ∧ l'.base = l.base) ∧
      (l'.inHotWindow p = true ∨
        ∃ i < windowSize, l'.testBit i = true ∧ better isBid (l'.levels i).price p = true) := by
  by_cases hmoves : l.Moves p
  · obtain ⟨l₁, htop, hwf₁, hanch₁, hbase₁, hin₁, -⟩ :=
      followTop_moves hwf hvalid hp hsize hmoves
    rw [levelForInsert, htop, ok_bind] at hrun
    obtain ⟨hbase, hanch, -⟩ := levelAt_keeps_window hrun
    have hin := (inWindow_iff hwf₁ p).mp hin₁
    refine ⟨fun _ => ⟨hanch.trans hanch₁, hbase.trans hbase₁⟩, fun h => absurd hmoves h,
      Or.inl ((inWindow_iff hwf' p).mpr ?_)⟩
    rw [hbase, hanch]
    exact hin
  · rw [levelForInsert, followTop_stays hmoves, ok_bind] at hrun
    obtain ⟨hbase, hanch, hkeep⟩ := levelAt_keeps_window hrun
    refine ⟨fun h => absurd h hmoves, fun _ => ⟨hanch, hbase⟩, ?_⟩
    by_cases hin : l.InRange p
    · refine Or.inl ((inWindow_iff hwf' p).mpr ?_)
      rw [hbase, hanch]
      exact hin
    · -- the window stays for a price outside it only if its levels are better
      rw [moves_iff hwf, not_and, not_or] at hmoves
      obtain ⟨hcount, hbeyond⟩ := hmoves hin
      have hout : l.inWindow p = false := by
        rw [← Bool.not_eq_true, inWindow_iff hwf]
        exact hin
      obtain ⟨hbits, hlevels⟩ := hkeep hout
      unfold testBit
      rw [hbits, hlevels]
      exact Or.inr (better_of_beyond hwf hcount hin hbeyond)

/-- The level of a price is not in the tail if the price is in the window, or if it is the best and
the window holds a level. -/
theorem not_tail_of_hot (hwf : WellFormed l) {i : Nat} (hi : i < l.tail.n)
    (hprice : (l.tail.buf i).price = p)
    (hhot : l.inHotWindow p = true ∨
      ∃ j < windowSize, l.testBit j = true ∧ better isBid (l.levels j).price p = true)
    (hbest : ∀ level, l.Live level → level.price ≠ p → better isBid p level.price = true) :
    False := by
  rcases hhot with hin | ⟨j, hj, hset, hbetter⟩
  · have hin : l.inWindow p = true := hin
    have hout := inWindow_of_tail hwf ⟨i, Nat.zero_le _, hi, rfl⟩
    rw [hprice, hin] at hout
    cases hout
  · -- the price would be better than a level that is better than it
    have hst := better_strict isBid
    have hworse := hbest (l.levels j) ⟨.window j, ⟨hj, hset⟩, rfl⟩ (hst.ne hbetter)
    have hself := hst.trans hbetter hworse
    rw [hst.irrefl] at hself
    cases hself

/-- `levelForInsert` follows the top of the book, from any ladder between two operations. -/
theorem WellFormed.followsTop (hwf : WellFormed l) (hvalid : ValidWindow windowSize)
    (hp : PriceInRange windowSize p) (hsize : l.size ≤ tailCapacity) :
    ∃ l' r, l.levelForInsert p = .ok (l', r) ∧ FollowsTop l l' p r := by
  obtain ⟨l', r, hrun, hwf', hr, hprice, -⟩ := levelForInsert_spec hwf hvalid hp hsize
  obtain ⟨hmoved, hstayed, hhot⟩ := levelForInsert_window hwf hvalid hp hsize hwf' hrun
  have hhalf := hvalid.half
  refine ⟨l', r, hrun,
    { level := ⟨hr, hprice⟩
      hot := hhot
      best := fun hbest => ?_
      moves := fun hout hwhy => ?_
      only := fun hchanged => ?_
      inside := fun hin => ?_
      beyond_worse := fun hcount hworse => ?_ }⟩
  · cases r with
    | window i => exact ⟨i, hr.1, rfl⟩
    | tail i => exact (not_tail_of_hot hwf' hr hprice hhot hbest).elim
  · obtain ⟨hanch, hbase⟩ := hmoved ((moves_iff hwf).mpr ⟨hout, hwhy⟩)
    exact ⟨hanch, hbase, by lia⟩
  · by_contra hstays
    obtain ⟨hanch, hbase⟩ := hstayed fun hmoves => hstays ((moves_iff hwf).mp hmoves)
    rcases hchanged with hne | hne
    · exact hne hanch
    · exact hne hbase
  · exact (hstayed fun hmoves => ((moves_iff hwf).mp hmoves).1 hin).2
  · -- a price beyond the worse edge is not beyond the better one
    refine (hstayed fun hmoves => ?_).2
    obtain ⟨_, hzero | hbetter⟩ := (moves_iff hwf).mp hmoves
    · exact hcount hzero
    · unfold BeyondBetter at hbetter
      unfold BeyondWorse at hworse
      cases isBid <;> simp at hbetter hworse <;> lia

/-! ## The centre of the window -/

/-- The price that the window was last centred on. -/
def centre (l : LevelLadder isBid windowSize tailCapacity) : Price :=
  l.base + (windowSize / 2 : Nat)

/-- The same, if the window is anchored. -/
def centre? (l : LevelLadder isBid windowSize tailCapacity) : Option Price :=
  if l.anchored then some l.centre else none

/-- The centre depends on where the window is. -/
theorem centre?_congr (hanch : l'.anchored = l.anchored) (hbase : l'.base = l.base) :
    l'.centre? = l.centre? := by
  rw [centre?, centre?, centre, centre, hanch, hbase]

/-- Writing a level does not move the window. -/
@[simp] theorem centre?_put (r : LevelRef) (level : PriceLevel) :
    (l.put r level).centre? = l.centre? := by
  cases r <;> rfl

/-- Erasing a level does not move the window. -/
@[simp] theorem centre?_eraseLevel (r : LevelRef) : (l.eraseLevel r).centre? = l.centre? := by
  unfold eraseLevel
  simp only
  split
  · split <;> rfl
  · rfl

/-- Writing a level and erasing it if it is empty does not move the window. -/
@[simp] theorem centre?_write (r : LevelRef) (level : PriceLevel) :
    (if level.empty then (l.put r level).eraseLevel r else l.put r level).centre? = l.centre? := by
  split <;> simp

/-- An insert that moves the window centres it on the price. -/
theorem centre?_levelForInsert (hwf : WellFormed l) (hvalid : ValidWindow windowSize)
    (hp : PriceInRange windowSize p) (hsize : l.size ≤ tailCapacity)
    (hrun : l.levelForInsert p = .ok (l', r)) :
    (l.Moves p → l'.centre? = some p) ∧ (¬ l.Moves p → l'.centre? = l.centre?) := by
  obtain ⟨l₁, r₁, hrun₁, hwf₁, -⟩ := levelForInsert_spec hwf hvalid hp hsize
  cases hrun₁.symm.trans hrun
  obtain ⟨hmoved, hstayed, -⟩ := levelForInsert_window hwf hvalid hp hsize hwf₁ hrun
  refine ⟨fun hmoves => ?_, fun hstays => ?_⟩
  · obtain ⟨hanch, hbase⟩ := hmoved hmoves
    rw [centre?, if_pos hanch, centre, hbase, Int.sub_add_cancel]
  · obtain ⟨hanch, hbase⟩ := hstayed hstays
    exact centre?_congr hanch hbase

/-- The window is empty if and only if no level has its price there. -/
theorem windowCount_eq_zero_iff (hwf : WellFormed l) (hvalid : ValidWindow windowSize) :
    l.windowCount = 0 ↔ ∀ level, l.Live level → l.inWindow level.price = false := by
  constructor
  · intro hzero level hlive
    by_contra hin
    have hin := Bool.eq_true_of_not_eq_false hin
    obtain ⟨hlt, -⟩ := exists_index hwf hvalid hin
    have hset := ((live_inWindow hwf hvalid hin).mp hlive).1
    rw [hwf.count, Finset.card_eq_zero] at hzero
    exact Finset.notMem_empty _ (hzero ▸ Bitmap.mem_setIndices.mpr ⟨hlt, hset⟩)
  · intro hnone
    rw [hwf.count, Finset.card_eq_zero, Finset.eq_empty_iff_forall_notMem]
    intro i hi
    obtain ⟨hi, hset⟩ := Bitmap.mem_setIndices.mp hi
    have hout := hnone (l.levels i) ⟨.window i, ⟨hi, hset⟩, rfl⟩
    rw [inWindow_of_set hwf hi hset] at hout
    cases hout

/-! ## Runs -/

/-- An admissible sequence of uses leaves at most `tailCapacity` live levels. -/
theorem length_refRun_le (h : Heap) (m : List (Price × PriceLevel)) (ops : List Op)
    (hadm : Admissible isBid windowSize tailCapacity h m ops) (hsize : m.length ≤ tailCapacity) :
    (refRun isBid h m ops).2.length ≤ tailCapacity := by
  induction ops generalizing h m with
  | nil => exact hsize
  | cons op ops ih =>
      refine ih _ _ hadm.2 ?_
      cases op with
      | insert p o => exact hadm.1.2
      | remove p o =>
          dsimp only
          split
          · exact (List.length_filter_le _ _).trans hsize
          · rw [OrderedMap.length_set]
            exact hsize

/-- Whatever sequence of insertions and removals a fresh ladder has gone through, the next insert
keeps the window at the top of the book. -/
theorem run_follows_top (hvalid : ValidWindow windowSize) (h : Heap) (ops : List Op)
    (hadm : Admissible isBid windowSize tailCapacity h [] ops) (p : Price)
    (hp : PriceInRange windowSize p) :
    ∃ l : LevelLadder isBid windowSize tailCapacity,
      run h {} ops = .ok ((refRun isBid h [] ops).1, l) ∧
      ∃ l' r, l.levelForInsert p = .ok (l', r) ∧ FollowsTop l l' p r := by
  obtain ⟨l, hrun, hrep⟩ := fresh_represents.run hvalid h ops hadm
  have hsize := length_refRun_le h [] ops hadm (Nat.zero_le _)
  rw [← hrep.size_eq hvalid] at hsize
  exact ⟨l, hrun, hrep.wellFormed.followsTop hvalid hp hsize⟩

/-- A third bid beyond the better edge of a window that has moved once. -/
theorem run_follows_third_bid :
    ∃ l : LevelLadder true 64 4,
      run (fun _ => default) {} [.insert 100 0, .insert 300 1] = .ok
        ((refRun true (fun _ => default) [] [.insert 100 0, .insert 300 1]).1, l) ∧
      ∃ l' r, l.levelForInsert 340 = .ok (l', r) ∧ FollowsTop l l' 340 r :=
  run_follows_top ⟨⟨6, rfl⟩, by decide⟩ (fun _ => default) [.insert 100 0, .insert 300 1]
    ⟨⟨by decide, by decide⟩, ⟨by decide, by decide⟩, trivial⟩ 340 (by decide)

end LevelLadder

end LimitOrderBook
