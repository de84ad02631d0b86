import LimitOrderBook.Ladder.Invariant

/-!
# Moving the window

`recenter` changes where the levels are kept and not which levels there are. Its three steps are
followed one by one: `evict_spec` for the levels that go to the tail, `shift_spec` for the
survivors that are shifted in place, and `place_spec` for the levels pulled in from the tail.
`recenter_spec` puts them together.
-/

namespace LimitOrderBook

open LevelTail

namespace LevelLadder

variable {isBid : Bool} {windowSize tailCapacity : Nat}

/-! ## Eviction -/

/-- The price of the level is outside the new range. -/
def Leaves (newBase newEnd : Price) (level : PriceLevel) : Prop :=
  level.price < newBase ∨ level.price ≥ newEnd

/-- What the first step has done once it has visited the indices `idxs`. -/
structure Evicted (newBase newEnd : Price) (idxs : List Nat)
    (l l' : LevelLadder isBid windowSize tailCapacity) : Prop where
  base : l'.base = l.base
  anchored : l'.anchored = l.anchored
  levels : l'.levels = l.levels
  n : l'.tail.n = l.tail.n
  keep : ∀ k < tailCapacity + l.tail.staged, l'.tail.buf k = l.tail.buf k
  test : ∀ j, l'.testBit j = true ↔
    l.testBit j = true ∧ ¬ (j ∈ idxs ∧ Leaves newBase newEnd (l.levels j))
  total : l'.tail.staged + l'.windowCount = l.tail.staged + l.windowCount
  count : l'.windowCount = (Bitmap.setIndices l'.bits windowSize).card
  mem : ∀ level, InSegment l'.tail.buf tailCapacity (tailCapacity + l'.tail.staged) level ↔
    InSegment l.tail.buf tailCapacity (tailCapacity + l.tail.staged) level ∨
      ∃ i ∈ idxs, Leaves newBase newEnd (l.levels i) ∧ l.levels i = level
  distinct : ∀ i j, tailCapacity ≤ i → i < j → j < tailCapacity + l'.tail.staged →
    (l'.tail.buf i).price ≠ (l'.tail.buf j).price

/-- The ladder after the level at index `i` has been staged. -/
def stageOut (l : LevelLadder isBid windowSize tailCapacity) (i : Nat) :
    LevelLadder isBid windowSize tailCapacity :=
  { l with
    tail := { l.tail with
      buf := Function.update l.tail.buf (tailCapacity + l.tail.staged) (l.levels i)
      staged := l.tail.staged + 1 }
    bits := Bitmap.clear l.bits i
    windowCount := l.windowCount - 1 }

/-- The levels at the indices `idxs` can be evicted: there is room to stage them, and their prices
are distinct and not staged yet. -/
structure Evictable (idxs : List Nat) (l : LevelLadder isBid windowSize tailCapacity) : Prop where
  nodup : idxs.Nodup
  set : ∀ i ∈ idxs, i < windowSize ∧ l.testBit i = true
  prices : ∀ i ∈ idxs, ∀ j ∈ idxs, (l.levels i).price = (l.levels j).price → i = j
  room : l.tail.staged + idxs.length ≤ windowSize
  count : l.windowCount = (Bitmap.setIndices l.bits windowSize).card
  distinct : ∀ i j, tailCapacity ≤ i → i < j → j < tailCapacity + l.tail.staged →
    (l.tail.buf i).price ≠ (l.tail.buf j).price
  fresh : ∀ a, InSegment l.tail.buf tailCapacity (tailCapacity + l.tail.staged) a →
    ∀ i ∈ idxs, a.price ≠ (l.levels i).price

section Evict

variable {l l' : LevelLadder isBid windowSize tailCapacity} {newBase newEnd : Price} {i : Nat}
  {rest : List Nat}

/-- One iteration of the first step on a level that leaves. -/
theorem evictOne_leaves (hroom : l.tail.staged < windowSize)
    (hleaves : Leaves newBase newEnd (l.levels i)) :
    evictOne newBase newEnd l i = .ok (l.stageOut i) := by
  unfold Leaves at hleaves
  simp only [evictOne, if_pos hleaves, stage, if_pos hroom, ok_bind, pure_eq_ok, stageOut]

/-- One iteration of the first step on a level that stays. -/
theorem evictOne_stays (hstays : ¬ Leaves newBase newEnd (l.levels i)) :
    evictOne newBase newEnd l i = .ok l := by
  unfold Leaves at hstays
  simp only [evictOne, if_neg hstays, pure_eq_ok]

/-- Staging a level clears its bit. -/
theorem testBit_stageOut {j : Nat} :
    (l.stageOut i).testBit j = true ↔ j ≠ i ∧ l.testBit j = true := by
  simp [stageOut, testBit]

/-- Staging a level writes one slot. -/
theorem buf_stageOut {k : Nat} (hk : k ≠ tailCapacity + l.tail.staged) :
    (l.stageOut i).tail.buf k = l.tail.buf k :=
  Function.update_of_ne hk _ _

/-- Staging a level puts it with the staged ones. -/
theorem inSegment_stageOut {level : PriceLevel} :
    InSegment (l.stageOut i).tail.buf tailCapacity
        (tailCapacity + (l.stageOut i).tail.staged) level ↔
      InSegment l.tail.buf tailCapacity (tailCapacity + l.tail.staged) level ∨
        l.levels i = level := by
  have hkeep : ∀ k, tailCapacity ≤ k → k < tailCapacity + l.tail.staged →
      (l.stageOut i).tail.buf k = l.tail.buf k := fun k _ hk => buf_stageOut (by omega)
  have hnew : (l.stageOut i).tail.buf (tailCapacity + l.tail.staged) = l.levels i :=
    Function.update_self ..
  show InSegment _ tailCapacity (tailCapacity + (l.tail.staged + 1)) level ↔ _
  rw [← Nat.add_assoc, inSegment_succ (Nat.le_add_right _ _), hnew, inSegment_congr hkeep]

/-- After a level has been staged, the others can be evicted. -/
theorem Evictable.stageOut (h : Evictable (i :: rest) l) : Evictable rest (l.stageOut i) := by
  obtain ⟨hi, hrest⟩ := List.nodup_cons.mp h.nodup
  obtain ⟨hlt, hbit⟩ := h.set i (by simp)
  refine ⟨hrest, fun j hj => ?_, fun a ha b hb => h.prices a (by simp [ha]) b (by simp [hb]), ?_,
    ?_, fun a b ha hab hb => ?_, fun a ha j hj => ?_⟩
  · obtain ⟨hj', hset⟩ := h.set j (by simp [hj])
    exact ⟨hj', testBit_stageOut.mpr ⟨ne_of_mem_of_not_mem hj hi, hset⟩⟩
  · have hroom := h.room
    rw [List.length_cons] at hroom
    show l.tail.staged + 1 + rest.length ≤ windowSize
    omega
  · have hcard := Bitmap.card_setIndices_clear hlt hbit
    show l.windowCount - 1 = (Bitmap.setIndices (Bitmap.clear l.bits i) windowSize).card
    rw [h.count]
    omega
  · have hb : b < tailCapacity + (l.tail.staged + 1) := hb
    rw [buf_stageOut (show a ≠ tailCapacity + l.tail.staged by omega)]
    rcases Nat.lt_or_ge b (tailCapacity + l.tail.staged) with hlt' | hge
    · rw [buf_stageOut (by omega)]
      exact h.distinct a b ha hab hlt'
    · obtain rfl : b = tailCapacity + l.tail.staged := by omega
      show _ ≠ (Function.update l.tail.buf _ _ _).price
      rw [Function.update_self]
      exact h.fresh _ ⟨a, ha, hab, rfl⟩ i (by simp)
  · rcases inSegment_stageOut.mp ha with ha | rfl
    · exact h.fresh a ha j (by simp [hj])
    · intro heq
      obtain rfl := h.prices i (by simp) j (by simp [hj]) heq
      exact hi hj

/-- If a level stays, the others can be evicted. -/
theorem Evictable.tail (h : Evictable (i :: rest) l) : Evictable rest l := by
  have hroom := h.room
  rw [List.length_cons] at hroom
  exact ⟨(List.nodup_cons.mp h.nodup).2, fun j hj => h.set j (by simp [hj]),
    fun a ha b hb => h.prices a (by simp [ha]) b (by simp [hb]), by omega, h.count, h.distinct,
    fun a ha j hj => h.fresh a ha j (by simp [hj])⟩

/-- A level has been staged, and then the others have been visited. -/
theorem Evicted.cons_leaves (he : Evicted newBase newEnd rest (l.stageOut i) l')
    (hleaves : Leaves newBase newEnd (l.levels i)) (hcount : 0 < l.windowCount) :
    Evicted newBase newEnd (i :: rest) l l' := by
  refine ⟨he.base, he.anchored, he.levels, he.n, fun k hk => ?_, fun j => ?_, ?_, he.count,
    fun level => ?_, he.distinct⟩
  · rw [he.keep k (show k < tailCapacity + (l.tail.staged + 1) by omega)]
    exact buf_stageOut (by omega)
  · rw [he.test, testBit_stageOut, List.mem_cons]
    show (j ≠ i ∧ _) ∧ ¬ (_ ∧ Leaves newBase newEnd (l.levels j)) ↔ _
    by_cases hj : j = i
    · rw [hj]
      tauto
    · tauto
  · have htotal : l'.tail.staged + l'.windowCount =
        l.tail.staged + 1 + (l.windowCount - 1) := he.total
    omega
  · rw [he.mem, inSegment_stageOut, or_assoc]
    refine or_congr_right ⟨fun h => ?_, fun h => ?_⟩
    · rcases h with heq | ⟨j, hj, hl, heq⟩
      · exact ⟨i, by simp, hleaves, heq⟩
      · exact ⟨j, by simp [hj], hl, heq⟩
    · obtain ⟨j, hj, hl, heq⟩ := h
      rcases List.mem_cons.mp hj with rfl | hj
      · exact Or.inl heq
      · exact Or.inr ⟨j, hj, hl, heq⟩

/-- A level stays where it is, and then the others have been visited. -/
theorem Evicted.cons_stays (he : Evicted newBase newEnd rest l l')
    (hstays : ¬ Leaves newBase newEnd (l.levels i)) : Evicted newBase newEnd (i :: rest) l l' := by
  -- the index of the level that stays is not among those that leave
  have hsame : ∀ j, Leaves newBase newEnd (l.levels j) → (j ∈ rest ↔ j ∈ i :: rest) := by
    intro j hl
    have hne : j ≠ i := fun heq => hstays (heq ▸ hl)
    rw [List.mem_cons, or_iff_right hne]
  refine ⟨he.base, he.anchored, he.levels, he.n, he.keep, fun j => ?_, he.total, he.count,
    fun level => ?_, he.distinct⟩
  · rw [he.test]
    exact and_congr_right fun _ => not_congr (and_congr_left fun hl => hsame j hl)
  · rw [he.mem]
    exact or_congr_right (exists_congr fun j => and_congr_left fun hl => hsame j hl.1)

end Evict

/-- The first step stages the levels outside the new range and clears their bits. -/
theorem evict_spec (newBase newEnd : Price) (idxs : List Nat)
    (l : LevelLadder isBid windowSize tailCapacity) (h : Evictable idxs l) :
    ∃ l', idxs.foldlM (evictOne newBase newEnd) l = .ok l' ∧
      Evicted newBase newEnd idxs l l' := by
  induction idxs generalizing l with
  | nil =>
      exact ⟨l, rfl, rfl, rfl, rfl, rfl, fun _ _ => rfl, by simp, rfl, h.count, by simp, h.distinct⟩
  | cons i rest ih =>
      rw [List.foldlM_cons]
      by_cases hleaves : Leaves newBase newEnd (l.levels i)
      · have hroom := h.room
        rw [List.length_cons] at hroom
        obtain ⟨hlt, hbit⟩ := h.set i (by simp)
        have hcard := Bitmap.card_setIndices_clear hlt hbit
        have hcount := h.count
        obtain ⟨l', hrun, he⟩ := ih (l.stageOut i) h.stageOut
        rw [evictOne_leaves (by omega) hleaves, ok_bind]
        exact ⟨l', hrun, he.cons_leaves hleaves (by omega)⟩
      · obtain ⟨l', hrun, he⟩ := ih l h.tail
        rw [evictOne_stays hleaves, ok_bind]
        exact ⟨l', hrun, he.cons_stays hleaves⟩

/-! ## The shift in place -/

/-- Where a level at index `i` is shifted to. -/
def shiftDest (delta : Int) (i : Nat) : Nat := ((i : Int) - delta).toNat

/-- What the second step has done once it has visited the indices `idxs`. -/
structure Shifted (delta : Int) (idxs : List Nat)
    (l l' : LevelLadder isBid windowSize tailCapacity) : Prop where
  base : l'.base = l.base
  anchored : l'.anchored = l.anchored
  windowCount : l'.windowCount = l.windowCount
  tail : l'.tail = l.tail
  test : ∀ j, l'.testBit j = true ↔ (j ∉ idxs ∧ l.testBit j = true) ∨
    ∃ i ∈ idxs, l.testBit i = true ∧ shiftDest delta i = j
  moved : ∀ i ∈ idxs, l.testBit i = true → l'.levels (shiftDest delta i) = l.levels i
  kept : ∀ j ∉ idxs, l.testBit j = true → l'.levels j = l.levels j

/-- The levels at the indices `idxs` can be shifted in this order: no write lands on a slot that is
still to be visited (`ahead`), and none on a slot that holds a level that has been moved there or
that is not visited at all (`inj`, `free`). -/
structure Shiftable (delta : Int) (idxs : List Nat)
    (l : LevelLadder isBid windowSize tailCapacity) : Prop where
  nodup : idxs.Nodup
  ahead : idxs.Pairwise fun i j => l.testBit i = true → shiftDest delta i ≠ j
  inj : ∀ i ∈ idxs, ∀ j ∈ idxs, l.testBit i = true → l.testBit j = true →
    shiftDest delta i = shiftDest delta j → i = j
  free : ∀ i ∈ idxs, l.testBit i = true → ∀ j ∉ idxs, l.testBit j = true → shiftDest delta i ≠ j

section Shift

variable {l l' : LevelLadder isBid windowSize tailCapacity} {delta : Int} {i : Nat}
  {rest : List Nat}

/-- One iteration of the second step on a level that moves. -/
theorem shiftOne_move (hbit : l.testBit i = true) :
    shiftOne delta l i = { l with
      levels := Function.update l.levels (shiftDest delta i) (l.levels i)
      bits := Bitmap.set (Bitmap.clear l.bits i) (shiftDest delta i) } := by
  simp only [shiftOne, if_pos hbit, shiftDest]

/-- The bits after a level has moved. -/
theorem testBit_shiftOne (hbit : l.testBit i = true) {j : Nat} :
    (shiftOne delta l i).testBit j = true ↔
      j = shiftDest delta i ∨ (j ≠ i ∧ l.testBit j = true) := by
  rw [shiftOne_move hbit]
  simp [testBit]

/-- The levels after a level has moved. -/
theorem levels_shiftOne (hbit : l.testBit i = true) {j : Nat} (hj : j ≠ shiftDest delta i) :
    (shiftOne delta l i).levels j = l.levels j := by
  rw [shiftOne_move hbit]
  exact Function.update_of_ne hj _ _

/-- On what is still to be visited a move changes nothing. -/
theorem Shiftable.testBit_rest (h : Shiftable delta (i :: rest) l) (hbit : l.testBit i = true)
    {j : Nat} (hj : j ∈ rest) :
    (shiftOne delta l i).testBit j = true ↔ l.testBit j = true := by
  have hdest := (List.pairwise_cons.mp h.ahead).1 j hj hbit
  have hne : j ≠ i := ne_of_mem_of_not_mem hj (List.nodup_cons.mp h.nodup).1
  rw [testBit_shiftOne hbit, or_iff_right hdest.symm, and_iff_right hne]

/-- After a level has moved, the others can be shifted. -/
theorem Shiftable.shiftOne (h : Shiftable delta (i :: rest) l) (hbit : l.testBit i = true) :
    Shiftable delta rest (shiftOne delta l i) := by
  obtain ⟨hi, hrest⟩ := List.nodup_cons.mp h.nodup
  refine ⟨hrest, ?_, fun a ha b hb hseta hsetb => ?_, fun a ha hseta j hj hsetj heq => ?_⟩
  · refine (List.pairwise_cons.mp h.ahead).2.imp_of_mem fun {a b} ha _ hab hset => ?_
    exact hab ((h.testBit_rest hbit ha).mp hset)
  · exact h.inj a (by simp [ha]) b (by simp [hb]) ((h.testBit_rest hbit ha).mp hseta)
      ((h.testBit_rest hbit hb).mp hsetb)
  · have hseta := (h.testBit_rest hbit ha).mp hseta
    rcases (testBit_shiftOne hbit).mp hsetj with rfl | ⟨hji, hsetj⟩
    · obtain rfl := h.inj a (by simp [ha]) i (by simp) hseta hbit heq
      exact hi ha
    · exact h.free a (by simp [ha]) hseta j (by simp [hji, hj]) hsetj heq

/-- If there is nothing at an index, the others can be shifted. -/
theorem Shiftable.tail (h : Shiftable delta (i :: rest) l) (hbit : ¬ l.testBit i = true) :
    Shiftable delta rest l := by
  refine ⟨(List.nodup_cons.mp h.nodup).2, (List.pairwise_cons.mp h.ahead).2,
    fun a ha b hb => h.inj a (by simp [ha]) b (by simp [hb]), fun a ha hset j hj hsetj => ?_⟩
  have hne : j ≠ i := fun heq => hbit (heq ▸ hsetj)
  exact h.free a (by simp [ha]) hset j (by simp [hne, hj]) hsetj

/-- A level has moved, and then the others have been visited. -/
theorem Shifted.cons_move (hrun : Shifted delta rest (shiftOne delta l i) l')
    (h : Shiftable delta (i :: rest) l) (hbit : l.testBit i = true) :
    Shifted delta (i :: rest) l l' := by
  have hdest := (List.pairwise_cons.mp h.ahead).1
  have hnot : shiftDest delta i ∉ rest := fun hmem => hdest _ hmem hbit rfl
  have hone : shiftOne delta l i = _ := shiftOne_move hbit
  refine ⟨by rw [hrun.base, hone], by rw [hrun.anchored, hone], by rw [hrun.windowCount, hone],
    by rw [hrun.tail, hone], fun j => ?_, fun j hj hset => ?_, fun j hj hset => ?_⟩
  · rw [hrun.test, testBit_shiftOne hbit]
    constructor
    · rintro (⟨hj, rfl | ⟨hji, hset⟩⟩ | ⟨a, ha, hset, heq⟩)
      · exact Or.inr ⟨i, by simp, hbit, rfl⟩
      · exact Or.inl ⟨by simp [hji, hj], hset⟩
      · exact Or.inr ⟨a, by simp [ha], (h.testBit_rest hbit ha).mp hset, heq⟩
    · rintro (⟨hj, hset⟩ | ⟨a, ha, hset, rfl⟩)
      · rw [List.mem_cons, not_or] at hj
        exact Or.inl ⟨hj.2, Or.inr ⟨hj.1, hset⟩⟩
      · rcases List.mem_cons.mp ha with rfl | ha
        · exact Or.inl ⟨hnot, Or.inl rfl⟩
        · exact Or.inr ⟨a, ha, (h.testBit_rest hbit ha).mpr hset, rfl⟩
  · rcases List.mem_cons.mp hj with rfl | hj
    · rw [hrun.kept _ hnot ((testBit_shiftOne hbit).mpr (Or.inl rfl)), hone]
      exact Function.update_self ..
    · rw [hrun.moved j hj ((h.testBit_rest hbit hj).mpr hset),
        levels_shiftOne hbit (hdest j hj hbit).symm]
  · have hfree := h.free i (by simp) hbit j hj hset
    rw [List.mem_cons, not_or] at hj
    rw [hrun.kept j hj.2 ((testBit_shiftOne hbit).mpr (Or.inr ⟨hj.1, hset⟩)),
      levels_shiftOne hbit hfree.symm]

/-- There is nothing at an index, and then the others have been visited. -/
theorem Shifted.cons_stay (hrun : Shifted delta rest l l') (hbit : ¬ l.testBit i = true) :
    Shifted delta (i :: rest) l l' := by
  -- a level is at an index of the rest exactly if it is at one of all of them
  have hsame : ∀ j, l.testBit j = true → (j ∈ rest ↔ j ∈ i :: rest) := by
    intro j hset
    have hne : j ≠ i := fun heq => hbit (heq ▸ hset)
    rw [List.mem_cons, or_iff_right hne]
  refine ⟨hrun.base, hrun.anchored, hrun.windowCount, hrun.tail, fun j => ?_,
    fun j hj hset => hrun.moved j ((hsame j hset).mpr hj) hset,
    fun j hj hset => hrun.kept j (fun hmem => hj ((hsame j hset).mp hmem)) hset⟩
  rw [hrun.test]
  refine or_congr (and_congr_left fun hset => not_congr (hsame j hset)) ?_
  exact exists_congr fun a => and_congr_left fun h => hsame a h.1

end Shift

/-- The second step moves every level to its new index. -/
theorem shift_spec (delta : Int) (idxs : List Nat) (l : LevelLadder isBid windowSize tailCapacity)
    (h : Shiftable delta idxs l) : Shifted delta idxs l (idxs.foldl (shiftOne delta) l) := by
  induction idxs generalizing l with
  | nil => exact ⟨rfl, rfl, rfl, rfl, by simp, by simp, fun _ _ _ => rfl⟩
  | cons i rest ih =>
      rw [List.foldl_cons]
      by_cases hbit : l.testBit i = true
      · exact (ih _ (h.shiftOne hbit)).cons_move h hbit
      · rw [show shiftOne delta l i = l by simp only [shiftOne, if_neg hbit]]
        exact (ih l (h.tail hbit)).cons_stay hbit

/-- Each level of the window lands at an index of the window, the one of its price in the new
range. -/
def Lands (delta : Int) (newBase : Price) (l : LevelLadder isBid windowSize tailCapacity) : Prop :=
  ∀ i < windowSize, l.testBit i = true → shiftDest delta i < windowSize ∧
    newBase + (shiftDest delta i : Int) = l.base + i ∧ (shiftDest delta i : Int) = i - delta

section Lands

variable {l : LevelLadder isBid windowSize tailCapacity} {delta : Int} {newBase : Price}

/-- Levels with prices in the new range land. A survivor shows that the two ranges overlap, so the
distance is exact. -/
theorem lands_of_in_range (hsize : windowSize ≤ 2 ^ 63)
    (hhome : ∀ i < windowSize, l.testBit i = true → (l.levels i).price = l.base + i)
    (hin : ∀ i < windowSize, l.testBit i = true →
      newBase ≤ (l.levels i).price ∧ (l.levels i).price < newBase + windowSize) :
    Lands (wrap64 (newBase - l.base)) newBase l := by
  intro i hi hset
  obtain ⟨hlo, hhi⟩ := hin i hi hset
  rw [hhome i hi hset] at hlo hhi
  have hexact : wrap64 (newBase - l.base) = newBase - l.base :=
    wrap64_eq (by unfold int64Min; lia) (by unfold int64Max; lia)
  rw [hexact]
  unfold shiftDest
  lia

/-- Different levels land at different indices. -/
theorem Lands.inj (h : Lands delta newBase l) {i j : Nat} (hi : i < windowSize)
    (hj : j < windowSize) (hseti : l.testBit i = true) (hsetj : l.testBit j = true)
    (heq : shiftDest delta i = shiftDest delta j) : i = j := by
  have h₁ := (h i hi hseti).2.2
  have h₂ := (h j hj hsetj).2.2
  lia

/-- In an order in which no level lands on a later index, the levels of the window can be
shifted. -/
theorem Lands.shiftable (h : Lands delta newBase l) {idxs : List Nat} (hnodup : idxs.Nodup)
    (hmem : ∀ i, i ∈ idxs ↔ i < windowSize)
    (hahead : idxs.Pairwise fun i j => l.testBit i = true → shiftDest delta i ≠ j) :
    Shiftable delta idxs l := by
  refine ⟨hnodup, hahead, fun i hi j hj hseti hsetj heq => ?_, fun i hi hset j hj _ heq => ?_⟩
  · exact h.inj ((hmem i).mp hi) ((hmem j).mp hj) hseti hsetj heq
  · rw [hmem] at hi hj
    exact hj (heq ▸ (h i hi hset).1)

/-- Levels that move down can be shifted in the order of their indices. -/
theorem Lands.shiftable_down (h : Lands delta newBase l) (hpos : delta > 0) :
    Shiftable delta (List.range windowSize) l := by
  refine h.shiftable List.nodup_range (fun i => List.mem_range) ?_
  refine List.pairwise_lt_range.imp_of_mem fun {i j} hi _ hij hset heq => ?_
  have hdest := (h i (List.mem_range.mp hi) hset).2.2
  lia

/-- Levels that move up can be shifted in the opposite order. -/
theorem Lands.shiftable_up (h : Lands delta newBase l) (hneg : delta < 0) :
    Shiftable delta (List.range windowSize).reverse l := by
  refine h.shiftable (List.nodup_reverse.mpr List.nodup_range) (by simp) ?_
  rw [List.pairwise_reverse]
  refine List.pairwise_lt_range.imp_of_mem fun {i j} _ hj hij hset heq => ?_
  have hdest := (h j (List.mem_range.mp hj) hset).2.2
  lia

/-- If the window does not move, every level is where it lands. -/
theorem Lands.shifted_zero (h : Lands 0 newBase l) :
    Shifted 0 (List.range windowSize) l l := by
  have hid : ∀ i < windowSize, l.testBit i = true → shiftDest 0 i = i := by
    intro i hi hset
    have hdest := (h i hi hset).2.2
    lia
  refine ⟨rfl, rfl, rfl, rfl, fun j => ?_,
    fun i hi hset => by rw [hid i (List.mem_range.mp hi) hset], fun _ _ _ => rfl⟩
  constructor
  · intro hset
    by_cases hj : j < windowSize
    · exact Or.inr ⟨j, List.mem_range.mpr hj, hset, hid j hj hset⟩
    · exact Or.inl ⟨fun hmem => hj (List.mem_range.mp hmem), hset⟩
  · rintro (⟨_, hset⟩ | ⟨i, hi, hset, rfl⟩)
    · exact hset
    · rwa [hid i (List.mem_range.mp hi) hset]

/-- The second step visits every index of the window, in the direction of the shift. -/
theorem Lands.shifted (h : Lands delta newBase l) :
    ∃ idxs : List Nat, (∀ i, i ∈ idxs ↔ i < windowSize) ∧
      Shifted delta idxs l (shiftSurvivors delta l) := by
  unfold shiftSurvivors
  split
  · next hpos => exact ⟨_, fun i => List.mem_range, shift_spec delta _ l (h.shiftable_down hpos)⟩
  · split
    · next hneg => exact ⟨_, by simp, shift_spec delta _ l (h.shiftable_up hneg)⟩
    · obtain rfl : delta = 0 := by omega
      exact ⟨_, fun i => List.mem_range, h.shifted_zero⟩

end Lands

/-- If all levels in the window have prices in the new range, the second step brings each to the
index of its price in the new range. -/
theorem shiftSurvivors_spec {l : LevelLadder isBid windowSize tailCapacity} (newBase : Price)
    (hsize : windowSize ≤ 2 ^ 63)
    (hhome : ∀ i < windowSize, l.testBit i = true → (l.levels i).price = l.base + i)
    (hin : ∀ i < windowSize, l.testBit i = true →
      newBase ≤ (l.levels i).price ∧ (l.levels i).price < newBase + windowSize) :
    ∃ l', shiftSurvivors (wrap64 (newBase - l.base)) l = l' ∧ l'.base = l.base ∧
      l'.anchored = l.anchored ∧ l'.windowCount = l.windowCount ∧ l'.tail = l.tail ∧
      (∀ j < windowSize, l'.testBit j = true → (l'.levels j).price = newBase + j) ∧
      (∀ level, (∃ i < windowSize, l'.testBit i = true ∧ l'.levels i = level) ↔
        ∃ i < windowSize, l.testBit i = true ∧ l.levels i = level) ∧
      (Bitmap.setIndices l'.bits windowSize).card = (Bitmap.setIndices l.bits windowSize).card := by
  have hdest := lands_of_in_range hsize hhome hin
  revert hdest
  generalize wrap64 (newBase - l.base) = delta
  intro hdest
  obtain ⟨idxs, hmem, hshift⟩ := hdest.shifted
  have htest : ∀ j < windowSize, (shiftSurvivors delta l).testBit j = true ↔
      ∃ i < windowSize, l.testBit i = true ∧ shiftDest delta i = j := by
    intro j hj
    rw [hshift.test, or_iff_right fun hnot => hnot.1 ((hmem j).mpr hj)]
    simp only [hmem]
  refine ⟨_, rfl, hshift.base, hshift.anchored, hshift.windowCount, hshift.tail, ?_, ?_, ?_⟩
  · intro j hj hset
    obtain ⟨i, hi, hseti, rfl⟩ := (htest j hj).mp hset
    rw [hshift.moved i ((hmem i).mpr hi) hseti, hhome i hi hseti, (hdest i hi hseti).2.1]
  · intro level
    constructor
    · rintro ⟨j, hj, hset, rfl⟩
      obtain ⟨i, hi, hseti, rfl⟩ := (htest j hj).mp hset
      exact ⟨i, hi, hseti, (hshift.moved i ((hmem i).mpr hi) hseti).symm⟩
    · rintro ⟨i, hi, hset, rfl⟩
      have hlt := (hdest i hi hset).1
      exact ⟨_, hlt, (htest _ hlt).mpr ⟨i, hi, hset, rfl⟩,
        hshift.moved i ((hmem i).mpr hi) hset⟩
  · -- the destinations are different, so the number of set bits stays
    have himage : Bitmap.setIndices (shiftSurvivors delta l).bits windowSize =
        (Bitmap.setIndices l.bits windowSize).image (shiftDest delta) := by
      ext j
      rw [Bitmap.mem_setIndices, Finset.mem_image]
      constructor
      · rintro ⟨hj, hset⟩
        obtain ⟨i, hi, hseti, heq⟩ := (htest j hj).mp hset
        exact ⟨i, Bitmap.mem_setIndices.mpr ⟨hi, hseti⟩, heq⟩
      · rintro ⟨i, hi, rfl⟩
        obtain ⟨hi, hset⟩ := Bitmap.mem_setIndices.mp hi
        have hlt := (hdest i hi hset).1
        exact ⟨hlt, (htest _ hlt).mpr ⟨i, hi, hset, rfl⟩⟩
    rw [himage]
    apply Finset.card_image_of_injOn
    intro i hi j hj heq
    obtain ⟨hi, hseti⟩ := Bitmap.mem_setIndices.mp hi
    obtain ⟨hj, hsetj⟩ := Bitmap.mem_setIndices.mp hj
    exact hdest.inj hi hj hseti hsetj heq

/-! ## Pulling levels in -/

/-- What the third step has done once it has placed the levels `taken`. -/
structure Placed (taken : List PriceLevel)
    (l l' : LevelLadder isBid windowSize tailCapacity) : Prop where
  base : l'.base = l.base
  anchored : l'.anchored = l.anchored
  tail : l'.tail = l.tail
  test : ∀ j, l'.testBit j = true ↔
    l.testBit j = true ∨ ∃ level ∈ taken, l.indexOf level.price = j
  placed : ∀ level ∈ taken, l'.levels (l.indexOf level.price) = level
  kept : ∀ j, l.testBit j = true → l'.levels j = l.levels j
  total : l'.windowCount = l.windowCount + taken.length
  card : (Bitmap.setIndices l'.bits windowSize).card =
    (Bitmap.setIndices l.bits windowSize).card + taken.length

/-- Placing a level sets the bit of its slot. -/
theorem testBit_placeOne (l : LevelLadder isBid windowSize tailCapacity) (level : PriceLevel)
    (j : Nat) : (placeOne l level).testBit j = true ↔
      j = l.indexOf level.price ∨ l.testBit j = true := by
  simp [placeOne, testBit]

/-- The third step puts each level into the clear slot of its price. -/
theorem place_spec (taken : List PriceLevel) (l : LevelLadder isBid windowSize tailCapacity)
    (hfresh : ∀ level ∈ taken, l.indexOf level.price < windowSize ∧
      l.testBit (l.indexOf level.price) = false)
    (hdistinct : taken.Pairwise fun a b => l.indexOf a.price ≠ l.indexOf b.price) :
    Placed taken l (taken.foldl placeOne l) := by
  induction taken generalizing l with
  | nil => exact ⟨rfl, rfl, rfl, by simp, by simp, fun _ _ => rfl, rfl, rfl⟩
  | cons level rest ih =>
      obtain ⟨hother, hdistinct⟩ := List.pairwise_cons.mp hdistinct
      obtain ⟨hlt, hclear⟩ := hfresh level (by simp)
      rw [List.foldl_cons]
      have htest := testBit_placeOne l level
      have hlevels : ∀ j, j ≠ l.indexOf level.price →
          (placeOne l level).levels j = l.levels j := fun j hj => Function.update_of_ne hj _ _
      have hself : (placeOne l level).levels (l.indexOf level.price) = level :=
        Function.update_self _ _ _
      -- the slots of the other levels are still clear after this one
      have hrun := ih (placeOne l level)
        (fun a ha => by
          obtain ⟨hlta, hcleara⟩ := hfresh a (by simp [ha])
          refine ⟨hlta, ?_⟩
          rw [← Bool.not_eq_true] at hcleara ⊢
          intro hset
          rcases (htest _).mp hset with heq | hset
          · exact hother a ha heq.symm
          · exact hcleara hset)
        hdistinct
      refine ⟨hrun.base, hrun.anchored, hrun.tail, fun j => ?_, fun a ha => ?_,
        fun j hset => ?_, ?_,
        ?_⟩
      · rw [hrun.test, htest]
        constructor
        · rintro ((rfl | hset) | ⟨a, ha, heq⟩)
          · exact Or.inr ⟨level, by simp, rfl⟩
          · exact Or.inl hset
          · exact Or.inr ⟨a, by simp [ha], heq⟩
        · rintro (hset | ⟨a, ha, rfl⟩)
          · exact Or.inl (Or.inr hset)
          · rcases List.mem_cons.mp ha with rfl | ha
            · exact Or.inl (Or.inl rfl)
            · exact Or.inr ⟨a, ha, rfl⟩
      · rcases List.mem_cons.mp ha with rfl | ha
        · rw [hrun.kept _ ((htest _).mpr (Or.inl rfl)), hself]
        · exact hrun.placed a ha
      · have hne : j ≠ l.indexOf level.price := by
          rintro rfl
          rw [hclear] at hset
          cases hset
        rw [hrun.kept j ((htest j).mpr (Or.inr hset)), hlevels j hne]
      · rw [hrun.total, List.length_cons]
        show l.windowCount + 1 + rest.length = _
        omega
      · rw [hrun.card, List.length_cons]
        show (Bitmap.setIndices (Bitmap.set l.bits (l.indexOf level.price)) windowSize).card + _ = _
        rw [Bitmap.card_setIndices_set hlt hclear]
        omega

/-! ## The three steps together -/

/-- One iteration of the first step changes the bitmap in one word. -/
theorem evictOne_frame {newBase newEnd : Price} (l : LevelLadder isBid windowSize tailCapacity)
    (i : Nat) (l' : LevelLadder isBid windowSize tailCapacity)
    (hrun : evictOne newBase newEnd l i = .ok l') (w : Nat) (hw : w ≠ i / 64) :
    l'.bits w = l.bits w := by
  by_cases hleaves : Leaves newBase newEnd (l.levels i)
  · by_cases hroom : l.tail.staged < windowSize
    · rw [evictOne_leaves hroom hleaves] at hrun
      cases hrun
      exact Bitmap.clear_word hw
    · unfold Leaves at hleaves
      simp only [evictOne, if_pos hleaves, stage, if_neg hroom] at hrun
      cases hrun
  · rw [evictOne_stays hleaves] at hrun
    cases hrun
    rfl

/-- The first step goes through the set indices of the window. -/
theorem mem_setRange {l : LevelLadder isBid windowSize tailCapacity} {i : Nat} :
    i ∈ (List.range windowSize).filter (Bitmap.test l.bits) ↔
      i < windowSize ∧ l.testBit i = true := by
  rw [List.mem_filter, List.mem_range]
  rfl

/-- Between two operations all levels of the window can be evicted. -/
theorem WellFormed.evictable {l : LevelLadder isBid windowSize tailCapacity} (hwf : WellFormed l) :
    Evictable ((List.range windowSize).filter (Bitmap.test l.bits)) l := by
  have hstaged := hwf.tail.staged_eq
  refine ⟨List.nodup_range.filter _, fun i hi => mem_setRange.mp hi, fun i hi j hj heq => ?_, ?_,
    hwf.count, fun i j hi hij hj => by omega, fun a ha => ?_⟩
  · obtain ⟨hi, hseti⟩ := mem_setRange.mp hi
    obtain ⟨hj, hsetj⟩ := mem_setRange.mp hj
    rw [hwf.home i hi hseti, hwf.home j hj hsetj] at heq
    lia
  · have hle := List.length_filter_le (Bitmap.test l.bits) (List.range windowSize)
    rw [List.length_range] at hle
    omega
  · obtain ⟨k, hk, hk', -⟩ := ha
    omega

/-- The first step and the merge that ends it: the levels outside the new range are in the tail,
and the others are where they were. -/
theorem evict_merge {l : LevelLadder isBid windowSize tailCapacity} (hwf : WellFormed l)
    (hvalid : ValidWindow windowSize) (hsize : l.size ≤ tailCapacity) (newBase newEnd : Price) :
    ∃ l₁ tail, Bitmap.forEachSet LevelLadder.bits (evictOne newBase newEnd) (kWords windowSize) l =
        .ok l₁ ∧ l₁.tail.mergeStaged = .ok tail ∧
      l₁.base = l.base ∧ l₁.anchored = l.anchored ∧ l₁.levels = l.levels ∧
      (∀ i < windowSize, l₁.testBit i = true ↔
        l.testBit i = true ∧ ¬ Leaves newBase newEnd (l.levels i)) ∧
      l₁.windowCount = (Bitmap.setIndices l₁.bits windowSize).card ∧
      tail.WellFormed ∧ l₁.windowCount + tail.n = l.size ∧
      ∀ level, tail.Holds level ↔ l.tail.Holds level ∨
        ∃ i < windowSize, l.testBit i = true ∧ Leaves newBase newEnd (l.levels i) ∧
          l.levels i = level := by
  -- the stage holds exactly the levels that leave
  have hstaged := hwf.tail.staged_eq
  obtain ⟨l₁, hrun, he⟩ := evict_spec newBase newEnd _ l hwf.evictable
  have hstage : ∀ level, InSegment l₁.tail.buf tailCapacity (tailCapacity + l₁.tail.staged) level ↔
      ∃ i < windowSize, l.testBit i = true ∧ Leaves newBase newEnd (l.levels i) ∧
        l.levels i = level := by
    intro level
    rw [he.mem]
    constructor
    · rintro (⟨k, hk, hk', _⟩ | ⟨i, hi, h⟩)
      · omega
      · obtain ⟨hi, hset⟩ := mem_setRange.mp hi
        exact ⟨i, hi, hset, h⟩
    · rintro ⟨i, hi, hset, h⟩
      exact Or.inr ⟨i, mem_setRange.mpr ⟨hi, hset⟩, h⟩
  have hcap := hwf.tail.size_le
  have hkeep : ∀ k, 0 ≤ k → k < l.tail.n → l₁.tail.buf k = l.tail.buf k :=
    fun k _ hk => he.keep k (by omega)
  have hholds : ∀ level, l₁.tail.Holds level ↔ l.tail.Holds level := by
    intro level
    unfold Holds
    rw [he.n]
    exact inSegment_congr hkeep
  have htotal := he.total
  unfold size at hsize
  -- a level of the window and one of the tail have different prices, so the merge applies
  obtain ⟨tail, hmerge, htail, hn, hunion⟩ := mergeStaged_spec (t := l₁.tail)
    (by rw [he.n]; exact hwf.tail.sorted.congr hkeep) (by rw [he.n]; omega) he.distinct
    (fun a b ha hb => by
      obtain ⟨i, hi, hset, _, rfl⟩ := (hstage b).mp hb
      exact tail_price_ne hwf ((hholds a).mp ha) hi hset)
  refine ⟨l₁, tail, ?_, hmerge, he.base, he.anchored, he.levels, fun i hi => ?_, he.count,
    htail, ?_, fun level => ?_⟩
  · rw [Bitmap.forEachSet_eq evictOne_frame, Bitmap.indices_eq, hvalid.words]
    exact hrun
  · rw [he.test, mem_setRange]
    refine and_congr_right fun hset => not_congr ⟨fun h => h.2, fun h => ⟨⟨hi, hset⟩, h⟩⟩
  · rw [hn, he.n]
    show _ = l.windowCount + l.tail.n
    omega
  · rw [hunion, hholds, hstage]

/-- The ladder between the second and the third step: the window holds levels of the new range
only, each at its index, but the tail may hold levels of that range too. -/
structure Halfway (l : LevelLadder isBid windowSize tailCapacity) : Prop where
  tail : l.tail.WellFormed
  anchored : l.anchored = true
  home : ∀ i < windowSize, l.testBit i = true → (l.levels i).price = l.base + i
  separate : ∀ i < windowSize, l.testBit i = true → ∀ level, l.tail.Holds level →
    level.price ≠ (l.levels i).price
  count : l.windowCount = (Bitmap.setIndices l.bits windowSize).card

/-- The first two steps keep every level. -/
theorem evict_shift {l : LevelLadder isBid windowSize tailCapacity} (hwf : WellFormed l)
    (hvalid : ValidWindow windowSize) (hsize : l.size ≤ tailCapacity) (hanch : l.anchored = true)
    (newBase : Price) (hfits : windowSize ≤ 2 ^ 63) :
    ∃ l₁ tail l₂, Bitmap.forEachSet LevelLadder.bits (evictOne newBase (newBase + windowSize))
        (kWords windowSize) l = .ok l₁ ∧ l₁.tail.mergeStaged = .ok tail ∧
      { shiftSurvivors (wrap64 (newBase - l.base)) { l₁ with tail := tail } with base := newBase } =
        l₂ ∧ Halfway l₂ ∧ l₂.base = newBase ∧ l₂.size = l.size ∧
      ∀ level, l₂.Live level ↔ l.Live level := by
  obtain ⟨l₁, tail, hevict, hmerge, hbase₁, hanch₁, hlevels₁, htest₁, hcount₁, htail₁, htotal₁,
    hholds₁⟩ := evict_merge hwf hvalid hsize newBase (newBase + windowSize)
  have hstays : ∀ i < windowSize, l₁.testBit i = true →
      newBase ≤ (l.levels i).price ∧ (l.levels i).price < newBase + windowSize := by
    intro i hi hset
    have h := ((htest₁ i hi).mp hset).2
    unfold Leaves at h
    lia
  obtain ⟨l₂, hshift, -, hanch₂, hcount₂, htail₂, hhome₂, hsame₂, hcard₂⟩ :=
    shiftSurvivors_spec (l := { l₁ with tail := tail }) newBase hfits
      (fun i hi hset => by
        show (l₁.levels i).price = l₁.base + i
        rw [hlevels₁, hbase₁]
        exact hwf.home i hi ((htest₁ i hi).mp hset).1)
      (fun i hi hset => by
        show newBase ≤ (l₁.levels i).price ∧ (l₁.levels i).price < newBase + windowSize
        rw [hlevels₁]
        exact hstays i hi hset)
  have hwindow : ∀ level, (∃ i < windowSize, l₂.testBit i = true ∧ l₂.levels i = level) ↔
      ∃ i < windowSize, l₁.testBit i = true ∧ l.levels i = level := by
    intro level
    rw [hsame₂, ← hlevels₁]
    rfl
  have hholds₂ : ∀ level, l₂.tail.Holds level ↔ tail.Holds level := fun level => by rw [htail₂]
  refine ⟨l₁, tail, { l₂ with base := newBase }, hevict, hmerge, ?_, ?_, rfl, ?_, fun level => ?_⟩
  · rw [← hbase₁]
    rw [show shiftSurvivors (wrap64 (newBase - l₁.base)) { l₁ with tail := tail } = l₂ from hshift]
  · refine ⟨?_, hanch₂.trans (hanch₁.trans hanch), hhome₂, fun i hi hset level hlevel => ?_, ?_⟩
    · show l₂.tail.WellFormed
      rw [htail₂]
      exact htail₁
    · -- a survivor has a price neither in the old tail nor among the evicted
      obtain ⟨k, hk, hsetk, heq⟩ := (hwindow (l₂.levels i)).mp ⟨i, hi, hset, rfl⟩
      show level.price ≠ (l₂.levels i).price
      rw [← heq]
      rcases (hholds₁ level).mp ((hholds₂ level).mp hlevel) with h | ⟨j, _, _, hleaves, rfl⟩
      · exact tail_price_ne hwf h hk ((htest₁ k hk).mp hsetk).1
      · intro hprice
        have h := hstays k hk hsetk
        unfold Leaves at hleaves
        rw [← hprice] at h
        lia
    · show l₂.windowCount = _
      rw [hcount₂, hcard₂]
      exact hcount₁
  · show l₂.windowCount + l₂.tail.n = l.size
    rw [hcount₂, htail₂]
    exact htotal₁
  · rw [live_iff, live_iff]
    show (∃ i < windowSize, l₂.testBit i = true ∧ l₂.levels i = level) ∨ l₂.tail.Holds level ↔ _
    rw [hwindow, hholds₂, hholds₁]
    constructor
    · rintro (⟨i, hi, hset, heq⟩ | h | ⟨i, hi, hset, _, heq⟩)
      · exact Or.inl ⟨i, hi, ((htest₁ i hi).mp hset).1, heq⟩
      · exact Or.inr h
      · exact Or.inl ⟨i, hi, hset, heq⟩
    · rintro (⟨i, hi, hset, heq⟩ | h)
      · by_cases hleaves : Leaves newBase (newBase + windowSize) (l.levels i)
        · exact Or.inr (Or.inr ⟨i, hi, hset, hleaves, heq⟩)
        · exact Or.inl ⟨i, hi, (htest₁ i hi).mpr ⟨hset, hleaves⟩, heq⟩
      · exact Or.inr (Or.inl h)

/-- A level of the tail in the range of the window has a slot there, which is clear. -/
theorem Halfway.slot {l : LevelLadder isBid windowSize tailCapacity} (hhalf : Halfway l)
    (hfits : windowSize ≤ 2 ^ 63) {level : PriceLevel} (hheld : l.tail.Holds level)
    (hge : l.base ≤ level.price) (hlt : level.price < l.base + windowSize) :
    ∃ i < windowSize, level.price = l.base + (i : Int) ∧ l.indexOf level.price = i ∧
      l.testBit i = false := by
  obtain ⟨i, hi⟩ : ∃ i : Nat, level.price = l.base + i := ⟨(level.price - l.base).toNat, by lia⟩
  have hlt : i < windowSize := by lia
  refine ⟨i, hlt, hi, by rw [hi]; exact indexOf_base_add hfits hlt, ?_⟩
  by_contra hset
  rw [Bool.not_eq_false] at hset
  refine hhalf.separate i hlt hset level hheld ?_
  rw [hhalf.home i hlt hset, hi]

/-- Different levels of the tail in the range of the window have different slots there, all
clear. -/
theorem Halfway.slots {l : LevelLadder isBid windowSize tailCapacity} (hhalf : Halfway l)
    (hfits : windowSize ≤ 2 ^ 63) {taken : List PriceLevel}
    (hpair : taken.Pairwise fun a b => worse isBid a.price b.price = true)
    (hin : ∀ level ∈ taken, l.tail.Holds level ∧ l.base ≤ level.price ∧
      level.price < l.base + windowSize) :
    (∀ level ∈ taken, l.indexOf level.price < windowSize ∧
      l.testBit (l.indexOf level.price) = false) ∧
      taken.Pairwise fun a b => l.indexOf a.price ≠ l.indexOf b.price := by
  have hslot : ∀ level ∈ taken, ∃ i < windowSize, level.price = l.base + (i : Int) ∧
      l.indexOf level.price = i ∧ l.testBit i = false := by
    intro level hlevel
    obtain ⟨hheld, hge, hlt⟩ := hin level hlevel
    exact hhalf.slot hfits hheld hge hlt
  constructor
  · intro level hlevel
    obtain ⟨i, hi, _, hidx, hclear⟩ := hslot level hlevel
    rw [hidx]
    exact ⟨hi, hclear⟩
  · refine hpair.imp_of_mem fun {a b} ha hb hworse heq => ?_
    obtain ⟨i, _, hpa, hidxa, _⟩ := hslot a ha
    obtain ⟨j, _, hpb, hidxb, _⟩ := hslot b hb
    rw [hidxa, hidxb] at heq
    exact (worse_strict isBid).ne hworse (by rw [hpa, hpb, heq])

/-- The third step brings every level of the range into the window. -/
theorem pull_spec {l : LevelLadder isBid windowSize tailCapacity} (hhalf : Halfway l)
    (hvalid : ValidWindow windowSize) (hlo : int64Min ≤ l.base)
    (hhi : l.base + windowSize ≤ int64Max) :
    ∃ tail l₁ l', l.tail.extractRange l.base (l.base + windowSize - 1) placeOne l = (tail, l₁) ∧
      { l₁ with tail := tail, bestIdx := bestInWindow { l₁ with tail := tail } } = l' ∧
      WellFormed l' ∧ l'.base = l.base ∧ l'.anchored = true ∧ l'.size = l.size ∧
      ∀ level, l'.Live level ↔ l.Live level := by
  have hfits := hvalid.le_of_fits hlo hhi
  obtain ⟨tail, taken, hextract, hordered, hstage, hn, hpair, htaken, hrest⟩ :=
    extractRange_spec hhalf.tail.ordered l.base (l.base + windowSize - 1) placeOne l
  have htail := hordered.wellFormed hstage hhalf.tail
  have hslot : ∀ level ∈ taken, ∃ i < windowSize, level.price = l.base + (i : Int) ∧
      l.indexOf level.price = i ∧ l.testBit i = false := by
    intro level hlevel
    obtain ⟨hheld, hge, hle⟩ := (htaken level).mp hlevel
    exact hhalf.slot hfits hheld hge (by lia)
  obtain ⟨hfresh, hdistinct⟩ := hhalf.slots hfits hpair fun level hlevel => by
    obtain ⟨hheld, hge, hle⟩ := (htaken level).mp hlevel
    exact ⟨hheld, hge, by lia⟩
  have hplace := place_spec taken l hfresh hdistinct
  generalize taken.foldl placeOne l = l₁ at hextract hplace
  -- a slot that is set holds a survivor, or a level that was pulled in
  have hset₁ : ∀ i < windowSize, l₁.testBit i = true →
      (l.testBit i = true ∧ l₁.levels i = l.levels i) ∨
        (l₁.levels i ∈ taken ∧ (l₁.levels i).price = l.base + (i : Int)) := by
    intro i hi hset
    rcases (hplace.test i).mp hset with hset | ⟨level, hlevel, heq⟩
    · exact Or.inl ⟨hset, hplace.kept i hset⟩
    · obtain ⟨j, _, hprice, hidx, _⟩ := hslot level hlevel
      have hplaced := hplace.placed level hlevel
      rw [heq] at hplaced
      rw [hplaced, ← heq, hidx]
      exact Or.inr ⟨hlevel, hprice⟩
  have hbase : l₁.base = l.base := hplace.base
  have hanch : l₁.anchored = true := hplace.anchored.trans hhalf.anchored
  refine ⟨tail, l₁, _, hextract, rfl, ⟨htail, fun h => ?_, fun _ => ?_, fun i hi hset => ?_,
    fun level hlevel => ?_, ?_, bestInWindow_spec hvalid.words { l₁ with tail := tail }⟩, hbase,
    hanch, ?_, fun level => ?_⟩
  · rw [show l₁.anchored = false from h] at hanch
    cases hanch
  · show int64Min ≤ l₁.base ∧ l₁.base + windowSize ≤ int64Max
    rw [hbase]
    exact ⟨hlo, hhi⟩
  · show (l₁.levels i).price = l₁.base + i
    rw [hbase]
    rcases hset₁ i hi hset with ⟨hset, heq⟩ | ⟨_, hprice⟩
    · rw [heq]
      exact hhalf.home i hi hset
    · exact hprice
  · show ¬ (l₁.base ≤ level.price ∧ level.price < l₁.base + windowSize)
    rw [hbase]
    have h := ((hrest level).mp hlevel).2
    lia
  · show l₁.windowCount = (Bitmap.setIndices l₁.bits windowSize).card
    rw [hplace.total, hplace.card, hhalf.count]
  · show l₁.windowCount + tail.n = l.windowCount + l.tail.n
    rw [hplace.total]
    omega
  · rw [live_iff, live_iff]
    show (∃ i < windowSize, l₁.testBit i = true ∧ l₁.levels i = level) ∨ tail.Holds level ↔ _
    constructor
    · rintro (⟨i, hi, hset, rfl⟩ | h)
      · rcases hset₁ i hi hset with ⟨hset, heq⟩ | ⟨hlevel, _⟩
        · exact Or.inl ⟨i, hi, hset, heq.symm⟩
        · exact Or.inr ((htaken _).mp hlevel).1
      · exact Or.inr ((hrest level).mp h).1
    · rintro (⟨i, hi, hset, rfl⟩ | h)
      · exact Or.inl ⟨i, hi, (hplace.test i).mpr (Or.inl hset), hplace.kept i hset⟩
      · -- a level of the tail is pulled in or stays, by its price
        by_cases hin : l.base ≤ level.price ∧ level.price ≤ l.base + windowSize - 1
        · have hlevel := (htaken level).mpr ⟨h, hin⟩
          obtain ⟨i, hi, _, hidx, _⟩ := hslot level hlevel
          exact Or.inl ⟨_, by rw [hidx]; exact hi,
            (hplace.test _).mpr (Or.inr ⟨level, hlevel, rfl⟩), hplace.placed level hlevel⟩
        · exact Or.inr ((hrest level).mpr ⟨h, hin⟩)

/-- `recenter` moves the window to the new range and keeps every level as it is. -/
theorem recenter_spec {l : LevelLadder isBid windowSize tailCapacity} (hwf : WellFormed l)
    (hvalid : ValidWindow windowSize) (hsize : l.size ≤ tailCapacity) {newBase : Price}
    (hlo : int64Min ≤ newBase) (hhi : newBase + windowSize ≤ int64Max) :
    ∃ l', l.recenter newBase = .ok l' ∧ WellFormed l' ∧ l'.base = newBase ∧ l'.anchored = true ∧
      l'.size = l.size ∧ ∀ level, l'.Live level ↔ l.Live level := by
  cases hanch : l.anchored with
  | false =>
      -- a ladder that was never anchored holds nothing
      obtain ⟨hclear, hn⟩ := hwf.unanchored hanch
      refine ⟨{ l with anchored := true, base := newBase, bestIdx := -1 },
        by simp [recenter, hanch],
        ⟨hwf.tail, fun h => ?_, fun _ => ⟨hlo, hhi⟩, fun i hi hset => ?_, fun level hlevel => ?_,
          hwf.count, Or.inl ⟨rfl, hclear⟩⟩, rfl, rfl, rfl, fun level => ?_⟩
      · cases h
      · have hset : l.testBit i = true := hset
        rw [hclear i hi] at hset
        cases hset
      · obtain ⟨k, _, hk, _⟩ := hlevel
        have hk : k < l.tail.n := hk
        omega
      · rw [live_iff, live_iff]
        rfl
  | true =>
      have hfits := hvalid.le_of_fits hlo hhi
      have hend : wrap64 (newBase + windowSize) = newBase + windowSize := wrap64_eq (by lia) hhi
      have hlast : wrap64 (newBase + windowSize - 1) = newBase + windowSize - 1 :=
        wrap64_eq (by have := hvalid.2; lia) (by lia)
      -- steps 1 and 2, then step 3
      obtain ⟨l₁, tail₁, l₂, hevict, hmerge, hshift, hhalf, rfl, hsize₂, hlive₂⟩ :=
        evict_shift hwf hvalid hsize hanch newBase hfits
      have htail : (shiftSurvivors (wrap64 (l₂.base - l.base)) { l₁ with tail := tail₁ }).tail =
          l₂.tail := by
        rw [← hshift]
      obtain ⟨tail₃, l₃, l', hextract, hl', hwf', hbase', hanch', hsize', hlive'⟩ :=
        pull_spec hhalf hvalid hlo hhi
      refine ⟨l', ?_, hwf', hbase', hanch', hsize'.trans hsize₂,
        fun level => (hlive' level).trans (hlive₂ level)⟩
      simp only [recenter, hanch, Bool.not_true, Bool.false_eq_true, if_false, hend, hlast, hevict,
        ok_bind, hmerge, hshift]
      simp only [htail, hextract, hl', pure_eq_ok]

end LevelLadder

end LimitOrderBook
