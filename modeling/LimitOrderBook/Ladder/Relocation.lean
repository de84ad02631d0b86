import LimitOrderBook.Ladder.Correctness

/-!
# The window moves over the levels

`recenter` shifts the levels of the window in place and pulls others in from the tail. The function
`recenterWrites` lists its assignments to the slots of the window in the order in which they are
made, each with whether the slot held a level at that moment. None does (`recenterWrites_clear`), so
`recenter` changes where the window is, and no level (`recenter_keeps_levels`).
-/

namespace LimitOrderBook

open LevelTail

namespace LevelLadder

variable {isBid : Bool} {windowSize tailCapacity : Nat}

/-- An assignment to a slot of the window, and whether a level stands there before it. -/
structure SlotWrite where
  slot : Nat
  occupied : Bool
  deriving DecidableEq, Repr

/-- The assignment is to a slot of the window where no level stands. -/
def SlotWrite.Clear (windowSize : Nat) (w : SlotWrite) : Prop :=
  w.slot < windowSize ∧ w.occupied = false

section Writes

variable (l : LevelLadder isBid windowSize tailCapacity)

/-- An assignment to a slot of this window. -/
def writeAt (slot : Nat) : SlotWrite := ⟨slot, l.testBit slot⟩

/-- The assignments of step 2 of `recenter` while it visits the indices `idxs`. -/
def shiftWrites (delta : Int) :
    LevelLadder isBid windowSize tailCapacity → List Nat → List SlotWrite
  | _, [] => []
  | l, idx :: idxs =>
      (if l.testBit idx then [l.writeAt ((idx : Int) - delta).toNat] else []) ++
        shiftWrites delta (shiftOne delta l idx) idxs

/-- The assignments of step 2 of `recenter`. -/
def survivorWrites (delta : Int) : List SlotWrite :=
  if delta > 0 then shiftWrites delta l (List.range windowSize)
  else if delta < 0 then shiftWrites delta l (List.range windowSize).reverse
  else []

/-- The body of step 3 of `recenter`, with the assignments so far. -/
def placeOneWrites (s : LevelLadder isBid windowSize tailCapacity × List SlotWrite)
    (level : PriceLevel) : LevelLadder isBid windowSize tailCapacity × List SlotWrite :=
  (placeOne s.1 level, s.2 ++ [s.1.writeAt (s.1.indexOf level.price)])

/-- The assignments of `recenter` to the slots of the window. -/
def recenterWrites (newBase : Price) : List SlotWrite :=
  if !l.anchored then []
  else
    let newEnd := wrap64 (newBase + windowSize)
    let delta := wrap64 (newBase - l.base)
    match Bitmap.forEachSet LevelLadder.bits (evictOne newBase newEnd) (kWords windowSize) l with
    | .error _ => []
    | .ok l =>
        match l.tail.mergeStaged with
        | .error _ => []
        | .ok tail =>
            let l := { l with tail := tail }
            let shifted := { shiftSurvivors delta l with base := newBase }
            l.survivorWrites delta ++
              (shifted.tail.extractRange newBase (wrap64 (newEnd - 1)) placeOneWrites
                (shifted, [])).2.2

end Writes

/-! ## Every assignment is to a clear slot -/

section Clear

variable {l : LevelLadder isBid windowSize tailCapacity} {delta : Int} {newBase : Price}

/-- The second step writes to clear slots, if each level moves to another slot of the window. -/
theorem shiftWrites_clear (idxs : List Nat) (l : LevelLadder isBid windowSize tailCapacity)
    (h : Shiftable delta idxs l)
    (hmoves : ∀ i ∈ idxs, l.testBit i = true →
      shiftDest delta i ≠ i ∧ shiftDest delta i < windowSize) :
    ∀ w ∈ shiftWrites delta l idxs, w.Clear windowSize := by
  induction idxs generalizing l with
  | nil => exact fun w hw => by cases hw
  | cons i rest ih =>
      rw [shiftWrites]
      by_cases hbit : l.testBit i = true
      · have hrest := ih (shiftOne delta l i) (h.shiftOne hbit) fun j hj hset =>
          hmoves j (by simp [hj]) ((h.testBit_rest hbit hj).mp hset)
        obtain ⟨hne, hlt⟩ := hmoves i (by simp) hbit
        have hclear : l.testBit (shiftDest delta i) = false := by
          by_contra hset
          rw [Bool.not_eq_false] at hset
          -- the level at the destination would be visited later, or never
          by_cases hlater : shiftDest delta i ∈ rest
          · exact (List.pairwise_cons.mp h.ahead).1 _ hlater hbit rfl
          · exact h.free i (by simp) hbit _ (by simp [hne, hlater]) hset rfl
        intro w hw
        rw [if_pos hbit] at hw
        rcases List.mem_append.mp hw with hw | hw
        · rw [List.mem_singleton.mp hw]
          exact ⟨hlt, hclear⟩
        · exact hrest w hw
      · rw [if_neg hbit, List.nil_append,
          show shiftOne delta l i = l by simp only [shiftOne, if_neg hbit]]
        exact ih l (h.tail hbit) fun j hj => hmoves j (by simp [hj])

/-- The second step writes to clear slots, in both directions. -/
theorem survivorWrites_clear (h : Lands delta newBase l) :
    ∀ w ∈ l.survivorWrites delta, w.Clear windowSize := by
  have hmoves : delta ≠ 0 → ∀ i < windowSize, l.testBit i = true →
      shiftDest delta i ≠ i ∧ shiftDest delta i < windowSize := by
    intro hdelta i hi hset
    obtain ⟨hlt, _, hdest⟩ := h i hi hset
    exact ⟨by omega, hlt⟩
  unfold survivorWrites
  split
  · next hpos =>
      refine shiftWrites_clear _ l (h.shiftable_down hpos) fun i hi => ?_
      exact hmoves (by omega) i (List.mem_range.mp hi)
  · split
    · next hneg =>
        refine shiftWrites_clear _ l (h.shiftable_up hneg) fun i hi => ?_
        exact hmoves (by omega) i (by simpa using hi)
    · exact fun w hw => by cases hw

/-- The third step writes to clear slots, if those of the levels are clear and different. -/
theorem foldl_placeOneWrites_clear (taken : List PriceLevel)
    (l : LevelLadder isBid windowSize tailCapacity) (log : List SlotWrite)
    (hlog : ∀ w ∈ log, w.Clear windowSize)
    (hfresh : ∀ level ∈ taken, l.indexOf level.price < windowSize ∧
      l.testBit (l.indexOf level.price) = false)
    (hdistinct : taken.Pairwise fun a b => l.indexOf a.price ≠ l.indexOf b.price) :
    ∀ w ∈ (taken.foldl placeOneWrites (l, log)).2, w.Clear windowSize := by
  induction taken generalizing l log with
  | nil => exact hlog
  | cons level rest ih =>
      obtain ⟨hother, hdistinct⟩ := List.pairwise_cons.mp hdistinct
      rw [List.foldl_cons]
      refine ih (placeOne l level) _ (fun w hw => ?_) (fun a ha => ?_) hdistinct
      · rcases List.mem_append.mp hw with hw | hw
        · exact hlog w hw
        · rw [List.mem_singleton.mp hw]
          exact hfresh level (by simp)
      · obtain ⟨hlt, hclear⟩ := hfresh a (by simp [ha])
        refine ⟨hlt, ?_⟩
        rw [← Bool.not_eq_true] at hclear ⊢
        intro hset
        rcases (testBit_placeOne l level _).mp hset with heq | hset
        · exact hother a ha heq.symm
        · exact hclear hset

/-- Every assignment of `recenter` to a slot of the window is to a clear one. -/
theorem recenterWrites_clear (hwf : WellFormed l) (hvalid : ValidWindow windowSize)
    (hsize : l.size ≤ tailCapacity) (hlo : int64Min ≤ newBase)
    (hhi : newBase + windowSize ≤ int64Max) :
    ∀ w ∈ l.recenterWrites newBase, w.Clear windowSize := by
  unfold recenterWrites
  cases hanch : l.anchored with
  | false => exact fun w hw => by cases hw
  | true =>
      have hfits := hvalid.le_of_fits hlo hhi
      have hend : wrap64 (newBase + windowSize) = newBase + windowSize := wrap64_eq (by lia) hhi
      have hlast : wrap64 (newBase + windowSize - 1) = newBase + windowSize - 1 :=
        wrap64_eq (by have := hvalid.2; lia) (by lia)
      -- step 1 and the merge, and what steps 1 and 2 lead to
      obtain ⟨l₁, tail, hevict, hmerge, hbase, -, hlevels, htest, -⟩ :=
        evict_merge hwf hvalid hsize newBase (newBase + windowSize)
      obtain ⟨l₁', tail', l₂, hevict', hmerge', hshift, hhalf, hbase₂, -⟩ :=
        evict_shift hwf hvalid hsize hanch newBase hfits
      obtain rfl : l₁ = l₁' := Except.ok.inj (hevict.symm.trans hevict')
      obtain rfl : tail = tail' := Except.ok.inj (hmerge.symm.trans hmerge')
      -- every level that is left belongs to the new range
      have hlands : Lands (wrap64 (newBase - l.base)) newBase { l₁ with tail := tail } := by
        rw [← hbase]
        refine lands_of_in_range (l := { l₁ with tail := tail }) hfits (fun i hi hset => ?_)
          fun i hi hset => ?_
        · show (l₁.levels i).price = l₁.base + i
          rw [hlevels, hbase]
          exact hwf.home i hi ((htest i hi).mp hset).1
        · show newBase ≤ (l₁.levels i).price ∧ (l₁.levels i).price < newBase + windowSize
          have hstays := ((htest i hi).mp hset).2
          unfold Leaves at hstays
          rw [hlevels]
          lia
      have htail : (shiftSurvivors (wrap64 (newBase - l.base)) { l₁ with tail := tail }).tail =
          l₂.tail := by
        rw [← hshift]
      simp only [Bool.not_true, Bool.false_eq_true, if_false, hend, hlast, hevict, hmerge, hshift]
      simp only [htail]
      intro w hw
      rcases List.mem_append.mp hw with hshifted | hpulled
      · exact survivorWrites_clear hlands w hshifted
      · obtain ⟨tail₃, taken, hextract, -, -, -, hpair, htaken, -⟩ :=
          extractRange_spec hhalf.tail.ordered newBase (newBase + windowSize - 1) placeOneWrites
            (l₂, [])
        subst hbase₂
        rw [hextract] at hpulled
        obtain ⟨hfresh, hdistinct⟩ := hhalf.slots hfits hpair fun level hlevel => by
          obtain ⟨hheld, hge, hle⟩ := (htaken level).mp hlevel
          exact ⟨hheld, hge, by lia⟩
        exact foldl_placeOneWrites_clear taken l₂ [] (by simp) hfresh hdistinct w hpulled

end Clear

/-! ## No level changes -/

section Keeps

variable {l : LevelLadder isBid windowSize tailCapacity}

/-- What `find` finds is the level at the price. -/
theorem map_get_find (hwf : WellFormed l) (hvalid : ValidWindow windowSize) {p : Price}
    {level : PriceLevel} :
    (l.find p).map l.get = some level ↔ l.Live level ∧ level.price = p := by
  cases hfind : l.find p with
  | none =>
      have habsent := (find_none hwf hvalid).mp hfind
      exact iff_of_false (fun h => by cases h) fun h => habsent level h.1 h.2
  | some r =>
      obtain ⟨hr, hprice⟩ := find_some hwf hvalid hfind
      rw [Option.map_some, Option.some_inj]
      constructor
      · intro heq
        rw [← heq]
        exact ⟨⟨r, hr, rfl⟩, hprice⟩
      · intro hlevel
        obtain ⟨⟨s, hs, rfl⟩, hs'⟩ := hlevel
        rw [hr.eq_of_price hwf hs (hprice.trans hs'.symm)]

/-- The window of a ladder holds the live levels of its range. -/
theorem window_iff (hwf : WellFormed l) (level : PriceLevel) :
    (∃ i < windowSize, l.testBit i = true ∧ l.levels i = level) ↔
      l.Live level ∧ l.base ≤ level.price ∧ level.price < l.base + windowSize := by
  constructor
  · intro hlevel
    obtain ⟨i, hi, hset, rfl⟩ := hlevel
    exact ⟨⟨.window i, ⟨hi, hset⟩, rfl⟩,
      ((inWindow_iff hwf _).mp (inWindow_of_set hwf hi hset)).2⟩
  · intro hlevel
    obtain ⟨hlive, hin⟩ := hlevel
    rcases live_iff.mp hlive with hwindow | htail
    · exact hwindow
    · exact absurd hin (hwf.outside level htail)

/-- `recenter` moves the window over the levels. Every price has the level that it had, or none as
before, the window holds exactly the levels of its new range, and no assignment to the window
overwrites a level. -/
theorem recenter_keeps_levels (hwf : WellFormed l) (hvalid : ValidWindow windowSize)
    (hsize : l.size ≤ tailCapacity) {newBase : Price} (hlo : int64Min ≤ newBase)
    (hhi : newBase + windowSize ≤ int64Max) :
    ∃ l', l.recenter newBase = .ok l' ∧ WellFormed l' ∧ l'.base = newBase ∧ l'.anchored = true ∧
      (∀ p, (l'.find p).map l'.get = (l.find p).map l.get) ∧
      (∀ level, (∃ i < windowSize, l'.testBit i = true ∧ l'.levels i = level) ↔
        l.Live level ∧ newBase ≤ level.price ∧ level.price < newBase + windowSize) ∧
      ∀ w ∈ l.recenterWrites newBase, w.Clear windowSize := by
  obtain ⟨l', hrun, hwf', rfl, hanch', _, hlive⟩ := recenter_spec hwf hvalid hsize hlo hhi
  refine ⟨l', hrun, hwf', rfl, hanch', fun p => Option.ext fun level => ?_, fun level => ?_,
    recenterWrites_clear hwf hvalid hsize hlo hhi⟩
  · rw [map_get_find hwf' hvalid, map_get_find hwf hvalid, hlive]
  · rw [window_iff hwf', hlive]

end Keeps

/-- Four bids, the last of them below the window. The window moves down by 28 ticks: the level at
110 leaves it, those at 100 and 90 are shifted, and the one at 50 comes in. -/
theorem recenter_keeps_four_bids : ∃ (h : Heap) (l l' : LevelLadder true 64 4),
    run (fun _ => default) {} [.insert 100 0, .insert 110 1, .insert 90 2, .insert 50 3] =
      .ok (h, l) ∧ l.base = 68 ∧
    [110, 100, 90, 50].map l.find =
      [some (.window 42), some (.window 32), some (.window 22), some (.tail 0)] ∧
    l.recenter 40 = .ok l' ∧
    [110, 100, 90, 50].map l'.find =
      [some (.tail 0), some (.window 60), some (.window 50), some (.window 10)] ∧
    WellFormed l' ∧ (∀ p, (l'.find p).map l'.get = (l.find p).map l.get) ∧
    l.recenterWrites 40 = [⟨60, false⟩, ⟨50, false⟩, ⟨10, false⟩] := by
  have hvalid : ValidWindow 64 := ⟨⟨6, rfl⟩, by decide⟩
  have hfresh : Represents ({} : LevelLadder true 64 4) [] := fresh_represents
  obtain ⟨l, hrun, hrep⟩ := hfresh.run hvalid (fun _ => default)
    [.insert 100 0, .insert 110 1, .insert 90 2, .insert 50 3]
    ⟨⟨by decide, by decide⟩, ⟨by decide, by decide⟩, ⟨by decide, by decide⟩,
      ⟨by decide, by decide⟩, trivial⟩
  have hsize : l.size ≤ 4 := by
    rw [hrep.size_eq hvalid]
    decide
  have hlo : int64Min ≤ (40 : Price) := by decide
  obtain ⟨l', hmove, hwf, -, -, hfind, -, -⟩ :=
    recenter_keeps_levels hrep.wellFormed hvalid hsize hlo (by decide)
  have hbefore : (run (fun _ => default) ({} : LevelLadder true 64 4)
      [.insert 100 0, .insert 110 1, .insert 90 2, .insert 50 3]).map (fun r =>
        (r.2.base, [110, 100, 90, 50].map r.2.find, r.2.recenterWrites 40)) =
      .ok (68, [some (.window 42), some (.window 32), some (.window 22), some (.tail 0)],
        [⟨60, false⟩, ⟨50, false⟩, ⟨10, false⟩]) := by decide +kernel
  have hafter : ((run (fun _ => default) ({} : LevelLadder true 64 4)
      [.insert 100 0, .insert 110 1, .insert 90 2, .insert 50 3]) >>= fun r =>
        r.2.recenter 40).map (fun l' => [110, 100, 90, 50].map l'.find) =
      .ok [some (.tail 0), some (.window 60), some (.window 50), some (.window 10)] := by
    decide +kernel
  rw [hrun] at hbefore
  rw [hrun, ok_bind, hmove] at hafter
  obtain ⟨hbase, hrest⟩ := Prod.mk.inj (Except.ok.inj hbefore)
  obtain ⟨hhomes, hwrites⟩ := Prod.mk.inj hrest
  exact ⟨_, l, l', hrun, hbase, hhomes, hmove, Except.ok.inj hafter, hwf, hfind, hwrites⟩

end LevelLadder

end LimitOrderBook
