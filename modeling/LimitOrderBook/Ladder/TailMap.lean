import LimitOrderBook.Ladder.TailCorrectness

/-!
# Everything the tail does, together

`SortedMap` says of one tail what each of its operations does: a lookup, an insertion of what is
absent, a deletion, the removal of a price range, and the union with the staged levels. Any tail
that is sorted and within its capacity has it (`sortedMap_of_sorted`), whatever is staged.

The merge of the staged levels works in place. `mergeMoves` lists the moves between slots that it
makes, and running them one after the other is the merge (`mergeLoop_eq_moves`).
-/

namespace LimitOrderBook

namespace LevelTail

variable {isBid : Bool} {capacity scratchSize : Nat}

/-! ## The moves of the merge -/

/-- One assignment of the merge, from a slot to a slot. -/
structure Move where
  source : Nat
  slot : Nat
  deriving DecidableEq, Repr

/-- What the assignment does to the buffer. -/
def Move.run (buf : Nat → PriceLevel) (m : Move) : Nat → PriceLevel :=
  Function.update buf m.slot (buf m.source)

/-- The assignments of `mergeLoop`, in order. -/
def mergeLoopMoves (isBid : Bool) (capacity : Nat) :
    (Nat → PriceLevel) → (out i j : Nat) → List Move
  | _, 0, _, _ => []
  | buf, out + 1, i, j =>
      if j = 0 then []
      else if 0 < i ∧ worse isBid (buf (capacity + (j - 1))).price (buf (i - 1)).price then
        ⟨i - 1, out⟩ ::
          mergeLoopMoves isBid capacity (Function.update buf out (buf (i - 1))) out (i - 1) j
      else
        ⟨capacity + (j - 1), out⟩ ::
          mergeLoopMoves isBid capacity (Function.update buf out (buf (capacity + (j - 1)))) out i
            (j - 1)

/-- The assignments of `merge_staged`, after it has sorted the stage. -/
def mergeMoves (t : LevelTail isBid capacity scratchSize) : List Move :=
  mergeLoopMoves isBid capacity (sortWorstFirst isBid t.buf capacity t.staged) (t.n + t.staged)
    t.n t.staged

/-- The merge is its moves. -/
theorem mergeLoop_eq_moves (buf : Nat → PriceLevel) (out i j : Nat) :
    mergeLoop isBid capacity buf out i j =
      (mergeLoopMoves isBid capacity buf out i j).foldl Move.run buf := by
  induction out generalizing buf i j with
  | zero => rfl
  | succ out ih =>
      rw [mergeLoop, mergeLoopMoves]
      split_ifs
      · rfl
      · exact ih _ (i - 1) j
      · exact ih _ i (j - 1)

/-- The merge writes below `out`, and reads what is still to be placed. -/
theorem mergeLoopMoves_bounds (buf : Nat → PriceLevel) (out i j : Nat) :
    ∀ m ∈ mergeLoopMoves isBid capacity buf out i j,
      m.slot < out ∧ (m.source < i ∨ capacity ≤ m.source ∧ m.source < capacity + j) := by
  induction out generalizing buf i j with
  | zero => exact fun m hm => by cases hm
  | succ out ih =>
      rw [mergeLoopMoves]
      split_ifs with hj hlevel
      · exact fun m hm => by cases hm
      · intro m hm
        rcases List.mem_cons.mp hm with rfl | hm
        · exact ⟨Nat.lt_succ_self out, Or.inl (show i - 1 < i by omega)⟩
        · have hbounds := ih _ (i - 1) j m hm
          omega
      · intro m hm
        rcases List.mem_cons.mp hm with rfl | hm
        · have hlt : capacity + (j - 1) < capacity + j := by omega
          exact ⟨Nat.lt_succ_self out, Or.inr ⟨Nat.le_add_right _ _, hlt⟩⟩
        · have hbounds := ih _ i (j - 1) m hm
          omega

/-- A slot that the merge has written is not read later: what is still to be placed stands below
it, or in the stage. -/
theorem mergeLoopMoves_read (buf : Nat → PriceLevel) (out i j : Nat) (hout : out = i + j)
    (hcap : out ≤ capacity) :
    (mergeLoopMoves isBid capacity buf out i j).Pairwise fun m m' => m.slot ≠ m'.source := by
  induction out generalizing buf i j with
  | zero => exact List.Pairwise.nil
  | succ out ih =>
      rw [mergeLoopMoves]
      split_ifs with hj hlevel
      · exact List.Pairwise.nil
      · refine List.pairwise_cons.mpr ⟨fun m hm => ?_, ih _ (i - 1) j (by omega) (by omega)⟩
        have hbounds := mergeLoopMoves_bounds _ out (i - 1) j m hm
        show out ≠ m.source
        omega
      · refine List.pairwise_cons.mpr ⟨fun m hm => ?_, ih _ i (j - 1) (by omega) (by omega)⟩
        have hbounds := mergeLoopMoves_bounds _ out i (j - 1) m hm
        show out ≠ m.source
        omega

section

variable {t : LevelTail isBid capacity scratchSize}

/-- The buffer after `mergeStaged` is the one with the stage sorted, after the moves. -/
theorem mergeStaged_moves {t' : LevelTail isBid capacity scratchSize}
    (hroom : t.n + t.staged ≤ capacity) (h : t.mergeStaged = .ok t') :
    t'.buf = t.mergeMoves.foldl Move.run (sortWorstFirst isBid t.buf capacity t.staged) := by
  unfold mergeStaged at h
  rw [if_pos hroom] at h
  split at h
  · next hzero =>
      cases h
      have hsort : sortWorstFirst isBid t.buf capacity t.staged = t.buf :=
        funext fun k => if_neg (by omega)
      rw [mergeMoves, ← mergeLoop_eq_moves, hsort, hzero]
      cases t.n <;> rfl
  · cases h
    exact mergeLoop_eq_moves _ _ _ _

/-! ## The sorted map -/

/-- `erase` deletes the level at the price, if there is one, and no other. -/
theorem erase_spec (h : Ordered t) (price : Price) :
    Ordered (t.erase price) ∧ SameStage t (t.erase price) ∧
      ∀ level, (t.erase price).Holds level ↔ t.Holds level ∧ level.price ≠ price := by
  by_cases hhit : ∃ level, t.Holds level ∧ level.price = price
  · obtain ⟨level, hlevel, rfl⟩ := hhit
    obtain ⟨hordered, hstage, _, hmem⟩ := erase_hit h hlevel
    exact ⟨hordered, hstage, hmem⟩
  · have hsame : t.erase price = t := by
      rw [← hit_iff h.sorted price] at hhit
      exact if_neg hhit
    rw [hsame]
    exact ⟨h, ⟨rfl, fun _ _ => rfl⟩, fun level =>
      ⟨fun hlevel => ⟨hlevel, fun heq => hhit ⟨level, hlevel, heq⟩⟩, And.left⟩⟩

/-- A level is staged. -/
def Staged (t : LevelTail isBid capacity scratchSize) (level : PriceLevel) : Prop :=
  InSegment t.buf capacity (capacity + t.staged) level

/-- The tail acts as a map from prices to levels in the order of the prices. -/
structure SortedMap (t : LevelTail isBid capacity scratchSize) : Prop where
  /-- `find` looks the price up. -/
  find_some : ∀ price i, t.find price = some i ↔ i < t.n ∧ (t.buf i).price = price
  /-- `find` finds nothing if and only if no level has the price. -/
  find_none : ∀ price, t.find price = none ↔ ∀ level, t.Holds level → level.price ≠ price
  /-- `findOrInsert` changes nothing if there is a level at the price. -/
  present : ∀ price i, t.find price = some i → t.findOrInsert price = .ok (t, i)
  /-- `findOrInsert` adds an empty level at a price that is absent. -/
  absent : ∀ price, t.find price = none → t.n < capacity →
    ∃ t' i, t.findOrInsert price = .ok (t', i) ∧ Ordered t' ∧ SameStage t t' ∧
      t'.n = t.n + 1 ∧ t'.find price = some i ∧ t'.buf i = ⟨price, 0, none, none⟩ ∧
      ∀ level, t'.Holds level ↔ t.Holds level ∨ level = ⟨price, 0, none, none⟩
  /-- A full tail refuses a price that is absent. -/
  full : ∀ price, t.find price = none → t.n = capacity → t.findOrInsert price = .error .tailFull
  /-- `erase` deletes the level at the price and no other. -/
  erase : ∀ price, Ordered (t.erase price) ∧ SameStage t (t.erase price) ∧
    ∀ level, (t.erase price).Holds level ↔ t.Holds level ∧ level.price ≠ price
  /-- `extractRange` runs `f` once on each level of the price range and leaves the others. -/
  extract : ∀ {σ : Type} (f : σ → PriceLevel → σ) (s : σ) (lo hi : Price), lo ≤ hi →
    ∃ (t' : LevelTail isBid capacity scratchSize) (taken : List PriceLevel),
      t.extractRange lo hi f s = (t', taken.foldl f s) ∧ taken.Nodup ∧
      (∀ level, level ∈ taken ↔ t.Holds level ∧ lo ≤ level.price ∧ level.price ≤ hi) ∧
      Ordered t' ∧ SameStage t t' ∧ t'.n + taken.length = t.n ∧
      ∀ level, t'.Holds level ↔ t.Holds level ∧ ¬ (lo ≤ level.price ∧ level.price ≤ hi)
  /-- `mergeStaged` adds the staged levels, whose prices are different and not in the tail. It
  empties the stage, and reads no slot that it has written. -/
  merge : (∀ i j, capacity ≤ i → i < j → j < capacity + t.staged →
      (t.buf i).price ≠ (t.buf j).price) →
    (∀ level staged, t.Holds level → t.Staged staged → level.price ≠ staged.price) →
    t.n + t.staged ≤ capacity →
    ∃ t', t.mergeStaged = .ok t' ∧ Ordered t' ∧ t'.staged = 0 ∧ t'.n = t.n + t.staged ∧
      (∀ level, t'.Holds level ↔ t.Holds level ∨ t.Staged level) ∧
      t'.buf = t.mergeMoves.foldl Move.run (sortWorstFirst isBid t.buf capacity t.staged) ∧
      t.mergeMoves.Pairwise fun m m' => m.slot ≠ m'.source

/-- A sorted tail within its capacity is a sorted map. -/
theorem sortedMap_of_sorted (hsorted : SortedOn isBid t.buf 0 t.n) (hsize : t.n ≤ capacity) :
    SortedMap t := by
  have hordered : Ordered t := ⟨hsorted, hsize⟩
  refine
    { find_some := fun price i => find_eq_some hsorted
      find_none := fun price => find_eq_none hsorted
      present := fun price i hfind => ?_
      absent := fun price hfind hroom => ?_
      full := fun price hfind hfull => ?_
      erase := erase_spec hordered
      extract := fun f s lo hi _ => ?_
      merge := fun hstaged hdiff hroom => ?_ }
  · obtain ⟨hi, heq⟩ := (find_eq_some hsorted).mp hfind
    exact findOrInsert_hit hsorted hi heq
  · obtain ⟨t', i, hinsert, hordered', hstage, hn, hi, hlevel, hmem⟩ :=
      findOrInsert_miss hsorted ((find_eq_none hsorted).mp hfind) hroom
    refine ⟨t', i, hinsert, hordered', hstage, hn, ?_, hlevel, hmem⟩
    exact (find_eq_some hordered'.sorted).mpr ⟨hi, by rw [hlevel]⟩
  · have hmiss : ¬ (t.lower price < t.n ∧ (t.buf (t.lower price)).price = price) := fun hhit => by
      obtain ⟨level, hlevel, heq⟩ := (hit_iff hsorted price).mp hhit
      exact (find_eq_none hsorted).mp hfind level hlevel heq
    simp only [findOrInsert, if_neg hmiss, if_neg (show ¬ t.n < capacity by omega)]
  · obtain ⟨t', taken, heq, hordered', hstage, hn, htaken, hin, hmem⟩ :=
      extractRange_spec hordered lo hi f s
    have hnodup : taken.Nodup := List.Pairwise.imp
      (fun {a b} hworse (hab : a = b) => (worse_strict isBid).ne hworse (by rw [hab])) htaken
    exact ⟨t', taken, heq, hnodup, hin, hordered', hstage, hn, hmem⟩
  · obtain ⟨t', hmerge, hwf, hn, hmem⟩ := mergeStaged_spec hsorted hroom hstaged hdiff
    exact ⟨t', hmerge, hwf.ordered, hwf.staged_eq, hn, hmem, mergeStaged_moves hroom hmerge,
      mergeLoopMoves_read _ _ _ _ rfl hroom⟩

end

/-- Two bid levels, and one staged between them. -/
def staggered : LevelTail true 4 2 where
  buf := fun k => ⟨if k = 0 then 10 else if k = 4 then 15 else 20, 1, none, none⟩
  n := 2
  staged := 1

/-- The staged level of `staggered` is merged. -/
theorem sortedMap_staggered : SortedMap staggered ∧
    ∃ t', staggered.mergeStaged = .ok t' ∧ t'.n = 3 ∧ t'.Holds ⟨15, 1, none, none⟩ := by
  have hmap : SortedMap staggered := sortedMap_of_sorted (fun i j _ hij hj => by
    have hj : j < 2 := hj
    obtain ⟨rfl, rfl⟩ : i = 0 ∧ j = 1 := by omega
    rfl) (by decide)
  have hstaged : ∀ level, staggered.Staged level → level = ⟨15, 1, none, none⟩ := by
    intro level hlevel
    obtain ⟨k, hk, hk', rfl⟩ := hlevel
    obtain rfl : k = 4 := Nat.le_antisymm (Nat.le_of_lt_succ hk') hk
    rfl
  obtain ⟨t', hmerge, _, _, hn, hmem, _, _⟩ := hmap.merge
    (fun i j hi hij hj => absurd (show j < 5 from hj) (by omega))
    (fun level staged hlevel hstage => by
      obtain ⟨k, _, hk, rfl⟩ := hlevel
      rw [hstaged staged hstage]
      have hk : k < 2 := hk
      rcases Nat.lt_or_ge k 1 with hlt | hge
      · obtain rfl : k = 0 := by omega
        decide
      · obtain rfl : k = 1 := by omega
        decide)
    (by decide)
  exact ⟨hmap, t', hmerge, hn, (hmem _).mpr (Or.inr ⟨4, by decide, by decide, rfl⟩)⟩

end LevelTail

end LimitOrderBook
