import LimitOrderBook.Book.Runs

/-!
# The walks over the depth of a side

A ladder keeps its levels in three structures, and `for_each_best` walks them by the bitmap alone or
by a merge of the window and the tail. `Shows l levels` says that both walks show one list,
`levels`, which has each level of the side once, best price first. `walks_depth` has it after every
run of a ladder, and after every run of a book, whose depth then adds up to its total quantity.
-/

namespace LimitOrderBook

namespace LevelLadder

variable {isBid : Bool} {windowSize tailCapacity : Nat}

variable {l : LevelLadder isBid windowSize tailCapacity} {levels : List PriceLevel}

/-- The walks over the ladder show the levels in this order. -/
structure Shows (l : LevelLadder isBid windowSize tailCapacity) (levels : List PriceLevel) :
    Prop where
  sorted : levels.Pairwise fun a b => better isBid a.price b.price = true
  live : ∀ level, level ∈ levels ↔ l.Live level
  size : levels.length = l.size
  walk : ∀ n, l.forEachBest n = levels.take n
  /-- Both paths of `for_each_best` show the same. -/
  paths : l.tail.empty = true → ∀ n, l.walkWindow n l.bestIdx = l.walkMerge n l.bestIdx 0
  length : ∀ n, (l.forEachBest n).length = min n l.size
  first : ∀ n, (l.forEachBest (n + 1)).head? = l.best.map l.get
  /-- The walk over all levels visits each once. -/
  all : l.forEachLevel.Perm levels
  nodup : l.forEachLevel.Nodup
  shorter : ∀ n k, n ≤ k → l.forEachBest n <+: l.forEachBest k

/-- The walks over a ladder show the entries of the map that it represents. -/
theorem Represents.shows {m : List (Price × PriceLevel)} (hvalid : ValidWindow windowSize)
    (h : Represents l m) : Shows l (m.map Prod.snd) := by
  have hperm := h.perm hvalid
  -- by both paths `forEachBest` shows a prefix of the map
  have hwalk := h.forEachBest hvalid
  have hsize : (m.map Prod.snd).length = l.size := by rw [List.length_map, h.size_eq hvalid]
  refine
    { sorted := ?_
      live := fun level => by rw [hperm.mem_iff, mem_forEachLevel hvalid]
      size := hsize
      walk := hwalk
      paths := fun hempty n => ?_
      length := fun n => by rw [hwalk, List.length_take, hsize]
      first := fun n => ?_
      all := hperm.symm
      nodup := nodup_forEachLevel h.wellFormed hvalid
      shorter := fun n k hle => ?_ }
  · rw [List.pairwise_map]
    refine h.sorted.imp_of_mem fun {a b} ha hb hab => ?_
    rw [h.price_eq ha, h.price_eq hb]
    exact hab
  · rw [walkMerge_of_empty (by simpa [LevelTail.empty] using hempty)]
  · rw [hwalk]
    rcases h.best with ⟨hnone, hm⟩ | ⟨r, rest, hsome, _, hm⟩
    · rw [hnone, hm]
      rfl
    · rw [hsome, hm]
      rfl
  · rw [hwalk, hwalk]
    exact List.take_prefix_take_left hle

/-- A walk that reaches every level adds up to what the walk over all levels does. -/
theorem Shows.sum_eq (h : Shows l levels) {n : Nat} (hn : l.size ≤ n) :
    ((l.forEachBest n).map PriceLevel.totalQty).sum =
      (l.forEachLevel.map PriceLevel.totalQty).sum := by
  rw [h.walk, List.take_of_length_le (by rw [h.size]; exact hn)]
  exact (h.all.map _).symm.sum_eq

end LevelLadder

open LevelLadder (Shows)

section Books

variable {poolCapacity windowSize : Nat} {b : OrderBook poolCapacity windowSize}

/-- The depth of a side, shown in full, has the quantities of all its levels. -/
theorem sum_copyTop {isBid : Bool} {l : LevelLadder isBid windowSize poolCapacity}
    {levels : List PriceLevel} (h : Shows l levels) {n : Nat} (hn : l.size ≤ n) :
    ((OrderBook.copyTop l n).map LevelQty.qty).sum =
      (l.forEachLevel.map PriceLevel.totalQty).sum := by
  rw [← h.sum_eq hn, OrderBook.copyTop, List.map_map]
  rfl

/-- The depth of both sides, shown in full, adds up to the total quantity. -/
theorem totalRestingQty_topLevels {bids asks : List PriceLevel} (hbids : Shows b.bids bids)
    (hasks : Shows b.asks asks) {n : Nat} (hb : b.bids.size ≤ n) (ha : b.asks.size ≤ n) :
    b.totalRestingQty = ((b.topLevels .buy n).map LevelQty.qty).sum +
      ((b.topLevels .sell n).map LevelQty.qty).sum := by
  have hbuy : b.topLevels .buy n = OrderBook.copyTop b.bids n := if_pos rfl
  have hsell : b.topLevels .sell n = OrderBook.copyTop b.asks n := if_neg (by decide)
  have hfold := foldl_totalQty (fun level : PriceLevel => level)
  rw [OrderBook.totalRestingQty, hfold, hfold, Int.zero_add, hbuy, hsell, sum_copyTop hbids hb,
    sum_copyTop hasks ha]

end Books

/-- Whatever a fresh ladder or a fresh book has gone through, its walks show each level once, best
price first, and the depth of the book adds up to its total quantity. -/
theorem walks_depth {windowSize : Nat} (hvalid : ValidWindow windowSize) :
    (∀ (isBid : Bool) (tailCapacity : Nat) (h : Heap) (ops : List LevelLadder.Op),
      LevelLadder.Admissible isBid windowSize tailCapacity h [] ops →
      ∃ l : LevelLadder isBid windowSize tailCapacity,
        LevelLadder.run h {} ops = .ok ((LevelLadder.refRun isBid h [] ops).1, l) ∧
        Shows l ((LevelLadder.refRun isBid h [] ops).2.map Prod.snd)) ∧
    ∀ (poolCapacity : Nat) (cs : List Call), (∀ c ∈ cs, c.InRange windowSize) →
      ∃ (history : List Event) (b : OrderBook poolCapacity windowSize)
        (bids asks : List PriceLevel),
        OrderBook.run [] {} cs = .ok (history, b) ∧ Shows b.bids bids ∧
        Shows b.asks asks ∧
        ∀ n, b.bids.size ≤ n → b.asks.size ≤ n →
          b.totalRestingQty = ((b.topLevels .buy n).map LevelQty.qty).sum +
            ((b.topLevels .sell n).map LevelQty.qty).sum := by
  constructor
  · intro isBid tailCapacity h ops hadm
    obtain ⟨l, hrun, hrep⟩ := LevelLadder.fresh_represents.run hvalid h ops hadm
    exact ⟨l, hrun, hrep.shows hvalid⟩
  · intro poolCapacity cs hcs
    obtain ⟨history, b, mb, sb, sa, hrun, -, hlock, -, -⟩ :=
      @run_ok poolCapacity windowSize hvalid cs hcs
    have hbids := hlock.sim.bids.shows hvalid
    have hasks := hlock.sim.asks.shows hvalid
    exact ⟨history, b, _, _, hrun, hbids, hasks, fun n hb ha =>
      totalRestingQty_topLevels hbids hasks hb ha⟩

/-- Two bids 200 ticks apart, one of them in the tail, and a book with one order. -/
theorem walks_depth_evicted :
    (∃ l : LevelLadder true 64 4,
      LevelLadder.run (fun _ => default) {} [.insert 100 0, .insert 300 1] = .ok
        ((LevelLadder.refRun true (fun _ => default) [] [.insert 100 0, .insert 300 1]).1, l) ∧
      Shows l [⟨300, 0, some 1, some 1⟩, ⟨100, 0, some 0, some 0⟩]) ∧
    ∃ (history : List Event) (b : OrderBook 2 64),
      OrderBook.run [] {} [.add 1 .buy 100 5 0] = .ok (history, b) := by
  obtain ⟨hladders, hbooks⟩ := @walks_depth 64 ⟨⟨6, rfl⟩, by decide⟩
  refine ⟨hladders true 4 (fun _ => default) [.insert 100 0, .insert 300 1]
    ⟨⟨by decide, by decide⟩, ⟨by decide, by decide⟩, trivial⟩, ?_⟩
  obtain ⟨history, b, _, _, hrun, _⟩ := hbooks 2 [.add 1 .buy 100 5 0] (by decide)
  exact ⟨history, b, hrun⟩

end LimitOrderBook
