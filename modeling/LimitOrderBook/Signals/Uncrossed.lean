import LimitOrderBook.Book.Runs
import LimitOrderBook.Signals.Model
import Mathlib.Algebra.Order.BigOperators.Group.List

/-!
# The book is never crossed

Between calls the best bid is below the best ask, every level that the depth shows has a quantity,
and the prices of each side are strictly monotone. The microprice is therefore computed on
arguments that it is defined for only.
-/

namespace LimitOrderBook

/-- The quotes and the depth of a book are in order. -/
structure Uncrossed {poolCapacity windowSize : Nat} (b : OrderBook poolCapacity windowSize) :
    Prop where
  /-- If both sides have orders, the best bid is below the best ask. -/
  spread : b.resting.bids ≠ [] → b.resting.asks ≠ [] →
    ∃ bid ask, b.bestBid = some bid ∧ b.bestAsk = some ask ∧ bid < ask
  /-- Every level that is shown has a quantity. -/
  positive : ∀ side n, ∀ x ∈ b.topLevels side n, 0 < x.qty
  /-- The levels are shown best price first, no price twice. -/
  monotone : ∀ side n, (b.topLevels side n).Pairwise fun x y =>
    better (side = .buy) x.price y.price = true
  /-- If both sides show a level, the microprice is defined for the quotes. -/
  microprice : ∀ out, (b.topLevels .buy kMaxSignalDepth).length ≠ 0 →
    (b.topLevels .sell kMaxSignalDepth).length ≠ 0 →
    let quotes := setQuotes (b.topLevels .buy kMaxSignalDepth) (b.topLevels .sell kMaxSignalDepth)
      out
    MicropricePre quotes.bestBid quotes.bidQty quotes.bestAsk quotes.askQty

/-! ## One side -/

section Side

variable {isBid : Bool} {h : Heap} {m : MapLevels} {s : List Shelf}

/-- A sum of positive quantities is positive. -/
theorem queueQty_pos {q : List OrderRef} (hne : q ≠ [])
    (hpos : ∀ o ∈ q, 0 < (h o).quantity) : 0 < PriceLevel.queueQty h q := by
  unfold PriceLevel.queueQty
  refine List.sum_pos _ (fun x hx => ?_) fun hnil => hne (List.map_eq_nil_iff.mp hnil)
  obtain ⟨o, ho, rfl⟩ := List.mem_map.mp hx
  exact hpos o ho

/-- The total of a shelf is positive. -/
theorem Shelf.Ok.totalQty_pos {x : Shelf} (hx : x.Ok isBid h) : 0 < x.level.totalQty := by
  rw [hx.queued.total]
  exact queueQty_pos hx.nonempty hx.positive

/-- The prices of the shelves, best first. -/
theorem SideOk.prices_sorted (hside : SideOk isBid h m s) :
    s.Pairwise fun x y => better isBid x.price y.price = true := by
  have hsorted := hside.sorted
  rw [hside.entries, OrderedMap.Sorted, List.pairwise_map] at hsorted
  exact hsorted

/-- A shelf has an order at its price. -/
theorem SideOk.exists_order (hside : SideOk isBid h m s) {x : Shelf} (hx : x ∈ s) :
    ∃ r ∈ viewOf h s, r.price = x.price := by
  have hok := hside.shelves x hx
  obtain ⟨o, ho⟩ := List.exists_mem_of_ne_nil _ hok.nonempty
  exact ⟨restingOf h o, List.mem_map_of_mem (mem_slots.mpr ⟨x, hx, ho⟩), hok.prices o ho⟩

end Side

section Books

variable {poolCapacity windowSize : Nat} {b : OrderBook poolCapacity windowSize}
  {mb : MapOrderBook poolCapacity} {sb sa : List Shelf}

/-- The levels of a side that are shown, with their shelves. -/
theorem Lockstep.topLevels_side (hvalid : ValidWindow windowSize) (hlock : Lockstep b mb sb sa)
    (side : Side) (n : Nat) :
    ∃ m s, SideOk (side = .buy) mb.engine.heap m s ∧
      b.topLevels side n = (s.take n).map fun x => ⟨x.price, x.level.totalQty⟩ := by
  have htop := (hlock.topLevels_eq hvalid side n).1
  by_cases hbuy : side = .buy
  · rw [if_pos hbuy] at htop
    rw [decide_eq_true hbuy]
    exact ⟨mb.bids, sb, hlock.map.bids, htop⟩
  · rw [if_neg hbuy] at htop
    rw [decide_eq_false hbuy]
    exact ⟨mb.asks, sa, hlock.map.asks, htop⟩

/-- Shelves of a valid book do not cross. -/
theorem Lockstep.shelf_lt (hvalid : ValidWindow windowSize) (hlock : Lockstep b mb sb sa)
    (hv : b.resting.Valid) {x y : Shelf} (hx : x ∈ sb) (hy : y ∈ sa) : x.price < y.price := by
  rw [hlock.resting_eq hvalid] at hv
  obtain ⟨r, hr, hrprice⟩ := hlock.map.bids.exists_order hx
  obtain ⟨t, ht, htprice⟩ := hlock.map.asks.exists_order hy
  rw [← hrprice, ← htprice]
  exact hv.bid_lt_ask hr ht

/-- A valid book in lockstep is not crossed. -/
theorem Lockstep.uncrossed (hvalid : ValidWindow windowSize) (hlock : Lockstep b mb sb sa)
    (hv : b.resting.Valid) : Uncrossed b := by
  have hpos : ∀ side n, ∀ x ∈ b.topLevels side n, 0 < x.qty := by
    intro side n x hx
    obtain ⟨m, s, hside, htop⟩ := hlock.topLevels_side hvalid side n
    rw [htop] at hx
    obtain ⟨y, hy, rfl⟩ := List.mem_map.mp hx
    exact (hside.shelves y (List.mem_of_mem_take hy)).totalQty_pos
  refine ⟨fun hbids hasks => ?_, hpos, fun side n => ?_, fun out hnb hna => ?_⟩
  · rw [hlock.resting_eq hvalid] at hbids hasks
    rw [hlock.bestBid_eq.1, hlock.bestAsk_eq.1]
    -- the first shelves are the best ones, and the best bid is below the best ask
    cases sb with
    | nil => exact absurd rfl hbids
    | cons x sb =>
        cases sa with
        | nil => exact absurd rfl hasks
        | cons y sa =>
            exact ⟨x.price, y.price, rfl, rfl,
              hlock.shelf_lt hvalid hv (List.mem_cons_self ..) (List.mem_cons_self ..)⟩
  · obtain ⟨m, s, hside, htop⟩ := hlock.topLevels_side hvalid side n
    rw [htop, List.pairwise_map]
    exact hside.prices_sorted.sublist (List.take_sublist _ _)
  · have hbid := hpos .buy kMaxSignalDepth
    have hask := hpos .sell kMaxSignalDepth
    have hb : b.topLevels .buy kMaxSignalDepth =
        (sb.take kMaxSignalDepth).map fun x => ⟨x.price, x.level.totalQty⟩ :=
      (hlock.topLevels_eq hvalid .buy kMaxSignalDepth).1
    have ha : b.topLevels .sell kMaxSignalDepth =
        (sa.take kMaxSignalDepth).map fun x => ⟨x.price, x.level.totalQty⟩ :=
      (hlock.topLevels_eq hvalid .sell kMaxSignalDepth).1
    cases sb with
    | nil =>
        rw [hb] at hnb
        exact absurd rfl hnb
    | cons x sb =>
        cases sa with
        | nil =>
            rw [ha] at hna
            exact absurd rfl hna
        | cons y sa =>
            rw [hb] at hbid
            rw [ha] at hask
            rw [hb, ha]
            exact ⟨hlock.shelf_lt hvalid hv (List.mem_cons_self ..) (List.mem_cons_self ..),
              hbid _ (List.mem_cons_self ..), hask _ (List.mem_cons_self ..)⟩

end Books

/-- After every run the book is not crossed. What rests in it is what price-time priority leaves of
the calls. -/
theorem run_uncrossed {poolCapacity windowSize : Nat} (hvalid : ValidWindow windowSize)
    (cs : List Call) (hcs : ∀ c ∈ cs, c.InRange windowSize) :
    ∃ history b,
      OrderBook.run [] ({} : OrderBook poolCapacity windowSize) cs = .ok (history, b) ∧
      RestingBook.run poolCapacity [] {} cs = (history, b.resting) ∧ Uncrossed b := by
  obtain ⟨history, b, mb, sb, sa, hrun, hbook, hlock, hv, -⟩ := run_ok hvalid cs hcs
  exact ⟨history, b, hrun, hbook, hlock.uncrossed hvalid hv⟩

/-- A bid that moves the window away from another one, a crossing ask that leaves a remainder, and
the microprice of what is left. -/
theorem run_uncrossed_remainder :
    ∃ history b,
      OrderBook.run [] ({} : OrderBook 4 64) [.add 1 .buy 100 5 0, .add 2 .buy 300 5 0,
        .add 3 .sell 200 7 0] = .ok (history, b) ∧
      b.bestBid = some 100 ∧ b.bestAsk = some 200 ∧ Uncrossed b := by
  obtain ⟨history, b, hrun, -, hun⟩ := @run_uncrossed 4 64 ⟨⟨6, rfl⟩, by decide⟩
    [.add 1 .buy 100 5 0, .add 2 .buy 300 5 0, .add 3 .sell 200 7 0] (by decide)
  have hquotes : (OrderBook.run [] ({} : OrderBook 4 64) [.add 1 .buy 100 5 0,
      .add 2 .buy 300 5 0, .add 3 .sell 200 7 0]).map (fun r => (r.2.bestBid, r.2.bestAsk)) =
      .ok (some 100, some 200) := by decide +kernel
  rw [hrun] at hquotes
  have h := Prod.mk.inj (Except.ok.inj hquotes)
  exact ⟨history, b, hrun, h.1, h.2, hun⟩

end LimitOrderBook
