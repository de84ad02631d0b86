import LimitOrderBook.Book.Simulation

/-!
# The order book refines the resting book

`OrderBook.resting` reads the resting orders off the state of the book: it visits the levels of
each ladder best price first and follows the links of each queue. `Lockstep` is the invariant that
every operation keeps. `addOrder_refines` and `cancelOrder_refines` say what the operations do to
the resting orders.
-/

namespace LimitOrderBook

open LinkedQueue

open LevelLadder (Represents)

open PriceLevel

/-! ## Following the links -/

/-- The orders that the forward links lead to, at most `n` of them. -/
def followLinks (h : Heap) : Nat → Option OrderRef → List OrderRef
  | 0, _ => []
  | _ + 1, none => []
  | n + 1, some o => o :: followLinks h n (h o).next

/-- Following the links of a queue. -/
theorem followLinks_linked {h : Heap} {q : List OrderRef} {n : Nat} {p : Option OrderRef}
    (hlinked : Linked (prevOf h) (nextOf h) p q none) (hn : q.length ≤ n) :
    followLinks h n q.head? = q := by
  induction q generalizing n p with
  | nil => cases n <;> rfl
  | cons o q ih =>
      rw [List.length_cons] at hn
      obtain ⟨n, rfl⟩ := Nat.exists_eq_add_one_of_ne_zero (show n ≠ 0 by omega)
      obtain ⟨-, hnext, hrest⟩ := hlinked
      rw [Option.or_none] at hnext
      show o :: followLinks h n (h o).next = o :: q
      rw [show (h o).next = q.head? from hnext, ih hrest (by omega)]

/-- The orders of a level, first come first. -/
def PriceLevel.orders (h : Heap) (bound : Nat) (level : PriceLevel) : List OrderRef :=
  followLinks h bound level.head

/-- The orders of a level are its queue. -/
theorem orders_eq {h : Heap} {level : PriceLevel} {q : List OrderRef} {bound : Nat}
    (hq : Queued h level q) (hn : q.length ≤ bound) : level.orders h bound = q := by
  rw [orders, hq.head_eq]
  exact followLinks_linked hq.linked hn

namespace OrderBook

variable {poolCapacity windowSize : Nat}

/-- The slots of the orders of a level. The bound leaves room for one order more than there
can be. -/
def slotsOf (b : OrderBook poolCapacity windowSize) (level : PriceLevel) : List OrderRef :=
  level.orders b.engine.heap (poolCapacity + 1)

/-- The slots of the orders of a side, in the order in which they trade. -/
def sideSlots (b : OrderBook poolCapacity windowSize) : Bool → List OrderRef
  | true => (b.bids.forEachBest (windowSize + poolCapacity)).flatMap b.slotsOf
  | false => (b.asks.forEachBest (windowSize + poolCapacity)).flatMap b.slotsOf

/-- The resting orders. -/
def resting (b : OrderBook poolCapacity windowSize) : RestingBook :=
  ⟨(b.sideSlots true).map (restingOf b.engine.heap),
    (b.sideSlots false).map (restingOf b.engine.heap)⟩

end OrderBook

/-! ## One side -/

section Side

variable {isBid : Bool} {windowSize poolCapacity : Nat}
  {l : LevelLadder isBid windowSize poolCapacity} {m : MapLevels} {h : Heap} {s : List Shelf}

/-- The levels of the ladder, best price first. -/
theorem forEachBest_shelves (hvalid : ValidWindow windowSize) (hrep : Represents l (priced m))
    (hside : SideOk isBid h m s) (n : Nat) :
    l.forEachBest n = (s.map fun x => withPrice x.price x.level).take n := by
  rw [hrep.forEachBest hvalid, priced, hside.entries, List.map_map, List.map_map]
  rfl

/-- The orders of the levels of the ladder are those on the shelves. -/
theorem flatMap_orders (hvalid : ValidWindow windowSize) (hrep : Represents l (priced m))
    (hside : SideOk isBid h m s) (hlen : (slots s).length ≤ poolCapacity) :
    (l.forEachBest (windowSize + poolCapacity)).flatMap
      (PriceLevel.orders h (poolCapacity + 1)) = slots s := by
  have hshelves := hside.length_le
  rw [forEachBest_shelves hvalid hrep hside,
    List.take_of_length_le (by rw [List.length_map]; omega),
    List.flatMap_map]
  refine List.flatMap_congr fun x hx => ?_
  have hqueue : x.queue.length ≤ (slots s).length := by
    obtain ⟨a, b, rfl⟩ := List.append_of_mem hx
    rw [slots_append, slots_cons, List.length_append, List.length_append]
    omega
  exact orders_eq ((hside.shelves x hx).queued.of_fields rfl rfl rfl) (by omega)

/-- The price of the best level is that of the first shelf. -/
theorem bestPrice_shelves (hrep : Represents l (priced m)) (hside : SideOk isBid h m s) :
    (l.best.map fun r => (l.get r).price) = s.head?.map Shelf.price := by
  have hentries := hside.entries
  cases s with
  | nil =>
      rw [hentries] at hrep
      rw [best_priced_nil hrep]
      rfl
  | cons x s =>
      rw [hentries] at hrep
      obtain ⟨r, hbest, -, hget⟩ := best_priced hrep
      rw [hbest, Option.map_some, hget]
      rfl

/-- The depth of a side, as far as it is shown. -/
theorem copyTop_shelves (hvalid : ValidWindow windowSize) (hrep : Represents l (priced m))
    (hside : SideOk isBid h m s) (n : Nat) :
    OrderBook.copyTop l n = (s.take n).map fun x => ⟨x.price, x.level.totalQty⟩ := by
  rw [OrderBook.copyTop, forEachBest_shelves hvalid hrep hside, ← List.map_take, List.map_map]
  rfl

/-- The depth of a side of the map-backed book, as far as it is shown. -/
theorem map_copyTop_shelves (hside : SideOk isBid h m s) (n : Nat) :
    MapOrderBook.copyTop m n = (s.take n).map fun x => ⟨x.price, x.level.totalQty⟩ := by
  rw [MapOrderBook.copyTop, hside.entries, ← List.map_take, List.map_map]
  rfl

/-- Adding up totals one after the other. -/
theorem foldl_totalQty {α : Type} (f : α → PriceLevel) (xs : List α) (total : Quantity) :
    xs.foldl (fun total x => total + (f x).totalQty) total =
      total + (xs.map fun x => (f x).totalQty).sum := by
  induction xs generalizing total with
  | nil => exact (Int.add_zero total).symm
  | cons x xs ih =>
      rw [List.foldl_cons, ih, List.map_cons, List.sum_cons]
      lia

/-- The total of a shelf is the sum of its orders. -/
theorem sum_totalQty_shelves (hside : SideOk isBid h m s) :
    (s.map fun x => x.level.totalQty).sum = ((viewOf h s).map Resting.qty).sum := by
  have hqueued : ∀ x ∈ s, Queued h x.level x.queue := fun x hx => (hside.shelves x hx).queued
  clear hside
  induction s with
  | nil => rfl
  | cons x s ih =>
      have hs := ih fun y hy => hqueued y (by simp [hy])
      have hx := (hqueued x (by simp)).total
      have hqueue : queueQty h x.queue = ((x.queue.map (restingOf h)).map Resting.qty).sum := by
        rw [queueQty, List.map_map]
        rfl
      rw [List.map_cons, List.sum_cons, hs, hx, hqueue, viewOf, viewOf, slots_cons, List.map_append,
        List.map_append, List.sum_append]

/-- Adding up the totals of a ladder. -/
theorem foldl_forEachLevel (hvalid : ValidWindow windowSize) (hrep : Represents l (priced m))
    (hside : SideOk isBid h m s) (total : Quantity) :
    l.forEachLevel.foldl (fun total level => total + level.totalQty) total =
      total + ((viewOf h s).map Resting.qty).sum := by
  have hperm := (hrep.perm hvalid).map PriceLevel.totalQty
  have hfold := foldl_totalQty (fun level => level) l.forEachLevel total
  rw [hfold, ← sum_totalQty_shelves hside]
  show total + (l.forEachLevel.map PriceLevel.totalQty).sum = _
  rw [← hperm.sum_eq, priced, hside.entries, List.map_map, List.map_map, List.map_map]
  rfl

/-- Adding up the totals of a map. -/
theorem foldl_entries (hside : SideOk isBid h m s) (total : Quantity) :
    m.foldl (fun total e => total + e.2.totalQty) total =
      total + ((viewOf h s).map Resting.qty).sum := by
  rw [foldl_totalQty Prod.snd, ← sum_totalQty_shelves hside, hside.entries, List.map_map]
  rfl

end Side

/-! ## The invariant -/

/-- The order book simulates a map-backed book that is in order. -/
structure Lockstep {poolCapacity windowSize : Nat} (b : OrderBook poolCapacity windowSize)
    (mb : MapOrderBook poolCapacity) (sb sa : List Shelf) : Prop where
  sim : Sim b mb
  map : MapOk mb sb sa

section Books

variable {poolCapacity windowSize : Nat} {b : OrderBook poolCapacity windowSize}
  {mb : MapOrderBook poolCapacity} {sb sa : List Shelf}

/-- The fresh books. -/
theorem fresh_lockstep :
    Lockstep ({} : OrderBook poolCapacity windowSize) ({} : MapOrderBook poolCapacity) [] [] :=
  ⟨fresh_sim, fresh_mapOk⟩

namespace Lockstep

/-- There are at most as many resting orders as slots. -/
theorem length_le (hlock : Lockstep b mb sb sa) :
    (slots sb).length + (slots sa).length ≤ poolCapacity := by
  have hlen := hlock.map.engine.length_eq
  rw [List.length_nil, List.length_append] at hlen
  omega

/-- The bids, in the order in which they trade. -/
theorem sideSlots_true (hvalid : ValidWindow windowSize) (hlock : Lockstep b mb sb sa) :
    b.sideSlots true = slots sb := by
  have hlen := hlock.length_le
  show (b.bids.forEachBest (windowSize + poolCapacity)).flatMap
    (PriceLevel.orders b.engine.heap (poolCapacity + 1)) = _
  rw [hlock.sim.engine]
  exact flatMap_orders hvalid hlock.sim.bids hlock.map.bids (by omega)

/-- The asks, in the order in which they trade. -/
theorem sideSlots_false (hvalid : ValidWindow windowSize) (hlock : Lockstep b mb sb sa) :
    b.sideSlots false = slots sa := by
  have hlen := hlock.length_le
  show (b.asks.forEachBest (windowSize + poolCapacity)).flatMap
    (PriceLevel.orders b.engine.heap (poolCapacity + 1)) = _
  rw [hlock.sim.engine]
  exact flatMap_orders hvalid hlock.sim.asks hlock.map.asks (by omega)

/-- The resting orders are those on the shelves. -/
theorem resting_eq (hvalid : ValidWindow windowSize) (hlock : Lockstep b mb sb sa) :
    b.resting = bookView mb.engine.heap sb sa := by
  rw [OrderBook.resting, hlock.sideSlots_true hvalid, hlock.sideSlots_false hvalid,
    hlock.sim.engine]
  rfl

/-- The best bid. -/
theorem bestBid_eq (hlock : Lockstep b mb sb sa) :
    b.bestBid = sb.head?.map Shelf.price ∧ mb.bestBid = sb.head?.map Shelf.price := by
  refine ⟨bestPrice_shelves hlock.sim.bids hlock.map.bids, ?_⟩
  rw [MapOrderBook.bestBid, hlock.map.bids.entries, List.head?_map, Option.map_map]
  rfl

/-- The best ask. -/
theorem bestAsk_eq (hlock : Lockstep b mb sb sa) :
    b.bestAsk = sa.head?.map Shelf.price ∧ mb.bestAsk = sa.head?.map Shelf.price := by
  refine ⟨bestPrice_shelves hlock.sim.asks hlock.map.asks, ?_⟩
  rw [MapOrderBook.bestAsk, hlock.map.asks.entries, List.head?_map, Option.map_map]
  rfl

/-- The depth of a side. -/
theorem topLevels_eq (hvalid : ValidWindow windowSize) (hlock : Lockstep b mb sb sa) (side : Side)
    (n : Nat) :
    b.topLevels side n =
        ((if side = .buy then sb else sa).take n).map (fun x => ⟨x.price, x.level.totalQty⟩) ∧
      mb.topLevels side n = b.topLevels side n := by
  rw [OrderBook.topLevels, MapOrderBook.topLevels]
  split
  · rw [copyTop_shelves hvalid hlock.sim.bids hlock.map.bids, map_copyTop_shelves hlock.map.bids]
    exact ⟨rfl, rfl⟩
  · rw [copyTop_shelves hvalid hlock.sim.asks hlock.map.asks, map_copyTop_shelves hlock.map.asks]
    exact ⟨rfl, rfl⟩

/-- The total quantity is the sum of all resting orders. -/
theorem totalRestingQty_eq (hvalid : ValidWindow windowSize) (hlock : Lockstep b mb sb sa) :
    b.totalRestingQty = (b.resting.all.map Resting.qty).sum ∧
      mb.totalRestingQty = b.totalRestingQty := by
  have hb : b.totalRestingQty = (b.resting.all.map Resting.qty).sum := by
    rw [OrderBook.totalRestingQty, foldl_forEachLevel hvalid hlock.sim.bids hlock.map.bids,
      foldl_forEachLevel hvalid hlock.sim.asks hlock.map.asks, hlock.resting_eq hvalid,
      RestingBook.all, List.map_append, List.sum_append, Int.zero_add]
    rfl
  refine ⟨hb, ?_⟩
  rw [hb, MapOrderBook.totalRestingQty, foldl_entries hlock.map.bids, foldl_entries hlock.map.asks,
    hlock.resting_eq hvalid, RestingBook.all, List.map_append, List.sum_append, Int.zero_add]
  rfl

/-- The slots that are not in use are free. -/
theorem available_eq (hvalid : ValidWindow windowSize) (hlock : Lockstep b mb sb sa) :
    b.resting.all.length + b.engine.pool.available = poolCapacity := by
  have hlen := hlock.map.engine.length_eq
  rw [List.length_nil, Nat.zero_add] at hlen
  rw [hlock.resting_eq hvalid, length_bookView, hlock.sim.engine]
  exact hlen

end Lockstep

/-- Counting a refused order changes nothing else. -/
theorem Lockstep.setStats (hlock : Lockstep b mb sb sa) (stats : BookStats) :
    Lockstep { b with stats := stats } mb sb sa :=
  ⟨⟨hlock.sim.engine, hlock.sim.bids, hlock.sim.asks⟩, hlock.map⟩

/-- What `addOrder` does: an id that rests already is refused, then an order for which there is no
slot, and any other order is added as `RestingBook.add` does. -/
theorem addOrder_refines (hvalid : ValidWindow windowSize) (hlock : Lockstep b mb sb sa)
    (id : OrderId) (side : Side) {price : Price} (qty : Quantity) (ts : Nanos)
    (hprice : PriceInRange windowSize price) :
    ((∃ r ∈ b.resting.all, r.id = id) ∧
        b.addOrder id side price qty ts = .ok (false,
          { b with stats := { b.stats with duplicateId := b.stats.duplicateId + 1 } })) ∨
      ((∀ r ∈ b.resting.all, r.id ≠ id) ∧ b.resting.all.length = poolCapacity ∧
        b.addOrder id side price qty ts = .ok (false,
          { b with stats := { b.stats with poolExhausted := b.stats.poolExhausted + 1 } }) ∧
        mb.addOrder id side price qty ts = .ok mb) ∨
      ∃ b' mb' sb' sa', (∀ r ∈ b.resting.all, r.id ≠ id) ∧
        b.resting.all.length < poolCapacity ∧
        b.addOrder id side price qty ts = .ok (true, b') ∧
        mb.addOrder id side price qty ts = .ok mb' ∧ Lockstep b' mb' sb' sa' ∧
        b'.resting = b.resting.add (side = .buy) id price qty ∧
        b'.engine.fills = b.engine.fills ++
          (b.resting.sweepOf (side = .buy) id price qty).fills ∧
        b'.stats = b.stats := by
  have hlen := hlock.length_le
  have hengine := hlock.sim.engine
  rw [hlock.resting_eq hvalid]
  unfold OrderBook.addOrder
  rw [hengine]
  cases hfind : mb.engine.idMap.find id with
  | some o =>
      exact Or.inl ⟨hlock.map.find_isSome.mp (by rw [hfind]; rfl), rfl⟩
  | none =>
      have hnew : ∀ r ∈ (bookView mb.engine.heap sb sa).all, r.id ≠ id :=
        hlock.map.find_eq_none.mp hfind
      refine Or.inr ?_
      -- a full pool refuses the order before anything else happens
      rcases allocate_add_spec hlock.map ⟨id, side, price, qty, ts, none, none⟩ hnew with
        ⟨hfull, hnone⟩ | ⟨o, pool, mb', sb', sa', hlt, halloc, ho, hadds, hok', hview, hfills⟩
      · refine Or.inl ⟨hnew, hfull, ?_, ?_⟩
        · rw [hnone]
          rfl
        · rw [MapOrderBook.addOrder, hnone]
          rfl
      · rw [length_bookView, List.length_append] at hlt
        have hsb := hlock.map.bids.length_le
        have hsa := hlock.map.asks.length_le
        have hbids : mb.bids.length = sb.length := by rw [hlock.map.bids.entries, List.length_map]
        have hasks : mb.asks.length = sa.length := by rw [hlock.map.asks.entries, List.length_map]
        -- the order is in the pool now, and the ladders do not look at the pool
        have hsim₀ : Sim { b with engine := { mb.engine with pool := pool } }
            { mb with engine := { mb.engine with pool := pool } } :=
          ⟨rfl, hlock.sim.bids, hlock.sim.asks⟩
        have hprice₀ : PriceInRange windowSize (pool.storage o).price := by
          rw [ho]
          exact hprice
        obtain ⟨b', hrun, hsim', hstats⟩ := hadds.sim hvalid hsim₀ hprice₀
          (show mb.bids.length < poolCapacity by omega)
          (show mb.asks.length < poolCapacity by omega)
        have hlock' : Lockstep b' mb' sb' sa' := ⟨hsim', hok'⟩
        refine Or.inr ⟨b', mb', sb', sa', hnew, ?_, ?_, ?_, hlock', ?_, ?_, hstats⟩
        · rw [length_bookView, List.length_append]
          exact hlt
        · rw [halloc, if_neg (by simp)]
          show (OrderBook.matchIncoming { b with engine := { mb.engine with pool := pool } } o >>=
            fun b => b.rest o >>= fun b => pure (true, b)) = _
          rw [← bind_assoc, hrun]
          rfl
        · rw [MapOrderBook.addOrder, halloc]
          exact hadds.run
        · rw [hlock'.resting_eq hvalid, hview]
        · rw [hsim'.engine, hfills]

/-- An order that is accepted is added to the resting book. -/
theorem Lockstep.accepted (hvalid : ValidWindow windowSize) (hlock : Lockstep b mb sb sa)
    {id : OrderId} {side : Side} {price : Price} {qty : Quantity} {ts : Nanos}
    {b₁ : OrderBook poolCapacity windowSize} (hprice : PriceInRange windowSize price)
    (hadd : b.addOrder id side price qty ts = .ok (true, b₁)) :
    ∃ mb' sb' sa', Lockstep b₁ mb' sb' sa' ∧
      b₁.resting = b.resting.add (side = .buy) id price qty ∧
      b₁.engine.fills = b.engine.fills ++
        (b.resting.sweepOf (side = .buy) id price qty).fills := by
  rcases addOrder_refines hvalid hlock id side qty ts hprice with
    ⟨-, hrun⟩ | ⟨-, -, hrun, -⟩ | ⟨b', mb', sb', sa', -, -, hrun, -, hlock', hbook, hfills, -⟩
  · rw [hrun] at hadd
    cases hadd
  · rw [hrun] at hadd
    cases hadd
  · rw [hrun] at hadd
    cases hadd
    exact ⟨mb', sb', sa', hlock', hbook, hfills⟩

/-- What `cancelOrder` does: an id that no resting order has is refused, and any other order
leaves the book as in `RestingBook.cancel`. -/
theorem cancelOrder_refines (hvalid : ValidWindow windowSize) (hlock : Lockstep b mb sb sa)
    (id : OrderId) :
    ((∀ r ∈ b.resting.all, r.id ≠ id) ∧ b.cancelOrder id = .ok (false, b) ∧
        mb.cancelOrder id = .ok (false, mb)) ∨
      ∃ b' mb' sb' sa', (∃ r ∈ b.resting.all, r.id = id) ∧
        b.cancelOrder id = .ok (true, b') ∧ mb.cancelOrder id = .ok (true, mb') ∧
        Lockstep b' mb' sb' sa' ∧ b'.resting = b.resting.cancel id ∧
        b'.engine.fills = b.engine.fills ∧ b'.stats = b.stats := by
  rw [hlock.resting_eq hvalid]
  rcases cancelOrder_spec hlock.map id with
    ⟨hnew, hfind, hrun⟩ | ⟨mb', sb', sa', hex, -, hrun, hok', hview, hfills⟩
  · refine Or.inl ⟨hnew, ?_, hrun⟩
    rw [OrderBook.cancelOrder, hlock.sim.engine, hfind]
    rfl
  · obtain ⟨b', hrun', hsim', hstats⟩ := cancelOrder_sim hvalid hlock.sim hrun
    have hlock' : Lockstep b' mb' sb' sa' := ⟨hsim', hok'⟩
    refine Or.inr ⟨b', mb', sb', sa', hex, hrun', hrun, hlock', ?_, ?_, hstats⟩
    · rw [hlock'.resting_eq hvalid, hview]
    · rw [hsim'.engine, hlock.sim.engine, hfills]

end Books

end LimitOrderBook
