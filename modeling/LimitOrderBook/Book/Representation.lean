import LimitOrderBook.Book.Runs
import LimitOrderBook.Level.SharedHeap

/-!
# The representation of the whole book

`RepInv` puts the pool, the id map, the ladders and the queues together: the orders that the links
lead to and the free slots make up the pool, the id map leads to exactly these orders, each stands
in the ladder of its side at the level of its price, and each level is a queue with the right
total. It holds after every sequence of feed messages, which do to the resting orders what
`RestingBook.applyAll` says.

`run_within_capacity` is about the room that the book reserves in advance: it is enough at every
point of every run.
-/

namespace LimitOrderBook

open LevelLadder (Represents)

open PriceLevel

namespace OrderBook

variable {poolCapacity windowSize : Nat}

/-- The levels of one side. -/
def levels (b : OrderBook poolCapacity windowSize) : Bool → List PriceLevel
  | true => b.bids.forEachLevel
  | false => b.asks.forEachLevel

/-- The level that a side finds at a price. -/
def findLevel (b : OrderBook poolCapacity windowSize) (isBid : Bool) (p : Price) :
    Option PriceLevel :=
  match isBid with
  | true => (b.bids.find p).map b.bids.get
  | false => (b.asks.find p).map b.asks.get

/-- The slots that the links of all levels lead to. -/
def linkedSlots (b : OrderBook poolCapacity windowSize) : List OrderRef :=
  (b.levels true ++ b.levels false).flatMap b.slotsOf

/-- A sequence of feed messages. -/
def applyMessages (b : OrderBook poolCapacity windowSize) :
    List FeedMessage → Result (OrderBook poolCapacity windowSize)
  | [] => pure b
  | msg :: msgs => do
      let b ← b.applyMessage msg
      applyMessages b msgs

end OrderBook

/-- The call that a message stands for, if its type is known. -/
def FeedMessage.call? (msg : FeedMessage) : Option Call :=
  if msg.type = .addOrder then some (.add msg.id msg.side msg.price msg.qty msg.ts)
  else if msg.type = .cancelOrder then some (.cancel msg.id)
  else none

/-- The resting orders after a message. -/
def RestingBook.apply (capacity : Nat) (b : RestingBook) (msg : FeedMessage) : RestingBook :=
  match msg.call? with
  | some c => (b.call capacity c).2
  | none => b

/-- The resting orders after a sequence of messages, by price-time priority. -/
def RestingBook.applyAll (capacity : Nat) (b : RestingBook) (msgs : List FeedMessage) :
    RestingBook :=
  msgs.foldl (RestingBook.apply capacity) b

/-- The representation invariant. -/
structure RepInv {poolCapacity windowSize : Nat} (b : OrderBook poolCapacity windowSize) :
    Prop where
  /-- The slots that the links lead to and the free ones make up the pool. -/
  slots : (b.linkedSlots ++ b.engine.pool.freeList).Perm (List.range poolCapacity)
  /-- The id map leads from the id of each of these orders to its slot, and from no other id. -/
  idMap : ∀ id o, b.engine.idMap.find id = some o ↔
    o ∈ b.linkedSlots ∧ (b.engine.heap o).id = id
  /-- The id map has one entry for each of these orders. -/
  size : b.engine.idMap.size = b.linkedSlots.length
  /-- Their ids are distinct. -/
  ids : (b.linkedSlots.map fun o => (b.engine.heap o).id).Nodup
  /-- Each order has a quantity and stands on its side, at the level of its price. -/
  orders : ∀ isBid, ∀ level ∈ b.levels isBid, ∀ o ∈ b.slotsOf level,
    0 < (b.engine.heap o).quantity ∧ ((b.engine.heap o).side = .buy ↔ isBid = true) ∧
      (b.engine.heap o).price = level.price
  /-- Each level is the one that the ladder finds at its price. -/
  home : ∀ isBid, ∀ level ∈ b.levels isBid, b.findLevel isBid level.price = some level
  /-- The links of each level spell out its queue, which is not empty. -/
  queues : ∀ isBid, ∀ level ∈ b.levels isBid,
    b.slotsOf level ≠ [] ∧ Queued b.engine.heap level (b.slotsOf level)

/-- The levels of both sides share the heap, and the free slots are in none of their queues, so
that each of them may be pushed to any level. -/
theorem RepInv.sharedQueues {poolCapacity windowSize : Nat}
    {b : OrderBook poolCapacity windowSize} (hinv : RepInv b) :
    Queues b.engine.heap (b.levels true ++ b.levels false).get
        (fun i => b.slotsOf ((b.levels true ++ b.levels false).get i)) ∧
      ∀ o ∈ b.engine.pool.freeList, ∀ i,
        o ∉ b.slotsOf ((b.levels true ++ b.levels false).get i) := by
  have hnodup := hinv.slots.nodup_iff.mpr List.nodup_range
  obtain ⟨hlinked, _, hfree⟩ := List.nodup_append.mp hnodup
  have hpairs := (List.nodup_flatMap.mp hlinked).2
  rw [List.pairwise_iff_get] at hpairs
  refine ⟨⟨fun i => ?_, fun i j hij => ?_⟩, fun o ho i hmem => ?_⟩
  · rcases List.mem_append.mp (List.get_mem _ i) with hlevel | hlevel
    · exact (hinv.queues true _ hlevel).2
    · exact (hinv.queues false _ hlevel).2
  · rcases lt_or_gt_of_ne hij with hlt | hgt
    · exact hpairs i j hlt
    · exact List.disjoint_symm (hpairs j i hgt)
  · exact hfree o (List.mem_flatMap.mpr ⟨_, List.get_mem _ i, hmem⟩) o ho rfl

/-! ## One side -/

section Side

variable {isBid : Bool} {windowSize poolCapacity : Nat}
  {l : LevelLadder isBid windowSize poolCapacity} {m : MapLevels} {h : Heap} {s : List Shelf}

/-- The levels of a ladder, in some order. -/
theorem forEachLevel_shelves (hvalid : ValidWindow windowSize) (hrep : Represents l (priced m))
    (hside : SideOk isBid h m s) :
    (s.map fun x => withPrice x.price x.level).Perm l.forEachLevel := by
  have hperm := hrep.perm hvalid
  rw [priced, hside.entries, List.map_map, List.map_map] at hperm
  exact hperm

/-- What the ladder finds at the price of one of its levels. -/
theorem find_shelves (hvalid : ValidWindow windowSize) (hrep : Represents l (priced m))
    {level : PriceLevel} (hlevel : level ∈ l.forEachLevel) :
    (l.find level.price).map l.get = some level := by
  obtain ⟨⟨p, level'⟩, hmem, rfl⟩ := List.mem_map.mp ((hrep.perm hvalid).mem_iff.mpr hlevel)
  have hprice : level'.price = p := hrep.price_eq hmem
  have hlookup := (hrep.sorted.find_eq_some (better_strict isBid)).mpr hmem
  rcases hrep.find hvalid p with ⟨-, hnone⟩ | ⟨r, hfind, -, -, hsome⟩
  · rw [hnone] at hlookup
    cases hlookup
  · rw [hsome] at hlookup
    rw [hprice, hfind, Option.map_some, hlookup]

/-- The orders of a level of a ladder. -/
theorem orders_shelf (hside : SideOk isBid h m s) {x : Shelf} (hx : x ∈ s) {bound : Nat}
    (hlen : (slots s).length ≤ bound) : (withPrice x.price x.level).orders h bound = x.queue := by
  refine orders_eq ((hside.shelves x hx).queued.of_fields rfl rfl rfl) (le_trans ?_ hlen)
  obtain ⟨a, b, rfl⟩ := List.append_of_mem hx
  rw [slots_append, slots_cons, List.length_append, List.length_append]
  omega

end Side

section Books

variable {poolCapacity windowSize : Nat} {b : OrderBook poolCapacity windowSize}
  {mb : MapOrderBook poolCapacity} {sb sa : List Shelf}

/-- The levels of a side are its shelves. -/
theorem Lockstep.shelf_of_mem (hvalid : ValidWindow windowSize) (hlock : Lockstep b mb sb sa)
    {isBid : Bool} {level : PriceLevel} (hlevel : level ∈ b.levels isBid) :
    ∃ x ∈ if isBid then sb else sa, Shelf.Ok isBid b.engine.heap x ∧
      level = withPrice x.price x.level ∧ b.slotsOf level = x.queue ∧
      b.findLevel isBid level.price = some level := by
  have hlen := hlock.length_le
  rw [hlock.sim.engine]
  unfold OrderBook.slotsOf
  rw [hlock.sim.engine]
  cases isBid with
  | true =>
      have hperm := forEachLevel_shelves hvalid hlock.sim.bids hlock.map.bids
      obtain ⟨x, hx, rfl⟩ := List.mem_map.mp (hperm.mem_iff.mpr hlevel)
      exact ⟨x, hx, hlock.map.bids.shelves x hx, rfl, orders_shelf hlock.map.bids hx (by omega),
        find_shelves hvalid hlock.sim.bids hlevel⟩
  | false =>
      have hperm := forEachLevel_shelves hvalid hlock.sim.asks hlock.map.asks
      obtain ⟨x, hx, rfl⟩ := List.mem_map.mp (hperm.mem_iff.mpr hlevel)
      exact ⟨x, hx, hlock.map.asks.shelves x hx, rfl, orders_shelf hlock.map.asks hx (by omega),
        find_shelves hvalid hlock.sim.asks hlevel⟩

/-- The slots that the links lead to are those on the shelves. -/
theorem Lockstep.linkedSlots_perm (hvalid : ValidWindow windowSize)
    (hlock : Lockstep b mb sb sa) : b.linkedSlots.Perm (slots sb ++ slots sa) := by
  have hlen := hlock.length_le
  have hbids := (forEachLevel_shelves hvalid hlock.sim.bids hlock.map.bids).flatMap_right b.slotsOf
  have hasks := (forEachLevel_shelves hvalid hlock.sim.asks hlock.map.asks).flatMap_right b.slotsOf
  have hsb : (sb.map fun x => withPrice x.price x.level).flatMap b.slotsOf = slots sb := by
    rw [List.flatMap_map]
    refine List.flatMap_congr fun x hx => ?_
    rw [OrderBook.slotsOf, hlock.sim.engine]
    exact orders_shelf hlock.map.bids hx (by omega)
  have hsa : (sa.map fun x => withPrice x.price x.level).flatMap b.slotsOf = slots sa := by
    rw [List.flatMap_map]
    refine List.flatMap_congr fun x hx => ?_
    rw [OrderBook.slotsOf, hlock.sim.engine]
    exact orders_shelf hlock.map.asks hx (by omega)
  rw [hsb] at hbids
  rw [hsa] at hasks
  rw [OrderBook.linkedSlots, List.flatMap_append]
  exact (hbids.append hasks).symm

/-- A book in lockstep satisfies the representation invariant. -/
theorem Lockstep.repInv (hvalid : ValidWindow windowSize) (hlock : Lockstep b mb sb sa) :
    RepInv b := by
  have hperm := hlock.linkedSlots_perm hvalid
  have hengine := hlock.map.engine.perm hperm.symm
  rw [← hlock.sim.engine] at hengine
  refine ⟨hengine.slots, fun id o => hengine.find_eq_some, hengine.size, hengine.ids, ?_, ?_, ?_⟩
  · intro isBid level hlevel o ho
    obtain ⟨x, -, hok, rfl, hslots, -⟩ := hlock.shelf_of_mem hvalid hlevel
    rw [hslots] at ho
    exact ⟨hok.positive o ho, hok.sides o ho, hok.prices o ho⟩
  · intro isBid level hlevel
    obtain ⟨x, -, -, -, -, hfind⟩ := hlock.shelf_of_mem hvalid hlevel
    exact hfind
  · intro isBid level hlevel
    obtain ⟨x, -, hok, rfl, hslots, -⟩ := hlock.shelf_of_mem hvalid hlevel
    rw [hslots]
    exact ⟨hok.nonempty, hok.queued.of_fields rfl rfl rfl⟩

/-- A message does to the resting orders what `RestingBook.apply` does. -/
theorem applyMessage_refines (hvalid : ValidWindow windowSize) (hlock : Lockstep b mb sb sa)
    {msg : FeedMessage} (hmsg : msg.type = .addOrder → PriceInRange windowSize msg.price) :
    ∃ b' mb' sb' sa', b.applyMessage msg = .ok b' ∧
      b'.resting = b.resting.apply poolCapacity msg ∧ Lockstep b' mb' sb' sa' := by
  unfold OrderBook.applyMessage RestingBook.apply FeedMessage.call?
  split
  · next hadd =>
      obtain ⟨b', mb', sb', sa', hcall, hbook, -, hlock'⟩ := call_refines hvalid hlock
        (c := .add msg.id msg.side msg.price msg.qty msg.ts) (hmsg hadd)
      obtain ⟨⟨accepted, b₁⟩, hrun, heq⟩ := bind_eq_ok.mp hcall
      obtain rfl := (Prod.mk.inj (Except.ok.inj heq)).2
      exact ⟨b₁, mb', sb', sa', by rw [hrun]; rfl, hbook, hlock'⟩
  · split
    · obtain ⟨b', mb', sb', sa', hcall, hbook, -, hlock'⟩ := call_refines hvalid hlock
        (c := .cancel msg.id) trivial
      obtain ⟨⟨found, b₁⟩, hrun, heq⟩ := bind_eq_ok.mp hcall
      obtain rfl := (Prod.mk.inj (Except.ok.inj heq)).2
      exact ⟨b₁, mb', sb', sa', by rw [hrun]; rfl, hbook, hlock'⟩
    · exact ⟨b, mb, sb, sa, rfl, rfl, hlock⟩

/-- Messages do to the resting orders what `RestingBook.applyAll` does. -/
theorem applyMessages_refines (hvalid : ValidWindow windowSize) (hlock : Lockstep b mb sb sa)
    (msgs : List FeedMessage)
    (hmsgs : ∀ msg ∈ msgs, msg.type = .addOrder → PriceInRange windowSize msg.price) :
    ∃ b' mb' sb' sa', b.applyMessages msgs = .ok b' ∧
      b'.resting = b.resting.applyAll poolCapacity msgs ∧ Lockstep b' mb' sb' sa' := by
  induction msgs generalizing b mb sb sa with
  | nil => exact ⟨b, mb, sb, sa, rfl, rfl, hlock⟩
  | cons msg msgs ih =>
      obtain ⟨b₁, mb₁, sb₁, sa₁, hrun, hbook, hlock₁⟩ := applyMessage_refines hvalid hlock
        (hmsgs msg (by simp))
      obtain ⟨b', mb', sb', sa', hrun', hbook', hlock'⟩ := ih hlock₁ fun msg hmsg =>
        hmsgs msg (by simp [hmsg])
      refine ⟨b', mb', sb', sa', ?_, ?_, hlock'⟩
      · rw [OrderBook.applyMessages, hrun, ok_bind, hrun']
      · rw [hbook', hbook]
        rfl

end Books

/-- The representation invariant holds after every sequence of feed messages. -/
theorem applyMessages_repInv {poolCapacity windowSize : Nat} (hvalid : ValidWindow windowSize)
    (msgs : List FeedMessage)
    (hmsgs : ∀ msg ∈ msgs, msg.type = .addOrder → PriceInRange windowSize msg.price) :
    ∃ b, OrderBook.applyMessages ({} : OrderBook poolCapacity windowSize) msgs = .ok b ∧
      RepInv b := by
  obtain ⟨b, mb, sb, sa, hrun, -, hlock⟩ := applyMessages_refines hvalid
    (fresh_lockstep : Lockstep ({} : OrderBook poolCapacity windowSize) {} [] []) msgs hmsgs
  exact ⟨b, hrun, hlock.repInv hvalid⟩

/-- Two asks at one price and a bid that fills one of them and part of the other, a message of no
known type, and a cancel. -/
theorem applyMessages_repInv_partial_fill :
    ∃ b, OrderBook.applyMessages ({} : OrderBook 3 64) [⟨.addOrder, .sell, 1, 100, 5, 0⟩,
        ⟨.addOrder, ⟨7⟩, 2, 100, 5, 0⟩, ⟨.addOrder, .buy, 3, 101, 7, 0⟩, ⟨⟨9⟩, .buy, 4, 0, 1, 0⟩,
        ⟨.cancelOrder, .buy, 3, 0, 0, 0⟩] = .ok b ∧ RepInv b :=
  applyMessages_repInv ⟨⟨6, rfl⟩, by decide⟩ [⟨.addOrder, .sell, 1, 100, 5, 0⟩,
    ⟨.addOrder, ⟨7⟩, 2, 100, 5, 0⟩, ⟨.addOrder, .buy, 3, 101, 7, 0⟩, ⟨⟨9⟩, .buy, 4, 0, 1, 0⟩,
    ⟨.cancelOrder, .buy, 3, 0, 0, 0⟩] (by decide)

/-! ## The room reserved in advance -/

section Capacity

variable {poolCapacity windowSize : Nat}

/-- The entries of the id map and of the free list fit into the room reserved for them, and the id
map is at most half full. -/
structure WithinCapacity (b : OrderBook poolCapacity windowSize) : Prop where
  idMap : b.engine.idMap.size ≤ poolCapacity
  halfFull : 2 * poolCapacity ≤ idMapCapacity poolCapacity
  freeList : b.engine.pool.freeList.length ≤ poolCapacity

/-- The tail of a side has room for one more level when `findOrInsert` runs on it. -/
def TailRoom {isBid : Bool} (l : LevelLadder isBid windowSize poolCapacity) (price : Price) :
    Prop :=
  ∃ l', l.followTop price = .ok l' ∧ l'.tail.n < poolCapacity

/-- A side with fewer orders than there are slots has room in its tail: each level has an order. -/
theorem tailRoom_shelves {isBid : Bool} {l : LevelLadder isBid windowSize poolCapacity}
    {m : MapLevels} {h : Heap} {s : List Shelf} (hvalid : ValidWindow windowSize)
    (hrep : Represents l (priced m)) (hside : SideOk isBid h m s)
    (hlen : (slots s).length < poolCapacity) {price : Price}
    (hprice : PriceInRange windowSize price) : TailRoom l price := by
  have hshelves := hside.length_le
  have hsize : l.size = s.length := by
    rw [hrep.size_eq hvalid, priced, List.length_map, hside.entries, List.length_map]
  obtain ⟨l', htop, -, -, hsize', -⟩ := LevelLadder.followTop_spec hrep.wellFormed hvalid hprice
    (by omega)
  have hcount : l'.size = l'.windowCount + l'.tail.n := rfl
  exact ⟨l', htop, by omega⟩

variable {b : OrderBook poolCapacity windowSize} {mb : MapOrderBook poolCapacity}
  {sb sa : List Shelf}

/-- A book in lockstep is within its capacities. -/
theorem Lockstep.withinCapacity (hlock : Lockstep b mb sb sa) : WithinCapacity b := by
  have hlen := hlock.map.engine.length_eq
  have hsize := hlock.map.engine.size
  rw [← hlock.sim.engine] at hlen hsize
  rw [List.length_nil] at hlen
  exact ⟨by omega, two_mul_le_idMapCapacity poolCapacity, by omega⟩

/-- Matching an order does not touch its own side. -/
theorem matchIncoming_own {o : OrderRef} {b₁ : OrderBook poolCapacity windowSize}
    (hmatch : b.matchIncoming o = .ok b₁) :
    ((b.engine.heap o).side = .buy → b₁.bids = b.bids) ∧
      ((b.engine.heap o).side ≠ .buy → b₁.asks = b.asks) := by
  refine ⟨fun hbuy => ?_, fun hsell => ?_⟩
  · rw [OrderBook.matchIncoming, if_pos hbuy] at hmatch
    obtain ⟨r, -, heq⟩ := bind_eq_ok.mp hmatch
    cases heq
    rfl
  · rw [OrderBook.matchIncoming, if_neg hsell] at hmatch
    obtain ⟨r, -, heq⟩ := bind_eq_ok.mp hmatch
    cases heq
    rfl

/-- When the remainder of an order is about to rest, the tail of its side has room: the order holds
one of the slots itself, and matching it has not touched its side. -/
theorem matchIncoming_tailRoom (hvalid : ValidWindow windowSize) (hlock : Lockstep b mb sb sa)
    {id : OrderId} {side : Side} {price : Price} {qty : Quantity} {ts : Nanos}
    (hprice : PriceInRange windowSize price) (hnew : b.engine.idMap.find id = none)
    {o : OrderRef} {pool : MemoryPool Order poolCapacity}
    (halloc : b.engine.pool.allocate ⟨id, side, price, qty, ts, none, none⟩ = some (o, pool)) :
    ∃ b₁, OrderBook.matchIncoming { b with engine := { b.engine with pool := pool } } o =
        .ok b₁ ∧
      (side = .buy → TailRoom b₁.bids price) ∧ (side ≠ .buy → TailRoom b₁.asks price) := by
  obtain ⟨hfree, hstorage⟩ := MemoryPool.allocate_eq_some halloc
  have hroom : (slots sb).length + (slots sa).length < poolCapacity := by
    have hlen := hlock.map.engine.length_eq
    rw [← hlock.sim.engine, hfree] at hlen
    simp only [List.length_nil, List.length_append, List.length_singleton] at hlen
    omega
  have hbids : TailRoom b.bids price :=
    tailRoom_shelves hvalid hlock.sim.bids hlock.map.bids (by omega) hprice
  have hasks : TailRoom b.asks price :=
    tailRoom_shelves hvalid hlock.sim.asks hlock.map.asks (by omega) hprice
  have hside : (pool.storage o).side = side := by rw [hstorage, Function.update_self]
  -- the call as a whole succeeds, so matching does
  have hrun : ∃ r, b.addOrder id side price qty ts = .ok r := by
    rcases addOrder_refines hvalid hlock id side qty ts hprice with
      ⟨-, hrun⟩ | ⟨-, -, hrun, -⟩ | ⟨_, _, _, _, -, -, hrun, -⟩
    · exact ⟨_, hrun⟩
    · exact ⟨_, hrun⟩
    · exact ⟨_, hrun⟩
  obtain ⟨r, hrun⟩ := hrun
  rw [OrderBook.addOrder, hnew, halloc, if_neg (by simp)] at hrun
  obtain ⟨b₁, hmatch, -⟩ := bind_eq_ok.mp hrun
  have hown := matchIncoming_own hmatch
  refine ⟨b₁, hmatch, fun hbuy => ?_, fun hsell => ?_⟩
  · rw [hown.1 (hside.trans hbuy)]
    exact hbids
  · rw [hown.2 fun hbuy => hsell (hside.symm.trans hbuy)]
    exact hasks

end Capacity

/-- The room reserved in advance is enough. A run never faults: no assertion on the capacity of a
tail, of its staging slots or of the id map fails, and neither the id map nor the free list grows
beyond its share. After every run the book is within its capacities, and when the remainder of a
further order is about to rest, the tail of its side has room for its level. -/
theorem run_within_capacity {poolCapacity windowSize : Nat} (hvalid : ValidWindow windowSize)
    (cs : List Call) (hcs : ∀ c ∈ cs, c.InRange windowSize) :
    ∃ history b,
      OrderBook.run [] ({} : OrderBook poolCapacity windowSize) cs = .ok (history, b) ∧
      WithinCapacity b ∧
      ∀ id side price qty ts o pool, PriceInRange windowSize price →
        b.engine.idMap.find id = none →
        b.engine.pool.allocate ⟨id, side, price, qty, ts, none, none⟩ = some (o, pool) →
        ∃ b₁, OrderBook.matchIncoming { b with engine := { b.engine with pool := pool } } o =
            .ok b₁ ∧
          (side = .buy → TailRoom b₁.bids price) ∧ (side ≠ .buy → TailRoom b₁.asks price) := by
  obtain ⟨history, b, mb, sb, sa, hrun, -, hlock, -, -⟩ := run_ok hvalid cs hcs
  refine ⟨history, b, hrun, hlock.withinCapacity, ?_⟩
  intro id side price qty ts o pool hprice hnew halloc
  exact matchIncoming_tailRoom hvalid hlock hprice hnew halloc

/-- A full pool, with a bid far below the window and one that moves the window away from the
others. -/
theorem run_within_capacity_full_pool :
    ∃ history b,
      OrderBook.run [] ({} : OrderBook 3 64) [.add 1 .buy 1000 5 0, .add 2 .buy 0 5 0,
        .add 3 .buy 5000 5 0, .add 4 .buy 6000 5 0] = .ok (history, b) ∧ WithinCapacity b := by
  obtain ⟨history, b, hrun, hwithin, -⟩ := @run_within_capacity 3 64 ⟨⟨6, rfl⟩, by decide⟩
    [.add 1 .buy 1000 5 0, .add 2 .buy 0 5 0, .add 3 .buy 5000 5 0, .add 4 .buy 6000 5 0]
    (by decide)
  exact ⟨history, b, hrun, hwithin⟩

end LimitOrderBook
