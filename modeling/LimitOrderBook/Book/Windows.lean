import LimitOrderBook.Book.Representation
import LimitOrderBook.Ladder.TopOfBook
import LimitOrderBook.Signals.Depth

/-!
# The windows over a history

The window of a side moves when an order comes to rest there whose price is outside it, if no order
of the side is in it or the price is better than its centre. So where the windows are depends on the
calls alone: on the orders that rest, and on the price that each window was last centred on
(`RestingBook.centresAfter`). After every call the windows of the order book are there
(`call_centres`).
-/

namespace LimitOrderBook

/-! ## Windows and resting orders -/

/-- The price is in the window that is centred on `q`. -/
def inWindowOf (windowSize : Nat) (q p : Price) : Bool :=
  decide (q - (windowSize / 2 : Nat) ≤ p) && decide (p < q + (windowSize / 2 : Nat))

/-- Whether an order that comes to rest at `p` moves the window of its side, on which the orders
`own` rest. The window was last centred on `centre`, if there is one. -/
def recentres (isBid : Bool) (windowSize : Nat) (centre : Option Price) (own : List Resting)
    (p : Price) : Bool :=
  match centre with
  | none => true
  | some q =>
      !inWindowOf windowSize q p &&
        (own.all (fun r => !inWindowOf windowSize q r.price) || better isBid p q)

namespace RestingBook

/-- The side and the price at which the call leaves something to rest. -/
def comesToRest (capacity : Nat) (b : RestingBook) : Call → Option (Bool × Price)
  | .add id side price qty _ =>
      if b.rests id = false ∧ b.all.length < capacity ∧
          0 < (b.sweepOf (side = .buy) id price qty).left then some (side = .buy, price)
      else none
  | .cancel _ => none

/-- The prices that the windows of both sides were last centred on, after a call. -/
def centresAfter (capacity windowSize : Nat) (b : RestingBook) (centres : Bool → Option Price)
    (c : Call) : Bool → Option Price :=
  match b.comesToRest capacity c with
  | none => centres
  | some (s, p) =>
      if recentres s windowSize (centres s) (b.side s) p then Function.update centres s (some p)
      else centres

end RestingBook

/-- The prices that the windows of both sides were last centred on. -/
def OrderBook.centres {poolCapacity windowSize : Nat} (b : OrderBook poolCapacity windowSize) :
    Bool → Option Price
  | true => b.bids.centre?
  | false => b.asks.centre?

/-- An insert at the price moves the window of the side. -/
def OrderBook.MovesWindow {poolCapacity windowSize : Nat} (b : OrderBook poolCapacity windowSize)
    (s : Bool) (p : Price) : Prop :=
  match s with
  | true => b.bids.Moves p
  | false => b.asks.Moves p

section Sides

variable {isBid : Bool} {poolCapacity windowSize : Nat} {e e' : Engine poolCapacity}
  {l l' : LevelLadder isBid windowSize poolCapacity} {m : MapLevels} {s : List Shelf} {h : Heap}
  {incoming o : OrderRef}

/-- The levels of a ladder are those of the shelves. -/
theorem exists_shelf (hrep : LevelLadder.Represents l (priced m))
    (hside : SideOk isBid h m s) {level : PriceLevel} (hlive : l.Live level) :
    ∃ x ∈ s, level.price = x.price ∧ level.totalQty = x.level.totalQty := by
  have hmem := (hrep.mem level.price level).mpr ⟨hlive, rfl⟩
  rw [priced, hside.entries, List.map_map] at hmem
  obtain ⟨x, hx, heq⟩ := List.mem_map.mp hmem
  exact ⟨x, hx, congrArg Prod.fst heq.symm, congrArg (fun e => PriceLevel.totalQty e.2) heq.symm⟩

/-- The window is empty if and only if none of the orders of the side is in it. -/
theorem windowCount_eq_zero_iff_resting (hvalid : ValidWindow windowSize)
    (hrep : LevelLadder.Represents l (priced m)) (hside : SideOk isBid h m s) :
    l.windowCount = 0 ↔ ∀ r ∈ viewOf h s, l.inWindow r.price = false := by
  rw [LevelLadder.windowCount_eq_zero_iff hrep.wellFormed hvalid]
  constructor
  · intro hnone r hr
    obtain ⟨x, hx, hprice⟩ := hside.price_of_mem hr
    have hmem : (x.price, withPrice x.price x.level) ∈ priced m := by
      rw [priced, hside.entries, List.map_map]
      exact List.mem_map_of_mem hx
    rw [hprice]
    exact hnone _ ((hrep.mem _ _).mp hmem).1
  · intro hnone level hlive
    obtain ⟨x, hx, hprice, -⟩ := exists_shelf hrep hside hlive
    obtain ⟨r, hr, hrprice⟩ := hside.exists_order hx
    rw [hprice, ← hrprice]
    exact hnone r hr

/-- What the ladder tests is whether the resting orders and the last centre say so. -/
theorem moves_iff_recentres (hvalid : ValidWindow windowSize)
    (hrep : LevelLadder.Represents l (priced m)) (hside : SideOk isBid h m s) (p : Price) :
    l.Moves p ↔ recentres isBid windowSize l.centre? (viewOf h s) p = true := by
  have hwf := hrep.wellFormed
  have hhalf := hvalid.half
  rw [LevelLadder.moves_iff hwf, windowCount_eq_zero_iff_resting hvalid hrep hside]
  unfold LevelLadder.centre? recentres
  cases hanch : l.anchored with
  | false =>
      have hout : ∀ q, l.inWindow q = false := fun q => by simp [LevelLadder.inWindow, hanch]
      refine iff_of_true ⟨fun hin => ?_, Or.inl fun r _ => hout r.price⟩ rfl
      have hanch' := hin.1
      rw [hanch] at hanch'
      cases hanch'
  | true =>
      have hin : ∀ q, inWindowOf windowSize l.centre q = l.inWindow q := by
        intro q
        rw [Bool.eq_iff_iff, LevelLadder.inWindow_iff hwf, inWindowOf, LevelLadder.centre, hanch,
          Bool.and_eq_true, decide_eq_true_iff, decide_eq_true_iff, and_iff_right rfl]
        exact and_congr (by lia) (by lia)
      have hrange : l.InRange p ↔ l.inWindow p = true := (LevelLadder.inWindow_iff hwf p).symm
      simp only [if_true, hin, Bool.and_eq_true, Bool.or_eq_true, Bool.not_eq_true',
        List.all_eq_true, hrange, Bool.not_eq_true]
      refine and_congr_right fun hout => or_congr_right ?_
      -- a price outside the window is beyond its better edge if it is better than its centre
      rw [← Bool.not_eq_true, LevelLadder.inWindow_iff hwf, hanch] at hout
      unfold LevelLadder.BeyondBetter better LevelLadder.centre
      have hpos := hvalid.2
      cases isBid <;> simp only [Bool.false_eq_true, if_false, if_true, decide_eq_true_eq] <;> lia

/-- The loop over a side does not move its window. -/
theorem matchLoop_centre {fuel : Nat}
    (hrun : OrderBook.matchLoop incoming fuel e l = .ok (e', l')) : l'.centre? = l.centre? := by
  induction fuel generalizing e l with
  | zero => cases hrun
  | succ fuel ih =>
      rw [OrderBook.matchLoop] at hrun
      split at hrun
      · cases hbest : l.best with
        | none =>
            rw [hbest] at hrun
            cases hrun
            rfl
        | some best =>
            rw [hbest] at hrun
            simp only at hrun
            split at hrun
            · cases hrun
              rfl
            · obtain ⟨result, -, hrun⟩ := bind_eq_ok.mp hrun
              exact (ih hrun).trans (LevelLadder.centre?_write best result.2)
      · cases hrun
        rfl

/-- Taking an order out of its side does not move the window. -/
theorem removeFromBook_centre (hrun : OrderBook.removeFromBook e l o = some (e', l')) :
    l'.centre? = l.centre? := by
  unfold OrderBook.removeFromBook at hrun
  split at hrun
  · cases hrun
  · next r _ =>
      cases hrun
      exact LevelLadder.centre?_write r _

/-- Pushing an order to its level leaves the window where it is or centres it on the price. -/
theorem pushTo_centre (hvalid : ValidWindow windowSize) (hwf : l.WellFormed)
    (hsize : l.size ≤ poolCapacity) (hprice : PriceInRange windowSize (e.heap o).price)
    (hrun : OrderBook.pushTo e l o = .ok (e', l')) :
    (l.Moves (e.heap o).price → l'.centre? = some (e.heap o).price) ∧
      (¬ l.Moves (e.heap o).price → l'.centre? = l.centre?) := by
  obtain ⟨result, hinsert, heq⟩ := bind_eq_ok.mp hrun
  cases heq
  rw [LevelLadder.centre?_put]
  exact LevelLadder.centre?_levelForInsert hwf hvalid hprice hsize hinsert

end Sides

/-! ## An order on its way -/

section Books

variable {poolCapacity windowSize : Nat} {b b' : OrderBook poolCapacity windowSize}
  {mb : MapOrderBook poolCapacity} {sb sa : List Shelf}

/-- The id map knows the ids that rest. -/
theorem Lockstep.rests_eq (hvalid : ValidWindow windowSize) (hlock : Lockstep b mb sb sa)
    (id : OrderId) : b.resting.rests id = (b.engine.idMap.find id).isSome := by
  rw [hlock.resting_eq hvalid, hlock.sim.engine]
  rw [Bool.eq_iff_iff, RestingBook.rests_iff, hlock.map.find_isSome]

/-- There is a slot for a new order unless as many orders rest as there are slots. -/
theorem Lockstep.allocate_isSome (hvalid : ValidWindow windowSize) (hlock : Lockstep b mb sb sa)
    (order : Order) :
    (b.engine.pool.allocate order).isSome = true ↔ b.resting.all.length < poolCapacity := by
  rw [hlock.resting_eq hvalid, hlock.sim.engine, length_bookView]
  rcases hlock.map.engine.allocate order with ⟨hnone, hfull⟩ | ⟨o, pool, halloc, hlt, -⟩
  · rw [hnone]
    exact iff_of_false (by simp) (by omega)
  · rw [halloc]
    exact iff_of_true rfl hlt

/-- An order has a slot but does not rest. -/
structure Pending (b : OrderBook poolCapacity windowSize) (mb : MapOrderBook poolCapacity)
    (sb sa : List Shelf) (o : OrderRef) : Prop where
  sim : Sim b mb
  bids : SideOk true mb.engine.heap mb.bids sb
  asks : SideOk false mb.engine.heap mb.asks sa
  engine : EngineOk mb.engine [o] (slots sb ++ slots sa)

/-- An order that has just got its slot. -/
theorem Lockstep.pending (hvalid : ValidWindow windowSize) (hlock : Lockstep b mb sb sa)
    {order : Order} {o : OrderRef} {pool : MemoryPool Order poolCapacity}
    (halloc : b.engine.pool.allocate order = some (o, pool)) :
    Pending { b with engine := { b.engine with pool := pool } }
        { mb with engine := { mb.engine with pool := pool } } sb sa o ∧
      pool.storage o = order ∧ bookView pool.storage sb sa = b.resting := by
  have hsim : Sim { b with engine := { b.engine with pool := pool } }
      { mb with engine := { mb.engine with pool := pool } } := by
    refine ⟨?_, hlock.sim.bids, hlock.sim.asks⟩
    rw [hlock.sim.engine]
  rw [hlock.sim.engine] at halloc
  obtain ⟨hbids, hasks, hok, ho, -, hview⟩ := hlock.map.allocated halloc
  exact ⟨⟨hsim, hbids, hasks, hok⟩, ho, hview.trans (hlock.resting_eq hvalid).symm⟩

/-- Matching leaves of an order what a sweep of the resting orders leaves of it. -/
theorem Pending.matchIncoming {o : OrderRef} (hvalid : ValidWindow windowSize)
    (hpending : Pending b mb sb sa o) {order : Order} (ho : b.engine.heap o = order) :
    ∃ b₁ mb₁ sb₁ sa₁, b.matchIncoming o = .ok b₁ ∧ Pending b₁ mb₁ sb₁ sa₁ o ∧
      b₁.engine.heap o = { order with quantity := ((bookView mb.engine.heap sb sa).sweepOf
        (order.side = .buy) order.id order.price order.quantity).left } := by
  subst ho
  obtain ⟨hsim, hbids, hasks, hok⟩ := hpending
  by_cases hside : (b.engine.heap o).side = .buy
  · obtain ⟨e', asks', sa', hmatch, hbids', hasks', hok', -, -, -, -, hleft⟩ :=
      matchSides_spec hbids hasks (hok.perm List.perm_append_comm)
    obtain ⟨l', hrun, hrep⟩ := matchLoop_sim hvalid hsim.asks hmatch
    refine ⟨{ b with engine := e', asks := l' }, { mb with engine := e', asks := asks' }, sb, sa',
      ?_, ⟨⟨rfl, hsim.bids, hrep⟩, hbids', hasks', hok'.perm List.perm_append_comm⟩, ?_⟩
    · rw [OrderBook.matchIncoming, if_pos hside, hsim.engine, hrun]
      rfl
    · rw [decide_eq_true hside, hsim.engine]
      exact hleft
  · obtain ⟨e', bids', sb', hmatch, hasks', hbids', hok', -, -, -, -, hleft⟩ :=
      matchSides_spec hasks hbids hok
    obtain ⟨l', hrun, hrep⟩ := matchLoop_sim hvalid hsim.bids hmatch
    refine ⟨{ b with engine := e', bids := l' }, { mb with engine := e', bids := bids' }, sb', sa,
      ?_, ⟨⟨rfl, hrep, hsim.asks⟩, hbids', hasks', hok'⟩, ?_⟩
    · rw [OrderBook.matchIncoming, if_neg hside, hsim.engine, hrun]
      rfl
    · rw [decide_eq_false hside, hsim.engine]
      exact hleft

/-- A new order has got a slot and been matched: its own side is as it was, and what is left of it
is what a sweep of the resting orders leaves. -/
theorem Lockstep.matched (hvalid : ValidWindow windowSize) (hlock : Lockstep b mb sb sa)
    {id : OrderId} {side : Side} {price : Price} {qty : Quantity} {ts : Nanos} {o : OrderRef}
    {pool : MemoryPool Order poolCapacity}
    (halloc : b.engine.pool.allocate ⟨id, side, price, qty, ts, none, none⟩ = some (o, pool)) :
    ∃ b₁ mb₁ sb₁ sa₁,
      OrderBook.matchIncoming { b with engine := { b.engine with pool := pool } } o = .ok b₁ ∧
      Pending b₁ mb₁ sb₁ sa₁ o ∧
      b₁.engine.heap o = ⟨id, side, price,
        (b.resting.sweepOf (side = .buy) id price qty).left, ts, none, none⟩ ∧
      (side = .buy → b₁.bids = b.bids) ∧ (side ≠ .buy → b₁.asks = b.asks) := by
  obtain ⟨hpending, ho, hview⟩ := hlock.pending hvalid halloc
  obtain ⟨b₁, mb₁, sb₁, sa₁, hmatch, hpending₁, ho₁⟩ := hpending.matchIncoming hvalid ho
  obtain ⟨hbids, hasks⟩ := matchIncoming_own hmatch
  have hside : (pool.storage o).side = side := by rw [ho]
  rw [← hview]
  exact ⟨b₁, mb₁, sb₁, sa₁, hmatch, hpending₁, ho₁, fun h => hbids (hside.trans h),
    fun h => hasks fun heq => h (hside.symm.trans heq)⟩

/-- A side has fewer levels than there are slots, since the order holds one. -/
theorem Pending.size_lt {o : OrderRef} (hvalid : ValidWindow windowSize)
    (hpending : Pending b mb sb sa o) :
    b.bids.size < poolCapacity ∧ b.asks.size < poolCapacity := by
  have hlen := hpending.engine.length_eq
  rw [List.length_singleton, List.length_append] at hlen
  have hsb := hpending.bids.length_le
  have hsa := hpending.asks.length_le
  rw [hpending.sim.bids.size_eq hvalid, hpending.sim.asks.size_eq hvalid, priced, priced,
    List.length_map, List.length_map, hpending.bids.entries, hpending.asks.entries, List.length_map,
    List.length_map]
  omega

/-! ## Calls -/

/-- What the ladders test is what the resting orders and the last centres say. -/
theorem Lockstep.movesWindow_iff (hvalid : ValidWindow windowSize) (hlock : Lockstep b mb sb sa)
    (s : Bool) (p : Price) :
    b.MovesWindow s p ↔ recentres s windowSize (b.centres s) (b.resting.side s) p = true := by
  rw [hlock.resting_eq hvalid]
  cases s with
  | true => exact moves_iff_recentres hvalid hlock.sim.bids hlock.map.bids p
  | false => exact moves_iff_recentres hvalid hlock.sim.asks hlock.map.asks p

/-- What an order does to the window of its side depends on that side only. -/
theorem movesWindow_own {side : Side} {p : Price} (hbids : side = .buy → b'.bids = b.bids)
    (hasks : side ≠ .buy → b'.asks = b.asks) :
    b'.MovesWindow (side = .buy) p ↔ b.MovesWindow (side = .buy) p := by
  unfold OrderBook.MovesWindow
  by_cases hside : side = .buy
  · rw [decide_eq_true hside, hbids hside]
  · rw [decide_eq_false hside, hasks hside]

/-- Matching does not move a window. -/
theorem matchIncoming_centres {o : OrderRef} (hmatch : b.matchIncoming o = .ok b') :
    b'.centres = b.centres := by
  unfold OrderBook.matchIncoming at hmatch
  split at hmatch
  · obtain ⟨result, hloop, heq⟩ := bind_eq_ok.mp hmatch
    cases heq
    funext s
    cases s with
    | true => rfl
    | false => exact matchLoop_centre hloop
  · obtain ⟨result, hloop, heq⟩ := bind_eq_ok.mp hmatch
    cases heq
    funext s
    cases s with
    | true => exact matchLoop_centre hloop
    | false => rfl

/-- The second part of `add_order` leaves the windows where they are or centres one on the price. -/
theorem Pending.rest_centres {o : OrderRef} (hvalid : ValidWindow windowSize)
    (hpending : Pending b mb sb sa o) (hprice : PriceInRange windowSize (b.engine.heap o).price)
    (hrun : b.rest o = .ok b') {s : Bool} (hs : s = decide ((b.engine.heap o).side = .buy)) :
    (0 < (b.engine.heap o).quantity → b.MovesWindow s (b.engine.heap o).price →
        b'.centres = Function.update b.centres s (some (b.engine.heap o).price)) ∧
      (¬ (0 < (b.engine.heap o).quantity ∧ b.MovesWindow s (b.engine.heap o).price) →
        b'.centres = b.centres) := by
  obtain ⟨hbids, hasks⟩ := hpending.size_lt hvalid
  unfold OrderBook.rest at hrun
  split at hrun
  · next hqty =>
      obtain ⟨b₁, hpush, hrun⟩ := bind_eq_ok.mp hrun
      obtain ⟨e, -, heq⟩ := bind_eq_ok.mp hrun
      cases heq
      unfold OrderBook.pushRemainder at hpush
      split at hpush
      · next hside =>
          obtain ⟨result, hto, heq⟩ := bind_eq_ok.mp hpush
          cases heq
          rw [decide_eq_true hside] at hs
          subst hs
          obtain ⟨hmoved, hstayed⟩ :=
            pushTo_centre hvalid hpending.sim.bids.wellFormed hbids.le hprice hto
          refine ⟨fun _ hmoves => funext fun s => ?_, fun hstays => funext fun s => ?_⟩
          · cases s with
            | true => exact hmoved hmoves
            | false => rfl
          · cases s with
            | true => exact hstayed fun hmoves => hstays ⟨hqty, hmoves⟩
            | false => rfl
      · next hside =>
          obtain ⟨result, hto, heq⟩ := bind_eq_ok.mp hpush
          cases heq
          rw [decide_eq_false hside] at hs
          subst hs
          obtain ⟨hmoved, hstayed⟩ :=
            pushTo_centre hvalid hpending.sim.asks.wellFormed hasks.le hprice hto
          refine ⟨fun _ hmoves => funext fun s => ?_, fun hstays => funext fun s => ?_⟩
          · cases s with
            | true => rfl
            | false => exact hmoved hmoves
          · cases s with
            | true => rfl
            | false => exact hstayed fun hmoves => hstays ⟨hqty, hmoves⟩
  · next hqty =>
      obtain ⟨e, -, heq⟩ := bind_eq_ok.mp hrun
      cases heq
      exact ⟨fun h => absurd h hqty, fun _ => rfl⟩

/-- Where `add_order` leaves the windows. -/
theorem addOrder_centres (hvalid : ValidWindow windowSize) (hlock : Lockstep b mb sb sa)
    {id : OrderId} {side : Side} {price : Price} {qty : Quantity} {ts : Nanos}
    (hprice : PriceInRange windowSize price) {accepted : Bool}
    (hrun : b.addOrder id side price qty ts = .ok (accepted, b')) :
    b'.centres =
      b.resting.centresAfter poolCapacity windowSize b.centres (.add id side price qty ts) := by
  have hknown := hlock.rests_eq hvalid id
  have hroom := hlock.allocate_isSome hvalid ⟨id, side, price, qty, ts, none, none⟩
  unfold OrderBook.addOrder at hrun
  rw [RestingBook.centresAfter, RestingBook.comesToRest]
  cases hfind : b.engine.idMap.find id with
  | some o =>
      rw [hfind] at hrun hknown
      cases hrun
      rw [if_neg fun h => Bool.false_ne_true (h.1.symm.trans hknown)]
      rfl
  | none =>
      rw [hfind] at hrun hknown
      cases halloc : b.engine.pool.allocate ⟨id, side, price, qty, ts, none, none⟩ with
      | none =>
          rw [halloc] at hrun hroom
          cases hrun
          rw [if_neg fun h => Bool.false_ne_true (hroom.mpr h.2.1)]
          rfl
      | some result =>
          obtain ⟨o, pool⟩ := result
          rw [halloc] at hrun hroom
          obtain ⟨b₁, hmatch, hrun⟩ := bind_eq_ok.mp hrun
          obtain ⟨b₂, hrest, heq⟩ := bind_eq_ok.mp hrun
          cases heq
          obtain ⟨b₁', mb₁, sb₁, sa₁, hmatch', hpending, ho, hbids, hasks⟩ :=
            hlock.matched hvalid halloc
          obtain rfl := Except.ok.inj (hmatch.symm.trans hmatch')
          have hcentres : b₁.centres =
              OrderBook.centres { b with engine := { b.engine with pool := pool } } :=
            matchIncoming_centres hmatch
          have hprice₁ : PriceInRange windowSize (b₁.engine.heap o).price := by
            rw [ho]
            exact hprice
          obtain ⟨hmoved, hstayed⟩ := hpending.rest_centres hvalid hprice₁ hrest rfl
          rw [ho] at hmoved hstayed
          rw [movesWindow_own hbids hasks, hcentres, hlock.movesWindow_iff hvalid] at hmoved hstayed
          by_cases hleft : 0 < (b.resting.sweepOf (side = .buy) id price qty).left
          · rw [if_pos ⟨hknown, hroom.mp rfl, hleft⟩]
            show _ = if _ then _ else _
            split
            · next hmove => exact hmoved hleft hmove
            · next hstay => exact hstayed fun h => hstay h.2
          · rw [if_neg fun h => hleft h.2.2]
            exact hstayed fun h => hleft h.1

/-- `cancel_order` does not move a window. -/
theorem cancelOrder_centres {id : OrderId} {found : Bool}
    (hrun : b.cancelOrder id = .ok (found, b')) : b'.centres = b.centres := by
  unfold OrderBook.cancelOrder at hrun
  split at hrun
  · cases hrun
    rfl
  · simp only at hrun
    split at hrun
    · cases hrun
      rfl
    · next b₁ hremoved =>
        obtain ⟨e, -, heq⟩ := bind_eq_ok.mp hrun
        cases heq
        split at hremoved
        · obtain ⟨⟨e₁, l₁⟩, hremove, rfl⟩ := Option.map_eq_some_iff.mp hremoved
          funext s
          cases s with
          | true => exact removeFromBook_centre hremove
          | false => rfl
        · obtain ⟨⟨e₁, l₁⟩, hremove, rfl⟩ := Option.map_eq_some_iff.mp hremoved
          funext s
          cases s with
          | true => rfl
          | false => exact removeFromBook_centre hremove

/-- After a call the windows are where the calls put them. -/
theorem call_centres (hvalid : ValidWindow windowSize) (hlock : Lockstep b mb sb sa) {c : Call}
    (hc : c.InRange windowSize) {ev : Event} (hcall : b.call c = .ok (ev, b')) :
    b'.centres = b.resting.centresAfter poolCapacity windowSize b.centres c := by
  cases c with
  | add id side price qty ts =>
      obtain ⟨⟨accepted, b₁⟩, hrun, heq⟩ := bind_eq_ok.mp hcall
      cases heq
      exact addOrder_centres hvalid hlock hc hrun
  | cancel id =>
      obtain ⟨⟨found, b₁⟩, hrun, heq⟩ := bind_eq_ok.mp hcall
      cases heq
      exact cancelOrder_centres hrun

end Books

end LimitOrderBook
