import LimitOrderBook.Book.Engine
import LimitOrderBook.Ladder.Tail
import LimitOrderBook.Library.OrderedMap

/-!
# The map-backed book

`MapOrderBook` of `map_order_book.hpp`, the reference the order book is tested against. A
`std::map` from prices to levels is the list of its entries in the order of its comparison, so
`begin()` is the first entry; `levels[price]` inserts a default level if there is none.

The two branches of the source for the two sides differ in the map and in the direction of the
comparison only, and are one definition with the side as a parameter.
-/

namespace LimitOrderBook

/-- A `std::map` of price levels, best price first. -/
abbrev MapLevels := List (Price × PriceLevel)

/-- The map-backed book. -/
structure MapOrderBook (poolCapacity : Nat) where
  bids : MapLevels := []
  asks : MapLevels := []
  engine : Engine poolCapacity := {}

namespace MapOrderBook

variable {poolCapacity : Nat}

/-- The loop of `match` over one side, with `fuel` iterations left. -/
def matchLoop (isBid : Bool) (incoming : OrderRef) :
    Nat → Engine poolCapacity → MapLevels → Result (Engine poolCapacity × MapLevels)
  | 0, _, _ => .error .unfinished
  | fuel + 1, e, levels =>
      if (e.heap incoming).quantity > 0 then
        match levels with
        | [] => pure (e, levels)
        | (price, level) :: _ =>
            if worse isBid price (e.heap incoming).price then pure (e, levels)
            else do
              let (e, level) ← Engine.matchAgainstLevel incoming price
                (Engine.loopBound poolCapacity) e level
              let levels := OrderedMap.set levels price level
              matchLoop isBid incoming fuel e
                (if level.empty then OrderedMap.erase levels price else levels)
      else pure (e, levels)

/-- `match`. -/
def matchIncoming (b : MapOrderBook poolCapacity) (incoming : OrderRef) :
    Result (MapOrderBook poolCapacity) :=
  if (b.engine.heap incoming).side = .buy then do
    let (e, asks) ← matchLoop false incoming (Engine.loopBound poolCapacity) b.engine b.asks
    pure { b with engine := e, asks := asks }
  else do
    let (e, bids) ← matchLoop true incoming (Engine.loopBound poolCapacity) b.engine b.bids
    pure { b with engine := e, bids := bids }

/-- `levels[o->price].push_back(o)`. -/
def pushTo (isBid : Bool) (e : Engine poolCapacity) (levels : MapLevels) (o : OrderRef) :
    Engine poolCapacity × MapLevels :=
  let price := (e.heap o).price
  let levels := OrderedMap.touch (better isBid) levels price {}
  let (h, level) := ((OrderedMap.find levels price).getD {}).pushBack e.heap o
  (e.setHeap h, OrderedMap.set levels price level)

/-- The second part of `add_order`: the remainder rests on the book. -/
def rest (b : MapOrderBook poolCapacity) (o : OrderRef) : Result (MapOrderBook poolCapacity) :=
  if (b.engine.heap o).quantity > 0 then do
    let b :=
      if (b.engine.heap o).side = .buy then
        let (e, bids) := pushTo true b.engine b.bids o
        { b with engine := e, bids := bids }
      else
        let (e, asks) := pushTo false b.engine b.asks o
        { b with engine := e, asks := asks }
    let e ← b.engine.insertId (b.engine.heap o).id o
    pure { b with engine := e }
  else do
    let e ← b.engine.release o
    pure { b with engine := e }

/-- `add_order`. -/
def addOrder (b : MapOrderBook poolCapacity) (id : OrderId) (side : Side) (price : Price)
    (qty : Quantity) (ts : Nanos) : Result (MapOrderBook poolCapacity) :=
  match b.engine.pool.allocate ⟨id, side, price, qty, ts, none, none⟩ with
  | none => pure b
  | some (o, pool) => do
      let b ← matchIncoming { b with engine := { b.engine with pool := pool } } o
      b.rest o

/-- `remove_from_book`: unlink the order, and drop its level if that empties it. -/
def removeFromBook (e : Engine poolCapacity) (levels : MapLevels) (o : OrderRef) :
    Option (Engine poolCapacity × MapLevels) :=
  let price := (e.heap o).price
  match OrderedMap.find levels price with
  | none => none
  | some level =>
      let (h, level) := level.remove e.heap o
      let levels := OrderedMap.set levels price level
      some (e.setHeap h, if level.empty then OrderedMap.erase levels price else levels)

/-- `cancel_order`. -/
def cancelOrder (b : MapOrderBook poolCapacity) (id : OrderId) :
    Result (Bool × MapOrderBook poolCapacity) :=
  match b.engine.idMap.find id with
  | none => pure (false, b)
  | some o =>
      let removed :=
        if (b.engine.heap o).side = .buy then
          (removeFromBook b.engine b.bids o).map fun (e, bids) =>
            { b with engine := e, bids := bids }
        else
          (removeFromBook b.engine b.asks o).map fun (e, asks) =>
            { b with engine := e, asks := asks }
      match removed with
      | none => pure (false, b)
      | some b => do
          let e ← (b.engine.eraseId id).release o
          pure (true, { b with engine := e })

/-- `best_bid`. -/
def bestBid (b : MapOrderBook poolCapacity) : Option Price := b.bids.head?.map Prod.fst

/-- `best_ask`. -/
def bestAsk (b : MapOrderBook poolCapacity) : Option Price := b.asks.head?.map Prod.fst

/-- `copy_top`. -/
def copyTop (levels : MapLevels) (maxLevels : Nat) : List LevelQty :=
  (levels.take maxLevels).map fun e => ⟨e.1, e.2.totalQty⟩

/-- `top_levels`. -/
def topLevels (b : MapOrderBook poolCapacity) (side : Side) (maxLevels : Nat) : List LevelQty :=
  if side = .buy then copyTop b.bids maxLevels else copyTop b.asks maxLevels

/-- `total_resting_qty`. -/
def totalRestingQty (b : MapOrderBook poolCapacity) : Quantity :=
  let total := b.bids.foldl (fun total e => total + e.2.totalQty) 0
  b.asks.foldl (fun total e => total + e.2.totalQty) total

end MapOrderBook

end LimitOrderBook
