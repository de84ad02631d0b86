import LimitOrderBook.Book.Engine
import LimitOrderBook.Ladder.Model

/-!
# The order book

`OrderBook` of `order_book.hpp`: one ladder for each side over the shared order pool, the id map
and the fills. Feed messages reach it through `apply_message` of `feed_replay.hpp`.

The two branches of the source for the two sides differ in the ladder and in the direction of the
comparison only, and are one definition with the side as a parameter.
-/

namespace LimitOrderBook

/-- The orders the book has refused. -/
structure BookStats where
  poolExhausted : UInt64 := 0
  duplicateId : UInt64 := 0
  deriving DecidableEq, Repr

/-- The order book. -/
structure OrderBook (poolCapacity windowSize : Nat) where
  bids : LevelLadder true windowSize poolCapacity := {}
  asks : LevelLadder false windowSize poolCapacity := {}
  engine : Engine poolCapacity := {}
  stats : BookStats := {}

namespace OrderBook

variable {poolCapacity windowSize : Nat}

/-- The loop of `match` over one side, with `fuel` iterations left. -/
def matchLoop {isBid : Bool} (incoming : OrderRef) :
    Nat → Engine poolCapacity → LevelLadder isBid windowSize poolCapacity →
      Result (Engine poolCapacity × LevelLadder isBid windowSize poolCapacity)
  | 0, _, _ => .error .unfinished
  | fuel + 1, e, levels =>
      if (e.heap incoming).quantity > 0 then
        match levels.best with
        | none => pure (e, levels)
        | some best =>
            let price := (levels.get best).price
            if worse isBid price (e.heap incoming).price then pure (e, levels)
            else do
              let (e, level) ← Engine.matchAgainstLevel incoming price
                (Engine.loopBound poolCapacity) e (levels.get best)
              let levels := levels.put best level
              matchLoop incoming fuel e (if level.empty then levels.eraseLevel best else levels)
      else pure (e, levels)

/-- `match`. -/
def matchIncoming (b : OrderBook poolCapacity windowSize) (incoming : OrderRef) :
    Result (OrderBook poolCapacity windowSize) :=
  if (b.engine.heap incoming).side = .buy then do
    let (e, asks) ← matchLoop incoming (Engine.loopBound poolCapacity) b.engine b.asks
    pure { b with engine := e, asks := asks }
  else do
    let (e, bids) ← matchLoop incoming (Engine.loopBound poolCapacity) b.engine b.bids
    pure { b with engine := e, bids := bids }

/-- `levels.level_for_insert(o->price).push_back(o)`. -/
def pushTo {isBid : Bool} (e : Engine poolCapacity)
    (levels : LevelLadder isBid windowSize poolCapacity) (o : OrderRef) :
    Result (Engine poolCapacity × LevelLadder isBid windowSize poolCapacity) := do
  let (levels, r) ← levels.levelForInsert (e.heap o).price
  let (h, level) := (levels.get r).pushBack e.heap o
  pure (e.setHeap h, levels.put r level)

/-- The part of `add_order` that puts the remainder on its side. -/
def pushRemainder (b : OrderBook poolCapacity windowSize) (o : OrderRef) :
    Result (OrderBook poolCapacity windowSize) :=
  if (b.engine.heap o).side = .buy then do
    let (e, bids) ← pushTo b.engine b.bids o
    pure { b with engine := e, bids := bids }
  else do
    let (e, asks) ← pushTo b.engine b.asks o
    pure { b with engine := e, asks := asks }

/-- The second part of `add_order`: the remainder rests on the book. -/
def rest (b : OrderBook poolCapacity windowSize) (o : OrderRef) :
    Result (OrderBook poolCapacity windowSize) :=
  if (b.engine.heap o).quantity > 0 then do
    let b ← b.pushRemainder o
    let e ← b.engine.insertId (b.engine.heap o).id o
    pure { b with engine := e }
  else do
    let e ← b.engine.release o
    pure { b with engine := e }

/-- `add_order`. Returns whether the order was accepted. -/
def addOrder (b : OrderBook poolCapacity windowSize) (id : OrderId) (side : Side) (price : Price)
    (qty : Quantity) (ts : Nanos) : Result (Bool × OrderBook poolCapacity windowSize) :=
  if (b.engine.idMap.find id).isSome then
    pure (false, { b with stats := { b.stats with duplicateId := b.stats.duplicateId + 1 } })
  else
    match b.engine.pool.allocate ⟨id, side, price, qty, ts, none, none⟩ with
    | none =>
        pure (false,
          { b with stats := { b.stats with poolExhausted := b.stats.poolExhausted + 1 } })
    | some (o, pool) => do
        let b ← matchIncoming { b with engine := { b.engine with pool := pool } } o
        let b ← b.rest o
        pure (true, b)

/-- `remove_from_book`: unlink the order, and drop its level if that empties it. -/
def removeFromBook {isBid : Bool} (e : Engine poolCapacity)
    (levels : LevelLadder isBid windowSize poolCapacity) (o : OrderRef) :
    Option (Engine poolCapacity × LevelLadder isBid windowSize poolCapacity) :=
  match levels.find (e.heap o).price with
  | none => none
  | some r =>
      let (h, level) := (levels.get r).remove e.heap o
      let levels := levels.put r level
      some (e.setHeap h, if level.empty then levels.eraseLevel r else levels)

/-- `cancel_order`. Returns whether the id was known. -/
def cancelOrder (b : OrderBook poolCapacity windowSize) (id : OrderId) :
    Result (Bool × OrderBook poolCapacity windowSize) :=
  match b.engine.idMap.find id with
  | none => pure (false, b)
  | some o =>
      let removed :=
        if (b.engine.heap o).side = .buy then
          (removeFromBook b.engine b.bids o).map fun (e, bids) =>
            { b with engine := e, bids := bids }
        else
          (removeFromBook b.engine b.asks o).map fun (e, asks) =>
            { b with engine := e, asks := asks }
      match removed with
      | none => pure (false, b)
      | some b => do
          let e ← (b.engine.eraseId id).release o
          pure (true, { b with engine := e })

/-! ## Views -/

/-- `best_bid`. -/
def bestBid (b : OrderBook poolCapacity windowSize) : Option Price :=
  b.bids.best.map fun r => (b.bids.get r).price

/-- `best_ask`. -/
def bestAsk (b : OrderBook poolCapacity windowSize) : Option Price :=
  b.asks.best.map fun r => (b.asks.get r).price

/-- `copy_top`. -/
def copyTop {isBid : Bool} (levels : LevelLadder isBid windowSize poolCapacity) (maxLevels : Nat) :
    List LevelQty :=
  (levels.forEachBest maxLevels).map fun level => ⟨level.price, level.totalQty⟩

/-- `top_levels`. -/
def topLevels (b : OrderBook poolCapacity windowSize) (side : Side) (maxLevels : Nat) :
    List LevelQty :=
  if side = .buy then copyTop b.bids maxLevels else copyTop b.asks maxLevels

/-- `total_resting_qty`. -/
def totalRestingQty (b : OrderBook poolCapacity windowSize) : Quantity :=
  let total := b.bids.forEachLevel.foldl (fun total level => total + level.totalQty) 0
  b.asks.forEachLevel.foldl (fun total level => total + level.totalQty) total

end OrderBook

/-! ## Feed messages -/

/-- The type of a message. The source's enumeration has a byte as its underlying type, so every
byte is a message type. -/
structure MsgType where
  byte : UInt8
  deriving DecidableEq, Repr

/-- `MsgType::AddOrder`. -/
def MsgType.addOrder : MsgType := ⟨1⟩

/-- `MsgType::CancelOrder`. -/
def MsgType.cancelOrder : MsgType := ⟨2⟩

/-- A feed message. -/
structure FeedMessage where
  type : MsgType
  side : Side
  id : OrderId
  price : Price
  qty : Quantity
  ts : Nanos
  deriving DecidableEq, Repr

/-- `apply_message`: any other type of message is ignored. -/
def OrderBook.applyMessage {poolCapacity windowSize : Nat}
    (b : OrderBook poolCapacity windowSize) (msg : FeedMessage) :
    Result (OrderBook poolCapacity windowSize) :=
  if msg.type = .addOrder then do
    let (_, b) ← b.addOrder msg.id msg.side msg.price msg.qty msg.ts
    pure b
  else if msg.type = .cancelOrder then do
    let (_, b) ← b.cancelOrder msg.id
    pure b
  else pure b

end LimitOrderBook
