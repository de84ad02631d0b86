import LimitOrderBook.IdMap.Model
import LimitOrderBook.Level.MemoryPool
import LimitOrderBook.Level.PriceLevel

/-!
# The parts both books share

`OrderBook` of `order_book.hpp` and `MapOrderBook` of `map_order_book.hpp` keep their price levels
in different containers. The order pool, the id map, the fills they report and the loop that
matches an incoming order against one level are the same.

The fill handler is a log: a call of it appends to `fills`.
-/

namespace LimitOrderBook

/-- A trade between a resting order and the incoming one, at the resting order's price. -/
structure Fill where
  restingId : OrderId
  incomingId : OrderId
  price : Price
  qty : Quantity
  deriving DecidableEq, Repr

/-- One price level as seen from outside the book. -/
structure LevelQty where
  price : Price
  qty : Quantity
  deriving DecidableEq, Repr

/-- The loop of `id_map_capacity`: double `n` while it is below `limit`. -/
def growTo (limit : Nat) : Nat → Nat → Nat
  | 0, n => n
  | fuel + 1, n => if n < limit then growTo limit fuel (n <<< 1) else n

/-- The capacity of the id map: the smallest power of two that is at least twice the pool's. -/
def idMapCapacity (poolCapacity : Nat) : Nat := growTo (2 * poolCapacity) (2 * poolCapacity) 1

/-- The pool, the id map and the fills reported so far. -/
structure Engine (poolCapacity : Nat) where
  pool : MemoryPool Order poolCapacity := .fresh
  idMap : OrderIdMap (idMapCapacity poolCapacity) := {}
  fills : List Fill := []

namespace Engine

variable {poolCapacity : Nat}

/-- The order slots. -/
def heap (e : Engine poolCapacity) : Heap := e.pool.storage

/-- Write the order slots. -/
def setHeap (e : Engine poolCapacity) (h : Heap) : Engine poolCapacity :=
  { e with pool := { e.pool with storage := h } }

/-- `on_fill_`. -/
def onFill (e : Engine poolCapacity) (fill : Fill) : Engine poolCapacity :=
  { e with fills := e.fills ++ [fill] }

/-- `pool_.release`. -/
def release (e : Engine poolCapacity) (o : OrderRef) : Result (Engine poolCapacity) := do
  let pool ← e.pool.release o
  pure { e with pool := pool }

/-- `id_map_.erase`. -/
def eraseId (e : Engine poolCapacity) (id : OrderId) : Engine poolCapacity :=
  { e with idMap := (e.idMap.erase id).2 }

/-- `id_map_.insert`. The map is sized for as many ids as the pool has slots. -/
def insertId (e : Engine poolCapacity) (id : OrderId) (o : OrderRef) :
    Result (Engine poolCapacity) :=
  if e.idMap.size < poolCapacity then do
    let idMap ← e.idMap.insert id (some o)
    pure { e with idMap := idMap }
  else .error .idMapCrowded

/-- One iteration of `match_against_level`: the incoming order trades with the first one of the
queue, which leaves the book if that fills it. -/
def tradeHead (e : Engine poolCapacity) (incoming : OrderRef) (level : PriceLevel)
    (resting : OrderRef) (tradePrice : Price) : Result (Engine poolCapacity × PriceLevel) := do
  let h := e.heap
  let traded := min (h incoming).quantity (h resting).quantity
  let h := Function.update h incoming { h incoming with quantity := (h incoming).quantity - traded }
  let (h, level) ← level.reduceHead h traded
  let e := (e.setHeap h).onFill ⟨(h resting).id, (h incoming).id, tradePrice, traded⟩
  if (h resting).quantity = 0 then do
    let (h, level) := level.remove h resting
    let e := (e.setHeap h).eraseId (h resting).id
    let e ← e.release resting
    pure (e, level)
  else pure (e, level)

/-- `match_against_level`, with `fuel` iterations left. -/
def matchAgainstLevel (incoming : OrderRef) (tradePrice : Price) :
    Nat → Engine poolCapacity → PriceLevel → Result (Engine poolCapacity × PriceLevel)
  | 0, _, _ => .error .unfinished
  | fuel + 1, e, level =>
      if (e.heap incoming).quantity > 0 ∧ level.empty = false then
        match level.head with
        | none => .error .nullPointer
        | some resting => do
            let (e, level) ← e.tradeHead incoming level resting tradePrice
            matchAgainstLevel incoming tradePrice fuel e level
      else pure (e, level)

/-- The number of iterations within which every loop over resting orders has ended. -/
def loopBound (poolCapacity : Nat) : Nat := poolCapacity + 1

end Engine

end LimitOrderBook
