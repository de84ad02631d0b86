import LimitOrderBook.Order
import Mathlib.Logic.Function.Basic

/-!
# Price levels

`PriceLevel` of `price_level.hpp`: the queue of the orders resting at one price, an intrusive
doubly linked list. The orders live in the pool, so every operation takes the pool's storage and
returns it with the level.
-/

namespace LimitOrderBook

/-- The order slots. -/
abbrev Heap := OrderRef → Order

/-- One price level. -/
structure PriceLevel where
  price : Price := 0
  totalQty : Quantity := 0
  head : Option OrderRef := none
  tail : Option OrderRef := none
  deriving DecidableEq, Repr, Inhabited

namespace PriceLevel

/-- `empty()`. -/
def empty (level : PriceLevel) : Bool := level.head.isNone

/-- Set the backward link of an order. -/
def setPrev (h : Heap) (o : OrderRef) (p : Option OrderRef) : Heap :=
  Function.update h o { h o with prev := p }

/-- Set the forward link of an order. -/
def setNext (h : Heap) (o : OrderRef) (n : Option OrderRef) : Heap :=
  Function.update h o { h o with next := n }

/-- Append an order to the queue. -/
def pushBack (h : Heap) (level : PriceLevel) (o : OrderRef) : Heap × PriceLevel :=
  let h := setPrev h o level.tail
  let h := setNext h o none
  let (h, level) := match level.tail with
    | some t => (setNext h t (some o), level)
    | none => (h, { level with head := some o })
  (h, { level with tail := some o, totalQty := level.totalQty + (h o).quantity })

/-- `if (prev) prev->next = next; else head = next;`. -/
def bypassNext (h : Heap) (level : PriceLevel) (prev next : Option OrderRef) :
    Heap × PriceLevel :=
  match prev with
  | some p => (setNext h p next, level)
  | none => (h, { level with head := next })

/-- `if (next) next->prev = prev; else tail = prev;`. -/
def bypassPrev (h : Heap) (level : PriceLevel) (prev next : Option OrderRef) :
    Heap × PriceLevel :=
  match next with
  | some n => (setPrev h n prev, level)
  | none => (h, { level with tail := prev })

/-- Unlink an order from the queue. -/
def remove (h : Heap) (level : PriceLevel) (o : OrderRef) : Heap × PriceLevel :=
  let level := { level with totalQty := level.totalQty - (h o).quantity }
  let (h, level) := bypassNext h level (h o).prev (h o).next
  let (h, level) := bypassPrev h level (h o).prev (h o).next
  (setPrev (setNext h o none) o none, level)

/-- Take a traded quantity from the first order of the queue. -/
def reduceHead (h : Heap) (level : PriceLevel) (filled : Quantity) :
    Result (Heap × PriceLevel) :=
  match level.head with
  | none => .error .nullPointer
  | some o =>
      .ok (Function.update h o { h o with quantity := (h o).quantity - filled },
        { level with totalQty := level.totalQty - filled })

/-! ## The price stays -/

/-- `pushBack` does not change the price. -/
theorem price_pushBack (h : Heap) (level : PriceLevel) (o : OrderRef) :
    (level.pushBack h o).2.price = level.price := by
  unfold pushBack
  cases level.tail <;> rfl

/-- `bypassNext` does not change the price. -/
theorem price_bypassNext (h : Heap) (level : PriceLevel) (prev next : Option OrderRef) :
    (level.bypassNext h prev next).2.price = level.price := by
  cases prev <;> rfl

/-- `bypassPrev` does not change the price. -/
theorem price_bypassPrev (h : Heap) (level : PriceLevel) (prev next : Option OrderRef) :
    (level.bypassPrev h prev next).2.price = level.price := by
  cases next <;> rfl

/-- `remove` does not change the price. -/
theorem price_remove (h : Heap) (level : PriceLevel) (o : OrderRef) :
    (level.remove h o).2.price = level.price := by
  show (bypassPrev _ _ _ _).2.price = level.price
  rw [price_bypassPrev]
  exact price_bypassNext h { level with totalQty := level.totalQty - (h o).quantity } _ _

end PriceLevel

end LimitOrderBook
