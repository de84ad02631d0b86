import LimitOrderBook.Order
import Mathlib.Logic.Function.Basic

/-!
# The order id map

`OrderIdMap` of `order_id_map.hpp`: open addressing with linear probing and backward-shift
deletion, over a table whose size is fixed at construction. Every loop of the source counts its
probes up to the capacity, so the loops here recurse on the number of probes left.
-/

namespace LimitOrderBook

/-- One slot of the table. -/
structure OrderIdMap.Slot where
  id : OrderId := 0
  ptr : Option OrderRef := none
  occupied : Bool := false
  deriving DecidableEq, Repr, Inhabited

/-- The table and the number of entries in it. -/
structure OrderIdMap (capacity : Nat) where
  slots : Nat → OrderIdMap.Slot := fun _ => {}
  size : Nat := 0

namespace OrderIdMap

/-- `mask_`. -/
def mask (capacity : Nat) : Nat := capacity - 1

/-- The splitmix64 finalizer. -/
def splitmix (id : OrderId) : UInt64 :=
  let x := id
  let x := x ^^^ (x >>> 30)
  let x := x * 0xbf58476d1ce4e5b9
  let x := x ^^^ (x >>> 27)
  let x := x * 0x94d049bb133111eb
  x ^^^ (x >>> 31)

/-- The home slot of an id. -/
def indexOf (capacity : Nat) (id : OrderId) : Nat :=
  (splitmix id).toNat &&& mask capacity

variable {capacity : Nat}

/-- The probe loop of `insert`, with `probes` probes left. -/
def insertLoop (m : OrderIdMap capacity) (id : OrderId) (ptr : Option OrderRef) :
    Nat → Nat → Result (OrderIdMap capacity)
  | 0, _ => .error .idMapFull
  | probes + 1, idx =>
      if (m.slots idx).occupied then
        insertLoop m id ptr probes ((idx + 1) &&& mask capacity)
      else
        .ok { slots := Function.update m.slots idx ⟨id, ptr, true⟩, size := m.size + 1 }

/-- Enter an id that is not present. -/
def insert (m : OrderIdMap capacity) (id : OrderId) (ptr : Option OrderRef) :
    Result (OrderIdMap capacity) :=
  insertLoop m id ptr capacity (indexOf capacity id)

/-- The probe loop of `find`, with `probes` probes left. -/
def findLoop (m : OrderIdMap capacity) (id : OrderId) : Nat → Nat → Option OrderRef
  | 0, _ => none
  | probes + 1, idx =>
      if (m.slots idx).occupied then
        if (m.slots idx).id = id then (m.slots idx).ptr
        else findLoop m id probes ((idx + 1) &&& mask capacity)
      else none

/-- The pointer stored for an id, or null. -/
def find (m : OrderIdMap capacity) (id : OrderId) : Option OrderRef :=
  findLoop m id capacity (indexOf capacity id)

/-- The first loop of `erase`: the slot of the id, if it is present. -/
def eraseLocate (m : OrderIdMap capacity) (id : OrderId) : Nat → Nat → Option Nat
  | 0, _ => none
  | probes + 1, hole =>
      if (m.slots hole).occupied then
        if (m.slots hole).id = id then some hole
        else eraseLocate m id probes ((hole + 1) &&& mask capacity)
      else none

/-- Whether the entry at `j` with home slot `home` must not move into the hole: its home lies
cyclically in `(hole, j]`. -/
def stays (hole home j : Nat) : Bool :=
  if hole ≤ j then decide (hole < home) && decide (home ≤ j)
  else decide (hole < home) || decide (home ≤ j)

/-- The second loop of `erase`, with `probes` iterations left: walk the rest of the cluster and
pull entries back into the hole. Returns the table and the final hole. -/
def eraseShift (capacity : Nat) : (Nat → Slot) → Nat → Nat → Nat → (Nat → Slot) × Nat
  | slots, 0, hole, _ => (slots, hole)
  | slots, probes + 1, hole, j =>
      let j := (j + 1) &&& mask capacity
      if (slots j).occupied then
        if stays hole (indexOf capacity (slots j).id) j then
          eraseShift capacity slots probes hole j
        else
          eraseShift capacity (Function.update slots hole (slots j)) probes j j
      else (slots, hole)

/-- Remove an id. Returns whether it was present. -/
def erase (m : OrderIdMap capacity) (id : OrderId) : Bool × OrderIdMap capacity :=
  match eraseLocate m id capacity (indexOf capacity id) with
  | none => (false, m)
  | some hole =>
      let (slots, hole) := eraseShift capacity m.slots (capacity - 1) hole hole
      (true, { slots := Function.update slots hole {}, size := m.size - 1 })

/-- The loop of `probe_length`, with `fuel` probes left before the cap and `probes` made. -/
def probeLoop (m : OrderIdMap capacity) (id : OrderId) : Nat → Nat → Nat → Nat
  | 0, _, probes => probes
  | fuel + 1, idx, probes =>
      if (m.slots idx).occupied ∧ (m.slots idx).id ≠ id then
        probeLoop m id fuel ((idx + 1) &&& mask capacity) (probes + 1)
      else probes

/-- The number of slots `find` inspects before it returns. -/
def probeLength (m : OrderIdMap capacity) (id : OrderId) : Nat :=
  probeLoop m id capacity (indexOf capacity id) 1

end OrderIdMap

end LimitOrderBook
