import Mathlib.Algebra.Group.Nat.Defs
import Mathlib.Algebra.Ring.Int.Defs

/-!
# Orders

The types of `order.hpp`, and the faults that stand for behaviour the source excludes by an
assertion or relies on not to happen.

Prices and quantities are 64-bit integers in the source. A quantity is an exact integer here;
price arithmetic goes through `wrap64` wherever the source computes with prices.
-/

namespace LimitOrderBook

/-- A price in ticks. -/
abbrev Price := Int

/-- A quantity. -/
abbrev Quantity := Int

/-- An order identifier. -/
abbrev OrderId := UInt64

/-- A timestamp. -/
abbrev Nanos := UInt64

/-- The smallest 64-bit signed integer. -/
def int64Min : Int := -2 ^ 63

/-- The largest 64-bit signed integer. -/
def int64Max : Int := 2 ^ 63 - 1

/-- The 64-bit two's-complement value of an integer. -/
def wrap64 (x : Int) : Int := x.bmod (2 ^ 64)

/-- An integer in the signed 64-bit range is its own 64-bit value. -/
theorem wrap64_eq {x : Int} (hlo : int64Min ≤ x) (hhi : x ≤ int64Max) : wrap64 x = x := by
  unfold int64Min at hlo
  unfold int64Max at hhi
  exact Int.bmod_eq_of_le (by omega) (by omega)

/-- The integer is a signed 64-bit one. -/
def FitsInt64 (x : Int) : Prop := int64Min ≤ x ∧ x ≤ int64Max

instance {x : Int} : Decidable (FitsInt64 x) := inferInstanceAs (Decidable (_ ∧ _))

/-- An operation on 64-bit integers is exact if and only if its exact result is one. -/
theorem wrap64_eq_iff {x : Int} : wrap64 x = x ↔ FitsInt64 x := by
  refine ⟨fun h => ?_, fun h => wrap64_eq h.1 h.2⟩
  have hle : -2 ^ 63 ≤ x.bmod (2 ^ 64) := Int.le_bmod (by decide)
  have hlt : x.bmod (2 ^ 64) < 2 ^ 63 := Int.bmod_lt (by decide)
  unfold wrap64 at h
  rw [h] at hle hlt
  unfold FitsInt64 int64Min int64Max
  omega

/-- The side of an order. The source's enumeration has a byte as its underlying type, so every
byte is a side; all tests compare with `buy`. -/
structure Side where
  byte : UInt8
  deriving DecidableEq, Repr, Inhabited

namespace Side

/-- `Side::Buy`. -/
def buy : Side := ⟨0⟩

/-- `Side::Sell`. -/
def sell : Side := ⟨1⟩

end Side

/-- A non-null `Order*`: the index of the pool slot it points to. A pointer that may be null is
an `Option OrderRef`. -/
abbrev OrderRef := Nat

/-- An order, with the links of the queue it rests in. -/
structure Order where
  id : OrderId
  side : Side
  price : Price
  quantity : Quantity
  timestamp : Nanos
  prev : Option OrderRef := none
  next : Option OrderRef := none
  deriving DecidableEq, Repr, Inhabited

/-- What the source excludes by an assertion, by dereferencing without a check, or by leaving a
loop without a bound. -/
inductive Fault where
  /-- `LevelTail::find_or_insert` on a full tail. -/
  | tailFull
  /-- `LevelTail::stage` on full staging slots. -/
  | stageFull
  /-- `LevelTail::merge_staged` with more levels than the tail can hold. -/
  | mergeFull
  /-- `OrderIdMap::insert` without an empty slot. -/
  | idMapFull
  /-- An id is entered beyond the load factor the id map is sized for. -/
  | idMapCrowded
  /-- `MemoryPool::release` beyond the capacity reserved for the free list. -/
  | freeListFull
  /-- A null pointer is dereferenced. -/
  | nullPointer
  /-- A loop has not ended within its bound. -/
  | unfinished
  /-- An array is indexed beyond its end. -/
  | outOfRange
  deriving DecidableEq, Repr

/-- The outcome of an operation that may fault. -/
abbrev Result := Except Fault

/-- An operation that has succeeded hands its value on. -/
@[simp] theorem ok_bind {α β : Type} (a : α) (f : α → Result β) :
    ((Except.ok a : Result α) >>= f) = f a := rfl

/-- Two operations in a row succeed if both do. -/
theorem bind_eq_ok {α β : Type} {x : Result α} {f : α → Result β} {r : β} :
    (x >>= f) = .ok r ↔ ∃ a, x = .ok a ∧ f a = .ok r := by
  cases x with
  | error fault =>
      refine iff_of_false (fun h => by cases h) ?_
      rintro ⟨a, h, -⟩
      cases h
  | ok a =>
      rw [ok_bind]
      refine ⟨fun h => ⟨a, rfl, h⟩, ?_⟩
      rintro ⟨a', h, h'⟩
      cases h
      exact h'

/-- Returning a value is success. -/
@[simp] theorem pure_eq_ok {α : Type} (a : α) : (pure a : Result α) = .ok a := rfl

/-- Mapping over a success. -/
@[simp] theorem map_ok {α β : Type} (f : α → β) (a : α) :
    f <$> (Except.ok a : Result α) = .ok (f a) := rfl

end LimitOrderBook
