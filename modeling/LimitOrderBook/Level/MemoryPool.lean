import LimitOrderBook.Order
import Mathlib.Data.List.Basic
import Mathlib.Logic.Function.Basic

/-!
# The memory pool

`MemoryPool` of `memory_pool.hpp`: storage for a fixed number of objects and the indices of the
free slots, the back of the vector being handed out first. Destroying an object leaves the bytes
of its slot as they are. Room for `capacity` indices is reserved in the free list, and a release
beyond that is a fault.
-/

namespace LimitOrderBook

/-- The slots of the pool and the stack of the free ones. -/
structure MemoryPool (T : Type) (capacity : Nat) where
  storage : Nat → T
  freeList : List Nat

namespace MemoryPool

variable {T : Type} {capacity : Nat}

/-- The constructor: every slot is free. -/
def fresh [Inhabited T] : MemoryPool T capacity :=
  { storage := fun _ => default, freeList := List.range capacity }

/-- Construct an object in a free slot, or fail if there is none. -/
def allocate (pool : MemoryPool T capacity) (value : T) : Option (Nat × MemoryPool T capacity) :=
  match pool.freeList.getLast? with
  | none => none
  | some idx =>
      some (idx, { storage := Function.update pool.storage idx value
                   freeList := pool.freeList.dropLast })

/-- Give a slot back. -/
def release (pool : MemoryPool T capacity) (idx : Nat) : Result (MemoryPool T capacity) :=
  if pool.freeList.length < capacity then .ok { pool with freeList := pool.freeList ++ [idx] }
  else .error .freeListFull

/-- `available()`. -/
def available (pool : MemoryPool T capacity) : Nat := pool.freeList.length

/-- `allocate` fails exactly if no slot is free. -/
theorem allocate_eq_none {pool : MemoryPool T capacity} {value : T} :
    pool.allocate value = none ↔ pool.freeList = [] := by
  unfold allocate
  split
  · next h => exact iff_of_true rfl (List.getLast?_eq_none_iff.mp h)
  · next h => exact iff_of_false (by simp) (by rintro heq; rw [heq] at h; cases h)

/-- What `allocate` does when it succeeds: the back of the free list is taken and written. -/
theorem allocate_eq_some {pool pool' : MemoryPool T capacity} {value : T} {idx : Nat}
    (h : pool.allocate value = some (idx, pool')) :
    pool.freeList = pool'.freeList ++ [idx] ∧
      pool'.storage = Function.update pool.storage idx value := by
  unfold allocate at h
  split at h
  · cases h
  · next i hlast =>
      cases h
      exact ⟨(List.dropLast_append_getLast? _ hlast).symm, rfl⟩

/-- A released slot is the next one to be handed out. -/
theorem release_allocate {pool : MemoryPool T capacity} (idx : Nat)
    (hroom : pool.freeList.length < capacity) :
    ∃ released, pool.release idx = .ok released ∧ ∀ value,
      released.allocate value =
        some (idx, { pool with storage := Function.update pool.storage idx value }) := by
  refine ⟨_, if_pos hroom, fun value => ?_⟩
  simp [allocate]

end MemoryPool

end LimitOrderBook
