import LimitOrderBook.Level.PriceLevel
import Mathlib.Data.List.Basic

/-!
# The tail of a side

`LevelTail` of `level_ladder.hpp`: the price levels outside the window of a ladder, in a sorted
array of fixed capacity, worst price first. The buffer holds the sorted levels from slot 0 on and
the staging slots of a bulk insert from slot `capacity` on.

The standard algorithms are written out by what they do on their preconditions.
-/

namespace LimitOrderBook

/-- Whether price `a` is worse than price `b` on the side `isBid`. -/
def worse (isBid : Bool) (a b : Price) : Bool :=
  if isBid then decide (a < b) else decide (a > b)

/-- Whether price `a` is better than price `b` on the side `isBid`. -/
def better (isBid : Bool) (a b : Price) : Bool :=
  if isBid then decide (a > b) else decide (a < b)

/-! ## Array algorithms -/

/-- `std::move_backward(&buf[first], &buf[last], &buf[dLast])`. -/
def moveBackward (buf : Nat → PriceLevel) (first last dLast : Nat) : Nat → PriceLevel := fun k =>
  if dLast - (last - first) ≤ k ∧ k < dLast then buf (k + last - dLast) else buf k

/-- `std::move(&buf[first], &buf[last], &buf[dFirst])`. -/
def moveForward (buf : Nat → PriceLevel) (first last dFirst : Nat) : Nat → PriceLevel := fun k =>
  if dFirst ≤ k ∧ k < dFirst + (last - first) then buf (first + (k - dFirst)) else buf k

/-- `std::sort(&buf[first], &buf[first] + count, …)` by price, worst first. -/
def sortWorstFirst (isBid : Bool) (buf : Nat → PriceLevel) (first count : Nat) :
    Nat → PriceLevel :=
  let sorted := ((List.range count).map fun k => buf (first + k)).mergeSort
    fun a b => !worse isBid b.price a.price
  fun k => if first ≤ k ∧ k < first + count then sorted.getD (k - first) {} else buf k

/-- The tail: the buffer, the number of levels and the number of staged levels. -/
structure LevelTail (isBid : Bool) (capacity scratchSize : Nat) where
  buf : Nat → PriceLevel := fun _ => {}
  n : Nat := 0
  staged : Nat := 0

namespace LevelTail

variable {isBid : Bool} {capacity scratchSize : Nat}

/-- `empty()`. -/
def empty (t : LevelTail isBid capacity scratchSize) : Bool := t.n = 0

/-- `size()`. -/
def size (t : LevelTail isBid capacity scratchSize) : Nat := t.n

/-- The index of the best level. -/
def best (t : LevelTail isBid capacity scratchSize) : Option Nat :=
  if t.n = 0 then none else some (t.n - 1)

/-- The first index whose price is not worse than `price`: `std::lower_bound` over the sorted
levels. -/
def lower (t : LevelTail isBid capacity scratchSize) (price : Price) : Nat :=
  ((List.range t.n).find? fun i => !worse isBid (t.buf i).price price).getD t.n

/-- The index of the level at `price`, if there is one. -/
def find (t : LevelTail isBid capacity scratchSize) (price : Price) : Option Nat :=
  let i := t.lower price
  if i < t.n ∧ (t.buf i).price = price then some i else none

/-- The level at `price`, or a new empty one. -/
def findOrInsert (t : LevelTail isBid capacity scratchSize) (price : Price) :
    Result (LevelTail isBid capacity scratchSize × Nat) :=
  let i := t.lower price
  if i < t.n ∧ (t.buf i).price = price then .ok (t, i)
  else if t.n < capacity then
    let buf := moveBackward t.buf i t.n (t.n + 1)
    .ok ({ t with buf := Function.update buf i ⟨price, 0, none, none⟩, n := t.n + 1 }, i)
  else .error .tailFull

/-- Remove the level at `price`. -/
def erase (t : LevelTail isBid capacity scratchSize) (price : Price) :
    LevelTail isBid capacity scratchSize :=
  let i := t.lower price
  if i < t.n ∧ (t.buf i).price = price then
    { t with buf := moveForward t.buf (i + 1) t.n i, n := t.n - 1 }
  else t

/-- The level at best-first position `k`. -/
def nthBest (t : LevelTail isBid capacity scratchSize) (k : Nat) : PriceLevel :=
  t.buf (t.n - 1 - k)

/-- The levels `for_each` visits, in order. -/
def forEach (t : LevelTail isBid capacity scratchSize) : List PriceLevel :=
  (List.range t.n).map t.buf

/-- Put a level into the next staging slot. -/
def stage (t : LevelTail isBid capacity scratchSize) (level : PriceLevel) :
    Result (LevelTail isBid capacity scratchSize) :=
  if t.staged < scratchSize then
    .ok { t with buf := Function.update t.buf (capacity + t.staged) level, staged := t.staged + 1 }
  else .error .stageFull

/-- The backward merge of `merge_staged`: `i` levels and `j` staged levels are still to be
placed, and the next one goes right below `out`. The loop stops when no staged level is left. -/
def mergeLoop (isBid : Bool) (capacity : Nat) :
    (Nat → PriceLevel) → (out i j : Nat) → Nat → PriceLevel
  | buf, 0, _, _ => buf
  | buf, out + 1, i, j =>
      if j = 0 then buf
      else if 0 < i ∧ worse isBid (buf (capacity + (j - 1))).price (buf (i - 1)).price then
        mergeLoop isBid capacity (Function.update buf out (buf (i - 1))) out (i - 1) j
      else
        mergeLoop isBid capacity (Function.update buf out (buf (capacity + (j - 1)))) out i (j - 1)

/-- Fold the staged levels into the sorted ones. -/
def mergeStaged (t : LevelTail isBid capacity scratchSize) :
    Result (LevelTail isBid capacity scratchSize) :=
  if t.staged = 0 then .ok t
  else if t.n + t.staged ≤ capacity then
    let buf := sortWorstFirst isBid t.buf capacity t.staged
    let buf := mergeLoop isBid capacity buf (t.n + t.staged) t.n t.staged
    .ok { buf := buf, n := t.n + t.staged, staged := 0 }
  else .error .mergeFull

/-- The loop of `extract_range`, with `fuel` levels left after `last`. -/
def extractLoop {σ : Type} (t : LevelTail isBid capacity scratchSize) (lo hi : Price)
    (f : σ → PriceLevel → σ) : Nat → Nat → σ → Nat × σ
  | 0, last, s => (last, s)
  | fuel + 1, last, s =>
      if (t.buf last).price ≥ lo ∧ (t.buf last).price ≤ hi then
        extractLoop t lo hi f fuel (last + 1) (f s (t.buf last))
      else (last, s)

/-- Remove every level with price in `[lo, hi]`, running `f` on each. -/
def extractRange {σ : Type} (t : LevelTail isBid capacity scratchSize) (lo hi : Price)
    (f : σ → PriceLevel → σ) (s : σ) : LevelTail isBid capacity scratchSize × σ :=
  let first := t.lower (if isBid then lo else hi)
  let (last, s) := extractLoop t lo hi f (t.n - first) first s
  ({ t with buf := moveForward t.buf last t.n first, n := t.n - (last - first) }, s)

end LevelTail

end LimitOrderBook
