import LimitOrderBook.Ladder.Tail
import LimitOrderBook.Library.Bitmap

/-!
# The level ladder

`LevelLadder` of `level_ladder.hpp`: the price levels of one side. A window of `windowSize`
consecutive ticks from `base` on is kept flat, with a bitmap of the slots that hold a level; every
other level is in the tail. `recenter` moves the window and migrates levels both ways.

A `PriceLevel*` into a ladder is a `LevelRef`, and changing the level behind it is `put`.
-/

namespace LimitOrderBook

/-- A non-null `PriceLevel*` into a ladder. -/
inductive LevelRef where
  | window (idx : Nat)
  | tail (idx : Nat)
  deriving DecidableEq, Repr

/-- The levels of one side. -/
structure LevelLadder (isBid : Bool) (windowSize tailCapacity : Nat) where
  base : Price := 0
  anchored : Bool := false
  windowCount : Nat := 0
  bestIdx : Int := -1
  bits : Bitmap.Words := fun _ => 0#64
  levels : Nat → PriceLevel := fun _ => {}
  tail : LevelTail isBid tailCapacity windowSize := {}

namespace LevelLadder

variable {isBid : Bool} {windowSize tailCapacity : Nat}

/-- The level behind a pointer. -/
def get (l : LevelLadder isBid windowSize tailCapacity) : LevelRef → PriceLevel
  | .window idx => l.levels idx
  | .tail idx => l.tail.buf idx

/-- Write the level behind a pointer. -/
def put (l : LevelLadder isBid windowSize tailCapacity) (r : LevelRef) (level : PriceLevel) :
    LevelLadder isBid windowSize tailCapacity :=
  match r with
  | .window idx => { l with levels := Function.update l.levels idx level }
  | .tail idx => { l with tail := { l.tail with buf := Function.update l.tail.buf idx level } }

/-- `kWords`. -/
def kWords (windowSize : Nat) : Nat := windowSize / 64

/-- `better_idx`: the order of the indices is the order of the prices. -/
def betterIdx (isBid : Bool) (a b : Int) : Bool :=
  if isBid then decide (a > b) else decide (a < b)

section Window

variable (l : LevelLadder isBid windowSize tailCapacity)

/-- `empty()`. -/
def empty : Bool := l.windowCount = 0 && l.tail.empty

/-- `in_window`. -/
def inWindow (p : Price) : Bool :=
  l.anchored && decide (l.base ≤ p) && decide (p < wrap64 (l.base + windowSize))

/-- `beyond_better_edge`. -/
def beyondBetterEdge (p : Price) : Bool :=
  if isBid then decide (wrap64 (l.base + windowSize) ≤ p) else decide (p < l.base)

/-- `index_of`. -/
def indexOf (p : Price) : Nat := (wrap64 (p - l.base)).toNat

/-- `test_bit`. -/
def testBit (i : Nat) : Bool := Bitmap.test l.bits i

/-- `scan_down`. -/
def scanDown (i : Int) : Int := Bitmap.scanDown l.bits i

/-- `scan_up`. -/
def scanUp (i : Int) : Int := Bitmap.scanUp l.bits (kWords windowSize) i

/-- `next_worse`. -/
def nextWorse (idx : Int) : Int := if isBid then l.scanDown (idx - 1) else l.scanUp (idx + 1)

/-- `best_in_window`. -/
def bestInWindow : Int := if isBid then l.scanDown ((windowSize : Int) - 1) else l.scanUp 0

/-- The best level, or null. -/
def best : Option LevelRef :=
  let w : Option LevelRef := if l.bestIdx ≥ 0 then some (.window l.bestIdx.toNat) else none
  let t : Option LevelRef := l.tail.best.map LevelRef.tail
  match t, w with
  | none, w => w
  | some t, none => some t
  | some t, some w => if better isBid (l.get t).price (l.get w).price then some t else some w

/-- The level at `price`, or null. -/
def find (price : Price) : Option LevelRef :=
  if l.inWindow price then
    let idx := l.indexOf price
    if l.testBit idx then some (.window idx) else none
  else (l.tail.find price).map LevelRef.tail

/-! ## Moving the window -/

/-- The body of step 1 of `recenter`: a level outside the new range goes to the staging slots. -/
def evictOne (newBase newEnd : Price) (l : LevelLadder isBid windowSize tailCapacity)
    (idx : Nat) : Result (LevelLadder isBid windowSize tailCapacity) :=
  let p := (l.levels idx).price
  if p < newBase ∨ p ≥ newEnd then do
    let tail ← l.tail.stage (l.levels idx)
    pure { l with tail := tail, bits := Bitmap.clear l.bits idx, windowCount := l.windowCount - 1 }
  else pure l

/-- The body of step 2 of `recenter`: the level at `idx`, if any, moves down by `delta`. -/
def shiftOne (delta : Int) (l : LevelLadder isBid windowSize tailCapacity) (idx : Nat) :
    LevelLadder isBid windowSize tailCapacity :=
  if l.testBit idx then
    let dest := ((idx : Int) - delta).toNat
    { l with levels := Function.update l.levels dest (l.levels idx)
             bits := Bitmap.set (Bitmap.clear l.bits idx) dest }
  else l

/-- Step 2 of `recenter`: shift the survivors in place, walking in the direction of the shift. -/
def shiftSurvivors (delta : Int) (l : LevelLadder isBid windowSize tailCapacity) :
    LevelLadder isBid windowSize tailCapacity :=
  if delta > 0 then (List.range windowSize).foldl (shiftOne delta) l
  else if delta < 0 then (List.range windowSize).reverse.foldl (shiftOne delta) l
  else l

/-- The body of step 3 of `recenter`: a level from the tail is placed in the window. -/
def placeOne (l : LevelLadder isBid windowSize tailCapacity) (level : PriceLevel) :
    LevelLadder isBid windowSize tailCapacity :=
  let idx := l.indexOf level.price
  { l with levels := Function.update l.levels idx level
           bits := Bitmap.set l.bits idx
           windowCount := l.windowCount + 1 }

/-- Move the window to start at `newBase`. -/
def recenter (newBase : Price) : Result (LevelLadder isBid windowSize tailCapacity) :=
  if !l.anchored then
    .ok { l with anchored := true, base := newBase, bestIdx := -1 }
  else do
    let newEnd := wrap64 (newBase + windowSize)
    let delta := wrap64 (newBase - l.base)
    -- 1. evict what falls outside the new range
    let l ← Bitmap.forEachSet LevelLadder.bits (evictOne newBase newEnd) (kWords windowSize) l
    let tail ← l.tail.mergeStaged
    let l := { l with tail := tail }
    -- 2. shift the survivors
    let l := shiftSurvivors delta l
    let l := { l with base := newBase }
    -- 3. pull what now falls inside from the tail
    let (tail, l) := l.tail.extractRange newBase (wrap64 (newEnd - 1)) placeOne l
    let l := { l with tail := tail }
    pure { l with bestIdx := l.bestInWindow }

/-! ## Inserting and erasing -/

/-- Make sure the window holds a level at the slot of `price`. -/
def openSlot (price : Price) : LevelLadder isBid windowSize tailCapacity × LevelRef :=
  let idx := l.indexOf price
  if l.testBit idx then (l, .window idx)
  else
    ({ l with levels := Function.update l.levels idx ⟨price, 0, none, none⟩
              bits := Bitmap.set l.bits idx
              windowCount := l.windowCount + 1
              bestIdx := if l.bestIdx < 0 ∨ betterIdx isBid idx l.bestIdx then idx
                else l.bestIdx }, .window idx)

/-- The first part of `level_for_insert`: an insert outside the window moves it if it is empty or
the price lies beyond its better edge. -/
def followTop (price : Price) : Result (LevelLadder isBid windowSize tailCapacity) :=
  if !l.inWindow price && (decide (l.windowCount = 0) || l.beyondBetterEdge price) then
    l.recenter (wrap64 (price - (windowSize / 2 : Nat)))
  else pure l

/-- The second part of `level_for_insert`: the level at `price` in the window or in the tail. -/
def levelAt (price : Price) : Result (LevelLadder isBid windowSize tailCapacity × LevelRef) :=
  if l.inWindow price then pure (l.openSlot price)
  else do
    let (tail, i) ← l.tail.findOrInsert price
    pure ({ l with tail := tail }, .tail i)

/-- The level at `price`, created empty if there is none. -/
def levelForInsert (price : Price) :
    Result (LevelLadder isBid windowSize tailCapacity × LevelRef) := do
  let l ← l.followTop price
  l.levelAt price

/-- Remove a level that has just become empty. -/
def eraseLevel (r : LevelRef) : LevelLadder isBid windowSize tailCapacity :=
  let price := (l.get r).price
  if l.inWindow price then
    let idx := l.indexOf price
    let l := { l with bits := Bitmap.clear l.bits idx, windowCount := l.windowCount - 1 }
    if (idx : Int) = l.bestIdx then { l with bestIdx := l.nextWorse l.bestIdx } else l
  else { l with tail := l.tail.erase price }

/-! ## Walks -/

/-- The bitmap walk of `for_each_best` when the tail is empty. -/
def walkWindow : Nat → Int → List PriceLevel
  | 0, _ => []
  | n + 1, idx =>
      if idx ≥ 0 then l.levels idx.toNat :: walkWindow n (l.nextWorse idx) else []

/-- The merging walk of `for_each_best`: `idx` in the window, `t` in the tail. -/
def walkMerge : Nat → Int → Nat → List PriceLevel
  | 0, _, _ => []
  | n + 1, idx, t =>
      let haveW := idx ≥ 0
      let haveT := t < l.tail.size
      if ¬haveW ∧ ¬haveT then []
      else if haveW ∧ (¬haveT ∨
          better isBid (l.levels idx.toNat).price (l.tail.nthBest t).price) then
        l.levels idx.toNat :: walkMerge n (l.nextWorse idx) t
      else l.tail.nthBest t :: walkMerge n idx (t + 1)

/-- The levels `for_each_best` visits, in order. -/
def forEachBest (maxLevels : Nat) : List PriceLevel :=
  if l.tail.empty then l.walkWindow maxLevels l.bestIdx
  else l.walkMerge maxLevels l.bestIdx 0

/-- The levels `for_each_level` visits, in order. -/
def forEachLevel : List PriceLevel :=
  (Bitmap.indices l.bits (kWords windowSize)).map l.levels ++ l.tail.forEach

/-- `in_hot_window`. -/
def inHotWindow (price : Price) : Bool := l.inWindow price

end Window

end LevelLadder

end LimitOrderBook
