import LimitOrderBook.Feed.Model
import Mathlib.Data.Int.ConditionallyCompleteOrder
import Mathlib.Order.Interval.Set.Defs

/-!
# Generated feeds

`generate_feed`, `generate_wide_feed` and `run_generate` of `main.cpp`. The numbers come out of a
random engine through `std::uniform_int_distribution`, whose algorithm the standard leaves open.
`RandomSource` is an engine with its distributions, of which nothing else is known than that every
number lies between the bounds of its distribution.

A distribution needs bounds in order and an index needs a vector that is long enough; the
definitions carry the proofs of both.
-/

namespace LimitOrderBook

/-- A random engine with its uniform distributions. -/
structure RandomSource where
  State : Type
  seeded : UInt64 → State
  uniform : (lo hi : Int) → lo ≤ hi → State → Set.Icc lo hi × State

/-- The variables of a generator. `ids` is `seen_ids` of the narrow profile and `live` of the wide
one; `mid` is one of the wide profile only. -/
structure Generator (R : RandomSource) where
  rng : R.State
  ids : List OrderId := []
  nextId : OrderId := 1
  mid : Price := 100000

namespace Generator

variable {R : RandomSource}

/-- The cancel of an order. The other fields keep the values of `FeedMessage msg{}`. -/
def cancelRecord (padding : Vector UInt8 6) (id : OrderId) (i : Nat) : FeedRecord where
  msg := ⟨.cancelOrder, ⟨0⟩, id, 0, 0, UInt64.ofNat i⟩
  padding := padding
  price_fits := by show FitsInt64 0; decide
  qty_fits := by show FitsInt64 0; decide

/-- The quantities fit. -/
theorem fitsInt64_of_qty (qty : Set.Icc (1 : Int) 20) : FitsInt64 qty.1 := by
  obtain ⟨qty, hle, hge⟩ := qty
  unfold FitsInt64 int64Min int64Max
  show -2 ^ 63 ≤ qty ∧ qty ≤ 2 ^ 63 - 1
  omega

/-- The prices of the narrow profile fit. -/
theorem fitsInt64_of_price (price : Set.Icc (95 : Int) 105) : FitsInt64 price.1 := by
  obtain ⟨price, hle, hge⟩ := price
  unfold FitsInt64 int64Min int64Max
  show -2 ^ 63 ≤ price ∧ price ≤ 2 ^ 63 - 1
  omega

/-- The index that is picked is one of the vector. -/
theorem pick_lt {α : Type} {x : α} {xs : List α} (k : Set.Icc (0 : Int) xs.length) :
    k.1.toNat < (x :: xs).length := by
  obtain ⟨k, hle, hge⟩ := k
  rw [List.length_cons]
  show k.toNat < xs.length + 1
  omega

/-! ## The narrow profile -/

/-- A new order of the narrow profile. -/
def addNarrow (padding : Vector UInt8 6) (i : Nat) (g : Generator R) : FeedRecord × Generator R :=
  let (side, rng) := R.uniform 0 1 (by decide) g.rng
  let (price, rng) := R.uniform 95 105 (by decide) rng
  let (qty, rng) := R.uniform 1 20 (by decide) rng
  ({ msg := ⟨.addOrder, if side.1 = 0 then .buy else .sell, g.nextId, price, qty, UInt64.ofNat i⟩
     padding := padding
     price_fits := fitsInt64_of_price price
     qty_fits := fitsInt64_of_qty qty },
   { g with rng := rng, ids := g.ids ++ [g.nextId], nextId := g.nextId + 1 })

/-- One message of the narrow profile. -/
def stepNarrow (padding : Vector UInt8 6) (i : Nat) (g : Generator R) : FeedRecord × Generator R :=
  match g.ids with
  | [] => g.addNarrow padding i
  | x :: xs =>
      let (action, rng) := R.uniform 0 99 (by decide) g.rng
      let g := { g with rng := rng }
      if action.1 < 80 then g.addNarrow padding i
      else
        let (k, rng) := R.uniform 0 xs.length (Int.natCast_nonneg _) g.rng
        (cancelRecord padding ((x :: xs).get ⟨k.1.toNat, pick_lt k⟩) i, { g with rng := rng })

/-! ## The wide profile -/

/-- The mid drifts in one of ten messages. -/
def drift (g : Generator R) : Generator R :=
  let (pct, rng) := R.uniform 0 99 (by decide) g.rng
  if pct.1 < 10 then
    let (drift, rng) := R.uniform (-1) 1 (by decide) rng
    { g with rng := rng, mid := wrap64 (g.mid + drift) }
  else { g with rng := rng }

/-- The price of a new order of the wide profile. -/
def widePrice (side : Side) (mid : Price) (off : Int) : Price :=
  if side = .buy then wrap64 (mid - off) else wrap64 (wrap64 (mid + 1) + off)

/-- Such a price is a 64-bit integer. -/
theorem fitsInt64_widePrice (side : Side) (mid : Price) (off : Int) :
    FitsInt64 (widePrice side mid off) := by
  unfold widePrice
  split
  · exact fitsInt64_wrap64 _
  · exact fitsInt64_wrap64 _

/-- A new order of the wide profile. -/
def addWide (depth : Nat) (padding : Vector UInt8 6) (i : Nat) (g : Generator R) :
    FeedRecord × Generator R :=
  let (pct, rng) := R.uniform 0 99 (by decide) g.rng
  let side := if pct.1 < 50 then Side.buy else .sell
  let (off, rng) := R.uniform 0 depth (Int.natCast_nonneg _) rng
  let (off', rng) := R.uniform 0 depth (Int.natCast_nonneg _) rng
  let price := widePrice side g.mid (min off.1 off'.1)
  let (qty, rng) := R.uniform 1 20 (by decide) rng
  ({ msg := ⟨.addOrder, side, g.nextId, price, qty, UInt64.ofNat i⟩
     padding := padding
     price_fits := fitsInt64_widePrice side g.mid _
     qty_fits := fitsInt64_of_qty qty },
   { g with rng := rng, ids := g.ids ++ [g.nextId], nextId := g.nextId + 1 })

/-- `live[k] = live.back(); live.pop_back()`. -/
def removeAt (live : List OrderId) (k : Nat) : List OrderId :=
  (live.set k (live.getLastD 0)).dropLast

/-- One message of the wide profile. -/
def stepWide (depth : Nat) (padding : Vector UInt8 6) (i : Nat) (g : Generator R) :
    FeedRecord × Generator R :=
  let g := g.drift
  match g.ids with
  | [] => g.addWide depth padding i
  | x :: xs =>
      let (pct, rng) := R.uniform 0 99 (by decide) g.rng
      let g := { g with rng := rng }
      if pct.1 < 55 then g.addWide depth padding i
      else
        let (k, rng) := R.uniform 0 xs.length (Int.natCast_nonneg _) g.rng
        (cancelRecord padding ((x :: xs).get ⟨k.1.toNat, pick_lt k⟩) i,
          { g with rng := rng, ids := removeAt (x :: xs) k.1.toNat })

/-! ## Feeds -/

/-- The loop of a generator from message `i` on, with `left` messages left. -/
def messages (step : Nat → Generator R → FeedRecord × Generator R) :
    (left i : Nat) → Generator R → List FeedRecord
  | 0, _, _ => []
  | left + 1, i, g =>
      let (msg, g) := step i g
      msg :: messages step left (i + 1) g

/-- The loop makes as many messages as it is told to. -/
@[simp] theorem length_messages (step : Nat → Generator R → FeedRecord × Generator R)
    (left i : Nat) (g : Generator R) : (messages step left i g).length = left := by
  induction left generalizing i g with
  | zero => rfl
  | succ left ih => rw [messages, List.length_cons, ih]

end Generator

/-- The vector that a generator fills. `reserve` throws if it could not hold the messages. -/
def generateWith (R : RandomSource) (step : Nat → Generator R → FeedRecord × Generator R)
    (seed : UInt64) (numMessages : Nat) : Except Exception FeedVector :=
  if h : numMessages ≤ vectorMaxSize then
    .ok ⟨Generator.messages step numMessages 0 { rng := R.seeded seed },
      by rwa [Generator.length_messages]⟩
  else .error .lengthError

/-- `generate_feed`, with any contents of the padding bytes. -/
def generateFeed (R : RandomSource) (padding : Nat → Vector UInt8 6) :
    (seed : UInt64) → (numMessages : Nat) → Except Exception FeedVector :=
  generateWith R fun i => Generator.stepNarrow (padding i) i

/-- `generate_wide_feed`, with any contents of the padding bytes. -/
def generateWideFeed (R : RandomSource) (padding : Nat → Vector UInt8 6) (seed : UInt64)
    (numMessages : Nat) (depth : Nat := 300) : Except Exception FeedVector :=
  generateWith R (fun i => Generator.stepWide depth (padding i) i) seed numMessages

/-- `run_generate`. Returns its exit code and what the file holds afterwards. -/
def runGenerate (R : RandomSource) (padding : Nat → Vector UInt8 6) (opens : Bool)
    (file : Option (List UInt8)) (count : Nat) (seed : UInt64) (wide : Bool) :
    Except Exception (Nat × Option (List UInt8)) := do
  let msgs ← (if wide then generateWideFeed R padding seed count
    else generateFeed R padding seed count)
  let (ok, file) := saveFeedFile opens file msgs
  pure (if ok then 0 else 1, file)

end LimitOrderBook
