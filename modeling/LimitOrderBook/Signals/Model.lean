import LimitOrderBook.Book.Engine

/-!
# Signals

The signal layer of `signals.hpp`: quotes, microprice and imbalance, computed from the depth of
the book. Signals are fixed-point integers in units of `1 / kSignalScale`. Arithmetic wraps to the
64 or 128 bits of its type in the source; division truncates towards zero.

The accumulation loop is written over an arbitrary list of depths. An index of the depths or of
the output beyond the end of the array is a fault.
-/

namespace LimitOrderBook

/-- The 128-bit two's-complement value of an integer. -/
def wrap128 (x : Int) : Int := x.bmod (2 ^ 128)

/-- The units of a signal in a tick. -/
def kSignalScale : Int := 1000000

/-- The depths, in price levels, at which imbalance is reported. -/
def kImbalanceDepths : List Nat := [1, 3, 5]

/-- The number of these depths. -/
def kNumImbalanceDepths : Nat := kImbalanceDepths.length

/-- The deepest one. -/
def kMaxSignalDepth : Nat := kImbalanceDepths.getD (kNumImbalanceDepths - 1) 0

/-- The size-weighted mid of the top of the book. -/
def micropriceScaled (bid : Price) (bidQty : Quantity) (ask : Price) (askQty : Quantity) : Int :=
  let product := wrap128 (wrap128 (wrap64 (ask - bid) * bidQty) * kSignalScale)
  let offset := wrap128 (product.tdiv (wrap64 (bidQty + askQty)))
  wrap64 (wrap128 (wrap128 (bid * kSignalScale) + offset))

/-- What `microprice_scaled` requires of its arguments. -/
def MicropricePre (bid : Price) (bidQty : Quantity) (ask : Price) (askQty : Quantity) : Prop :=
  bid < ask ∧ 0 < bidQty ∧ 0 < askQty

/-- The imbalance of two quantities. -/
def imbalanceScaled (bidQty askQty : Quantity) : Int :=
  let total := wrap64 (bidQty + askQty)
  if total = 0 then 0
  else wrap64 (wrap128 ((wrap128 (wrap64 (bidQty - askQty) * kSignalScale)).tdiv total))

/-- The signals of a book. A side without orders has quantity 0. -/
structure BookSignals where
  bestBid : Price := 0
  bestAsk : Price := 0
  bidQty : Quantity := 0
  askQty : Quantity := 0
  microprice : Int := 0
  imbalance : List Int := List.replicate kNumImbalanceDepths 0
  deriving DecidableEq, Repr

namespace BookSignals

/-- `has_bid`. -/
def hasBid (s : BookSignals) : Bool := s.bidQty > 0

/-- `has_ask`. -/
def hasAsk (s : BookSignals) : Bool := s.askQty > 0

/-- `two_sided`. -/
def twoSided (s : BookSignals) : Bool := s.hasBid && s.hasAsk

/-- `mid_scaled`. -/
def midScaled (s : BookSignals) : Int :=
  if s.twoSided then
    wrap64 (wrap64 (s.bestBid * kSignalScale) +
      wrap64 (wrap64 (s.bestAsk - s.bestBid) * (kSignalScale / 2)))
  else 0

end BookSignals

/-! ## The computation -/

/-- The quotes: price and quantity of the first level of each side. -/
def setQuotes (bids asks : List LevelQty) (out : BookSignals) : BookSignals :=
  { out with
    bestBid := (bids.head?.map LevelQty.price).getD 0
    bidQty := (bids.head?.map LevelQty.qty).getD 0
    bestAsk := (asks.head?.map LevelQty.price).getD 0
    askQty := (asks.head?.map LevelQty.qty).getD 0 }

/-- The microprice of the quotes, if both sides have one. -/
def setMicroprice (bids asks : List LevelQty) (out : BookSignals) : BookSignals :=
  { out with
    microprice :=
      if bids.length ≠ 0 ∧ asks.length ≠ 0 then
        micropriceScaled out.bestBid out.bidQty out.bestAsk out.askQty
      else 0 }

/-- The variables of the accumulation loop and the array that it writes. -/
structure Accumulator where
  cumBid : Quantity := 0
  cumAsk : Quantity := 0
  d : Nat := 0
  imbalance : List Int

namespace Accumulator

/-- The cumulative quantity of a side with one more level, if it has that level. -/
def cumulate (levels : List LevelQty) (level : Nat) (cum : Quantity) : Quantity :=
  match levels[level]? with
  | some x => wrap64 (cum + x.qty)
  | none => cum

/-- One iteration of the accumulation loop. -/
def step (depths : List Nat) (bids asks : List LevelQty) (level : Nat) (a : Accumulator) :
    Result Accumulator :=
  let cumBid := cumulate bids level a.cumBid
  let cumAsk := cumulate asks level a.cumAsk
  match depths[a.d]? with
  | none => .error .outOfRange
  | some depth =>
      if level + 1 = depth then
        if a.d < a.imbalance.length then
          pure ⟨cumBid, cumAsk, a.d + 1, a.imbalance.set a.d (imbalanceScaled cumBid cumAsk)⟩
        else .error .outOfRange
      else pure ⟨cumBid, cumAsk, a.d, a.imbalance⟩

/-- The accumulation loop from `level` on, with `left` levels left. -/
def loop (depths : List Nat) (bids asks : List LevelQty) :
    (left level : Nat) → Accumulator → Result Accumulator
  | 0, _, a => pure a
  | left + 1, level, a => do
      let a ← a.step depths bids asks level
      loop depths bids asks left (level + 1) a

end Accumulator

/-- `compute_signals` of a book that shows its depth by `topLevels`. -/
def computeSignals (topLevels : Side → Nat → List LevelQty) (out : BookSignals) :
    Result BookSignals := do
  let bids := topLevels .buy kMaxSignalDepth
  let asks := topLevels .sell kMaxSignalDepth
  let out := setMicroprice bids asks (setQuotes bids asks out)
  let a ← Accumulator.loop kImbalanceDepths bids asks kMaxSignalDepth 0
    { imbalance := out.imbalance }
  pure { out with imbalance := a.imbalance }

end LimitOrderBook
