import LimitOrderBook.Order
import Mathlib.Logic.Function.Basic

/-!
# The latency histogram

The class of `latency_histogram.hpp`: a fixed array of counters, one for each bucket of a log-linear
partition of the 64-bit values. The counters and the values are 64-bit words and wrap as in the
source, the bit positions are 32-bit words, and the rank of a quantile is computed with 128 bits.
-/

namespace LimitOrderBook

namespace LatencyHistogram

/-- The number of bits that are kept exactly. -/
def kExactBits : UInt32 := 8

/-- The values below are exact. -/
def kExact : UInt64 := 1 <<< kExactBits.toUInt64

/-- The number of buckets of an octave. -/
def kSubBuckets : UInt64 := kExact / 2

/-- The number of bits that are tracked. -/
def kMaxBits : UInt32 := 40

/-- The largest value that is tracked. -/
def kMaxValue : UInt64 := (1 <<< kMaxBits.toUInt64) - 1

/-- The number of buckets. -/
def kNumBuckets : UInt64 := kExact + (kMaxBits - kExactBits).toUInt64 * kSubBuckets

/-- The bucket of a value. -/
def bucketOf (v : UInt64) : UInt64 :=
  if v < kExact then v
  else
    let msb : UInt32 := 63 - UInt32.ofNat v.toBitVec.clz.toNat
    let shift : UInt32 := msb - (kExactBits - 1)
    let sub := v >>> shift.toUInt64
    kExact + (shift - 1).toUInt64 * kSubBuckets + (sub - kSubBuckets)

/-- The largest value of a bucket. -/
def bucketUpper (i : UInt64) : UInt64 :=
  if i < kExact then i
  else
    let k := i - kExact
    let shift : UInt32 := (k / kSubBuckets).toUInt32 + 1
    let sub := kSubBuckets + k % kSubBuckets
    (sub <<< shift.toUInt64) + ((1 <<< shift.toUInt64) - 1)

end LatencyHistogram

/-- The counters of a histogram, and the smallest and the largest value so far. -/
structure LatencyHistogram where
  counts : Nat → UInt64 := fun _ => 0
  total : UInt64 := 0
  overflow : UInt64 := 0
  minValue : UInt64 := ~~~0
  maxValue : UInt64 := 0

namespace LatencyHistogram

/-- Count a value. A value that is too large is counted as the largest one that is tracked. -/
def record (h : LatencyHistogram) (v : UInt64) : Result LatencyHistogram :=
  let overflow := if v > kMaxValue then h.overflow + 1 else h.overflow
  let v := if v > kMaxValue then kMaxValue else v
  let i := bucketOf v
  if i < kNumBuckets then
    .ok
      { counts := Function.update h.counts i.toNat (h.counts i.toNat + 1)
        total := h.total + 1
        overflow := overflow
        minValue := if v < h.minValue then v else h.minValue
        maxValue := if v > h.maxValue then v else h.maxValue }
  else .error .outOfRange

/-- Count the values of a list. -/
def recordAll (h : LatencyHistogram) (vs : List UInt64) : Result LatencyHistogram :=
  vs.foldlM record h

variable (h : LatencyHistogram)

/-- The number of values. -/
def count : UInt64 := h.total

/-- The number of values that were too large. -/
def overflowCount : UInt64 := h.overflow

/-- The smallest value, or zero. -/
protected def min : UInt64 := if h.total ≠ 0 then h.minValue else 0

/-- The largest value, or zero. -/
protected def max : UInt64 := h.maxValue

/-- The rank of a quantile in parts per million. -/
def rankPpm (ppm : UInt64) : UInt64 :=
  let num : BitVec 128 := h.total.toBitVec.setWidth 128 * ppm.toBitVec.setWidth 128
  let rank := UInt64.ofBitVec (((num + 999999#128) / 1000000#128).setWidth 64)
  if rank = 0 then 1 else rank

/-- The loop of `quantilePpm`: the buckets from `i` on, of which there are `fuel`, with the number
of values seen before. -/
def quantileLoop (rank : UInt64) : Nat → Nat → UInt64 → UInt64
  | 0, _, _ => h.maxValue
  | fuel + 1, i, seen =>
      let seen := seen + h.counts i
      if seen ≥ rank then
        let hi := bucketUpper (UInt64.ofNat i)
        if hi < h.maxValue then hi else h.maxValue
      else quantileLoop rank fuel (i + 1) seen

/-- A quantile in parts per million: the end of its bucket, but not more than the largest value. -/
def quantilePpm (ppm : UInt64) : UInt64 :=
  if h.total = 0 then 0 else h.quantileLoop (h.rankPpm ppm) kNumBuckets.toNat 0 0

end LatencyHistogram

end LimitOrderBook
