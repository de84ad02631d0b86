import LimitOrderBook.Book.Differential
import LimitOrderBook.Book.Representation
import LimitOrderBook.Latency.Histogram
import LimitOrderBook.Listen.Ingest

/-!
# Measured stages

The measurements around the book: the pass of `latency_bench.cpp` over a feed, with its four stamps
for each message, and the loop of `run_xdp_listen` with the two stamps of its frame handler. Clocks
are read from outside, so the stamps are arguments; differences of stamps wrap to 64 bits.
`tsc_clock.hpp` converts them to nanoseconds with 128 bits, and `latency_report.hpp` prints rows of
quantiles.

Division by zero is undefined, and a function that divides has no value then.
-/

namespace LimitOrderBook

/-! ## Stamps -/

/-- A number of stamp units and the nanoseconds that they take. -/
structure StampCalibration where
  ticks : UInt64 := 1
  ns : UInt64 := 1

namespace StampCalibration

/-- `to_ns`. -/
def toNs (cal : StampCalibration) (t : UInt64) : Option UInt64 :=
  if cal.ticks = 0 then none
  else
    let product : BitVec 128 := t.toBitVec.setWidth 128 * cal.ns.toBitVec.setWidth 128
    some (UInt64.ofBitVec ((product / cal.ticks.toBitVec.setWidth 128).setWidth 64))

/-- `mhz`. -/
def mhz (cal : StampCalibration) : Option UInt64 :=
  if cal.ns = 0 then none else some (cal.ticks * 1000 / cal.ns)

end StampCalibration

/-- `calibrate_stamps`, for the readings of the clocks: `n0` and `t0` before the loop, one reading
for each iteration, and `t1` behind it. There is no calibration as long as the loop goes on. -/
def calibrateStamps (windowNs n0 t0 t1 : UInt64) : List UInt64 → Option StampCalibration
  | [] => none
  | n1 :: readings =>
      if n1 - n0 < windowNs then calibrateStamps windowNs n0 t0 t1 readings
      else some ⟨t1 - t0, n1 - n0⟩

/-- The window of `calibrate_stamps` by default. -/
def kCalibrationWindowNs : UInt64 := 200000000

/-- The numbers of a row of `print_latency_row`. -/
structure LatencyRow where
  count : UInt64
  min : UInt64
  p50 : UInt64
  p99 : UInt64
  p999 : UInt64
  p9999 : UInt64
  max : UInt64
  deriving DecidableEq, Repr

/-- `print_latency_row`. -/
def latencyRow (h : LatencyHistogram) (cal : StampCalibration) : Option LatencyRow := do
  let min ← cal.toNs h.min
  let p50 ← cal.toNs (h.quantilePpm 500000)
  let p99 ← cal.toNs (h.quantilePpm 990000)
  let p999 ← cal.toNs (h.quantilePpm 999000)
  let p9999 ← cal.toNs (h.quantilePpm 999900)
  let max ← cal.toNs h.max
  pure ⟨h.count, min, p50, p99, p999, p9999, max⟩

/-! ## The pass of the benchmark -/

/-- The four stamps of a message. -/
structure StageStamps where
  t0 : UInt64
  t1 : UInt64
  t2 : UInt64
  t3 : UInt64

/-- `StageHistograms`. -/
structure StageHistograms where
  add : LatencyHistogram := {}
  cancel : LatencyHistogram := {}
  signals : LatencyHistogram := {}
  publish : LatencyHistogram := {}
  total : LatencyHistogram := {}

/-- What a pass records of a message. -/
def StageHistograms.record (h : StageHistograms) (msg : FeedMessage) (t : StageStamps) :
    Result StageHistograms := do
  let h ← (if msg.type = .addOrder then do
      let add ← h.add.record (t.t1 - t.t0)
      pure { h with add := add }
    else do
      let cancel ← h.cancel.record (t.t1 - t.t0)
      pure { h with cancel := cancel })
  let signals ← h.signals.record (t.t2 - t.t1)
  let publish ← h.publish.record (t.t3 - t.t2)
  let total ← h.total.record (t.t3 - t.t0)
  pure { h with signals := signals, publish := publish, total := total }

/-- The rows of the stages that `bench` prints. -/
structure StageRows where
  add : LatencyRow
  cancel : LatencyRow
  signals : LatencyRow
  publish : LatencyRow
  total : LatencyRow

/-- The report of `bench` on the stages. -/
def StageHistograms.rows (h : StageHistograms) (cal : StampCalibration) : Option StageRows := do
  let add ← latencyRow h.add cal
  let cancel ← latencyRow h.cancel cal
  let signals ← latencyRow h.signals cal
  let publish ← latencyRow h.publish cal
  let total ← latencyRow h.total cal
  pure ⟨add, cancel, signals, publish, total⟩

/-- A book as the benchmark uses it. -/
structure BenchBook where
  Book : Type
  fresh : Book
  applyMessage : Book → FeedMessage → Result Book
  topLevels : Book → Side → Nat → List LevelQty
  fills : Book → List Fill

/-- The variables of a pass, with the snapshots that it has given to `publish`. -/
structure Pass (B : BenchBook) where
  book : B.Book := B.fresh
  sig : BookSignals := {}
  offered : List BookSignals := []
  hist : Option StageHistograms

namespace Pass

variable {B : BenchBook}

/-- One message of a pass. -/
def step (p : Pass B) (m : FeedMessage × StageStamps) : Result (Pass B) := do
  let book ← B.applyMessage p.book m.1
  let sig ← computeSignals (B.topLevels book) p.sig
  let hist ← (match p.hist with
    | some h => do
        let h ← h.record m.1 m.2
        pure (some h)
    | none => pure none)
  pure ⟨book, sig, p.offered ++ [sig], hist⟩

end Pass

/-- `run_pass`, on a book that is fresh. -/
def runPass (B : BenchBook) (hist : Option StageHistograms)
    (msgs : List (FeedMessage × StageStamps)) : Result (Pass B) :=
  msgs.foldlM Pass.step { hist := hist }

/-- The messages of a feed with the stamps that the clock gives them. -/
def stamped (msgs : List FeedMessage) (clock : Nat → StageStamps) :
    List (FeedMessage × StageStamps) :=
  msgs.mapIdx fun i msg => (msg, clock i)

/-- The two passes of `bench`, each on a fresh book: one to warm up, and one that is timed. -/
def bench (B : BenchBook) (msgs : List FeedMessage) (warmClock clock : Nat → StageStamps) :
    Result (Pass B × Pass B) := do
  let warm ← runPass B none (stamped msgs warmClock)
  let timed ← runPass B (some {}) (stamped msgs clock)
  pure (warm, timed)

/-- The order book in the benchmark. -/
def ladderBook (poolCapacity windowSize : Nat) : BenchBook where
  Book := OrderBook poolCapacity windowSize
  fresh := {}
  applyMessage := OrderBook.applyMessage
  topLevels := OrderBook.topLevels
  fills b := b.engine.fills

/-- `apply_message` of the map-backed book. -/
def MapOrderBook.applyMessage {poolCapacity : Nat} (b : MapOrderBook poolCapacity)
    (msg : FeedMessage) : Result (MapOrderBook poolCapacity) :=
  if msg.type = .addOrder then b.addOrder msg.id msg.side msg.price msg.qty msg.ts
  else if msg.type = .cancelOrder then do
    let (_, b) ← b.cancelOrder msg.id
    pure b
  else pure b

/-- The map-backed book in the benchmark. -/
def mapBook (poolCapacity : Nat) : BenchBook where
  Book := MapOrderBook poolCapacity
  fresh := {}
  applyMessage := MapOrderBook.applyMessage
  topLevels := MapOrderBook.topLevels
  fills b := b.engine.fills

/-! ## The loop of the listener -/

/-- A frame with the stamps of its handler. -/
structure StampedFrame where
  frame : List UInt8
  t0 : UInt64
  t1 : UInt64

/-- The variables of the loop. -/
structure ListenLoop (poolCapacity windowSize : Nat) where
  batchStart : UInt64 := 0
  book : OrderBook poolCapacity windowSize := {}
  sig : BookSignals := {}
  offered : List BookSignals := []
  latRx : LatencyHistogram := {}
  latFrame : LatencyHistogram := {}

namespace ListenLoop

variable {poolCapacity windowSize : Nat}

/-- The frame handler. -/
def onFrame (l : ListenLoop poolCapacity windowSize) (f : StampedFrame) :
    Result (ListenLoop poolCapacity windowSize) :=
  let l := { l with batchStart := if l.batchStart = 0 then f.t0 else l.batchStart }
  match messageOf f.frame with
  | none => pure l
  | some msg => do
      let (book, sig) ← Listener.handleMessage l.book l.sig msg
      let latRx ← l.latRx.record (f.t1 - l.batchStart)
      let latFrame ← l.latFrame.record (f.t1 - f.t0)
      pure { l with
        book := book, sig := sig, offered := l.offered ++ [sig], latRx := latRx,
        latFrame := latFrame }

/-- A call of `poll`, which hands over a batch of frames. -/
def poll (l : ListenLoop poolCapacity windowSize) (batch : List StampedFrame) :
    Result (ListenLoop poolCapacity windowSize) :=
  batch.foldlM onFrame { l with batchStart := 0 }

/-- The loop until `g_stop` is seen. -/
def run (l : ListenLoop poolCapacity windowSize) (batches : List (List StampedFrame)) :
    Result (ListenLoop poolCapacity windowSize) :=
  batches.foldlM poll l

end ListenLoop

end LimitOrderBook
