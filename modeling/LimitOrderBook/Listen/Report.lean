import LimitOrderBook.Latency.Stages
import LimitOrderBook.Library.DecimalText

/-!
# What the programs print

The lines that `replay` and `xdp-listen` print about a book, `print_scaled` and `print_signals` of
`signals.hpp` included, and the test of `xdp_loopback_test.sh`, which compares them. A line is a
list of characters without the newline.

The times in the output are arguments. Messages to the error stream are left out. Quantities are
printed as the 64-bit integers in which the programs add them up.
-/

namespace LimitOrderBook

/-- A line of output. -/
abbrev Line := List Char

/-- `print_scaled`. -/
def printScaled (v : Int) : Line :=
  let word := UInt64.ofInt v
  let mag := if v < 0 then 0 - word else word
  let scale := UInt64.ofInt kSignalScale
  (if v < 0 then "-".toList else []) ++ DecimalText.ofNat (mag / scale).toNat ++
    '.' :: DecimalText.padded 6 (mag % scale).toNat

/-- `print_signals`. -/
def printSignals (s : BookSignals) : List Line :=
  let quoted (v : Int) : Line := if s.twoSided then printScaled v else "(n/a)".toList
  ["mid: ".toList ++ quoted s.midScaled, "microprice: ".toList ++ quoted s.microprice] ++
    (kImbalanceDepths.zip s.imbalance).map fun d =>
      "imbalance@".toList ++ DecimalText.ofNat d.1 ++ ": ".toList ++ printScaled d.2

/-- `g_fill_count`, which `report_fill` counts. -/
def fillCount (fills : List Fill) : UInt64 := UInt64.ofNat fills.length

/-- `g_traded_qty`, which `report_fill` adds up in 64 bits. -/
def gTradedQty (fills : List Fill) : Quantity :=
  fills.foldl (fun traded f => wrap64 (traded + f.qty)) 0

/-- A price that may be missing. -/
def printPrice : Option Price → Line
  | some p => DecimalText.ofInt p
  | none => "(none)".toList

/-- The lines on the book, in `run_replay` as well as in `run_xdp_listen`. -/
def reportLines (r : Report) : List Line :=
  ["fills: ".toList ++ DecimalText.ofNat (fillCount r.fills).toNat ++ ", traded qty: ".toList ++
      DecimalText.ofInt (gTradedQty r.fills),
    "best bid: ".toList ++ printPrice r.bestBid, "best ask: ".toList ++ printPrice r.bestAsk,
    "resting qty: ".toList ++ DecimalText.ofInt (wrap64 r.totalRestingQty),
    "rejected: pool_exhausted=".toList ++ DecimalText.ofNat r.stats.poolExhausted.toNat ++
      " duplicate_id=".toList ++ DecimalText.ofNat r.stats.duplicateId.toNat] ++
    printSignals r.signals

/-- The output of `run_replay`, for a file of so many messages. -/
def replayOutput (messages : Nat) (path : Line) (r : Report) : List Line :=
  ("replayed ".toList ++ DecimalText.ofNat messages ++ " messages from ".toList ++ path) ::
    reportLines r

/-! ## The end of the listener -/

/-- `same_signals`. -/
def sameSignals (a b : BookSignals) : Bool :=
  if a.bestBid ≠ b.bestBid ∨ a.bestAsk ≠ b.bestAsk ∨ a.bidQty ≠ b.bidQty ∨ a.askQty ≠ b.askQty ∨
      a.microprice ≠ b.microprice then false
  else (List.range kNumImbalanceDepths).all fun d => a.imbalance[d]? = b.imbalance[d]?

/-- The counters of `struct xdp_statistics`. -/
structure XdpStatistics where
  rxDropped : UInt64
  rxInvalidDescs : UInt64
  txInvalidDescs : UInt64
  rxRingFull : UInt64
  rxFillRingEmptyDescs : UInt64
  txRingEmptyDescs : UInt64

/-- What `run_xdp_listen` prints from at the end: the report on the book, the statistics if the
kernel has given them, what publisher and consumer have counted, the last snapshot that was
received, and the measurements. -/
structure ListenEnd where
  report : Report
  xdpStats : Option XdpStatistics
  published : UInt64
  dropped : UInt64
  mdReceived : UInt64
  mdLast : BookSignals
  mhz : UInt64
  latRx : LatencyRow
  latFrame : LatencyRow

/-- The line on the statistics of the kernel. -/
def xdpLine (s : XdpStatistics) : Line :=
  "xdp stats: rx_dropped=".toList ++ DecimalText.ofNat s.rxDropped.toNat ++
    " rx_invalid_descs=".toList ++ DecimalText.ofNat s.rxInvalidDescs.toNat ++
    " rx_ring_full=".toList ++ DecimalText.ofNat s.rxRingFull.toNat ++
    " rx_fill_ring_empty_descs=".toList ++ DecimalText.ofNat s.rxFillRingEmptyDescs.toNat ++
    " tx_invalid_descs=".toList ++ DecimalText.ofNat s.txInvalidDescs.toNat ++
    " tx_ring_empty_descs=".toList ++ DecimalText.ofNat s.txRingEmptyDescs.toNat

/-- The line on the publisher and its consumer. -/
def mdLine (e : ListenEnd) : Line :=
  "md: published=".toList ++ DecimalText.ofNat e.published.toNat ++ " dropped=".toList ++
    DecimalText.ofNat e.dropped.toNat ++ " consumer_received=".toList ++
    DecimalText.ofNat e.mdReceived.toNat ++ " last_snapshot_matches_book=".toList ++
    (if e.published = 0 then "n/a".toList
      else if sameSignals e.mdLast e.report.signals then "yes".toList else "no".toList)

/-- A column of the latency rows. -/
def column (width : Nat) (v : UInt64) : Line :=
  ' ' :: (DecimalText.ofNat v.toNat).leftpad width ' '

/-- A row of `print_latency_row`. -/
def latencyLine (name : Line) (row : LatencyRow) : Line :=
  name.rightpad 9 ' ' ++ column 10 row.count ++ column 8 row.min ++ column 8 row.p50 ++
    column 8 row.p99 ++ column 8 row.p999 ++ column 8 row.p9999 ++ column 10 row.max

/-- `print_latency_header`. -/
def latencyHeader : Line :=
  "stage".toList.rightpad 9 ' ' ++ [("count", 10), ("min", 8), ("p50", 8), ("p99", 8), ("p99.9", 8),
    ("p99.99", 8), ("max", 10)].flatMap (fun c => ' ' :: c.1.toList.leftpad c.2 ' ') ++
    "   (ns)".toList

/-- The line above the latency rows. -/
def clockLine (mhz : UInt64) : Line :=
  "latency on this machine (stamp clock ".toList ++ DecimalText.ofNat mhz.toNat ++ " MHz):".toList

/-- The lines of `run_xdp_listen` behind those on the book. -/
def endLines (e : ListenEnd) : List Line :=
  (e.xdpStats.map xdpLine).toList ++
    [mdLine e, clockLine e.mhz, latencyHeader, latencyLine "rx->pub".toList e.latRx,
      latencyLine "frame".toList e.latFrame]

/-- The first line of `run_xdp_listen`. -/
def boundLine (ifname bpfObj : Line) (queueId : Nat) : Line :=
  "xdp-listen: bound to ".toList ++ ifname ++ " queue ".toList ++ DecimalText.ofNat queueId ++
    " (bpf obj: ".toList ++ bpfObj ++ "), ctrl+C to stop".toList

/-- The output of `run_xdp_listen`, for the interface that it was bound to. -/
def listenOutput (ifname bpfObj : Line) (queueId : Nat) (e : ListenEnd) : List Line :=
  boundLine ifname bpfObj queueId :: (reportLines e.report ++ endLines e)

/-! ## The loopback test -/

/-- The words of `BOOK_LINES`. -/
def bookWords : List String :=
  ["fills", "best bid", "best ask", "resting qty", "rejected", "mid", "microprice", "imbalance@"]

/-- The lines that `BOOK_LINES` selects. -/
def bookLine (line : Line) : Bool := bookWords.any fun word => word.toList.isPrefixOf line

/-- How the line on a kernel begins that has dropped nothing. -/
def nothingDropped : Line :=
  "xdp stats: rx_dropped=0 rx_invalid_descs=0 rx_ring_full=0 rx_fill_ring_empty_descs=0 ".toList

/-- How the line on the publisher begins if so many snapshots were published and received. -/
def allReceived (messages : Nat) : Line :=
  "md: published=".toList ++ DecimalText.ofNat messages ++ " dropped=0 consumer_received=".toList ++
    DecimalText.ofNat messages ++ " last_snapshot_matches_book=yes".toList

/-- The verdict of `xdp_loopback_test.sh` on the outputs of `replay` and of `xdp-listen`. -/
def loopbackPasses (messages : Nat) (expected listened : List Line) : Bool :=
  expected.filter bookLine = listened.filter bookLine && listened.any nothingDropped.isPrefixOf &&
    listened.any (allReceived messages).isPrefixOf

end LimitOrderBook
