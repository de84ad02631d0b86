import LimitOrderBook.Book.Representation
import LimitOrderBook.Publisher.Model
import LimitOrderBook.Signals.Model
import Mathlib.Data.Fin.VecNotation

/-!
# The two threads of the listener

`run_xdp_listen` of `xdp_listen_cmd.cpp`, from the frame handler on. The book thread applies a
message, computes the signals and publishes them; when it stops it sets `md_stop`. The market-data
consumer polls; when it finds nothing it reads `md_stop`, and once that is set it drains the ring
and returns. The publish ring is `PublishSystem`, so every load and store of an index and every copy
of a word of a snapshot is a step of its own, and so are the load and the store of `md_stop`.

What happens on the book thread between two accesses to shared memory is one step.
-/

namespace LimitOrderBook

/-! ## Snapshots -/

/-- The eight words of a snapshot. -/
def BookSignals.words (s : BookSignals) : Item Int 8 :=
  ![s.bestBid, s.bestAsk, s.bidQty, s.askQty, s.microprice, s.imbalance.getD 0 0,
    s.imbalance.getD 1 0, s.imbalance.getD 2 0]

/-- The snapshot with these words. -/
def BookSignals.ofWords (w : Item Int 8) : BookSignals where
  bestBid := w 0
  bestAsk := w 1
  bidQty := w 2
  askQty := w 3
  microprice := w 4
  imbalance := [w 5, w 6, w 7]

/-- A snapshot is recovered from its words. -/
theorem BookSignals.ofWords_words {s : BookSignals}
    (hlen : s.imbalance.length = kNumImbalanceDepths) : ofWords s.words = s := by
  obtain ⟨bestBid, bestAsk, bidQty, askQty, microprice, imbalance⟩ := s
  match imbalance, hlen with
  | [_, _, _], _ => rfl

/-! ## The threads -/

/-- Where the book thread is. -/
inductive BookThread where
  /-- Waiting for a frame. -/
  | waiting
  /-- In `publish` of the signals it has computed. -/
  | publishing
  /-- Past the store of `md_stop`. -/
  | stopped
  deriving DecidableEq, Repr

/-- Where the market-data consumer is. -/
inductive MdConsumer where
  /-- In or before the `poll` at the head of its loop. -/
  | polling
  /-- That `poll` has returned false. -/
  | foundNone
  /-- It has seen `md_stop` and is in the second loop. -/
  | draining
  | returned
  deriving DecidableEq, Repr

/-- A step of `publish` on the book thread. -/
inductive PublishStep where
  | call
  | loadTail
  | copyIn (k : Fin 8)
  | storeHead

/-- A step of `poll` on the consumer thread. -/
inductive PollStep where
  | call
  | loadHead
  | copyOut (k : Fin 8)
  | storeTail

/-- The step of the ring, for the snapshot that is published. -/
def PublishStep.on (sig : BookSignals) : PublishStep → ThreadStep Int 8
  | .call => .publish sig.words
  | .loadTail => .loadTail
  | .copyIn k => .copyIn k
  | .storeHead => .storeHead

/-- The step of the ring, for the snapshot that `poll` writes into. -/
def PollStep.on (s : BookSignals) : PollStep → ThreadStep Int 8
  | .call => .poll s.words
  | .loadHead => .loadHead
  | .copyOut k => .copyOut k
  | .storeTail => .storeTail

/-- A step of one of the threads. -/
inductive ListenStep where
  /-- The book thread applies a message and computes the signals. -/
  | handle (msg : FeedMessage)
  | publish (a : PublishStep)
  /-- The book thread stores `md_stop`. -/
  | stop
  | poll (a : PollStep)
  /-- The consumer loads `md_stop`. -/
  | loadStop

/-- The book, the publish ring, the flag and the variables of the two threads. -/
structure Listener (poolCapacity windowSize capacity : Nat) where
  ring : PublishSystem Int 8 capacity
  book : OrderBook poolCapacity windowSize := {}
  sig : BookSignals := {}
  bookThread : BookThread := .waiting
  mdStop : Bool := false
  mdConsumer : MdConsumer := .polling
  s : BookSignals := {}
  mdReceived : UInt64 := 0
  mdLast : BookSignals := {}

namespace Listener

variable {poolCapacity windowSize capacity : Nat}

/-- The threads before their first step, with any contents of the ring's slots. -/
def fresh (buffer : Nat → Item Int 8) : Listener poolCapacity windowSize capacity :=
  { ring := .fresh buffer }

/-- What the frame handler does with a message before it publishes. -/
def handleMessage (b : OrderBook poolCapacity windowSize) (sig : BookSignals) (msg : FeedMessage) :
    Result (OrderBook poolCapacity windowSize × BookSignals) := do
  let b ← b.applyMessage msg
  let sig ← computeSignals b.topLevels sig
  pure (b, sig)

/-- What the consumer does after `poll` has returned. -/
def afterPoll (l : Listener poolCapacity windowSize capacity) :
    Option (Item Int 8) → Listener poolCapacity windowSize capacity
  | some item =>
      { l with s := .ofWords item, mdReceived := l.mdReceived + 1, mdLast := .ofWords item }
  | none =>
      match l.mdConsumer with
      | .draining => { l with mdConsumer := .returned }
      | _ => { l with mdConsumer := .foundNone }

/-- One step of a thread, and the call that returns in it. There is no such step if the thread is
not where it takes it, and none if applying the message is a fault. -/
def step (l : Listener poolCapacity windowSize capacity) :
    ListenStep → Option (Listener poolCapacity windowSize capacity × List (Returned Int 8))
  | .handle msg =>
      match l.bookThread, handleMessage l.book l.sig msg with
      | .waiting, .ok (book, sig) =>
          some ({ l with book := book, sig := sig, bookThread := .publishing }, [])
      | _, _ => none
  | .publish a =>
      match l.bookThread, l.ring.step (a.on l.sig) with
      | .publishing, some (ring, returned) =>
          let bookThread := if returned = [] then BookThread.publishing else .waiting
          some ({ l with ring := ring, bookThread := bookThread }, returned)
      | _, _ => none
  | .stop =>
      match l.bookThread with
      | .waiting => some ({ l with mdStop := true, bookThread := .stopped }, [])
      | _ => none
  | .poll a =>
      if l.mdConsumer = .polling ∨ l.mdConsumer = .draining then
        match l.ring.step (a.on l.s) with
        | some (ring, [.poll item]) => some ({ l with ring := ring }.afterPoll item, [.poll item])
        | some (ring, returned) => some ({ l with ring := ring }, returned)
        | none => none
      else none
  | .loadStop =>
      match l.mdConsumer with
      | .foundNone =>
          let mdConsumer := if l.mdStop then MdConsumer.draining else .polling
          some ({ l with mdConsumer := mdConsumer }, [])
      | _ => none

/-- An interleaving of steps, and the calls that return in it. -/
def run (l : Listener poolCapacity windowSize capacity) : List ListenStep →
    Option (Listener poolCapacity windowSize capacity × List (Returned Int 8))
  | [] => some (l, [])
  | a :: as => do
      let (l₁, returned) ← l.step a
      let (l₂, returned') ← l₁.run as
      some (l₂, returned ++ returned')

end Listener

end LimitOrderBook
