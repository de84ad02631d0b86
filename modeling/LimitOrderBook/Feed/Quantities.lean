import LimitOrderBook.Signals.Quantities

/-!
# Quantities of a feed

What applying feed messages computes on quantities, and what the reads do that are made in between.
No quantity is bounded by the source, and totals are 64-bit integers. If all levels are added up and
the signals computed after each message, all of this arithmetic is exact if and only if, after each
message, all that rests adds up to a 64-bit integer. In general each message and each read has a
condition of its own (`RestingBook.ScheduleFits`, `feed_quantities_exact_iff`).
-/

namespace LimitOrderBook

/-! ## The arithmetic of a feed -/

/-- `apply_message`. -/
def OrderBook.applyMessageArith {poolCapacity windowSize : Nat}
    (b : OrderBook poolCapacity windowSize) (msg : FeedMessage) : List Computed :=
  if msg.type = .addOrder then b.addOrderArith msg.id msg.side msg.price msg.qty msg.ts
  else if msg.type = .cancelOrder then b.cancelOrderArith msg.id
  else []

/-- A sequence of messages. After each of them the signals are computed and all levels are added
up. -/
def OrderBook.feedArith {poolCapacity windowSize : Nat} (b : OrderBook poolCapacity windowSize) :
    List FeedMessage → List Computed
  | [] => []
  | msg :: msgs =>
      b.applyMessageArith msg ++ onOk (b.applyMessage msg) fun b =>
        b.totalRestingQtyArith ++ computeSignalsArith b.topLevels ++ feedArith b msgs

/-- What is meant to hold of the quantities of a feed: every operation on them yields its exact
result, every level that the book hands out has a positive quantity, and a side reports quantity 0
exactly if no order rests there. What the code hands out is the 64-bit value of a quantity. -/
structure FeedExact {poolCapacity windowSize : Nat} (b : OrderBook poolCapacity windowSize)
    (msgs : List FeedMessage) : Prop where
  operations : Exact .qty (b.feedArith msgs)
  levels : ∀ n b', b.applyMessages (msgs.take n) = .ok b' →
    ∀ side m, ∀ x ∈ b'.topLevels side m, 0 < wrap64 x.qty
  quotes : ∀ n b' out s, b.applyMessages (msgs.take n) = .ok b' →
    computeSignals b'.topLevels out = .ok s →
    (wrap64 s.bidQty = 0 ↔ b'.resting.bids = []) ∧ (wrap64 s.askQty = 0 ↔ b'.resting.asks = [])

/-- The message is well formed: an order has a 64-bit quantity, and a price whose scaled value is a
64-bit integer. -/
def FeedMessage.InRange (msg : FeedMessage) : Prop :=
  msg.type = .addOrder → FitsInt64 msg.qty ∧ InSignalRange msg.price

instance {msg : FeedMessage} : Decidable msg.InRange := inferInstanceAs (Decidable (_ → _))

/-! ## Schedules -/

/-- What is done with a book while a feed is applied: a message, or a read between two messages. -/
inductive FeedStep where
  /-- `apply_message`. -/
  | applyMessage (msg : FeedMessage)
  /-- `total_resting_qty`. -/
  | totalRestingQty
  /-- `compute_signals`. -/
  | computeSignals
  deriving DecidableEq

/-- The messages among the steps. -/
def messagesOf (steps : List FeedStep) : List FeedMessage :=
  steps.filterMap fun
    | .applyMessage msg => some msg
    | _ => none

/-- A sequence of messages and reads. -/
def OrderBook.scheduleArith {poolCapacity windowSize : Nat}
    (b : OrderBook poolCapacity windowSize) : List FeedStep → List Computed
  | [] => []
  | .applyMessage msg :: steps =>
      b.applyMessageArith msg ++ onOk (b.applyMessage msg) fun b => scheduleArith b steps
  | .totalRestingQty :: steps => b.totalRestingQtyArith ++ scheduleArith b steps
  | .computeSignals :: steps => computeSignalsArith b.topLevels ++ scheduleArith b steps

/-- The same is meant to hold of the quantities if the reads are made at other times. -/
structure ScheduleExact {poolCapacity windowSize : Nat} (b : OrderBook poolCapacity windowSize)
    (steps : List FeedStep) : Prop where
  operations : Exact .qty (b.scheduleArith steps)
  levels : ∀ n b', b.applyMessages (messagesOf (steps.take n)) = .ok b' →
    ∀ side m, ∀ x ∈ b'.topLevels side m, 0 < wrap64 x.qty
  quotes : ∀ n b' out s, b.applyMessages (messagesOf (steps.take n)) = .ok b' →
    computeSignals b'.topLevels out = .ok s →
    (wrap64 s.bidQty = 0 ↔ b'.resting.bids = []) ∧ (wrap64 s.askQty = 0 ↔ b'.resting.asks = [])

/-- What each step of a schedule adds up fits: a message what rests at each price, the total all
that rests, and the signals the depths of both sides. -/
def RestingBook.ScheduleFits (capacity : Nat) (b : RestingBook) : List FeedStep → Prop
  | [] => True
  | .applyMessage msg :: steps =>
      (b.apply capacity msg).LevelsFit ∧ ScheduleFits capacity (b.apply capacity msg) steps
  | .totalRestingQty :: steps => b.totalQty ≤ int64Max ∧ ScheduleFits capacity b steps
  | .computeSignals :: steps => SignalsFit b ∧ ScheduleFits capacity b steps

instance decidableScheduleFits (capacity : Nat) (b : RestingBook) :
    ∀ steps, Decidable (b.ScheduleFits capacity steps)
  | [] => isTrue trivial
  | .applyMessage msg :: steps =>
      have := decidableScheduleFits capacity (b.apply capacity msg) steps
      inferInstanceAs (Decidable (_ ∧ _))
  | .totalRestingQty :: steps =>
      have := decidableScheduleFits capacity b steps
      inferInstanceAs (Decidable (_ ∧ _))
  | .computeSignals :: steps =>
      have := decidableScheduleFits capacity b steps
      inferInstanceAs (Decidable (_ ∧ _))

/-- The schedule of a feed with both reads after each message. -/
def readAfterEach (msgs : List FeedMessage) : List FeedStep :=
  msgs.flatMap fun msg => [.applyMessage msg, .totalRestingQty, .computeSignals]

/-- The messages of that schedule are those of the feed. -/
theorem messagesOf_readAfterEach (msgs : List FeedMessage) :
    messagesOf (readAfterEach msgs) = msgs := by
  induction msgs with
  | nil => rfl
  | cons msg msgs ih => exact congrArg (msg :: ·) ih

/-- A price in the range of the signals keeps away from the 64-bit limits, since the window is an
array of 32-byte levels. -/
theorem InSignalRange.priceInRange {windowSize : Nat} (hsize : 32 * windowSize < 2 ^ 64)
    {p : Price} (hp : InSignalRange p) : PriceInRange windowSize p := by
  unfold InSignalRange FitsInt64 kSignalScale at hp
  unfold PriceInRange
  unfold int64Min int64Max at *
  lia

/-- A message keeps the resting orders valid. -/
theorem RestingBook.Valid.apply {b : RestingBook} (hv : b.Valid) (capacity : Nat)
    (msg : FeedMessage) : (b.apply capacity msg).Valid := by
  unfold RestingBook.apply
  cases msg.call? with
  | none => exact hv
  | some c => exact hv.call capacity c

/-- Messages keep the resting orders valid. -/
theorem RestingBook.Valid.applyAll {b : RestingBook} (hv : b.Valid) (capacity : Nat)
    (msgs : List FeedMessage) : (b.applyAll capacity msgs).Valid := by
  induction msgs generalizing b with
  | nil => exact hv
  | cons msg msgs ih => exact ih (b := b.apply capacity msg) (hv.apply capacity msg)

/-! ## What fits -/

section Fits

variable {capacity : Nat} {b : RestingBook}

/-- In a schedule that fits the levels fit all along. -/
theorem RestingBook.ScheduleFits.levelsFit (hfits : b.LevelsFit) {steps : List FeedStep}
    (h : b.ScheduleFits capacity steps) (n : Nat) :
    (b.applyAll capacity (messagesOf (steps.take n))).LevelsFit := by
  induction steps generalizing b n with
  | nil =>
      rw [List.take_nil]
      exact hfits
  | cons step steps ih =>
      cases n with
      | zero => exact hfits
      | succ n =>
          cases step with
          | applyMessage msg => exact ih (b := b.apply capacity msg) h.1 h.2 n
          | totalRestingQty => exact ih hfits h.2 n
          | computeSignals => exact ih hfits h.2 n

/-- With both reads after each message, the total decides. -/
theorem RestingBook.Valid.scheduleFits_iff (hv : b.Valid) (hfits : b.totalQty ≤ int64Max)
    (msgs : List FeedMessage) :
    b.ScheduleFits capacity (readAfterEach msgs) ↔
      ∀ n, (b.applyAll capacity (msgs.take n)).totalQty ≤ int64Max := by
  induction msgs generalizing b with
  | nil =>
      refine iff_of_true trivial fun n => ?_
      rw [List.take_nil]
      exact hfits
  | cons msg msgs ih =>
      have hv' := hv.apply capacity msg
      constructor
      · intro h n
        obtain ⟨-, htotal, -, hrest⟩ := h
        cases n with
        | zero => exact hfits
        | succ n => exact (ih hv' htotal).mp hrest n
      · intro h
        have htotal : (b.apply capacity msg).totalQty ≤ int64Max := h 1
        obtain ⟨hlevels, hsignals⟩ := hv'.fits_of_totalQty htotal
        exact ⟨hlevels, htotal, hsignals, (ih hv' htotal).mpr fun n => h (n + 1)⟩

end Fits

/-! ## Feeds and schedules -/

section Feed

variable {poolCapacity windowSize : Nat} {b : OrderBook poolCapacity windowSize}
  {mb : MapOrderBook poolCapacity} {sb sa : List Shelf}

/-- A feed is the schedule with both reads after each message. -/
theorem feedArith_eq (msgs : List FeedMessage) :
    b.feedArith msgs = b.scheduleArith (readAfterEach msgs) := by
  induction msgs generalizing b with
  | nil => rfl
  | cons msg msgs ih =>
      show _ = b.applyMessageArith msg ++ onOk (b.applyMessage msg) fun b =>
        b.totalRestingQtyArith ++ (computeSignalsArith b.topLevels ++
          b.scheduleArith (readAfterEach msgs))
      rw [OrderBook.feedArith]
      refine congrArg (b.applyMessageArith msg ++ ·)
        (congrArg (onOk (b.applyMessage msg)) (funext fun b => ?_))
      rw [ih, List.append_assoc]

/-- Applying a message is exact on quantities if and only if the levels still fit afterwards. -/
theorem applyMessageArith_exact_iff (hvalid : ValidWindow windowSize)
    (hlock : Lockstep b mb sb sa) (hv : b.resting.Valid) (hfits : b.resting.LevelsFit)
    {msg : FeedMessage}
    (hmsg : msg.type = .addOrder → PriceInRange windowSize msg.price ∧ msg.qty ≤ int64Max)
    {b' : OrderBook poolCapacity windowSize} (hrun : b.applyMessage msg = .ok b') :
    Exact .qty (b.applyMessageArith msg) ↔ b'.resting.LevelsFit := by
  unfold OrderBook.applyMessageArith
  unfold OrderBook.applyMessage at hrun
  split
  · next hadd =>
      rw [if_pos hadd] at hrun
      obtain ⟨⟨accepted, b₁⟩, hadd', heq⟩ := bind_eq_ok.mp hrun
      cases heq
      exact addOrderArith_exact_iff hvalid hlock hv hfits (hmsg hadd).1 (hmsg hadd).2 hadd'
  next hadd =>
  rw [if_neg hadd] at hrun
  split
  · next hcancel =>
      rw [if_pos hcancel] at hrun
      obtain ⟨⟨found, b₁⟩, hcancel', heq⟩ := bind_eq_ok.mp hrun
      cases heq
      refine iff_of_true (cancelOrderArith_exact hvalid hlock hfits _) ?_
      rcases cancelOrder_refines hvalid hlock msg.id with
        ⟨-, hrun', -⟩ | ⟨b₂, -, -, -, -, hrun', -, -, hbook, -⟩
      · rw [hrun'] at hcancel'
        cases hcancel'
        exact hfits
      · rw [hrun'] at hcancel'
        cases hcancel'
        rw [hbook]
        exact hv.levelsFit_cancel hfits _
  · next hcancel =>
      rw [if_neg hcancel] at hrun
      cases hrun
      exact iff_of_true exact_nil hfits

/-- The operations of a schedule from any state are exact on quantities if and only if what each of
its steps adds up fits. -/
theorem scheduleArith_exact_iff (hvalid : ValidWindow windowSize) (hlock : Lockstep b mb sb sa)
    (hv : b.resting.Valid) (hfits : b.resting.LevelsFit) (steps : List FeedStep)
    (hmsgs : ∀ msg ∈ messagesOf steps, msg.type = .addOrder →
      PriceInRange windowSize msg.price ∧ msg.qty ≤ int64Max) :
    Exact .qty (b.scheduleArith steps) ↔ b.resting.ScheduleFits poolCapacity steps := by
  induction steps generalizing b mb sb sa with
  | nil => exact iff_of_true exact_nil trivial
  | cons step steps ih =>
      cases step with
      | applyMessage msg =>
          have hmsg := hmsgs msg List.mem_cons_self
          obtain ⟨b', mb', sb', sa', hrun, hbook, hlock'⟩ := applyMessage_refines hvalid hlock
            fun hadd => (hmsg hadd).1
          have hv' : b'.resting.Valid := by
            rw [hbook]
            exact hv.apply poolCapacity msg
          rw [OrderBook.scheduleArith, RestingBook.ScheduleFits, ← hbook, hrun, onOk_ok,
            exact_append, applyMessageArith_exact_iff hvalid hlock hv hfits hmsg hrun]
          exact and_congr_right fun hfits' => ih hlock' hv' hfits' fun msg hmsg =>
            hmsgs msg (List.mem_cons_of_mem _ hmsg)
      | totalRestingQty =>
          rw [OrderBook.scheduleArith, RestingBook.ScheduleFits, exact_append,
            hlock.totalRestingQtyArith_exact_iff hvalid]
          exact and_congr_right fun _ => ih hlock hv hfits hmsgs
      | computeSignals =>
          rw [OrderBook.scheduleArith, RestingBook.ScheduleFits, exact_append,
            hlock.computeSignalsArith_exact_iff hvalid hv]
          exact and_congr_right fun _ => ih hlock hv hfits hmsgs

/-- The levels that a book hands out have positive quantities that fit. -/
theorem Lockstep.topLevels_fit (hvalid : ValidWindow windowSize) (hlock : Lockstep b mb sb sa)
    (hfits : b.resting.LevelsFit) (side : Side) (n : Nat) :
    ∀ x ∈ b.topLevels side n, 0 < x.qty ∧ wrap64 x.qty = x.qty := by
  rw [(hlock.topLevels_eq hvalid side n).1]
  intro x hx
  obtain ⟨y, hy, rfl⟩ := List.mem_map.mp hx
  have hmem : y ∈ sb ++ sa := by
    have hmem := List.mem_of_mem_take hy
    split at hmem <;> simp [hmem]
  have hpos := hlock.total_pos y hmem
  exact ⟨hpos, wrap64_of_nonneg hpos.le (hlock.total_le hvalid hfits y hmem)⟩

/-- A side reports quantity 0 exactly if no order rests there. -/
theorem Lockstep.quote_eq_zero (hvalid : ValidWindow windowSize) (hlock : Lockstep b mb sb sa)
    (hv : b.resting.Valid) (hfits : b.resting.LevelsFit) (side : Side) :
    wrap64 (((b.topLevels side kMaxSignalDepth).head?.map LevelQty.qty).getD 0) = 0 ↔
      b.resting.side (side = .buy) = [] := by
  have hwrap : wrap64 (((b.topLevels side kMaxSignalDepth).head?.map LevelQty.qty).getD 0) =
      ((b.topLevels side kMaxSignalDepth).head?.map LevelQty.qty).getD 0 := by
    have hlevels := hlock.topLevels_fit hvalid hfits side kMaxSignalDepth
    cases hhead : b.topLevels side kMaxSignalDepth with
    | nil => rfl
    | cons x xs => exact (hlevels x (by simp [hhead])).2
  rw [hwrap, hlock.topLevels_resting hvalid, headQty_depthOf (by decide)]
  exact quoteQty_eq_zero _ (hv.positive _)

/-- What a book is meant to hand out: levels with positive quantities, and quotes with quantity 0
exactly if no order rests there. -/
structure HandsOut (b : OrderBook poolCapacity windowSize) : Prop where
  levels : ∀ side m, ∀ x ∈ b.topLevels side m, 0 < wrap64 x.qty
  quotes : ∀ out s, computeSignals b.topLevels out = .ok s →
    (wrap64 s.bidQty = 0 ↔ b.resting.bids = []) ∧ (wrap64 s.askQty = 0 ↔ b.resting.asks = [])

/-- A book whose levels fit hands that out. -/
theorem Lockstep.handsOut (hvalid : ValidWindow windowSize) (hlock : Lockstep b mb sb sa)
    (hv : b.resting.Valid) (hfits : b.resting.LevelsFit) : HandsOut b := by
  refine ⟨fun side m x hx => ?_, fun out s hsignals => ?_⟩
  · obtain ⟨hpos, hwrap⟩ := hlock.topLevels_fit hvalid hfits side m x hx
    rw [hwrap]
    exact hpos
  · obtain ⟨a, -, heq⟩ := bind_eq_ok.mp hsignals
    cases heq
    exact ⟨hlock.quote_eq_zero hvalid hv hfits .buy, hlock.quote_eq_zero hvalid hv hfits .sell⟩

end Feed

section Fresh

variable {poolCapacity windowSize : Nat} (hvalid : ValidWindow windowSize)
  (hsize : 32 * windowSize < 2 ^ 64)

include hvalid hsize

/-- The book after messages. -/
theorem applyMessages_ok {msgs : List FeedMessage} (hmsgs : ∀ msg ∈ msgs, msg.InRange) :
    ∃ b mb sb sa, ({} : OrderBook poolCapacity windowSize).applyMessages msgs = .ok b ∧
      b.resting = RestingBook.applyAll poolCapacity {} msgs ∧ b.resting.Valid ∧
      Lockstep b mb sb sa := by
  obtain ⟨b, mb, sb, sa, hrun, hbook, hlock⟩ := applyMessages_refines hvalid
    (fresh_lockstep : Lockstep ({} : OrderBook poolCapacity windowSize) {} [] []) msgs
    fun msg hmsg hadd => (hmsgs msg hmsg hadd).2.priceInRange hsize
  rw [fresh_resting hvalid] at hbook
  refine ⟨b, mb, sb, sa, hrun, hbook, ?_, hlock⟩
  rw [hbook]
  exact RestingBook.empty_valid.applyAll poolCapacity msgs

/-- What the book hands out after messages. -/
theorem handsOut_of_levelsFit {msgs : List FeedMessage} (hmsgs : ∀ msg ∈ msgs, msg.InRange)
    (hfits : (RestingBook.applyAll poolCapacity {} msgs).LevelsFit)
    {b : OrderBook poolCapacity windowSize}
    (hrun : ({} : OrderBook poolCapacity windowSize).applyMessages msgs = .ok b) : HandsOut b := by
  obtain ⟨b', mb, sb, sa, hrun', hbook, hv, hlock⟩ := applyMessages_ok hvalid hsize hmsgs
  obtain rfl := Except.ok.inj (hrun.symm.trans hrun')
  rw [← hbook] at hfits
  exact hlock.handsOut hvalid hv hfits

/-- The operations of a schedule from an empty book. -/
theorem scheduleArith_fresh_exact_iff {steps : List FeedStep}
    (hmsgs : ∀ msg ∈ messagesOf steps, msg.InRange) :
    Exact .qty (({} : OrderBook poolCapacity windowSize).scheduleArith steps) ↔
      RestingBook.ScheduleFits poolCapacity {} steps := by
  have h := @scheduleArith_exact_iff poolCapacity windowSize {} {} [] [] hvalid fresh_lockstep
  rw [fresh_resting hvalid] at h
  exact h RestingBook.empty_valid (by decide) steps fun msg hmsg hadd =>
    ⟨(hmsgs msg hmsg hadd).2.priceInRange hsize, (hmsgs msg hmsg hadd).1.2⟩

/-- A schedule is as it is meant to be if and only if what each of its steps adds up fits. -/
theorem scheduleExact_iff {steps : List FeedStep}
    (hmsgs : ∀ msg ∈ messagesOf steps, msg.InRange) :
    ScheduleExact ({} : OrderBook poolCapacity windowSize) steps ↔
      RestingBook.ScheduleFits poolCapacity {} steps := by
  have hoperations : Exact .qty (({} : OrderBook poolCapacity windowSize).scheduleArith steps) ↔
      RestingBook.ScheduleFits poolCapacity {} steps :=
    scheduleArith_fresh_exact_iff hvalid hsize hmsgs
  refine ⟨fun h => hoperations.mp h.operations, fun h => ?_⟩
  have hsub : ∀ n, ∀ msg ∈ messagesOf (steps.take n), msg.InRange := fun n msg hmsg =>
    hmsgs msg (((List.take_sublist n steps).filterMap _).subset hmsg)
  have hhands : ∀ n b, ({} : OrderBook poolCapacity windowSize).applyMessages
      (messagesOf (steps.take n)) = .ok b → HandsOut b := fun n b =>
    handsOut_of_levelsFit hvalid hsize (hsub n) (h.levelsFit (by decide) n)
  exact ⟨hoperations.mpr h, fun n b hrun => (hhands n b hrun).levels,
    fun n b out s hrun => (hhands n b hrun).quotes out s⟩

/-- A feed with both reads after each message is as it is meant to be if and only if all that rests
fits after each message. -/
theorem feedExact_iff {msgs : List FeedMessage} (hmsgs : ∀ msg ∈ msgs, msg.InRange) :
    FeedExact ({} : OrderBook poolCapacity windowSize) msgs ↔
      ∀ n, (RestingBook.applyAll poolCapacity {} (msgs.take n)).totalQty ≤ int64Max := by
  have hoperations : Exact .qty (({} : OrderBook poolCapacity windowSize).scheduleArith
      (readAfterEach msgs)) ↔ RestingBook.ScheduleFits poolCapacity {} (readAfterEach msgs) :=
    scheduleArith_fresh_exact_iff hvalid hsize (by rwa [messagesOf_readAfterEach])
  rw [← feedArith_eq, RestingBook.empty_valid.scheduleFits_iff (by decide)] at hoperations
  refine ⟨fun h => hoperations.mp h.operations, fun h => ?_⟩
  have hhands : ∀ n b, ({} : OrderBook poolCapacity windowSize).applyMessages (msgs.take n) =
      .ok b → HandsOut b := fun n b =>
    handsOut_of_levelsFit hvalid hsize (fun msg hmsg => hmsgs msg (List.mem_of_mem_take hmsg))
      ((RestingBook.empty_valid.applyAll poolCapacity _).fits_of_totalQty (h n)).1
  exact ⟨hoperations.mpr h, fun n b hrun => (hhands n b hrun).levels,
    fun n b out s hrun => (hhands n b hrun).quotes out s⟩

end Fresh

/-- Feed messages never fault, and all that is said of the quantities of a feed holds if and only if
after each message all that rests, by price-time priority, adds up to a 64-bit integer. If the reads
are made at other times, it holds if and only if what each message and each read adds up is one. The
window is an array of 32-byte levels. -/
theorem feed_quantities_exact_iff {poolCapacity windowSize : Nat}
    (hvalid : ValidWindow windowSize) (hsize : 32 * windowSize < 2 ^ 64)
    (msgs : List FeedMessage) (hmsgs : ∀ msg ∈ msgs, msg.InRange) :
    (∃ b, ({} : OrderBook poolCapacity windowSize).applyMessages msgs = .ok b ∧
        b.resting = RestingBook.applyAll poolCapacity {} msgs) ∧
      (FeedExact ({} : OrderBook poolCapacity windowSize) msgs ↔
        ∀ n, (RestingBook.applyAll poolCapacity {} (msgs.take n)).totalQty ≤ int64Max) ∧
      ∀ steps, messagesOf steps = msgs →
        (ScheduleExact ({} : OrderBook poolCapacity windowSize) steps ↔
          RestingBook.ScheduleFits poolCapacity {} steps) := by
  obtain ⟨b, -, -, -, hrun, hbook, -⟩ := applyMessages_ok hvalid hsize hmsgs
  refine ⟨⟨b, hrun, hbook⟩, feedExact_iff hvalid hsize hmsgs, fun steps hsteps => ?_⟩
  subst hsteps
  exact scheduleExact_iff hvalid hsize hmsgs

/-- A bid of the largest quantity that an ask takes down by one, and another bid of quantity one.
And two bids of the largest quantity at two prices, of which one is cancelled before anything is
read. -/
theorem feed_quantities_exact_iff_at_limit :
    FeedExact ({} : OrderBook 2 64) [⟨.addOrder, .buy, 1, 100, int64Max, 0⟩,
        ⟨.addOrder, .sell, 2, 100, 1, 0⟩, ⟨.addOrder, .buy, 3, 90, 1, 0⟩] ∧
      ScheduleExact ({} : OrderBook 2 64)
        [.applyMessage ⟨.addOrder, .buy, 1, 100, int64Max, 0⟩,
          .applyMessage ⟨.addOrder, .buy, 2, 90, int64Max, 0⟩,
          .applyMessage ⟨.cancelOrder, .buy, 1, 0, 0, 0⟩, .totalRestingQty, .computeSignals] := by
  obtain ⟨-, hiff, -⟩ := @feed_quantities_exact_iff 2 64 ⟨⟨6, rfl⟩, by decide⟩ (by decide)
    [⟨.addOrder, .buy, 1, 100, int64Max, 0⟩, ⟨.addOrder, .sell, 2, 100, 1, 0⟩,
      ⟨.addOrder, .buy, 3, 90, 1, 0⟩] (by decide)
  obtain ⟨-, -, hschedule⟩ := @feed_quantities_exact_iff 2 64 ⟨⟨6, rfl⟩, by decide⟩ (by decide)
    [⟨.addOrder, .buy, 1, 100, int64Max, 0⟩, ⟨.addOrder, .buy, 2, 90, int64Max, 0⟩,
      ⟨.cancelOrder, .buy, 1, 0, 0, 0⟩] (by decide)
  refine ⟨hiff.mpr fun n => ?_, (hschedule _ rfl).mpr (by decide +kernel)⟩
  rcases n with _ | _ | _ | n
  · decide
  · decide
  · decide
  · rw [List.take_of_length_le (by simp)]
    decide

/-- Two bids of the largest quantity at one price: the total of their level overflows. -/
theorem not_feed_quantities_exact_two_bids :
    (∀ msg ∈ [(⟨.addOrder, .buy, 1, 100, int64Max, 0⟩ : FeedMessage),
        ⟨.addOrder, .buy, 2, 100, int64Max, 0⟩], msg.InRange) ∧
      ¬ FeedExact ({} : OrderBook 2 64) [⟨.addOrder, .buy, 1, 100, int64Max, 0⟩,
        ⟨.addOrder, .buy, 2, 100, int64Max, 0⟩] :=
  ⟨by decide, fun h => absurd h.operations (by decide +kernel)⟩

end LimitOrderBook
