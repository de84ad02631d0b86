import LimitOrderBook.Book.Runs

/-!
# Price-time priority

An accepted order trades with the resting orders of the other side that cross its limit, best
price first and then earliest acceptance, as far as its quantity goes; what is left of it rests
behind all orders of its side that are not worse. `Allocation` says what the fills have to be, and
`run_price_time_priority` that they are that after every run.
-/

namespace LimitOrderBook

/-- An order of the other side crosses the limit: an ask that is not above a buyer's limit, a bid
that is not below a seller's. -/
def crosses (isBuy : Bool) (limit p : Price) : Bool :=
  if isBuy then decide (p ≤ limit) else decide (p ≥ limit)

/-- Crossing is not being worse than the limit. -/
theorem crosses_eq (isBuy : Bool) (limit p : Price) :
    crosses isBuy limit p = !worse (!isBuy) p limit := by
  cases isBuy with
  | true =>
      simp only [crosses, worse, if_true, Bool.not_true, Bool.false_eq_true, if_false, ← decide_not]
      exact decide_eq_decide.mpr (by lia)
  | false =>
      simp only [crosses, worse, if_true, Bool.not_false, Bool.false_eq_true, if_false,
        ← decide_not]
      exact decide_eq_decide.mpr (by lia)

/-- The orders of a list without what the fills have taken from them; those that have nothing left
are gone. -/
def remaining (fills : List Fill) (l : List Resting) : List Resting :=
  (l.map (Resting.minus fills)).filter fun r => 0 < r.qty

/-- The fills are the greedy allocation of a quantity to the crossing orders of a list, in
order. -/
structure Allocation (isBuy : Bool) (incoming : OrderId) (limit : Price) (qty : Quantity)
    (l : List Resting) (fills : List Fill) : Prop where
  /-- Fill number `i` is with order number `i`, which crosses, at its price, and has as much as
  the incoming order and the resting one have left. -/
  each : ∀ i < fills.length, ∃ r, l[i]? = some r ∧ crosses isBuy limit r.price = true ∧
    fills[i]? = some ⟨r.id, incoming, r.price, min (qty - tradedQty (fills.take i)) r.qty⟩
  /-- Every fill has a quantity. -/
  positive : ∀ f ∈ fills, 0 < f.qty
  /-- Every fill but the last one takes all of its resting order. -/
  full : ∀ i, i + 1 < fills.length → fills[i]?.map Fill.qty = l[i]?.map Resting.qty
  /-- There are no fills for more than the quantity. -/
  within : 0 ≤ qty → tradedQty fills ≤ qty
  /-- The fills end where the quantity is used up or no crossing order remains. -/
  ends : qty ≤ tradedQty fills ∨ ∀ r ∈ remaining fills l, crosses isBuy limit r.price = false

/-- The remainder of an order has joined its side: behind all orders that are not worse, and
before those that are. -/
def Joined (isBuy : Bool) (r : Resting) (l l' : List Resting) : Prop :=
  ∃ a c, l = a ++ c ∧ l' = a ++ r :: c ∧ (∀ x ∈ a, worse isBuy x.price r.price = false) ∧
    ∀ x ∈ c, worse isBuy x.price r.price = true

section Sweep

variable {b : RestingBook} {isBuy : Bool} {id : OrderId} {price : Price} {qty : Quantity}

/-- The sweep of a new order leaves what remains of the orders of the other side. -/
theorem sweepOf_rest (hv : b.Valid) :
    (b.sweepOf isBuy id price qty).rest =
      remaining (b.sweepOf isBuy id price qty).fills (b.side (!isBuy)) :=
  sweep_rest_eq (hv.positive _) (hv.ids_side _)

/-- The sweep of a new order is the greedy allocation of its quantity. -/
theorem sweepOf_allocation (hv : b.Valid) :
    Allocation isBuy id price qty (b.side (!isBuy)) (b.sweepOf isBuy id price qty).fills := by
  have hpos := hv.positive (!isBuy)
  have hleft : (b.sweepOf isBuy id price qty).left =
      qty - tradedQty (b.sweepOf isBuy id price qty).fills := sweep_left _
  refine ⟨fun i hi => ?_, fun f hf => (sweep_fills_mem hpos hf).1, fun i hi => ?_,
    fun hqty => ?_, ?_⟩
  · obtain ⟨r, hr, hcross, -, hfill, -⟩ := sweep_fill hpos hi
    exact ⟨r, hr, by rw [crosses_eq]; exact hcross, hfill⟩
  · obtain ⟨r, hr, -, -, hfill, hfull⟩ := sweep_fill hpos (Nat.lt_of_succ_lt hi)
    show (sweep _ id qty (b.side (!isBuy))).fills[i]?.map Fill.qty = _
    rw [hr, hfill]
    exact congrArg some (min_eq_right (hfull hi))
  · have h : 0 ≤ (b.sweepOf isBuy id price qty).left := sweep_left_nonneg hqty _
    lia
  · by_cases hpos' : 0 < (b.sweepOf isBuy id price qty).left
    · refine Or.inr fun r hr => ?_
      rw [← sweepOf_rest hv] at hr
      rw [crosses_eq, hv.sweep_uncrossed hpos' hr]
      rfl
    · exact Or.inl (by lia)

/-- The remainder of a new order joins its side. -/
theorem joined_spec (hv : b.Valid) {left : Quantity} (hleft : 0 < left) :
    Joined isBuy ⟨id, price, left⟩ (b.side isBuy)
      (RestingBook.joined isBuy id price left (b.side isBuy)) := by
  rw [RestingBook.joined, if_pos hleft]
  exact enqueue_split (hv.sorted isBuy)

end Sweep

/-- What an accepted order does to the book. -/
structure AddedInTurn {poolCapacity windowSize : Nat} (history : List Event) (isBuy : Bool)
    (id : OrderId) (price : Price) (qty : Quantity) (fills : List Fill)
    (b b' : OrderBook poolCapacity windowSize) : Prop where
  /-- The fills are reported after those before. -/
  reported : b'.engine.fills = b.engine.fills ++ fills
  /-- The orders of the other side stand in the order of their prices and, at one price, of their
  acceptance. -/
  turn : (b.resting.side (!isBuy)).Pairwise (Before (!isBuy) history)
  /-- The fills are the greedy allocation of the quantity to them. -/
  allocation : Allocation isBuy id price qty (b.resting.side (!isBuy)) fills
  /-- What the fills have not taken remains, in the same order. -/
  opposite : b'.resting.side (!isBuy) = remaining fills (b.resting.side (!isBuy))
  /-- If something is left of the order, it joins its side. -/
  joins : 0 < qty - tradedQty fills → Joined isBuy ⟨id, price, qty - tradedQty fills⟩
    (b.resting.side isBuy) (b'.resting.side isBuy)
  /-- Else its side stays as it is. -/
  stays : ¬ 0 < qty - tradedQty fills → b'.resting.side isBuy = b.resting.side isBuy

/-- Price-time priority, after every run: a further order is answered, and if it is accepted, it is
added in turn. -/
theorem run_price_time_priority {poolCapacity windowSize : Nat} (hvalid : ValidWindow windowSize)
    (cs : List Call) (hcs : ∀ c ∈ cs, c.InRange windowSize) (id : OrderId) (side : Side)
    (price : Price) (qty : Quantity) (ts : Nanos) (hprice : PriceInRange windowSize price) :
    ∃ history b accepted b',
      OrderBook.run [] ({} : OrderBook poolCapacity windowSize) cs = .ok (history, b) ∧
      b.addOrder id side price qty ts = .ok (accepted, b') ∧
      (accepted = true → ∃ fills,
        AddedInTurn history (side = .buy) id price qty fills b b' ∧
        InTurn (⟨.add id side price qty ts, true, fills, 0⟩ :: history) b'.resting) := by
  obtain ⟨history, b, mb, sb, sa, hrun, -, hlock, hv, ht⟩ := run_ok hvalid cs hcs
  rcases addOrder_refines hvalid hlock id side qty ts hprice with
    ⟨-, hadd⟩ | ⟨-, -, hadd, -⟩ | ⟨b', mb', sb', sa', hnew, hroom, hadd, -, -, hbook, hfills, -⟩
  · exact ⟨history, b, false, _, hrun, hadd, fun h => by cases h⟩
  · exact ⟨history, b, false, _, hrun, hadd, fun h => by cases h⟩
  · refine ⟨history, b, true, b', hrun, hadd, fun _ =>
      ⟨(b.resting.sweepOf (side = .buy) id price qty).fills, ?_, ?_⟩⟩
    · have hleft : (b.resting.sweepOf (side = .buy) id price qty).left =
          qty - tradedQty (b.resting.sweepOf (side = .buy) id price qty).fills := sweep_left _
      have hself : b'.resting.side (side = .buy) =
          RestingBook.joined (side = .buy) id price
            (qty - tradedQty (b.resting.sweepOf (side = .buy) id price qty).fills)
            (b.resting.side (side = .buy)) := by
        rw [hbook, ← hleft]
        exact RestingBook.side_add_self
      refine ⟨hfills, ht _, sweepOf_allocation hv, ?_, fun hpos => ?_, fun hneg => ?_⟩
      · rw [hbook]
        exact RestingBook.side_add_not.trans (sweepOf_rest hv)
      · rw [hself]
        exact joined_spec hv hpos
      · rw [hself]
        exact if_neg hneg
    · have hok : ¬ (b.resting.rests id = true ∨ b.resting.all.length = poolCapacity) := by
        rw [not_or, Bool.not_eq_true, RestingBook.rests_eq_false]
        exact ⟨hnew, hroom.ne⟩
      have hturn := ht.call hv poolCapacity (.add id side price qty ts)
      rw [RestingBook.call, if_neg hok, ← hbook] at hturn
      exact hturn

/-- Two asks at one price: a bid for more than the first one fills it and then part of the
second. -/
theorem run_price_time_priority_two_asks :
    ∃ history b b',
      OrderBook.run [] ({} : OrderBook 4 64) [.add 1 .sell 100 5 0, .add 2 .sell 100 5 0] =
        .ok (history, b) ∧
      b.addOrder 3 .buy 101 7 0 = .ok (true, b') ∧
      ∃ fills, AddedInTurn history true 3 101 7 fills b b' := by
  obtain ⟨history, b, accepted, b', hrun, hadd, h⟩ := @run_price_time_priority 4 64
    ⟨⟨6, rfl⟩, by decide⟩ [.add 1 .sell 100 5 0, .add 2 .sell 100 5 0] (by decide) 3 .buy 101 7 0
    (by decide)
  have haccepted : (OrderBook.run [] ({} : OrderBook 4 64)
      [.add 1 .sell 100 5 0, .add 2 .sell 100 5 0] >>= fun r =>
        Prod.fst <$> r.2.addOrder 3 .buy 101 7 0) = .ok true := by decide +kernel
  rw [hrun, ok_bind, hadd, map_ok] at haccepted
  injection haccepted with haccepted
  subst haccepted
  obtain ⟨fills, hfills, -⟩ := h rfl
  exact ⟨history, b, b', hrun, hadd, fills, hfills⟩

end LimitOrderBook
