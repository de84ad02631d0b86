import LimitOrderBook.Book.Retraction

/-!
# An order in two parts

An order that is sent in two parts, one right behind the other, trades as it does in one. The fills
are not the same: a resting order that is larger than the first part is filled by both. What agrees
is every sum over the fills with weights that depend on the resting order and its price
(`weighed`): the quantity that each resting order gives, the amount that is paid. The depth of the
book afterwards agrees too, though the remainder of the order may stand in two places of a queue
(`order_in_two_parts`).
-/

namespace LimitOrderBook

/-- The quantities of fills, weighed by resting order and price. -/
def weighed (w : OrderId → Price → Int) (fills : List Fill) : Int :=
  (fills.map fun f => w f.restingId f.price * f.qty).sum

/-- One more fill. -/
theorem weighed_cons (w : OrderId → Price → Int) (f : Fill) (fills : List Fill) :
    weighed w (f :: fills) = w f.restingId f.price * f.qty + weighed w fills := by
  rw [weighed, List.map_cons, List.sum_cons, weighed]

/-- The fills of two orders. -/
theorem weighed_append (w : OrderId → Price → Int) (fills fills' : List Fill) :
    weighed w (fills ++ fills') = weighed w fills + weighed w fills' := by
  rw [weighed, List.map_append, List.sum_append, weighed, weighed]

/-! ## The sweep -/

section Sweep

variable {crosses : Price → Bool} {id id₁ id₂ : OrderId}

/-- The id of the incoming order matters neither for what is left nor for what is traded. -/
theorem sweep_incoming (qty : Quantity) (l : List Resting) :
    (sweep crosses id qty l).rest = (sweep crosses id₁ qty l).rest ∧
      (sweep crosses id qty l).left = (sweep crosses id₁ qty l).left ∧
      ∀ w, weighed w (sweep crosses id qty l).fills =
        weighed w (sweep crosses id₁ qty l).fills := by
  induction l generalizing qty with
  | nil => exact ⟨rfl, rfl, fun _ => rfl⟩
  | cons r rs ih =>
      rcases sweep_cons_cases crosses id qty r rs with
        ⟨hqty, hcross, hlt, heq⟩ | ⟨hqty, hcross, hge, heq⟩ | ⟨hstop, heq⟩
      · rw [heq, sweep_cons_partly hqty hcross hlt]
        exact ⟨rfl, rfl, fun _ => rfl⟩
      · rw [heq, sweep_cons_filled hqty hcross hge]
        obtain ⟨hrest, hleft, hfills⟩ := ih (qty - r.qty)
        refine ⟨hrest, hleft, fun w => ?_⟩
        rw [weighed_cons, weighed_cons, hfills]
      · rw [heq, sweep_cons_stop hstop]
        exact ⟨rfl, rfl, fun _ => rfl⟩

/-- A sweep with two quantities, one after the other, leaves and trades what one with their sum
does. -/
structure Sweep.InParts (s s₁ s₂ : Sweep) : Prop where
  rest : s₂.rest = s.rest
  left : s.left = s₁.left + s₂.left
  fills : ∀ w, weighed w s.fills = weighed w s₁.fills + weighed w s₂.fills

/-- Nothing, and then the whole quantity. -/
theorem inParts_of_zero (qty : Quantity) (l : List Resting) :
    (sweep crosses id qty l).InParts ⟨[], 0, l⟩ (sweep crosses id₂ qty l) := by
  obtain ⟨hrest, hleft, hfills⟩ := @sweep_incoming crosses id id₂ qty l
  refine ⟨hrest.symm, ?_, fun w => ?_⟩
  · rw [hleft, Int.zero_add]
  · rw [hfills w]
    exact (Int.zero_add _).symm

/-- An order that both quantities trade with. -/
theorem inParts_of_partly {r : Resting} {rs : List Resting} {qty₁ qty₂ : Quantity}
    (hpos₁ : 0 < qty₁) (hqty₂ : 0 ≤ qty₂) (hcross : crosses r.price = true) (hlt : qty₁ < r.qty) :
    (sweep crosses id (qty₁ + qty₂) (r :: rs)).InParts
      ⟨[⟨r.id, id₁, r.price, qty₁⟩], 0, { r with qty := r.qty - qty₁ } :: rs⟩
      (sweep crosses id₂ qty₂ ({ r with qty := r.qty - qty₁ } :: rs)) := by
  have hpos : 0 < qty₁ + qty₂ := by lia
  have hcross' : crosses ({ r with qty := r.qty - qty₁ } : Resting).price = true := hcross
  rcases Int.lt_or_le (qty₁ + qty₂) r.qty with hsum | hsum
  · rw [sweep_cons_partly hpos hcross hsum]
    by_cases hpos₂ : 0 < qty₂
    · have hlt₂ : qty₂ < ({ r with qty := r.qty - qty₁ } : Resting).qty := by
        show qty₂ < r.qty - qty₁
        lia
      rw [sweep_cons_partly hpos₂ hcross' hlt₂]
      refine ⟨?_, rfl, fun w => ?_⟩
      · show ({ r with qty := r.qty - qty₁ - qty₂ } : Resting) :: rs = _
        rw [Int.sub_sub]
      · simp only [weighed, List.map_cons, List.map_nil, List.sum_cons, List.sum_nil, Int.add_zero]
        exact Int.mul_add _ _ _
    · obtain rfl : qty₂ = 0 := le_antisymm (not_lt.mp hpos₂) hqty₂
      rw [sweep_of_nonpos hpos₂, Int.add_zero]
      exact ⟨rfl, rfl, fun w => (Int.add_zero _).symm⟩
  · have hpos₂ : 0 < qty₂ := by lia
    have hge₂ : ({ r with qty := r.qty - qty₁ } : Resting).qty ≤ qty₂ := by
      show r.qty - qty₁ ≤ qty₂
      lia
    have hremaining : qty₂ - (r.qty - qty₁) = qty₁ + qty₂ - r.qty := by lia
    rw [sweep_cons_filled hpos hcross hsum, sweep_cons_filled hpos₂ hcross' hge₂, hremaining]
    obtain ⟨hrest, hleft, hfills⟩ := @sweep_incoming crosses id id₂ (qty₁ + qty₂ - r.qty) rs
    refine ⟨hrest.symm, ?_, fun w => ?_⟩
    · rw [hleft]
      exact (Int.zero_add _).symm
    · rw [weighed_cons, weighed_cons, weighed_cons, hfills w]
      show w r.id r.price * r.qty + _ =
        w r.id r.price * qty₁ + 0 + (w r.id r.price * (r.qty - qty₁) + _)
      rw [Int.mul_sub]
      lia

/-- A sweep in two parts. -/
theorem sweep_inParts {qty₁ qty₂ : Quantity} (hqty₁ : 0 ≤ qty₁) (hqty₂ : 0 ≤ qty₂)
    (l : List Resting) :
    (sweep crosses id (qty₁ + qty₂) l).InParts (sweep crosses id₁ qty₁ l)
      (sweep crosses id₂ qty₂ (sweep crosses id₁ qty₁ l).rest) := by
  induction l generalizing qty₁ with
  | nil => exact ⟨rfl, rfl, fun _ => rfl⟩
  | cons r rs ih =>
      rcases sweep_cons_cases crosses id₁ qty₁ r rs with
        ⟨hpos, hcross, hlt, heq⟩ | ⟨hpos, hcross, hge, heq⟩ | ⟨hstop, heq⟩
      · rw [heq]
        exact inParts_of_partly hpos hqty₂ hcross hlt
      · have hsum : qty₁ + qty₂ - r.qty = qty₁ - r.qty + qty₂ := by lia
        have h := @ih (qty₁ - r.qty) (by lia)
        rw [heq, sweep_cons_filled (by lia) hcross (by lia), hsum]
        refine ⟨h.rest, h.left, fun w => ?_⟩
        rw [weighed_cons, weighed_cons, h.fills w, Int.add_assoc]
      · rw [heq]
        by_cases hpos : 0 < qty₁
        · have hout : ¬ crosses r.price = true := fun h => hstop ⟨hpos, h⟩
          rw [sweep_cons_stop fun h => hout h.2, sweep_cons_stop fun h => hout h.2]
          exact ⟨rfl, rfl, fun _ => rfl⟩
        · obtain rfl : qty₁ = 0 := le_antisymm (not_lt.mp hpos) hqty₁
          rw [Int.zero_add]
          exact inParts_of_zero qty₂ (r :: rs)

end Sweep

/-! ## The remainder -/

section Remainder

open RestingBook (joined mem_joined)

variable {isBid : Bool} {id id₁ id₂ : OrderId} {price : Price} {left left₁ left₂ : Quantity}
  {l : List Resting}

/-- The total quantity after an order may have joined. -/
theorem sum_joined (hleft : 0 ≤ left) :
    ((joined isBid id price left l).map Resting.qty).sum = left + (l.map Resting.qty).sum := by
  unfold joined
  by_cases hpos : 0 < left
  · rw [if_pos hpos, (enqueue_perm.map Resting.qty).sum_eq, List.map_cons, List.sum_cons]
  · obtain rfl : left = 0 := le_antisymm (not_lt.mp hpos) hleft
    rw [if_neg hpos, Int.zero_add]

/-- Two lists of orders with the same prices and the same quantity at each show the same depth. -/
theorem depthOf_congr {l' : List Resting}
    (hprices : ∀ p, (∃ r ∈ l', r.price = p) ↔ ∃ r ∈ l, r.price = p)
    (hqty : ∀ p, qtyAt p l' = qtyAt p l) (n : Nat) : depthOf isBid n l' = depthOf isBid n l := by
  have hbest : bestPrices isBid l' = bestPrices isBid l :=
    bestPrices_eq (bestPrices_sorted isBid l) fun p => mem_bestPrices.trans (hprices p).symm
  unfold depthOf
  rw [hbest]
  exact List.map_congr_left fun p _ => by rw [hqty]

/-- The depth with a remainder that has joined in two parts. -/
theorem depthOf_joined (hleft₁ : 0 ≤ left₁) (hleft₂ : 0 ≤ left₂) (n : Nat) :
    depthOf isBid n (joined isBid id₂ price left₂ (joined isBid id₁ price left₁ l)) =
      depthOf isBid n (joined isBid id price (left₁ + left₂) l) := by
  refine depthOf_congr (fun p => ?_) (fun p => ?_) n
  · have hpos : 0 < left₁ + left₂ ↔ 0 < left₁ ∨ 0 < left₂ := by lia
    have hmem : ∀ (i : OrderId) (left : Quantity) (m : List Resting),
        (∃ r ∈ joined isBid i price left m, r.price = p) ↔
          (∃ r ∈ m, r.price = p) ∨ (0 < left ∧ price = p) := by
      intro i left m
      simp only [mem_joined, or_and_right, exists_or, and_assoc, exists_eq_left,
        exists_and_left]
    rw [hmem, hmem, hmem, hpos, or_and_right, or_assoc]
  · rw [qtyAt_joined hleft₂, qtyAt_joined hleft₁, qtyAt_joined (by lia)]
    split <;> lia

end Remainder

/-! ## The resting book -/

namespace RestingBook

variable {b : RestingBook} {isBuy : Bool} {id id₁ id₂ : OrderId} {price : Price}
  {qty₁ qty₂ : Quantity}

/-- The sweeps of an order in two parts. -/
theorem sweepOf_inParts (hqty₁ : 0 ≤ qty₁) (hqty₂ : 0 ≤ qty₂) :
    (b.sweepOf isBuy id price (qty₁ + qty₂)).InParts (b.sweepOf isBuy id₁ price qty₁)
      ((b.add isBuy id₁ price qty₁).sweepOf isBuy id₂ price qty₂) := by
  have hrest := @side_add_not b isBuy id₁ price qty₁
  rw [sweepOf, sweepOf, sweepOf, hrest]
  exact sweep_inParts hqty₁ hqty₂ _

/-- The book after an order in two parts: the other side is the same, and the own one has the
remainders of both. -/
theorem sides_add_add (hqty₁ : 0 ≤ qty₁) (hqty₂ : 0 ≤ qty₂) :
    ∃ left₁ left₂, 0 ≤ left₁ ∧ 0 ≤ left₂ ∧
      ((b.add isBuy id₁ price qty₁).add isBuy id₂ price qty₂).side (!isBuy) =
        (b.add isBuy id price (qty₁ + qty₂)).side (!isBuy) ∧
      ((b.add isBuy id₁ price qty₁).add isBuy id₂ price qty₂).side isBuy =
        joined isBuy id₂ price left₂ (joined isBuy id₁ price left₁ (b.side isBuy)) ∧
      (b.add isBuy id price (qty₁ + qty₂)).side isBuy =
        joined isBuy id price (left₁ + left₂) (b.side isBuy) := by
  have h := @sweepOf_inParts b isBuy id id₁ id₂ price qty₁ qty₂ hqty₁ hqty₂
  refine ⟨(b.sweepOf isBuy id₁ price qty₁).left,
    ((b.add isBuy id₁ price qty₁).sweepOf isBuy id₂ price qty₂).left,
    sweep_left_nonneg hqty₁ _, sweep_left_nonneg hqty₂ _, ?_, ?_, ?_⟩
  · rw [side_add_not, side_add_not, h.rest]
  · rw [side_add_self, side_add_self]
  · rw [side_add_self, h.left]

/-- The depth of the sides and the total quantity after an order in two parts. -/
theorem depth_add_add (hqty₁ : 0 ≤ qty₁) (hqty₂ : 0 ≤ qty₂) :
    (∀ s n, depthOf s n (((b.add isBuy id₁ price qty₁).add isBuy id₂ price qty₂).side s) =
      depthOf s n ((b.add isBuy id price (qty₁ + qty₂)).side s)) ∧
    (((b.add isBuy id₁ price qty₁).add isBuy id₂ price qty₂).all.map Resting.qty).sum =
      ((b.add isBuy id price (qty₁ + qty₂)).all.map Resting.qty).sum := by
  obtain ⟨left₁, left₂, hleft₁, hleft₂, hother, hown, hwhole⟩ :=
    @sides_add_add b isBuy id id₁ id₂ price qty₁ qty₂ hqty₁ hqty₂
  refine ⟨fun s n => ?_, ?_⟩
  · by_cases hs : s = isBuy
    · rw [hs, hown, hwhole]
      exact depthOf_joined hleft₁ hleft₂ n
    · obtain rfl : s = !isBuy := Bool.eq_not_of_ne hs
      rw [hother]
  · rw [((all_perm isBuy).map Resting.qty).sum_eq, ((all_perm isBuy).map Resting.qty).sum_eq,
      hother, hown, hwhole, List.map_append, List.map_append, List.sum_append, List.sum_append,
      sum_joined hleft₂, sum_joined hleft₁, sum_joined (Int.add_nonneg hleft₁ hleft₂)]
    lia

end RestingBook

/-! ## The order book -/

section Books

variable {poolCapacity windowSize : Nat} {b b₁ b₂ whole : OrderBook poolCapacity windowSize}
  {mb : MapOrderBook poolCapacity} {sb sa : List Shelf}

/-- Books of the same depth and total quantity look the same. -/
theorem Lockstep.seen_eq (hvalid : ValidWindow windowSize) {mb' : MapOrderBook poolCapacity}
    {sb' sa' : List Shelf} (hlock : Lockstep b mb sb sa) (hlock' : Lockstep b₁ mb' sb' sa')
    (hdepth : ∀ s n, depthOf s n (b₁.resting.side s) = depthOf s n (b.resting.side s))
    (hsum : (b₁.resting.all.map Resting.qty).sum = (b.resting.all.map Resting.qty).sum) :
    b₁.bestBid = b.bestBid ∧ b₁.bestAsk = b.bestAsk ∧ b₁.topLevels = b.topLevels ∧
      b₁.totalRestingQty = b.totalRestingQty := by
  have hbest : ∀ s, bestPrice s (b₁.resting.side s) = bestPrice s (b.resting.side s) := by
    intro s
    have hhead := congrArg (fun levels => levels.head?.map LevelQty.price) (hdepth s 1)
    rw [head?_depthOf Nat.one_pos, head?_depthOf Nat.one_pos, Option.map_map, Option.map_map]
      at hhead
    exact Option.map_id'.symm.trans (hhead.trans Option.map_id')
  obtain ⟨hbid, hask⟩ := hlock.bestPrice_resting hvalid
  obtain ⟨hbid', hask'⟩ := hlock'.bestPrice_resting hvalid
  refine ⟨?_, ?_, ?_, ?_⟩
  · rw [hbid, hbid']
    exact hbest true
  · rw [hask, hask']
    exact hbest false
  · funext side n
    rw [hlock.topLevels_resting hvalid, hlock'.topLevels_resting hvalid, hdepth]
  · rw [(hlock.totalRestingQty_eq hvalid).1, (hlock'.totalRestingQty_eq hvalid).1, hsum]

/-- After every run, an order that is accepted in two parts, one right behind the other, trades as
it does in one: all sums over the fills agree that are weighed by resting order and price, in
particular what each resting order has given and what has been paid, and the book shows the same
depth, best prices and total quantity. -/
theorem order_in_two_parts (hvalid : ValidWindow windowSize) (cs : List Call)
    (hcs : ∀ c ∈ cs, c.InRange windowSize) :
    ∃ history b, OrderBook.run [] ({} : OrderBook poolCapacity windowSize) cs = .ok (history, b) ∧
      ∀ id id₁ id₂ side price qty₁ qty₂ ts ts₁ ts₂ whole b₁ b₂,
        PriceInRange windowSize price → 0 ≤ qty₁ → 0 ≤ qty₂ →
        b.addOrder id side price (qty₁ + qty₂) ts = .ok (true, whole) →
        b.addOrder id₁ side price qty₁ ts₁ = .ok (true, b₁) →
        b₁.addOrder id₂ side price qty₂ ts₂ = .ok (true, b₂) →
        (∀ w, weighed w b₂.engine.fills = weighed w whole.engine.fills) ∧
          b₂.bestBid = whole.bestBid ∧ b₂.bestAsk = whole.bestAsk ∧
          b₂.topLevels = whole.topLevels ∧ b₂.totalRestingQty = whole.totalRestingQty := by
  obtain ⟨history, b, mb, sb, sa, hrun, -, hlock, -, -⟩ := run_ok hvalid cs hcs
  refine ⟨history, b, hrun, fun id id₁ id₂ side price qty₁ qty₂ ts ts₁ ts₂ whole b₁ b₂ hprice hqty₁
    hqty₂ hwhole hfirst hsecond => ?_⟩
  obtain ⟨_, _, _, hlock', hbook, hfills⟩ := hlock.accepted hvalid hprice hwhole
  obtain ⟨_, _, _, hlock₁, hbook₁, hfills₁⟩ := hlock.accepted hvalid hprice hfirst
  obtain ⟨_, _, _, hlock₂, hbook₂, hfills₂⟩ := hlock₁.accepted hvalid hprice hsecond
  have hparts := @RestingBook.sweepOf_inParts b.resting (side = .buy) id id₁ id₂ price qty₁ qty₂
    hqty₁ hqty₂
  obtain ⟨hdepth, hsum⟩ := @RestingBook.depth_add_add b.resting (side = .buy) id id₁ id₂ price qty₁
    qty₂ hqty₁ hqty₂
  rw [hbook₁] at hbook₂ hfills₂
  refine ⟨fun w => ?_, hlock'.seen_eq hvalid hlock₂ ?_ ?_⟩
  · rw [hfills₂, hfills₁, hfills, weighed_append, weighed_append, weighed_append, hparts.fills w,
      Int.add_assoc]
  · rw [hbook₂, hbook]
    exact hdepth
  · rw [hbook₂, hbook]
    exact hsum

end Books

/-- A purchase of 6 and then 5 against offers of 4, 3 and 2, as one of 11. -/
theorem order_in_two_parts_three_offers :
    ∃ history b, OrderBook.run [] ({} : OrderBook 8 64)
        [.add 1 .sell 100 4 0, .add 2 .sell 100 3 1, .add 3 .sell 101 2 2] = .ok (history, b) ∧
      ∃ whole b₁ b₂, b.addOrder 4 .buy 101 11 3 = .ok (true, whole) ∧
        b.addOrder 5 .buy 101 6 4 = .ok (true, b₁) ∧ b₁.addOrder 6 .buy 101 5 5 = .ok (true, b₂) ∧
        (∀ w, weighed w b₂.engine.fills = weighed w whole.engine.fills) ∧
        b₂.topLevels = whole.topLevels := by
  obtain ⟨history, b, hrun, hparts⟩ := @order_in_two_parts 8 64 ⟨⟨6, rfl⟩, by decide⟩
    [.add 1 .sell 100 4 0, .add 2 .sell 100 3 1, .add 3 .sell 101 2 2] (by decide)
  have haccepted : (OrderBook.run [] ({} : OrderBook 8 64)
      [.add 1 .sell 100 4 0, .add 2 .sell 100 3 1, .add 3 .sell 101 2 2]).bind
      (fun r => (do
        let (ok, _) ← r.2.addOrder 4 .buy 101 11 3
        let (ok₁, b₁) ← r.2.addOrder 5 .buy 101 6 4
        let (ok₂, _) ← b₁.addOrder 6 .buy 101 5 5
        pure (ok, ok₁, ok₂))) = .ok (true, true, true) := by decide +kernel
  rw [hrun] at haccepted
  obtain ⟨_, hstart, hrest⟩ := bind_eq_ok.mp haccepted
  cases hstart
  obtain ⟨⟨ok, whole⟩, hwhole, hrest⟩ := bind_eq_ok.mp hrest
  obtain ⟨⟨ok₁, b₁⟩, hfirst, hrest⟩ := bind_eq_ok.mp hrest
  obtain ⟨⟨ok₂, b₂⟩, hsecond, hoks⟩ := bind_eq_ok.mp hrest
  cases hoks
  obtain ⟨hsums, _, _, hdepth, _⟩ := hparts 4 5 6 .buy 101 6 5 3 4 5 whole b₁ b₂ (by decide)
    (by decide) (by decide) hwhole hfirst hsecond
  exact ⟨history, b, hrun, whole, b₁, b₂, hwhole, hfirst, hsecond, hsums, hdepth⟩

end LimitOrderBook
