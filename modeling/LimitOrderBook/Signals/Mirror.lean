import LimitOrderBook.Book.Mirror
import LimitOrderBook.Signals.Arithmetic
import LimitOrderBook.Signals.Depth

/-!
# Signals of the mirror image

The depth of the mirrored orders is the depth of the other side at negated prices. Imbalance and mid
change their sign. The microprice is rounded down on either side of zero, so the two microprices add
up to one unit less than zero unless both are exact.
-/

namespace LimitOrderBook

/-! ## Depth -/

section Depth

variable (isBid : Bool) (l : List Resting)

/-- The prices of the mirrored orders. -/
theorem bestPrices_mirror :
    bestPrices (!isBid) (l.map Resting.mirror) = (bestPrices isBid l).map fun p => -p := by
  refine bestPrices_eq ?_ fun p => ?_
  · refine List.pairwise_map.mpr ((bestPrices_sorted isBid l).imp fun h => ?_)
    rw [better_eq] at h ⊢
    rw [worse_neg]
    exact h
  · simp only [List.mem_map, mem_bestPrices]
    refine ⟨?_, ?_⟩
    · rintro ⟨_, ⟨r, hr, rfl⟩, rfl⟩
      exact ⟨r.mirror, ⟨r, hr, rfl⟩, rfl⟩
    · rintro ⟨_, ⟨r, hr, rfl⟩, rfl⟩
      exact ⟨r.price, ⟨r, hr, rfl⟩, rfl⟩

/-- The quantity of the mirrored orders at a price. -/
theorem qtyAt_mirror (p : Price) :
    qtyAt (-p) (l.map Resting.mirror) = qtyAt p l := by
  unfold qtyAt
  rw [List.filter_map, List.map_map]
  have hcond : ((fun r : Resting => decide (r.price = -p)) ∘ Resting.mirror) =
      fun r : Resting => decide (r.price = p) :=
    funext fun r => decide_eq_decide.mpr Int.neg_inj
  rw [hcond]
  rfl

/-- The depth of the mirrored orders. -/
theorem depthOf_mirror (n : Nat) :
    depthOf (!isBid) n (l.map Resting.mirror) = (depthOf isBid n l).map LevelQty.mirror := by
  unfold depthOf
  rw [bestPrices_mirror, ← List.map_take, List.map_map, List.map_map]
  refine List.map_congr_left fun p _ => ?_
  exact congrArg (LevelQty.mk (-p)) (qtyAt_mirror l p)

/-- The cumulative quantity of the mirrored orders. -/
theorem depthQty_mirror (n : Nat) :
    depthQty (!isBid) n (l.map Resting.mirror) = depthQty isBid n l := by
  unfold depthQty
  rw [bestPrices_mirror, ← List.map_take, List.map_map]
  refine congrArg List.sum (List.map_congr_left fun p _ => ?_)
  exact qtyAt_mirror l p

/-- The best price of the mirrored orders. -/
theorem bestPrice_mirror :
    bestPrice (!isBid) (l.map Resting.mirror) = (bestPrice isBid l).map fun p => -p := by
  rw [← head?_bestPrices, ← head?_bestPrices, bestPrices_mirror, List.head?_map]

/-- The best price of the mirrored orders, or 0. -/
theorem bestPrice_mirror_getD :
    (bestPrice (!isBid) (l.map Resting.mirror)).getD 0 = -(bestPrice isBid l).getD 0 := by
  rw [bestPrice_mirror]
  cases bestPrice isBid l <;> rfl

/-- The quantity at the best price of the mirrored orders. -/
theorem quoteQty_mirror :
    ((bestPrice (!isBid) (l.map Resting.mirror)).map fun p => qtyAt p (l.map Resting.mirror)) =
      (bestPrice isBid l).map fun p => qtyAt p l := by
  rw [bestPrice_mirror, Option.map_map]
  exact congrArg (Option.map · (bestPrice isBid l)) (funext fun p => qtyAt_mirror l p)

end Depth

/-! ## Signals -/

/-- The signals of two books that are mirror images. -/
structure MirrorSignals (s s' : BookSignals) : Prop where
  twoSided : s'.twoSided = s.twoSided
  imbalance : s'.imbalance = s.imbalance.map fun x => -x
  mid : s.twoSided = true → s'.midScaled = -s.midScaled
  microprice : s.twoSided = true → s.microprice + s'.microprice =
    if (s.bidQty + s.askQty) ∣ (s.bestAsk - s.bestBid) * s.bidQty * kSignalScale then 0 else -1

section Signals

variable {b : RestingBook}

/-- The quotes of the mirrored book are those of the other side. -/
theorem restingSignals_mirror (b : RestingBook) :
    restingSignals b.mirror =
      { bestBid := -(restingSignals b).bestAsk
        bestAsk := -(restingSignals b).bestBid
        bidQty := (restingSignals b).askQty
        askQty := (restingSignals b).bidQty
        microprice :=
          if b.bids ≠ [] ∧ b.asks ≠ [] then
            micropriceScaled (-(restingSignals b).bestAsk) (restingSignals b).askQty
              (-(restingSignals b).bestBid) (restingSignals b).bidQty
          else 0
        imbalance := kImbalanceDepths.map fun k =>
          imbalanceScaled (depthQty false k b.asks) (depthQty true k b.bids) } := by
  have hbid : (bestPrice true (b.asks.map Resting.mirror)).getD 0 =
      -(bestPrice false b.asks).getD 0 := bestPrice_mirror_getD false b.asks
  have hask : (bestPrice false (b.bids.map Resting.mirror)).getD 0 =
      -(bestPrice true b.bids).getD 0 := bestPrice_mirror_getD true b.bids
  have hbidQty := quoteQty_mirror false b.asks
  have haskQty := quoteQty_mirror true b.bids
  have hbidDepth : ∀ k, depthQty true k (b.asks.map Resting.mirror) = depthQty false k b.asks :=
    depthQty_mirror false b.asks
  have haskDepth : ∀ k, depthQty false k (b.bids.map Resting.mirror) = depthQty true k b.bids :=
    depthQty_mirror true b.bids
  rw [Bool.not_false] at hbidQty
  rw [Bool.not_true] at haskQty
  simp only [restingSignals, RestingBook.mirror, hbid, hask, hbidQty, haskQty, hbidDepth, haskDepth,
    Ne, List.map_eq_nil_iff, and_comm]

/-- A book is two-sided exactly if both sides have orders. -/
theorem twoSided_iff (hv : b.Valid) :
    (restingSignals b).twoSided = true ↔ b.bids ≠ [] ∧ b.asks ≠ [] := by
  have hside : ∀ (isBid : Bool) (l : List Resting), (∀ r ∈ l, 0 < r.qty) →
      (0 < ((bestPrice isBid l).map fun p => qtyAt p l).getD 0 ↔ l ≠ []) := by
    intro isBid l hpos
    rw [Ne, ← not_congr (quoteQty_eq_zero isBid hpos)]
    cases hbest : bestPrice isBid l with
    | none => simp
    | some p =>
        have hqty := qtyAt_pos hpos (exists_of_bestPrice hbest)
        exact iff_of_true hqty (ne_of_gt hqty)
  rw [BookSignals.twoSided, Bool.and_eq_true, BookSignals.hasBid, BookSignals.hasAsk,
    decide_eq_true_iff, decide_eq_true_iff]
  exact and_congr (hside true b.bids (hv.positive true)) (hside false b.asks (hv.positive false))

/-- The quotes of a two-sided book. -/
theorem quotes_spec (hv : b.Valid) {P : Price → Prop} (hprices : ∀ r ∈ b.all, P r.price)
    (htwo : (restingSignals b).twoSided = true) :
    MicropricePre (restingSignals b).bestBid (restingSignals b).bidQty
        (restingSignals b).bestAsk (restingSignals b).askQty ∧
      P (restingSignals b).bestBid ∧ P (restingSignals b).bestAsk := by
  obtain ⟨hbids, hasks⟩ := (twoSided_iff hv).mp htwo
  rw [BookSignals.twoSided, Bool.and_eq_true, BookSignals.hasBid, BookSignals.hasAsk,
    decide_eq_true_iff, decide_eq_true_iff] at htwo
  obtain ⟨bid, hbid⟩ := Option.ne_none_iff_exists'.mp (bestPrice_eq_none.not.mpr hbids)
  obtain ⟨ask, hask⟩ := Option.ne_none_iff_exists'.mp (bestPrice_eq_none.not.mpr hasks)
  obtain ⟨x, hx, hxprice⟩ := exists_of_bestPrice hbid
  obtain ⟨y, hy, hyprice⟩ := exists_of_bestPrice hask
  have hbestBid : (restingSignals b).bestBid = x.price := by
    show (bestPrice true b.bids).getD 0 = _
    rw [hbid, hxprice]
    rfl
  have hbestAsk : (restingSignals b).bestAsk = y.price := by
    show (bestPrice false b.asks).getD 0 = _
    rw [hask, hyprice]
    rfl
  rw [hbestBid, hbestAsk]
  exact ⟨⟨hv.bid_lt_ask hx hy, htwo.1, htwo.2⟩, hprices x (List.mem_append_left _ hx),
    hprices y (List.mem_append_right _ hy)⟩

/-- The quantity of a quote is part of the depth. -/
theorem quoteQty_le {isBid : Bool} {l : List Resting} (hpos : ∀ r ∈ l, 0 < r.qty) :
    ((bestPrice isBid l).map fun p => qtyAt p l).getD 0 ≤ depthQty isBid kMaxSignalDepth l := by
  refine le_trans ?_ (depthQty_mono _ hpos (show 1 ≤ kMaxSignalDepth by decide)).2
  rw [← head?_bestPrices, depthQty]
  cases bestPrices isBid l with
  | nil => exact le_refl _
  | cons p ps => simp

/-- Each side fits if both together do. -/
theorem SignalsFit.cumulativeFits (hfits : SignalsFit b) (hv : b.Valid) : CumulativeFits b := by
  have hbid := (depthQty_mono true (hv.positive true) (Nat.zero_le kMaxSignalDepth))
  have hask := (depthQty_mono false (hv.positive false) (Nat.zero_le kMaxSignalDepth))
  have hbid := hbid.1.trans hbid.2
  have hask := hask.1.trans hask.2
  simp only [RestingBook.side] at hbid hask
  unfold SignalsFit at hfits
  intro s
  cases s with
  | true => exact (by lia : depthQty true kMaxSignalDepth b.bids ≤ int64Max)
  | false => exact (by lia : depthQty false kMaxSignalDepth b.asks ≤ int64Max)

/-- The mirror image fits, too. -/
theorem SignalsFit.mirror (hfits : SignalsFit b) : SignalsFit b.mirror := by
  have hbid := depthQty_mirror false b.asks kMaxSignalDepth
  have hask := depthQty_mirror true b.bids kMaxSignalDepth
  rw [Bool.not_false] at hbid
  rw [Bool.not_true] at hask
  unfold SignalsFit at hfits ⊢
  rw [RestingBook.mirror, hbid, hask, Int.add_comm]
  exact hfits

/-- The signals of a valid book and of its mirror image. -/
theorem restingSignals_mirrored (hv : b.Valid) (hprices : ∀ r ∈ b.all, InSignalRange r.price)
    (hfits : SignalsFit b) : MirrorSignals (restingSignals b) (restingSignals b.mirror) := by
  have hbidPos : ∀ r ∈ b.bids, 0 < r.qty := hv.positive true
  have haskPos : ∀ r ∈ b.asks, 0 < r.qty := hv.positive false
  unfold SignalsFit at hfits
  rw [restingSignals_mirror]
  have htwoSided : ∀ (s s' : BookSignals), s'.bidQty = s.askQty → s'.askQty = s.bidQty →
      s'.twoSided = s.twoSided := by
    intro s s' hbid hask
    rw [BookSignals.twoSided, BookSignals.twoSided, BookSignals.hasBid, BookSignals.hasAsk,
      BookSignals.hasBid, BookSignals.hasAsk, hbid, hask, Bool.and_comm]
  refine ⟨htwoSided _ _ rfl rfl, ?_, fun htwo => ?_, fun htwo => ?_⟩
  · have himb : (restingSignals b).imbalance = kImbalanceDepths.map fun k =>
        imbalanceScaled (depthQty true k b.bids) (depthQty false k b.asks) := rfl
    rw [himb, List.map_map]
    refine List.map_congr_left fun k hk => ?_
    -- no depth is beyond the one up to which the quantities are known to fit
    have hle : k ≤ kMaxSignalDepth := (Accumulator.maxDepth_spec kImbalanceDepths_ascending).2 k hk
    have hbid := depthQty_mono true hbidPos hle
    have hask := depthQty_mono false haskPos hle
    exact imbalanceScaled_neg hbid.1 hask.1 (by lia)
  · obtain ⟨⟨hlt, -, -⟩, hb, ha⟩ := quotes_spec hv hprices htwo
    rw [midScaled_eq htwo hlt hb ha, midScaled_eq ((htwoSided _ _ rfl rfl).trans htwo)
      (Int.neg_lt_neg hlt) ha.neg hb.neg]
    lia
  · obtain ⟨hpre, hb, ha⟩ := quotes_spec hv hprices htwo
    have hboth := (twoSided_iff hv).mp htwo
    have hquote : (restingSignals b).microprice = micropriceScaled (restingSignals b).bestBid
        (restingSignals b).bidQty (restingSignals b).bestAsk (restingSignals b).askQty :=
      if_pos hboth
    have hbidQty : (restingSignals b).bidQty ≤ depthQty true kMaxSignalDepth b.bids :=
      quoteQty_le hbidPos
    have haskQty : (restingSignals b).askQty ≤ depthQty false kMaxSignalDepth b.asks :=
      quoteQty_le haskPos
    rw [hquote]
    simp only [if_pos hboth]
    exact micropriceScaled_mirror hpre (by lia) hb ha

end Signals

/-- Running the mirror image of a sequence of calls gives the mirror image of the run: the same
results and counters, the same fills and the same depth at negated prices on the other side, and the
mirror images of the signals. -/
theorem run_mirror_image {poolCapacity windowSize : Nat} (hvalid : ValidWindow windowSize)
    (cs : List Call) (hcs : ∀ c ∈ cs, c.BothInRange windowSize)
    (hrange : ∀ c ∈ cs, c.PriceIs InSignalRange) :
    ∃ history b b',
      OrderBook.run [] ({} : OrderBook poolCapacity windowSize) cs = .ok (history, b) ∧
      OrderBook.run [] ({} : OrderBook poolCapacity windowSize) (cs.map Call.mirror) =
        .ok (history.map Event.mirror, b') ∧
      b'.stats = b.stats ∧ b'.engine.fills = b.engine.fills.map Fill.mirror ∧
      (∀ n, b'.topLevels .sell n = (b.topLevels .buy n).map LevelQty.mirror ∧
        b'.topLevels .buy n = (b.topLevels .sell n).map LevelQty.mirror) ∧
      (SignalsFit b.resting → ∀ out out' : BookSignals,
        out.imbalance.length = kNumImbalanceDepths → out'.imbalance.length = kNumImbalanceDepths →
        ∃ s s', computeSignals b.topLevels out = .ok s ∧ computeSignals b'.topLevels out' = .ok s' ∧
          MirrorSignals s s') := by
  have hfresh : MirrorImages ({} : OrderBook poolCapacity windowSize) {} :=
    ⟨by rw [fresh_resting hvalid]; rfl, rfl, rfl⟩
  obtain ⟨history, b, mb, sb, sa, b', mb', sb', sa', hrun, hrun', hlock, hlock', himage⟩ :=
    run_mirrored hvalid fresh_lockstep fresh_lockstep hfresh [] cs hcs
  obtain ⟨history₀, b₀, _, _, _, hrun₀, hresting₀, -, hv, -⟩ :=
    @run_ok poolCapacity _ hvalid cs fun c hc => (hcs c hc).1
  -- the runs are deterministic, so these are the books of `run_ok`, which are valid
  obtain ⟨rfl, rfl⟩ := Prod.mk.inj (Except.ok.inj (hrun₀.symm.trans hrun))
  obtain ⟨history₁, b₁, _, _, _, hrun₁, -, -, hv', -⟩ :=
    @run_ok poolCapacity _ hvalid (cs.map Call.mirror) fun c hc => by
      obtain ⟨c₀, hc₀, rfl⟩ := List.mem_map.mp hc
      exact (hcs c₀ hc₀).2
  obtain ⟨-, rfl⟩ := Prod.mk.inj (Except.ok.inj (hrun₁.symm.trans hrun'))
  have hprices : ∀ r ∈ b₀.resting.all, InSignalRange r.price := by
    have h : ∀ r ∈ (RestingBook.run poolCapacity [] {} cs).2.all, InSignalRange r.price :=
      RestingBook.run_prices poolCapacity cs hrange fun r hr => by cases hr
    rw [hresting₀] at h
    exact h
  have hbuy : ∀ n, b₀.topLevels .buy n = depthOf true n b₀.resting.bids :=
    hlock.topLevels_resting hvalid .buy
  have hsell : ∀ n, b₀.topLevels .sell n = depthOf false n b₀.resting.asks :=
    hlock.topLevels_resting hvalid .sell
  have hbuy' : ∀ n, b₁.topLevels .buy n = depthOf true n b₁.resting.bids :=
    hlock'.topLevels_resting hvalid .buy
  have hsell' : ∀ n, b₁.topLevels .sell n = depthOf false n b₁.resting.asks :=
    hlock'.topLevels_resting hvalid .sell
  refine ⟨history₀, b₀, b₁, hrun, hrun', himage.stats, himage.fills, fun n => ⟨?_, ?_⟩, ?_⟩
  · rw [hsell', hbuy, himage.resting]
    exact depthOf_mirror true _ n
  · rw [hbuy', hsell, himage.resting]
    exact depthOf_mirror false _ n
  · intro hfits out out' hlen hlen'
    refine ⟨restingSignals b₀.resting, restingSignals b₁.resting,
      computeSignals_resting hbuy hsell hv (hfits.cumulativeFits hv) hlen,
      computeSignals_resting hbuy' hsell' hv' ?_ hlen', ?_⟩
    · rw [himage.resting] at hv' ⊢
      exact hfits.mirror.cumulativeFits hv'
    · rw [himage.resting]
      exact restingSignals_mirrored hv hprices hfits

/-- Bids that move the window up, an ask that trades with two of them, and an ask above: the mirror
image has its window elsewhere, and the microprices are rounded. -/
theorem run_mirror_image_moving_window :
    ∃ history b b',
      OrderBook.run [] ({} : OrderBook 4 64) [.add 1 .buy 100 5 0, .add 2 .buy 300 5 0,
        .add 3 .sell 50 7 0, .add 4 .sell 104 4 0] = .ok (history, b) ∧
      OrderBook.run [] ({} : OrderBook 4 64) [.add 1 .sell (-100) 5 0, .add 2 .sell (-300) 5 0,
        .add 3 .buy (-50) 7 0, .add 4 .buy (-104) 4 0] = .ok (history.map Event.mirror, b') ∧
      b'.engine.fills = b.engine.fills.map Fill.mirror ∧
      ∃ s s', computeSignals b.topLevels {} = .ok s ∧ computeSignals b'.topLevels {} = .ok s' ∧
        MirrorSignals s s' := by
  obtain ⟨history, b, b', hrun, hrun', -, hfills, -, hsignals⟩ :=
    @run_mirror_image 4 64 ⟨⟨6, rfl⟩, by decide⟩ [.add 1 .buy 100 5 0, .add 2 .buy 300 5 0,
      .add 3 .sell 50 7 0, .add 4 .sell 104 4 0] (by decide) (by decide)
  have hresting : (OrderBook.run [] ({} : OrderBook 4 64) [.add 1 .buy 100 5 0,
      .add 2 .buy 300 5 0, .add 3 .sell 50 7 0, .add 4 .sell 104 4 0]).map
        (fun r => r.2.resting) = .ok ⟨[⟨1, 100, 3⟩], [⟨4, 104, 4⟩]⟩ := by decide +kernel
  rw [hrun] at hresting
  replace hresting : b.resting = _ := Except.ok.inj hresting
  refine ⟨history, b, b', hrun, hrun', hfills, hsignals ?_ {} {} rfl rfl⟩
  rw [hresting]
  unfold SignalsFit
  decide +kernel

end LimitOrderBook
