import LimitOrderBook.Signals.Accumulation
import LimitOrderBook.Signals.Uncrossed
import Mathlib.Data.List.Dedup
import Mathlib.Data.List.Sort
import Mathlib.Order.Lattice

/-!
# Signals of the resting orders

What the signals are for, in terms of the resting orders alone: the best prices, the quantity that
rests at a price, and the quantity at the best prices of a side. Nothing here depends on the order
in which the orders are listed. `run_signals` says that `compute_signals` yields exactly this after
every run.
-/

namespace LimitOrderBook

/-! ## The depth of a list of orders -/

/-- The prices of a list of orders, best first and each once. -/
def bestPrices (isBid : Bool) (l : List Resting) : List Price :=
  (l.map Resting.price).dedup.insertionSort fun p q => worse isBid p q = false

/-- The quantity that rests at a price. -/
def qtyAt (p : Price) (l : List Resting) : Quantity :=
  ((l.filter fun r => r.price = p).map Resting.qty).sum

/-- The best `n` prices of a list of orders, with the quantity at each. -/
def depthOf (isBid : Bool) (n : Nat) (l : List Resting) : List LevelQty :=
  ((bestPrices isBid l).take n).map fun p => ⟨p, qtyAt p l⟩

/-- The quantity at the best `n` prices of a list of orders. -/
def depthQty (isBid : Bool) (n : Nat) (l : List Resting) : Quantity :=
  (((bestPrices isBid l).take n).map fun p => qtyAt p l).sum

/-- The highest bid or the lowest ask. -/
def bestPrice (isBid : Bool) (l : List Resting) : Option Price :=
  if isBid then (l.map Resting.price).max? else (l.map Resting.price).min?

/-- The signals of the resting orders. -/
def restingSignals (b : RestingBook) : BookSignals :=
  let bestBid := bestPrice true b.bids
  let bestAsk := bestPrice false b.asks
  let bidQty := (bestBid.map fun p => qtyAt p b.bids).getD 0
  let askQty := (bestAsk.map fun p => qtyAt p b.asks).getD 0
  { bestBid := bestBid.getD 0
    bestAsk := bestAsk.getD 0
    bidQty := bidQty
    askQty := askQty
    microprice :=
      if b.bids ≠ [] ∧ b.asks ≠ [] then
        micropriceScaled (bestBid.getD 0) bidQty (bestAsk.getD 0) askQty
      else 0
    imbalance := kImbalanceDepths.map fun k =>
      imbalanceScaled (depthQty true k b.bids) (depthQty false k b.asks) }

section Prices

variable {isBid : Bool} {l : List Resting}

/-- The prices are those of the orders. -/
theorem mem_bestPrices {p : Price} : p ∈ bestPrices isBid l ↔ ∃ r ∈ l, r.price = p := by
  rw [bestPrices, List.mem_insertionSort, List.mem_dedup, List.mem_map]

/-- The prices are in order. -/
theorem bestPrices_sorted (isBid : Bool) (l : List Resting) :
    (bestPrices isBid l).Pairwise fun p q => better isBid p q = true := by
  have htotal : Std.Total fun p q => worse isBid p q = false :=
    ⟨fun p q => by cases isBid <;> simp [worse] <;> lia⟩
  have htrans : IsTrans Price fun p q => worse isBid p q = false :=
    ⟨fun p q r hpq hqr => by cases isBid <;> simp [worse] at hpq hqr ⊢ <;> lia⟩
  have hnot : (bestPrices isBid l).Pairwise fun p q => worse isBid p q = false :=
    List.pairwise_insertionSort _ _
  have hnodup : (bestPrices isBid l).Nodup :=
    (List.perm_insertionSort _ _).nodup_iff.mpr (List.nodup_dedup _)
  refine hnot.imp₂ (fun p q hpq hne => ?_) hnodup
  rw [better_eq]
  rcases (worse_strict isBid).total p q with h | h | h
  · rw [h] at hpq
    cases hpq
  · exact absurd h hne
  · exact h

/-- Every list of the prices that is in order is that list. -/
theorem bestPrices_eq {ps : List Price} (hsorted : ps.Pairwise fun p q => better isBid p q = true)
    (hmem : ∀ p, p ∈ ps ↔ ∃ r ∈ l, r.price = p) : bestPrices isBid l = ps := by
  have hnodup : ∀ {qs : List Price}, (qs.Pairwise fun p q => better isBid p q = true) → qs.Nodup :=
    fun h => h.imp fun hpq => (better_strict isBid).ne hpq
  have hperm : (bestPrices isBid l).Perm ps :=
    (List.perm_ext_iff_of_nodup (hnodup (bestPrices_sorted isBid l)) (hnodup hsorted)).mpr
      fun p => mem_bestPrices.trans (hmem p).symm
  refine hperm.eq_of_pairwise (fun p q _ _ hpq hqp => ?_) (bestPrices_sorted isBid l) hsorted
  rw [(better_strict isBid).asymm hpq] at hqp
  cases hqp

/-- The first of the prices is the best one. -/
theorem head?_bestPrices (isBid : Bool) (l : List Resting) :
    (bestPrices isBid l).head? = bestPrice isBid l := by
  have hsorted := bestPrices_sorted isBid l
  have hmem : ∀ p, p ∈ bestPrices isBid l ↔ p ∈ l.map Resting.price := fun p => by
    rw [mem_bestPrices, List.mem_map]
  cases hps : bestPrices isBid l with
  | nil =>
      rw [hps] at hmem
      have hnil : l.map Resting.price = [] :=
        List.eq_nil_iff_forall_not_mem.mpr fun p hp => by simpa using (hmem p).mpr hp
      cases isBid <;> simp [bestPrice, hnil]
  | cons p ps =>
      rw [hps] at hmem hsorted
      have hp : p ∈ l.map Resting.price := (hmem p).mp (by simp)
      have hfirst := (List.pairwise_cons.mp hsorted).1
      have hbest : ∀ q ∈ l.map Resting.price, q = p ∨ better isBid p q = true := by
        intro q hq
        rcases List.mem_cons.mp ((hmem q).mpr hq) with h | h
        · exact Or.inl h
        · exact Or.inr (hfirst q h)
      cases isBid with
      | true =>
          refine (List.max?_eq_some_iff.mpr ⟨hp, fun q hq => ?_⟩).symm
          rcases hbest q hq with rfl | h
          · exact le_refl q
          · exact le_of_lt (of_decide_eq_true h)
      | false =>
          refine (List.min?_eq_some_iff.mpr ⟨hp, fun q hq => ?_⟩).symm
          rcases hbest q hq with rfl | h
          · exact le_refl q
          · exact le_of_lt (of_decide_eq_true h)

/-- The best price is one of those of the orders. -/
theorem bestPrice_eq_none : bestPrice isBid l = none ↔ l = [] := by
  rw [← head?_bestPrices, List.head?_eq_none_iff, List.eq_nil_iff_forall_not_mem,
    List.eq_nil_iff_forall_not_mem]
  simp only [mem_bestPrices]
  refine ⟨fun h r hr => h r.price ⟨r, hr, rfl⟩, ?_⟩
  rintro h p ⟨r, hr, -⟩
  exact h r hr

/-- The best price is that of an order. -/
theorem exists_of_bestPrice {p : Price} (hbest : bestPrice isBid l = some p) :
    ∃ r ∈ l, r.price = p := by
  refine mem_bestPrices.mp (List.mem_of_mem_head? (l := bestPrices isBid l) ?_)
  rw [head?_bestPrices, hbest]
  rfl

end Prices

/-! ## Sums of the depth -/

section Sums

variable {isBid : Bool} {l : List Resting}

/-- The first levels of the depth. -/
theorem cumQty_depthOf {k n : Nat} (hkn : k ≤ n) :
    cumQty (depthOf isBid n l) k = depthQty isBid k l := by
  rw [cumQty, depthOf, depthQty, ← List.map_take, List.take_take, Nat.min_eq_left hkn, List.map_map]
  rfl

/-- Nothing rests at a price in a negative quantity. -/
theorem qtyAt_nonneg (hpos : ∀ r ∈ l, 0 < r.qty) (p : Price) : 0 ≤ qtyAt p l := by
  refine List.sum_nonneg fun x hx => ?_
  obtain ⟨r, hr, rfl⟩ := List.mem_map.mp hx
  exact (hpos r (List.mem_filter.mp hr).1).le

/-- At the price of an order something rests. -/
theorem qtyAt_pos (hpos : ∀ r ∈ l, 0 < r.qty) {p : Price} (hp : ∃ r ∈ l, r.price = p) :
    0 < qtyAt p l := by
  obtain ⟨r, hr, hprice⟩ := hp
  refine List.sum_pos _ (fun x hx => ?_) fun hnil => ?_
  · obtain ⟨t, ht, rfl⟩ := List.mem_map.mp hx
    exact hpos t (List.mem_filter.mp ht).1
  · have hmem : r ∈ l.filter fun r => r.price = p :=
      List.mem_filter.mpr ⟨hr, decide_eq_true hprice⟩
    rw [List.map_eq_nil_iff.mp hnil] at hmem
    cases hmem

/-- The quantity at a price after an order may have joined. -/
theorem qtyAt_joined {id : OrderId} {price : Price} {left : Quantity} (hleft : 0 ≤ left)
    (p : Price) : qtyAt p (RestingBook.joined isBid id price left l) =
      (if price = p then left else 0) + qtyAt p l := by
  unfold RestingBook.joined
  by_cases hpos : 0 < left
  · rw [if_pos hpos, qtyAt, ((enqueue_perm.filter _).map Resting.qty).sum_eq]
    by_cases hp : price = p
    · rw [List.filter_cons_of_pos (by simpa using hp), List.map_cons, List.sum_cons, if_pos hp]
      rfl
    · rw [List.filter_cons_of_neg (by simpa using hp), if_neg hp, Int.zero_add]
      rfl
  · obtain rfl : left = 0 := le_antisymm (not_lt.mp hpos) hleft
    rw [if_neg hpos, ite_self, Int.zero_add]

/-- At different prices no more rests than in all. -/
theorem sum_qtyAt_le (hpos : ∀ r ∈ l, 0 < r.qty) {ps : List Price} (hnodup : ps.Nodup) :
    (ps.map fun p => qtyAt p l).sum ≤ (l.map Resting.qty).sum := by
  induction ps generalizing l with
  | nil =>
      refine List.sum_nonneg fun x hx => ?_
      obtain ⟨r, hr, rfl⟩ := List.mem_map.mp hx
      exact (hpos r hr).le
  | cons p ps ih =>
      obtain ⟨hp, hnodup⟩ := List.nodup_cons.mp hnodup
      -- the orders at `p` do not count at the other prices
      have hother : ∀ q ∈ ps, qtyAt q l = qtyAt q (l.filter fun r => r.price ≠ p) := by
        intro q hq
        rw [qtyAt, qtyAt, List.filter_filter]
        refine congrArg (fun l => (l.map Resting.qty).sum) (List.filter_congr fun r _ => ?_)
        have hne : q ≠ p := fun h => hp (h ▸ hq)
        rw [Bool.eq_iff_iff]
        simp only [decide_eq_true_eq, Bool.and_eq_true]
        exact ⟨fun h => ⟨h, h ▸ hne⟩, fun h => h.1⟩
      have hsplit : (l.map Resting.qty).sum =
          qtyAt p l + ((l.filter fun r => r.price ≠ p).map Resting.qty).sum := by
        have hperm := List.filter_append_perm (fun r : Resting => decide (r.price = p)) l
        rw [← (hperm.map Resting.qty).sum_eq, List.map_append, List.sum_append, qtyAt]
        simp only [decide_not]
      have hrest := @ih (l.filter fun r => r.price ≠ p) (fun r hr =>
        hpos r (List.mem_filter.mp hr).1) hnodup
      rw [List.map_cons, List.sum_cons, List.map_congr_left hother, hsplit]
      lia

/-- The depth has no more than all the orders. -/
theorem depthQty_le_sum (isBid : Bool) (hpos : ∀ r ∈ l, 0 < r.qty) (n : Nat) :
    depthQty isBid n l ≤ (l.map Resting.qty).sum := by
  refine sum_qtyAt_le hpos (List.Nodup.sublist (List.take_sublist n _) ?_)
  exact (bestPrices_sorted isBid l).imp fun h => (better_strict isBid).ne h

/-- A deeper depth has no less. -/
theorem depthQty_mono (isBid : Bool) (hpos : ∀ r ∈ l, 0 < r.qty) {k n : Nat} (hkn : k ≤ n) :
    0 ≤ depthQty isBid k l ∧ depthQty isBid k l ≤ depthQty isBid n l := by
  have hnonneg : ∀ ps : List Price, 0 ≤ (ps.map fun p => qtyAt p l).sum := fun ps =>
    List.sum_nonneg fun x hx => by
      obtain ⟨p, -, rfl⟩ := List.mem_map.mp hx
      exact qtyAt_nonneg hpos p
  refine ⟨hnonneg _, ?_⟩
  have hsplit := List.take_append_drop k ((bestPrices isBid l).take n)
  rw [List.take_take, Nat.min_eq_left hkn] at hsplit
  have hrest := hnonneg (((bestPrices isBid l).take n).drop k)
  unfold depthQty
  rw [← hsplit, List.map_append, List.sum_append]
  lia

end Sums

/-! ## The depth that the book shows -/

section Shelves

variable {isBid : Bool} {h : Heap} {m : MapLevels} {s : List Shelf}

/-- The orders on a shelf are at its price. -/
theorem SideOk.price_of_mem (hside : SideOk isBid h m s) {r : Resting} (hr : r ∈ viewOf h s) :
    ∃ x ∈ s, r.price = x.price := by
  obtain ⟨o, ho, rfl⟩ := List.mem_map.mp hr
  obtain ⟨x, hx, hqueue⟩ := mem_slots.mp ho
  exact ⟨x, hx, (hside.shelves x hx).prices o hqueue⟩

/-- The prices of the orders are those of the shelves. -/
theorem SideOk.bestPrices_eq (hside : SideOk isBid h m s) :
    bestPrices isBid (viewOf h s) = s.map Shelf.price := by
  refine LimitOrderBook.bestPrices_eq (List.pairwise_map.mpr hside.prices_sorted) fun p => ?_
  rw [List.mem_map]
  constructor
  · rintro ⟨x, hx, rfl⟩
    exact hside.exists_order hx
  · rintro ⟨r, hr, rfl⟩
    obtain ⟨x, hx, hprice⟩ := hside.price_of_mem hr
    exact ⟨x, hx, hprice.symm⟩

/-- The quantity at the price of a shelf is its total. -/
theorem SideOk.qtyAt_eq (hside : SideOk isBid h m s) {x : Shelf} (hx : x ∈ s) :
    qtyAt x.price (viewOf h s) = x.level.totalQty := by
  obtain ⟨front, back, rfl⟩ := List.append_of_mem hx
  obtain ⟨-, hback, hfront⟩ := List.pairwise_append.mp hside.prices_sorted
  have hok := hside.shelves x hx
  -- the orders of the other shelves are at other prices
  have hother : ∀ t : List Shelf, (∀ y ∈ t, y ∈ front ++ x :: back ∧ y.price ≠ x.price) →
      (viewOf h t).filter (fun r => r.price = x.price) = [] := by
    intro t ht
    refine List.filter_eq_nil_iff.mpr fun r hr => ?_
    obtain ⟨o, ho, rfl⟩ := List.mem_map.mp hr
    obtain ⟨y, hy, hqueue⟩ := mem_slots.mp ho
    obtain ⟨hmem, hne⟩ := ht y hy
    have hprice := (hside.shelves y hmem).prices o hqueue
    simpa [restingOf, hprice] using hne
  have hself : (x.queue.map (restingOf h)).filter (fun r => r.price = x.price) =
      x.queue.map (restingOf h) := by
    refine List.filter_eq_self.mpr fun r hr => ?_
    obtain ⟨o, ho, rfl⟩ := List.mem_map.mp hr
    exact decide_eq_true (hok.prices o ho)
  have hview : viewOf h (front ++ x :: back) =
      viewOf h front ++ (x.queue.map (restingOf h) ++ viewOf h back) := by
    simp [viewOf]
  rw [qtyAt, hview, List.filter_append, List.filter_append, hself, hother front, hother back,
    List.nil_append, List.append_nil, hok.queued.total, PriceLevel.queueQty, List.map_map]
  · rfl
  · exact fun y hy => ⟨by simp [hy], fun heq =>
      (better_strict isBid).ne ((List.pairwise_cons.mp hback).1 y hy) heq.symm⟩
  · exact fun y hy => ⟨by simp [hy], (better_strict isBid).ne (hfront y hy x (by simp))⟩

/-- The shelves of a side, as far as they are shown, are the depth of its orders. -/
theorem SideOk.depthOf_eq (hside : SideOk isBid h m s) (n : Nat) :
    (s.take n).map (fun x => ⟨x.price, x.level.totalQty⟩) = depthOf isBid n (viewOf h s) := by
  rw [depthOf, hside.bestPrices_eq, ← List.map_take, List.map_map]
  refine List.map_congr_left fun x hx => ?_
  rw [Function.comp_apply, hside.qtyAt_eq (List.mem_of_mem_take hx)]

end Shelves

section Books

variable {poolCapacity windowSize : Nat} {b : OrderBook poolCapacity windowSize}
  {mb : MapOrderBook poolCapacity} {sb sa : List Shelf}

/-- What the book shows of a side is the depth of the orders that rest there. -/
theorem Lockstep.topLevels_resting (hvalid : ValidWindow windowSize)
    (hlock : Lockstep b mb sb sa) (side : Side) (n : Nat) :
    b.topLevels side n = depthOf (side = .buy) n (b.resting.side (side = .buy)) := by
  rw [(hlock.topLevels_eq hvalid side n).1, hlock.resting_eq hvalid]
  by_cases hbuy : side = .buy
  · rw [if_pos hbuy, decide_eq_true hbuy, hlock.map.bids.depthOf_eq]
    rfl
  · rw [if_neg hbuy, decide_eq_false hbuy, hlock.map.asks.depthOf_eq]
    rfl

end Books

/-! ## The signals -/

/-- The cumulative quantities of both sides fit into 64 bits. -/
def CumulativeFits (b : RestingBook) : Prop :=
  ∀ s, depthQty s kMaxSignalDepth (b.side s) ≤ int64Max

/-- The cumulative quantities of both sides together fit into 64 bits. -/
def SignalsFit (b : RestingBook) : Prop :=
  depthQty true kMaxSignalDepth b.bids + depthQty false kMaxSignalDepth b.asks ≤ int64Max

instance {b : RestingBook} : Decidable (SignalsFit b) := inferInstanceAs (Decidable (_ ≤ _))

section Signals

variable {isBid : Bool} {l : List Resting}

/-- The first level of the depth. -/
theorem head?_depthOf {n : Nat} (hn : 0 < n) :
    (depthOf isBid n l).head? = (bestPrice isBid l).map fun p => ⟨p, qtyAt p l⟩ := by
  rw [depthOf, List.head?_map, List.head?_take, if_neg (by omega), head?_bestPrices]

/-- The price of the first level. -/
theorem headPrice_depthOf {n : Nat} (hn : 0 < n) :
    ((depthOf isBid n l).head?.map LevelQty.price).getD 0 = (bestPrice isBid l).getD 0 := by
  rw [head?_depthOf hn]
  cases bestPrice isBid l <;> rfl

/-- The quantity of the first level. -/
theorem headQty_depthOf {n : Nat} (hn : 0 < n) :
    ((depthOf isBid n l).head?.map LevelQty.qty).getD 0 =
      ((bestPrice isBid l).map fun p => qtyAt p l).getD 0 := by
  rw [head?_depthOf hn]
  cases bestPrice isBid l <;> rfl

/-- The depth is empty exactly if there are no orders. -/
theorem length_depthOf_eq_zero {n : Nat} (hn : 0 < n) :
    (depthOf isBid n l).length = 0 ↔ l = [] := by
  rw [List.length_eq_zero_iff, ← List.head?_eq_none_iff, head?_depthOf hn, Option.map_eq_none_iff,
    bestPrice_eq_none]

/-- The cumulative quantities of the loop are exact. -/
theorem wrap64_cumQty_depthOf (hpos : ∀ r ∈ l, 0 < r.qty)
    (hfits : depthQty isBid kMaxSignalDepth l ≤ int64Max) {k : Nat} (hk : k ∈ kImbalanceDepths) :
    wrap64 (cumQty (depthOf isBid kMaxSignalDepth l) k) = depthQty isBid k l := by
  have hle : k ≤ kMaxSignalDepth := (Accumulator.maxDepth_spec kImbalanceDepths_ascending).2 k hk
  obtain ⟨hnonneg, hmono⟩ := depthQty_mono isBid hpos hle
  rw [cumQty_depthOf hle]
  exact wrap64_eq (le_trans (by decide) hnonneg) (hmono.trans hfits)

/-- The signals of a book whose depth is that of its resting orders. -/
theorem computeSignals_resting {topLevels : Side → Nat → List LevelQty} {b : RestingBook}
    (hbids : ∀ n, topLevels .buy n = depthOf true n b.bids)
    (hasks : ∀ n, topLevels .sell n = depthOf false n b.asks) (hv : b.Valid)
    (hfits : CumulativeFits b) {out : BookSignals}
    (hlen : out.imbalance.length = kNumImbalanceDepths) :
    computeSignals topLevels out = .ok (restingSignals b) := by
  have hdepth : 0 < kMaxSignalDepth := by decide
  have hboth : ((depthOf true kMaxSignalDepth b.bids).length ≠ 0 ∧
      (depthOf false kMaxSignalDepth b.asks).length ≠ 0) ↔ b.bids ≠ [] ∧ b.asks ≠ [] := by
    rw [Ne, Ne, length_depthOf_eq_zero hdepth, length_depthOf_eq_zero hdepth]
  have himb : kImbalanceDepths.map (imbalanceAt (depthOf true kMaxSignalDepth b.bids)
      (depthOf false kMaxSignalDepth b.asks)) = kImbalanceDepths.map fun k =>
      imbalanceScaled (depthQty true k b.bids) (depthQty false k b.asks) := by
    refine List.map_congr_left fun k hk => ?_
    exact congrArg₂ imbalanceScaled (wrap64_cumQty_depthOf (hv.positive true) (hfits true) hk)
      (wrap64_cumQty_depthOf (hv.positive false) (hfits false) hk)
  rw [computeSignals_eq topLevels hlen, hbids, hasks, himb]
  simp only [setMicroprice, setQuotes, headPrice_depthOf hdepth, headQty_depthOf hdepth, hboth]
  rfl

/-- A side shows quantity 0 exactly if it has no orders. -/
theorem quoteQty_eq_zero (isBid : Bool) (hpos : ∀ r ∈ l, 0 < r.qty) :
    ((bestPrice isBid l).map fun p => qtyAt p l).getD 0 = 0 ↔ l = [] := by
  cases hbest : bestPrice isBid l with
  | none => exact iff_of_true rfl (bestPrice_eq_none.mp hbest)
  | some p =>
      have hqty := qtyAt_pos hpos (exists_of_bestPrice hbest)
      refine iff_of_false (ne_of_gt hqty) fun hnil => ?_
      rw [bestPrice_eq_none.mpr hnil] at hbest
      cases hbest

end Signals

/-- After every run the signals are those of the resting orders, which are what price-time priority
leaves of the calls, as long as the cumulative quantities fit into 64 bits, and the levels fit into
the arrays that they are copied to. The loop that accumulates them does what it is for with any
other depths, too. -/
theorem run_signals {poolCapacity windowSize : Nat} (hvalid : ValidWindow windowSize)
    (cs : List Call) (hcs : ∀ c ∈ cs, c.InRange windowSize) :
    (∃ history b,
      OrderBook.run [] ({} : OrderBook poolCapacity windowSize) cs = .ok (history, b) ∧
      RestingBook.run poolCapacity [] {} cs = (history, b.resting) ∧
      (CumulativeFits b.resting → ∀ out : BookSignals,
        out.imbalance.length = kNumImbalanceDepths →
        computeSignals b.topLevels out = .ok (restingSignals b.resting)) ∧
      ((restingSignals b.resting).bidQty = 0 ↔ b.resting.bids = []) ∧
      ((restingSignals b.resting).askQty = 0 ↔ b.resting.asks = []) ∧
      ∀ side, (b.topLevels side kMaxSignalDepth).length ≤ kMaxSignalDepth) ∧
    ∀ depths, AscendingDepths depths → ∀ (bids asks : List LevelQty) (imbalance : List Int),
      imbalance.length = depths.length →
      ∃ a, Accumulator.loop depths bids asks (maxDepth depths) 0 { imbalance := imbalance } =
          .ok a ∧
        ((∀ k ∈ depths, FitsInt64 (cumQty bids k) ∧ FitsInt64 (cumQty asks k)) →
          a.imbalance = depths.map fun k => imbalanceScaled (cumQty bids k) (cumQty asks k)) ∧
        Accumulator.written depths bids asks (maxDepth depths) 0 { imbalance := imbalance } =
          List.range depths.length := by
  obtain ⟨history, b, mb, sb, sa, hrun, hbook, hlock, hv, -⟩ := run_ok hvalid cs hcs
  refine ⟨⟨history, b, hrun, hbook, fun hfits out hlen => ?_,
    quoteQty_eq_zero true (hv.positive true), quoteQty_eq_zero false (hv.positive false),
    fun side => ?_⟩, ?_⟩
  · exact computeSignals_resting (hlock.topLevels_resting hvalid .buy)
      (hlock.topLevels_resting hvalid .sell) hv hfits hlen
  · rw [hlock.topLevels_resting hvalid, depthOf, List.length_map]
    exact List.length_take_le _ _
  · intro depths hdepths bids asks imbalance hlen
    obtain ⟨a, hloop, himb, hwritten⟩ := Accumulator.loop_spec hdepths bids asks hlen
    refine ⟨a, hloop, fun hfits => ?_, hwritten⟩
    rw [himb]
    refine List.map_congr_left fun k hk => ?_
    rw [imbalanceAt, wrap64_eq_iff.mpr (hfits k hk).1, wrap64_eq_iff.mpr (hfits k hk).2]

/-- Two bids at one price and one below, and an ask: the signals, computed over an old value. -/
theorem run_signals_three_bids :
    ∃ history b,
      OrderBook.run [] ({} : OrderBook 4 64) [.add 1 .buy 100 5 0, .add 2 .buy 100 3 0,
        .add 3 .buy 90 4 0, .add 4 .sell 110 4 0] = .ok (history, b) ∧
      computeSignals b.topLevels { bestBid := 7, imbalance := [1, 2, 3] } =
        .ok ⟨100, 110, 8, 4, 106666666, [333333, 500000, 500000]⟩ := by
  obtain ⟨⟨history, b, hrun, -, hsignals, -⟩, -⟩ := @run_signals 4 64 ⟨⟨6, rfl⟩, by decide⟩
    [.add 1 .buy 100 5 0, .add 2 .buy 100 3 0, .add 3 .buy 90 4 0, .add 4 .sell 110 4 0] (by decide)
  have hresting : (OrderBook.run [] ({} : OrderBook 4 64) [.add 1 .buy 100 5 0,
      .add 2 .buy 100 3 0, .add 3 .buy 90 4 0, .add 4 .sell 110 4 0]).map (fun r => r.2.resting) =
      .ok ⟨[⟨1, 100, 5⟩, ⟨2, 100, 3⟩, ⟨3, 90, 4⟩], [⟨4, 110, 4⟩]⟩ := by decide +kernel
  rw [hrun] at hresting
  replace hresting : b.resting = _ := Except.ok.inj hresting
  refine ⟨history, b, hrun, ?_⟩
  rw [hsignals ?_ _ rfl, hresting]
  · decide +kernel
  · rw [hresting]
    intro s
    cases s <;> decide +kernel

end LimitOrderBook
