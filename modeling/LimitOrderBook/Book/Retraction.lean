import LimitOrderBook.Book.Differential
import LimitOrderBook.Book.Mirror
import LimitOrderBook.Signals.Depth

/-!
# A quote that is taken back

An order that does not trade and is cancelled at once leaves the book as it was for its users,
though the window of its side may have moved and levels may have changed their places for good. What
is kept is the relation `Alike`: both books are in order, and they have the same resting orders,
fills and counters. Whatever calls follow, two books that are alike answer them the same
(`Alike.answers`).
-/

namespace LimitOrderBook

/-- The answer to a call, the counters after it and what can be seen of the book. -/
structure Answer where
  event : Event
  stats : BookStats
  seen : Observation

namespace OrderBook

variable {poolCapacity windowSize : Nat}

/-- The answers to a sequence of calls. -/
def answers (b : OrderBook poolCapacity windowSize) : List Call → Result (List Answer)
  | [] => pure []
  | c :: cs => do
      let (ev, b) ← b.call c
      let rest ← answers b cs
      pure (⟨ev, b.stats, b.observe none⟩ :: rest)

/-- An order at the price does not trade with the best order of the other side. -/
def DoesNotCross (b : OrderBook poolCapacity windowSize) (side : Side) (price : Price) : Prop :=
  if side = .buy then ∀ ask, b.bestAsk = some ask → price < ask
  else ∀ bid, b.bestBid = some bid → bid < price

end OrderBook

/-! ## The resting book -/

/-- A sweep that does not cross changes nothing. -/
theorem sweep_of_uncrossed {crosses : Price → Bool} {incoming : OrderId} {qty : Quantity}
    {l : List Resting} (h : ∀ x ∈ l, crosses x.price = false) :
    sweep crosses incoming qty l = ⟨[], qty, l⟩ := by
  cases l with
  | nil => rfl
  | cons r rs =>
      refine sweep_cons_stop fun hgo => ?_
      rw [h r (by simp)] at hgo
      cases hgo.2

/-- An order that has joined a side can be taken out again. -/
theorem filter_enqueue {isBid : Bool} {r : Resting} {l : List Resting}
    (hnew : ∀ x ∈ l, x.id ≠ r.id) : (enqueue isBid r l).filter (fun x => x.id ≠ r.id) = l := by
  have hkeep : ∀ a : List Resting, (∀ x ∈ a, x ∈ l) → a.filter (fun x => x.id ≠ r.id) = a :=
    fun a ha => List.filter_eq_self.mpr fun x hx => decide_eq_true (hnew x (ha x hx))
  unfold enqueue
  rw [List.filter_append, List.filter_cons_of_neg (by simp),
    hkeep _ fun x hx => (List.takeWhile_prefix _).subset hx,
    hkeep _ fun x hx => (List.dropWhile_suffix _).subset hx, List.takeWhile_append_dropWhile]

namespace RestingBook

variable {b b' : RestingBook} {isBuy : Bool} {id : OrderId} {price : Price} {qty : Quantity}

/-- Two books with the same sides are the same. -/
theorem eq_of_sides (h : ∀ s, b.side s = b'.side s) : b = b' := by
  have hbids : b.bids = b'.bids := h true
  have hasks : b.asks = b'.asks := h false
  cases b
  cases b'
  simp_all

/-- An order that does not cross joins its side without a fill. -/
theorem sweepOf_uncrossed
    (h : ∀ x ∈ b.side (!isBuy), worse (!isBuy) x.price price = true) :
    b.sweepOf isBuy id price qty = ⟨[], qty, b.side (!isBuy)⟩ :=
  sweep_of_uncrossed fun x hx => by rw [h x hx]; rfl

/-- Cancelling an order that has joined its side without a fill restores the book. -/
theorem cancel_add (hqty : 0 < qty) (hnew : ∀ r ∈ b.all, r.id ≠ id)
    (h : ∀ x ∈ b.side (!isBuy), worse (!isBuy) x.price price = true) :
    (b.add isBuy id price qty).cancel id = b := by
  have hside : ∀ s, ∀ x ∈ b.side s, x.id ≠ id := fun s x hx => hnew x (mem_all.mpr ⟨s, hx⟩)
  refine eq_of_sides fun s => ?_
  rw [side_cancel]
  by_cases hs : s = isBuy
  · rw [hs, side_add_self, sweepOf_uncrossed h, joined, if_pos hqty]
    exact filter_enqueue (r := ⟨id, price, qty⟩) (hside isBuy)
  · obtain rfl : s = !isBuy := by
      cases s <;> cases isBuy <;> simp_all
    rw [side_add_not, sweepOf_uncrossed h]
    exact List.filter_eq_self.mpr fun x hx => decide_eq_true (hside _ x hx)

/-- An order that does not cross rests after it has been added. -/
theorem exists_add (hqty : 0 < qty)
    (h : ∀ x ∈ b.side (!isBuy), worse (!isBuy) x.price price = true) :
    ∃ r ∈ (b.add isBuy id price qty).all, r.id = id := by
  refine ⟨⟨id, price, qty⟩, mem_all.mpr ⟨isBuy, ?_⟩, rfl⟩
  rw [side_add_self, sweepOf_uncrossed h, mem_joined]
  exact Or.inr ⟨hqty, rfl⟩

end RestingBook

/-! ## Books that are alike -/

section Books

variable {poolCapacity windowSize : Nat} {b b' : OrderBook poolCapacity windowSize}
  {mb : MapOrderBook poolCapacity} {sb sa : List Shelf}

/-- The best prices are those of the orders that rest. -/
theorem Lockstep.bestPrice_resting (hvalid : ValidWindow windowSize)
    (hlock : Lockstep b mb sb sa) :
    b.bestBid = bestPrice true b.resting.bids ∧ b.bestAsk = bestPrice false b.resting.asks := by
  -- the best price is that of the first level shown
  have hside : ∀ (s : List Shelf) (isBid : Bool) (l : List Resting),
      ((s.take 1).map fun x => (⟨x.price, x.level.totalQty⟩ : LevelQty)) = depthOf isBid 1 l →
      s.head?.map Shelf.price = bestPrice isBid l := by
    intro s isBid l heq
    have hhead := congrArg (fun levels => levels.head?.map LevelQty.price) heq
    rw [head?_depthOf Nat.one_pos, List.head?_map, List.head?_take, if_neg Nat.one_ne_zero,
      Option.map_map, Option.map_map] at hhead
    exact hhead.trans Option.map_id'
  have hbuy := hlock.topLevels_resting hvalid .buy 1
  have hsell := hlock.topLevels_resting hvalid .sell 1
  rw [(hlock.topLevels_eq hvalid _ 1).1] at hbuy hsell
  rw [hlock.bestBid_eq.1, hlock.bestAsk_eq.1]
  exact ⟨hside sb true _ hbuy, hside sa false _ hsell⟩

/-- A price that does not cross the best order of the other side crosses none of them. -/
theorem Lockstep.worse_of_uncrossed (hvalid : ValidWindow windowSize)
    (hlock : Lockstep b mb sb sa) {side : Side} {price : Price}
    (h : b.DoesNotCross side price) :
    ∀ x ∈ b.resting.side (!decide (side = .buy)),
      worse (!decide (side = .buy)) x.price price = true := by
  obtain ⟨hbid, hask⟩ := hlock.bestPrice_resting hvalid
  unfold OrderBook.DoesNotCross at h
  intro x hx
  by_cases hbuy : side = .buy
  · rw [if_pos hbuy, hask] at h
    rw [decide_eq_true hbuy] at hx ⊢
    cases hbest : bestPrice false b.resting.asks with
    | none =>
        have hx : x ∈ b.resting.asks := hx
        rw [bestPrice_eq_none.mp hbest] at hx
        cases hx
    | some ask =>
        have hle := (List.min?_eq_some_iff.mp hbest).2 x.price (List.mem_map_of_mem hx)
        exact decide_eq_true (lt_of_lt_of_le (h ask hbest) hle)
  · rw [if_neg hbuy, hbid] at h
    rw [decide_eq_false hbuy] at hx ⊢
    cases hbest : bestPrice true b.resting.bids with
    | none =>
        have hx : x ∈ b.resting.bids := hx
        rw [bestPrice_eq_none.mp hbest] at hx
        cases hx
    | some bid =>
        have hle := (List.max?_eq_some_iff.mp hbest).2 x.price (List.mem_map_of_mem hx)
        exact decide_eq_true (lt_of_le_of_lt hle (h bid hbest))

/-- Two books in order with the same resting orders, fills and counters. Their windows may be
different. -/
structure Alike (b b' : OrderBook poolCapacity windowSize) : Prop where
  left : ∃ mb sb sa, Lockstep b mb sb sa
  right : ∃ mb sb sa, Lockstep b' mb sb sa
  resting : b'.resting = b.resting
  fills : b'.engine.fills = b.engine.fills
  stats : b'.stats = b.stats

/-- Books that are alike look the same. -/
theorem Alike.observe (hvalid : ValidWindow windowSize) (h : Alike b b')
    (cancelled : Option Bool) : b'.observe cancelled = b.observe cancelled := by
  obtain ⟨mb, sb, sa, hlock⟩ := h.left
  obtain ⟨mb', sb', sa', hlock'⟩ := h.right
  have hbest := hlock.bestPrice_resting hvalid
  have hbest' := hlock'.bestPrice_resting hvalid
  have hdepth : b'.topLevels = b.topLevels := by
    funext side n
    rw [hlock.topLevels_resting hvalid, hlock'.topLevels_resting hvalid, h.resting]
  rw [OrderBook.observe, OrderBook.observe, h.fills, hdepth, hbest.1, hbest.2, hbest'.1, hbest'.2,
    (hlock.totalRestingQty_eq hvalid).1, (hlock'.totalRestingQty_eq hvalid).1, h.resting]

/-- Books that are alike answer a call the same, and stay alike. -/
theorem Alike.call (hvalid : ValidWindow windowSize) (h : Alike b b') {c : Call}
    (hc : c.InRange windowSize) :
    ∃ ev b₁ b₁', b.call c = .ok (ev, b₁) ∧ b'.call c = .ok (ev, b₁') ∧ Alike b₁ b₁' := by
  obtain ⟨mb, sb, sa, hlock⟩ := h.left
  obtain ⟨mb', sb', sa', hlock'⟩ := h.right
  obtain ⟨b₁, mb₁, sb₁, sa₁, hcall, hbook, hfills, hlock₁⟩ := call_refines hvalid hlock hc
  obtain ⟨b₁', mb₁', sb₁', sa₁', hcall', hbook', hfills', hlock₁'⟩ :=
    call_refines hvalid hlock' hc
  have hstats := call_stats hvalid hlock hc hcall
  have hstats' := call_stats hvalid hlock' hc hcall'
  rw [h.resting] at hcall' hbook' hfills' hstats'
  refine ⟨_, b₁, b₁', hcall, hcall', ⟨mb₁, sb₁, sa₁, hlock₁⟩, ⟨mb₁', sb₁', sa₁', hlock₁'⟩, ?_, ?_,
    ?_⟩
  · rw [hbook', hbook]
  · rw [hfills', hfills, h.fills]
  · rw [hstats', hstats, h.stats]

/-- Books that are alike answer every sequence of calls the same. -/
theorem Alike.answers (hvalid : ValidWindow windowSize) (h : Alike b b') (cs : List Call)
    (hcs : ∀ c ∈ cs, c.InRange windowSize) :
    ∃ answers, b.answers cs = .ok answers ∧ b'.answers cs = .ok answers := by
  induction cs generalizing b b' with
  | nil => exact ⟨[], rfl, rfl⟩
  | cons c cs ih =>
      obtain ⟨ev, b₁, b₁', hcall, hcall', h₁⟩ := h.call hvalid (hcs c (by simp))
      obtain ⟨rest, hrest, hrest'⟩ := ih h₁ fun c hc => hcs c (by simp [hc])
      refine ⟨⟨ev, b₁.stats, b₁.observe none⟩ :: rest, ?_, ?_⟩
      · rw [OrderBook.answers, hcall]
        show (b₁.answers cs >>= _) = _
        rw [hrest]
        rfl
      · rw [OrderBook.answers, hcall', ← h₁.stats, ← h₁.observe hvalid none]
        show (b₁'.answers cs >>= _) = _
        rw [hrest']
        rfl

/-- A quote that does not trade and is cancelled at once leaves a book that is alike. -/
theorem Lockstep.retract (hvalid : ValidWindow windowSize) (hlock : Lockstep b mb sb sa)
    {id : OrderId} {side : Side} {price : Price} {qty : Quantity} {ts : Nanos}
    (hprice : PriceInRange windowSize price) (hqty : 0 < qty)
    (huncrossed : b.DoesNotCross side price) {b₁ : OrderBook poolCapacity windowSize}
    (hadd : b.addOrder id side price qty ts = .ok (true, b₁)) :
    ∃ b₂, b₁.cancelOrder id = .ok (true, b₂) ∧ b₁.engine.fills = b.engine.fills ∧ Alike b b₂ := by
  have hworse := hlock.worse_of_uncrossed hvalid huncrossed
  -- of the three outcomes only the last is an acceptance
  rcases addOrder_refines hvalid hlock id side qty ts hprice with
    ⟨-, hrun⟩ | ⟨-, -, hrun, -⟩ |
      ⟨b₁', mb₁, sb₁, sa₁, hnew, -, hrun, -, hlock₁, hbook₁, hfills₁, hstats₁⟩
  · rw [hrun] at hadd
    cases hadd
  · rw [hrun] at hadd
    cases hadd
  · rw [hrun] at hadd
    cases hadd
    rw [RestingBook.sweepOf_uncrossed hworse, List.append_nil] at hfills₁
    have hex : ∃ r ∈ b₁.resting.all, r.id = id := by
      rw [hbook₁]
      exact RestingBook.exists_add hqty hworse
    rcases cancelOrder_refines hvalid hlock₁ id with
      ⟨hnone, -⟩ | ⟨b₂, mb₂, sb₂, sa₂, -, hcancel, -, hlock₂, hbook₂, hfills₂, hstats₂⟩
    · obtain ⟨r, hr, hid⟩ := hex
      exact absurd hid (hnone r hr)
    · refine ⟨b₂, hcancel, hfills₁, ⟨mb, sb, sa, hlock⟩, ⟨mb₂, sb₂, sa₂, hlock₂⟩, ?_,
        hfills₂.trans hfills₁, hstats₂.trans hstats₁⟩
      rw [hbook₂, hbook₁]
      exact RestingBook.cancel_add hqty hnew hworse

/-- After every run, a quote that does not trade and is cancelled at once leaves no trace: the
cancel succeeds, neither call reports a fill, and every sequence of calls is then answered as if
the quote had never been there. -/
theorem quote_leaves_no_trace (hvalid : ValidWindow windowSize) (cs : List Call)
    (hcs : ∀ c ∈ cs, c.InRange windowSize) :
    ∃ history b, OrderBook.run [] ({} : OrderBook poolCapacity windowSize) cs = .ok (history, b) ∧
      ∀ id side price qty ts b₁, PriceInRange windowSize price → 0 < qty →
        b.DoesNotCross side price → b.addOrder id side price qty ts = .ok (true, b₁) →
        ∃ b₂, b₁.cancelOrder id = .ok (true, b₂) ∧ b₁.engine.fills = b.engine.fills ∧
          b₂.engine.fills = b.engine.fills ∧ b₂.stats = b.stats ∧
          b₂.observe none = b.observe none ∧
          ∀ ds, (∀ d ∈ ds, d.InRange windowSize) →
            ∃ answers, b.answers ds = .ok answers ∧ b₂.answers ds = .ok answers := by
  obtain ⟨history, b, mb, sb, sa, hrun, -, hlock, -, -⟩ := run_ok hvalid cs hcs
  refine ⟨history, b, hrun, fun id side price qty ts b₁ hprice hqty huncrossed hadd => ?_⟩
  obtain ⟨b₂, hcancel, hfills, halike⟩ := hlock.retract hvalid hprice hqty huncrossed hadd
  exact ⟨b₂, hcancel, hfills, halike.fills, halike.stats, halike.observe hvalid none,
    halike.answers hvalid⟩

end Books

/-- A bid 300 ticks above the only resting one moves the window, and is cancelled. -/
theorem quote_leaves_no_trace_far_bid :
    ∃ history b, OrderBook.run [] ({} : OrderBook 2 64) [.add 1 .buy 100 5 0] = .ok (history, b) ∧
      ∃ b₁ b₂, b.addOrder 2 .buy 400 3 1 = .ok (true, b₁) ∧ b₁.cancelOrder 2 = .ok (true, b₂) ∧
        ∃ answers, b.answers [.add 3 .sell 100 5 2] = .ok answers ∧
          b₂.answers [.add 3 .sell 100 5 2] = .ok answers := by
  obtain ⟨history, b, hrun, hretract⟩ := @quote_leaves_no_trace 2 64 ⟨⟨6, rfl⟩, by decide⟩
    [.add 1 .buy 100 5 0] (by decide)
  have hask : (OrderBook.run [] ({} : OrderBook 2 64) [.add 1 .buy 100 5 0]).map
      (fun r => r.2.bestAsk) = .ok none := by decide +kernel
  have haccepted : (OrderBook.run [] ({} : OrderBook 2 64) [.add 1 .buy 100 5 0]).bind
      (fun r => (r.2.addOrder 2 .buy 400 3 1).map Prod.fst) = .ok true := by decide +kernel
  rw [hrun] at hask haccepted
  replace hask : b.bestAsk = none := Except.ok.inj hask
  replace haccepted : (b.addOrder 2 .buy 400 3 1).map Prod.fst = .ok true := haccepted
  cases hadd : b.addOrder 2 .buy 400 3 1 with
  | error fault =>
      rw [hadd] at haccepted
      cases haccepted
  | ok r =>
      rw [hadd] at haccepted
      obtain ⟨accepted, b₁⟩ := r
      obtain rfl : accepted = true := Except.ok.inj haccepted
      have huncrossed : b.DoesNotCross .buy 400 := fun ask hbest => by
        rw [hask] at hbest
        cases hbest
      obtain ⟨b₂, hcancel, _, _, _, _, hanswers⟩ :=
        hretract 2 .buy 400 3 1 b₁ (by decide) (by decide) huncrossed hadd
      exact ⟨history, b, hrun, b₁, b₂, hadd, hcancel, hanswers [.add 3 .sell 100 5 2] (by decide)⟩

end LimitOrderBook
