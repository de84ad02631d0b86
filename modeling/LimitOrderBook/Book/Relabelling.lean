import LimitOrderBook.Book.Retraction
import Mathlib

/-!
# Ids, prices and windows are only names

The ids of the orders are hashed and the levels are kept in windows of a fixed size that move with
the prices, but the book compares ids for equality and prices for order only. A relabelling replaces
every id by another one, every price by another one in the same order, and every timestamp; two
books with windows of different sizes that are given a sequence of calls and the relabelled sequence
answer alike (`relabelled_runs`). The capacity of the pool matters from the first refusal for want
of a slot on, and not before (`larger_pool_runs`).
-/

namespace LimitOrderBook

/-- New ids, prices and timestamps: different ids stay different, and prices stay in order. -/
structure Relabelling where
  id : OrderId → OrderId
  price : Price → Price
  ts : Nanos → Nanos
  id_injective : Function.Injective id
  price_strictMono : StrictMono price

namespace Relabelling

variable (ρ : Relabelling)

/-- A resting order with its new id and price. -/
def resting (r : Resting) : Resting := { r with id := ρ.id r.id, price := ρ.price r.price }

/-- A fill with its new ids and price. -/
def fill (f : Fill) : Fill :=
  { f with
    restingId := ρ.id f.restingId, incomingId := ρ.id f.incomingId, price := ρ.price f.price }

/-- A level with its new price. -/
def level (x : LevelQty) : LevelQty := { x with price := ρ.price x.price }

/-- A call with its new id, price and timestamp. -/
def call : Call → Call
  | .add id side price qty ts => .add (ρ.id id) side (ρ.price price) qty (ρ.ts ts)
  | .cancel id => .cancel (ρ.id id)

/-- An event with its new labels. -/
def event (ev : Event) : Event := ⟨ρ.call ev.call, ev.result, ev.fills.map ρ.fill, ev.cancelled⟩

/-- The outcome of a sweep with its new labels. -/
def sweep (s : Sweep) : Sweep := ⟨s.fills.map ρ.fill, s.left, s.rest.map ρ.resting⟩

/-- A book with its new labels. -/
def book (b : RestingBook) : RestingBook := ⟨b.bids.map ρ.resting, b.asks.map ρ.resting⟩

variable {ρ}

/-- New prices are in the order of the old ones. -/
theorem worse_price {isBid : Bool} {p q : Price} :
    worse isBid (ρ.price p) (ρ.price q) = worse isBid p q := by
  cases isBid with
  | true => exact decide_eq_decide.mpr ρ.price_strictMono.lt_iff_lt
  | false => exact decide_eq_decide.mpr ρ.price_strictMono.lt_iff_lt

/-! ## Price-time priority -/

section Sweep

variable {crosses crosses' : Price → Bool} {incoming : OrderId}

/-- A sweep of relabelled orders. -/
theorem sweep_eq (hcross : ∀ p, crosses' (ρ.price p) = crosses p) (qty : Quantity)
    (l : List Resting) :
    LimitOrderBook.sweep crosses' (ρ.id incoming) qty (l.map ρ.resting) =
      ρ.sweep (LimitOrderBook.sweep crosses incoming qty l) := by
  induction l generalizing qty with
  | nil => rfl
  | cons r rs ih =>
      have hr : crosses' (ρ.resting r).price = crosses r.price := hcross r.price
      rw [List.map_cons]
      rcases sweep_cons_cases crosses incoming qty r rs with
        ⟨hqty, hc, hlt, heq⟩ | ⟨hqty, hc, hge, heq⟩ | ⟨hstop, heq⟩
      · rw [heq, sweep_cons_partly hqty (hr.trans hc) hlt]
        rfl
      · rw [heq, sweep_cons_filled hqty (hr.trans hc) hge]
        show Sweep.mk (_ :: (LimitOrderBook.sweep crosses' (ρ.id incoming) (qty - r.qty) _).fills)
          (LimitOrderBook.sweep crosses' (ρ.id incoming) (qty - r.qty) _).left
          (LimitOrderBook.sweep crosses' (ρ.id incoming) (qty - r.qty) _).rest = _
        rw [ih]
        rfl
      · rw [heq, sweep_cons_stop (by rw [hr]; exact hstop)]
        rfl

/-- A relabelled order joins its side where the old one does. -/
theorem enqueue_eq (isBid : Bool) (r : Resting) (l : List Resting) :
    enqueue isBid (ρ.resting r) (l.map ρ.resting) = (enqueue isBid r l).map ρ.resting := by
  have hcond : ∀ x : Resting, (!worse isBid (ρ.resting x).price (ρ.resting r).price) =
      !worse isBid x.price r.price := fun x => congrArg not worse_price
  unfold enqueue
  rw [List.takeWhile_map, List.dropWhile_map, List.map_append, List.map_cons]
  simp only [Function.comp_def, hcond]

end Sweep

/-! ## The resting book -/

section Book

variable {b : RestingBook}

theorem side_book (s : Bool) : (ρ.book b).side s = (b.side s).map ρ.resting := by
  cases s <;> rfl

theorem all_book : (ρ.book b).all = b.all.map ρ.resting := by
  rw [RestingBook.all, RestingBook.all, List.map_append]
  rfl

/-- The relabelled id rests if the old one does. -/
theorem rests_book (id : OrderId) : (ρ.book b).rests (ρ.id id) = b.rests id := by
  rw [RestingBook.rests, RestingBook.rests, all_book, List.any_map]
  refine congrArg (List.any b.all) (funext fun r => ?_)
  exact decide_eq_decide.mpr ρ.id_injective.eq_iff

/-- The relabelled id has the quantity of the old one. -/
theorem qtyOf_book (id : OrderId) : qtyOf (ρ.id id) (ρ.book b).all = qtyOf id b.all := by
  unfold qtyOf
  rw [all_book, List.filter_map, List.map_map]
  have hcond : ((fun r : Resting => decide (r.id = ρ.id id)) ∘ ρ.resting) =
      fun r : Resting => decide (r.id = id) :=
    funext fun r => decide_eq_decide.mpr ρ.id_injective.eq_iff
  rw [hcond]
  rfl

theorem sweepOf_book (isBuy : Bool) (id : OrderId) (price : Price) (qty : Quantity) :
    (ρ.book b).sweepOf isBuy (ρ.id id) (ρ.price price) qty =
      ρ.sweep (b.sweepOf isBuy id price qty) := by
  unfold RestingBook.sweepOf
  rw [side_book]
  exact sweep_eq (fun p => congrArg not worse_price) qty _

theorem joined_eq (isBuy : Bool) (id : OrderId) (price : Price) (left : Quantity)
    (l : List Resting) :
    RestingBook.joined isBuy (ρ.id id) (ρ.price price) left (l.map ρ.resting) =
      (RestingBook.joined isBuy id price left l).map ρ.resting := by
  unfold RestingBook.joined
  split
  · exact enqueue_eq isBuy ⟨id, price, left⟩ l
  · rfl

theorem add_book (isBuy : Bool) (id : OrderId) (price : Price) (qty : Quantity) :
    (ρ.book b).add isBuy (ρ.id id) (ρ.price price) qty = ρ.book (b.add isBuy id price qty) := by
  have hsweep := sweepOf_book (ρ := ρ) (b := b) isBuy id price qty
  have hjoined := joined_eq (ρ := ρ) isBuy id price (b.sweepOf isBuy id price qty).left
    (b.side isBuy)
  cases isBuy with
  | true =>
      unfold RestingBook.add
      rw [hsweep]
      exact congrArg (fun bids => RestingBook.mk bids _) hjoined
  | false =>
      unfold RestingBook.add
      rw [hsweep]
      exact congrArg (RestingBook.mk _) hjoined

theorem cancel_book (id : OrderId) : (ρ.book b).cancel (ρ.id id) = ρ.book (b.cancel id) := by
  have hcond : ((fun r : Resting => decide (r.id ≠ ρ.id id)) ∘ ρ.resting) =
      fun r : Resting => decide (r.id ≠ id) :=
    funext fun r => decide_eq_decide.mpr (not_congr ρ.id_injective.eq_iff)
  unfold RestingBook.cancel book
  rw [List.filter_map, List.filter_map, hcond]

/-- The relabelled call, in the relabelled book. -/
theorem call_book (capacity : Nat) (c : Call) :
    (ρ.book b).call capacity (ρ.call c) =
      (ρ.event (b.call capacity c).1, ρ.book (b.call capacity c).2) := by
  cases c with
  | add id side price qty ts =>
      show (ρ.book b).call capacity (.add (ρ.id id) side (ρ.price price) qty (ρ.ts ts)) = _
      rw [RestingBook.call, RestingBook.call, rests_book, all_book, List.length_map, sweepOf_book,
        add_book]
      split <;> rfl
  | cancel id =>
      show (ρ.book b).call capacity (.cancel (ρ.id id)) = _
      rw [RestingBook.call, RestingBook.call, rests_book, qtyOf_book, cancel_book]
      split <;> rfl

/-- The relabelled call counts the same. -/
theorem statsAfter_book (capacity : Nat) (stats : BookStats) (c : Call) :
    (ρ.book b).statsAfter capacity stats (ρ.call c) = b.statsAfter capacity stats c := by
  cases c with
  | add id side price qty ts =>
      show (ρ.book b).statsAfter capacity stats
        (.add (ρ.id id) side (ρ.price price) qty (ρ.ts ts)) = _
      rw [RestingBook.statsAfter, RestingBook.statsAfter, rests_book, all_book, List.length_map,
        refusalStats, refusalStats, rests_book]
  | cancel id => rfl

end Book

/-! ## Depth -/

section Depth

variable (isBid : Bool) (l : List Resting)

/-- The prices of the relabelled orders. -/
theorem bestPrices_eq :
    bestPrices isBid (l.map ρ.resting) = (bestPrices isBid l).map ρ.price := by
  refine LimitOrderBook.bestPrices_eq ?_ fun p => ?_
  · refine List.pairwise_map.mpr ((bestPrices_sorted isBid l).imp fun h => ?_)
    rw [better_eq] at h ⊢
    rw [worse_price]
    exact h
  · simp only [List.mem_map, mem_bestPrices]
    refine ⟨?_, ?_⟩
    · intro h
      obtain ⟨_, ⟨r, hr, rfl⟩, rfl⟩ := h
      exact ⟨ρ.resting r, ⟨r, hr, rfl⟩, rfl⟩
    · intro h
      obtain ⟨_, ⟨r, hr, rfl⟩, rfl⟩ := h
      exact ⟨r.price, ⟨r, hr, rfl⟩, rfl⟩

/-- The quantity of the relabelled orders at a price. -/
theorem qtyAt_eq (p : Price) : qtyAt (ρ.price p) (l.map ρ.resting) = qtyAt p l := by
  unfold qtyAt
  rw [List.filter_map, List.map_map]
  have hcond : ((fun r : Resting => decide (r.price = ρ.price p)) ∘ ρ.resting) =
      fun r : Resting => decide (r.price = p) :=
    funext fun r => decide_eq_decide.mpr ρ.price_strictMono.injective.eq_iff
  rw [hcond]
  rfl

/-- The depth of the relabelled orders. -/
theorem depthOf_eq (n : Nat) :
    depthOf isBid n (l.map ρ.resting) = (depthOf isBid n l).map ρ.level := by
  unfold depthOf
  rw [bestPrices_eq, ← List.map_take, List.map_map, List.map_map]
  refine List.map_congr_left fun p _ => ?_
  exact congrArg (LevelQty.mk (ρ.price p)) (qtyAt_eq l p)

end Depth

/-- The cumulative quantity of relabelled levels. -/
theorem cumQty_eq (levels : List LevelQty) (n : Nat) :
    cumQty (levels.map ρ.level) n = cumQty levels n := by
  rw [cumQty, cumQty, ← List.map_take, List.map_map]
  rfl

/-- The imbalance of relabelled levels. -/
theorem imbalanceAt_eq (bids asks : List LevelQty) :
    imbalanceAt (bids.map ρ.level) (asks.map ρ.level) = imbalanceAt bids asks := by
  funext k
  rw [imbalanceAt, imbalanceAt, cumQty_eq, cumQty_eq]

/-! ## The order books -/

section Books

variable {poolCapacity windowSize windowSize' : Nat} {b : OrderBook poolCapacity windowSize}
  {b' : OrderBook poolCapacity windowSize'} {mb mb' : MapOrderBook poolCapacity}
  {sb sa sb' sa' : List Shelf}

/-- Two books, the one with the relabelled orders and fills of the other. -/
structure Images (ρ : Relabelling) (b : OrderBook poolCapacity windowSize)
    (b' : OrderBook poolCapacity windowSize') : Prop where
  resting : b'.resting = ρ.book b.resting
  fills : b'.engine.fills = b.engine.fills.map ρ.fill
  stats : b'.stats = b.stats

/-- A call and the relabelled call. -/
theorem call_images (hvalid : ValidWindow windowSize) (hvalid' : ValidWindow windowSize')
    (hlock : Lockstep b mb sb sa) (hlock' : Lockstep b' mb' sb' sa') (himage : Images ρ b b')
    {c : Call} (hc : c.InRange windowSize) (hc' : (ρ.call c).InRange windowSize') :
    ∃ ev b₁ mb₁ sb₁ sa₁ b₁' mb₁' sb₁' sa₁', b.call c = .ok (ev, b₁) ∧
      b'.call (ρ.call c) = .ok (ρ.event ev, b₁') ∧ Lockstep b₁ mb₁ sb₁ sa₁ ∧
      Lockstep b₁' mb₁' sb₁' sa₁' ∧ Images ρ b₁ b₁' := by
  obtain ⟨b₁, mb₁, sb₁, sa₁, hcall, hbook, hfills, hlock₁⟩ := call_refines hvalid hlock hc
  obtain ⟨b₁', mb₁', sb₁', sa₁', hcall', hbook', hfills', hlock₁'⟩ :=
    call_refines hvalid' hlock' hc'
  rw [himage.resting, call_book] at hcall' hbook' hfills'
  refine ⟨_, b₁, mb₁, sb₁, sa₁, b₁', mb₁', sb₁', sa₁', hcall, hcall', hlock₁, hlock₁', ?_, ?_, ?_⟩
  · rw [hbook', hbook]
  · rw [hfills', hfills, himage.fills, List.map_append]
    rfl
  · rw [call_stats hvalid hlock hc hcall, call_stats hvalid' hlock' hc' hcall', himage.resting,
      himage.stats, statsAfter_book]

/-- A sequence of calls and the relabelled sequence. -/
theorem run_images (hvalid : ValidWindow windowSize) (hvalid' : ValidWindow windowSize')
    (hlock : Lockstep b mb sb sa) (hlock' : Lockstep b' mb' sb' sa') (himage : Images ρ b b')
    (history : List Event) (cs : List Call) (hcs : ∀ c ∈ cs, c.InRange windowSize)
    (hcs' : ∀ c ∈ cs, (ρ.call c).InRange windowSize') :
    ∃ history₁ b₁ mb₁ sb₁ sa₁ b₁' mb₁' sb₁' sa₁', b.run history cs = .ok (history₁, b₁) ∧
      b'.run (history.map ρ.event) (cs.map ρ.call) = .ok (history₁.map ρ.event, b₁') ∧
      Lockstep b₁ mb₁ sb₁ sa₁ ∧ Lockstep b₁' mb₁' sb₁' sa₁' ∧ Images ρ b₁ b₁' := by
  induction cs generalizing b mb sb sa b' mb' sb' sa' history with
  | nil => exact ⟨history, b, mb, sb, sa, b', mb', sb', sa', rfl, rfl, hlock, hlock', himage⟩
  | cons c cs ih =>
      obtain ⟨ev, b₁, mb₁, sb₁, sa₁, b₁', mb₁', sb₁', sa₁', hcall, hcall', hlock₁, hlock₁',
        himage₁⟩ := call_images hvalid hvalid' hlock hlock' himage (hcs c (by simp))
          (hcs' c (by simp))
      obtain ⟨history₂, b₂, mb₂, sb₂, sa₂, b₂', mb₂', sb₂', sa₂', hrun, hrun', h⟩ :=
        ih hlock₁ hlock₁' himage₁ (ev :: history) (fun c hc => hcs c (by simp [hc]))
          fun c hc => hcs' c (by simp [hc])
      refine ⟨history₂, b₂, mb₂, sb₂, sa₂, b₂', mb₂', sb₂', sa₂', ?_, ?_, h⟩
      · rw [OrderBook.run, hcall]
        exact hrun
      · rw [List.map_cons, OrderBook.run, hcall']
        exact hrun'

/-- The depth that the relabelled book shows. -/
theorem Images.topLevels_eq (hvalid : ValidWindow windowSize) (hvalid' : ValidWindow windowSize')
    (hlock : Lockstep b mb sb sa) (hlock' : Lockstep b' mb' sb' sa') (himage : Images ρ b b')
    (side : Side) (n : Nat) : b'.topLevels side n = (b.topLevels side n).map ρ.level := by
  rw [hlock'.topLevels_resting hvalid', hlock.topLevels_resting hvalid, himage.resting, side_book,
    depthOf_eq]

/-- The total quantity of the relabelled book. -/
theorem Images.totalRestingQty_eq (hvalid : ValidWindow windowSize)
    (hvalid' : ValidWindow windowSize') (hlock : Lockstep b mb sb sa)
    (hlock' : Lockstep b' mb' sb' sa') (himage : Images ρ b b') :
    b'.totalRestingQty = b.totalRestingQty := by
  rw [(hlock'.totalRestingQty_eq hvalid').1, (hlock.totalRestingQty_eq hvalid).1, himage.resting,
    all_book, List.map_map]
  rfl

end Books

end Relabelling

/-- Two fresh books with windows of any sizes that are given a sequence of calls and the relabelled
sequence return the same results and the relabelled fills, count the same refusals, hold the same
quantity and show the relabelled levels, and their imbalances are equal. -/
theorem relabelled_runs {poolCapacity windowSize windowSize' : Nat}
    (hvalid : ValidWindow windowSize) (hvalid' : ValidWindow windowSize') (ρ : Relabelling)
    (cs : List Call) (hcs : ∀ c ∈ cs, c.InRange windowSize)
    (hcs' : ∀ c ∈ cs, (ρ.call c).InRange windowSize') :
    ∃ history b b' s s',
      ({} : OrderBook poolCapacity windowSize).run [] cs = .ok (history, b) ∧
      ({} : OrderBook poolCapacity windowSize').run [] (cs.map ρ.call) =
        .ok (history.map ρ.event, b') ∧
      b'.engine.fills = b.engine.fills.map ρ.fill ∧ b'.stats = b.stats ∧
      b'.totalRestingQty = b.totalRestingQty ∧
      (∀ side n, b'.topLevels side n = (b.topLevels side n).map ρ.level) ∧
      computeSignals b.topLevels {} = .ok s ∧ computeSignals b'.topLevels {} = .ok s' ∧
      s'.imbalance = s.imbalance ∧ s'.bidQty = s.bidQty ∧ s'.askQty = s.askQty := by
  have hfresh : ρ.Images ({} : OrderBook poolCapacity windowSize)
      ({} : OrderBook poolCapacity windowSize') :=
    ⟨by rw [fresh_resting hvalid, fresh_resting hvalid']; rfl, rfl, rfl⟩
  obtain ⟨history, b, mb, sb, sa, b', mb', sb', sa', hrun, hrun', hlock, hlock', himage⟩ :=
    Relabelling.run_images hvalid hvalid' fresh_lockstep fresh_lockstep hfresh [] cs hcs hcs'
  have htop := himage.topLevels_eq hvalid hvalid' hlock hlock'
  refine ⟨history, b, b', _, _, hrun, hrun', himage.fills, himage.stats,
    himage.totalRestingQty_eq hvalid hvalid' hlock hlock', htop, computeSignals_eq _ rfl,
    computeSignals_eq _ rfl, ?_, ?_, ?_⟩
  · rw [htop, htop, Relabelling.imbalanceAt_eq]
  · simp only [setMicroprice, setQuotes, htop, List.head?_map, Option.map_map]
    rfl
  · simp only [setMicroprice, setQuotes, htop, List.head?_map, Option.map_map]
    rfl

/-- Prices in units of a fifth of a tick from 10000 on, and ids from 1000 on. -/
def fifths : Relabelling where
  id id := id + 1000
  price p := 5 * p + 10000
  ts _ := 0
  id_injective a b h := by simpa using h
  price_strictMono a b h := by simp only; lia

/-- The relabelled run on a window of twice the size, where a sale trades through two levels. -/
theorem relabelled_runs_fifths :
    ∃ history b b' s s',
      ({} : OrderBook 8 64).run [] [.add 1 .buy 100 5 0, .add 2 .buy 7 4 1, .add 3 .sell 5 6 2] =
        .ok (history, b) ∧
      ({} : OrderBook 8 128).run []
        [.add 1001 .buy 10500 5 0, .add 1002 .buy 10035 4 0, .add 1003 .sell 10025 6 0] =
        .ok (history.map fifths.event, b') ∧
      b'.engine.fills = b.engine.fills.map fifths.fill ∧ b'.stats = b.stats ∧
      b'.totalRestingQty = b.totalRestingQty ∧
      (∀ side n, b'.topLevels side n = (b.topLevels side n).map fifths.level) ∧
      computeSignals b.topLevels {} = .ok s ∧ computeSignals b'.topLevels {} = .ok s' ∧
      s'.imbalance = s.imbalance ∧ s'.bidQty = s.bidQty ∧ s'.askQty = s.askQty :=
  relabelled_runs ⟨by decide, by decide⟩ ⟨by decide, by decide⟩ fifths
    [.add 1 .buy 100 5 0, .add 2 .buy 7 4 1, .add 3 .sell 5 6 2] (by decide) (by decide)

/-! ## The capacity of the pool -/

namespace RestingBook

variable {b : RestingBook} {capacity capacity' : Nat}

/-- A call leaves the counter of exhausted pools as it is or counts one more. A call that does not
count is answered the same by a book with more room. -/
theorem call_capacity (hle : capacity ≤ capacity') (hlen : b.all.length ≤ capacity)
    (stats : BookStats) (c : Call) :
    (b.statsAfter capacity stats c).poolExhausted = stats.poolExhausted + 1 ∨
      ((b.statsAfter capacity stats c).poolExhausted = stats.poolExhausted ∧
        b.call capacity' c = b.call capacity c ∧
        b.statsAfter capacity' stats c = b.statsAfter capacity stats c) := by
  cases c with
  | add id side price qty ts =>
      rw [statsAfter, statsAfter, call, call, refusalStats]
      cases hrests : b.rests id with
      | true =>
          refine Or.inr ?_
          simp
      | false =>
          by_cases hfull : b.all.length = capacity
          · refine Or.inl ?_
            simp [hfull]
          · refine Or.inr ?_
            have hfull' : b.all.length ≠ capacity' := by omega
            simp [hfull, hfull']
  | cancel id => exact Or.inr ⟨rfl, rfl, rfl⟩

end RestingBook

section Pools

variable {poolCapacity poolCapacity' windowSize windowSize' : Nat}
  {b : OrderBook poolCapacity windowSize} {b' : OrderBook poolCapacity' windowSize'}
  {mb : MapOrderBook poolCapacity} {mb' : MapOrderBook poolCapacity'} {sb sa sb' sa' : List Shelf}

/-- There are at most as many resting orders as slots. -/
theorem Lockstep.length_resting_le (hvalid : ValidWindow windowSize)
    (hlock : Lockstep b mb sb sa) : b.resting.all.length ≤ poolCapacity := by
  rw [hlock.resting_eq hvalid, length_bookView, List.length_append]
  exact hlock.length_le

/-- A run does not count down. -/
theorem run_poolExhausted_le (hvalid : ValidWindow windowSize) (hlock : Lockstep b mb sb sa)
    (history : List Event) (cs : List Call) (hcs : ∀ c ∈ cs, c.InRange windowSize)
    (hlen : b.stats.poolExhausted.toNat + cs.length < 2 ^ 64) {history₁ : List Event}
    {b₁ : OrderBook poolCapacity windowSize} (hrun : b.run history cs = .ok (history₁, b₁)) :
    b.stats.poolExhausted.toNat ≤ b₁.stats.poolExhausted.toNat := by
  induction cs generalizing b mb sb sa history with
  | nil =>
      cases hrun
      exact le_rfl
  | cons c cs ih =>
      rw [List.length_cons] at hlen
      obtain ⟨b₂, _, _, _, hcall, -, -, hlock₂⟩ := call_refines hvalid hlock (hcs c (by simp))
      rw [OrderBook.run, hcall] at hrun
      have hstep : b.stats.poolExhausted.toNat ≤ b₂.stats.poolExhausted.toNat ∧
          b₂.stats.poolExhausted.toNat ≤ b.stats.poolExhausted.toNat + 1 := by
        rw [call_stats hvalid hlock (hcs c (by simp)) hcall]
        rcases RestingBook.call_capacity le_rfl (hlock.length_resting_le hvalid) b.stats c with
          hmore | ⟨hsame, -⟩
        · rw [hmore, UInt64.toNat_add, Nat.mod_eq_of_lt (by simp; omega)]
          simp
        · rw [hsame]
          omega
      have hrest := ih hlock₂ _ (fun c hc => hcs c (by simp [hc])) (by omega) hrun
      omega

/-- Two books that have been given the same calls without a refusal for want of a slot. -/
structure SameSoFar (b : OrderBook poolCapacity windowSize)
    (b' : OrderBook poolCapacity' windowSize') : Prop where
  resting : b'.resting = b.resting
  fills : b'.engine.fills = b.engine.fills
  stats : b'.stats = b.stats

/-- A run without a refusal for want of a slot is the same on a larger pool. -/
theorem run_larger_pool (hvalid : ValidWindow windowSize) (hvalid' : ValidWindow windowSize')
    (hle : poolCapacity ≤ poolCapacity') (hlock : Lockstep b mb sb sa)
    (hlock' : Lockstep b' mb' sb' sa') (hsame : SameSoFar b b') (history : List Event)
    (cs : List Call) (hcs : ∀ c ∈ cs, c.InRange windowSize ∧ c.InRange windowSize')
    (hlen : b.stats.poolExhausted.toNat + cs.length < 2 ^ 64) {history₁ : List Event}
    {b₁ : OrderBook poolCapacity windowSize} (hrun : b.run history cs = .ok (history₁, b₁))
    (hnone : b₁.stats.poolExhausted = b.stats.poolExhausted) :
    ∃ mb₁ sb₁ sa₁ b₁' mb₁' sb₁' sa₁', b'.run history cs = .ok (history₁, b₁') ∧
      Lockstep b₁ mb₁ sb₁ sa₁ ∧ Lockstep b₁' mb₁' sb₁' sa₁' ∧ SameSoFar b₁ b₁' := by
  induction cs generalizing b b' mb mb' sb sa sb' sa' history with
  | nil =>
      cases hrun
      exact ⟨mb, sb, sa, b', mb', sb', sa', rfl, hlock, hlock', hsame⟩
  | cons c cs ih =>
      rw [List.length_cons] at hlen
      obtain ⟨hc, hc'⟩ := hcs c (by simp)
      have hrest : ∀ c ∈ cs, c.InRange windowSize ∧ c.InRange windowSize' :=
        fun c hc => hcs c (by simp [hc])
      obtain ⟨b₂, mb₂, sb₂, sa₂, hcall, hbook, hfills, hlock₂⟩ := call_refines hvalid hlock hc
      obtain ⟨b₂', mb₂', sb₂', sa₂', hcall', hbook', hfills', hlock₂'⟩ :=
        call_refines hvalid' hlock' hc'
      have hstats := call_stats hvalid hlock hc hcall
      have hstats' := call_stats hvalid' hlock' hc' hcall'
      rw [OrderBook.run, hcall] at hrun
      rw [hsame.resting] at hcall' hbook' hfills' hstats'
      rw [hsame.stats] at hstats'
      rcases RestingBook.call_capacity hle (hlock.length_resting_le hvalid) b.stats c with
        hmore | ⟨hcount, hanswer, hcounters⟩
      · -- the counter would be ahead of its last value
        rw [← hstats] at hmore
        have hsucc : b₂.stats.poolExhausted.toNat = b.stats.poolExhausted.toNat + 1 := by
          rw [hmore, UInt64.toNat_add, Nat.mod_eq_of_lt (by simp; omega)]
          rfl
        have hup := run_poolExhausted_le hvalid hlock₂ _ cs (fun c hc => (hrest c hc).1) (by omega)
          hrun
        rw [hnone] at hup
        omega
      · rw [← hstats] at hcount
        rw [hanswer] at hcall' hbook' hfills'
        rw [hcounters] at hstats'
        have hsame₂ : SameSoFar b₂ b₂' :=
          ⟨by rw [hbook', hbook], by rw [hfills', hfills, hsame.fills], by rw [hstats', hstats]⟩
        obtain ⟨mb₁, sb₁, sa₁, b₁', mb₁', sb₁', sa₁', hrun', h⟩ := ih hlock₂ hlock₂' hsame₂ _ hrest
          (by rw [hcount]; omega) hrun (by rw [hnone, hcount])
        refine ⟨mb₁, sb₁, sa₁, b₁', mb₁', sb₁', sa₁', ?_, h⟩
        rw [OrderBook.run, hcall']
        exact hrun'

/-- A fresh book with a larger pool, and with a window of any size, answers a sequence of calls as
one with a smaller pool, unless that has refused an order for want of a slot: the same results and
fills, the same counters, best prices, depth and total quantity. -/
theorem larger_pool_runs (hvalid : ValidWindow windowSize) (hvalid' : ValidWindow windowSize')
    (hle : poolCapacity ≤ poolCapacity') (cs : List Call)
    (hcs : ∀ c ∈ cs, c.InRange windowSize ∧ c.InRange windowSize') (hlen : cs.length < 2 ^ 64) :
    ∃ history b, ({} : OrderBook poolCapacity windowSize).run [] cs = .ok (history, b) ∧
      (b.stats.poolExhausted = 0 →
        ∃ b', ({} : OrderBook poolCapacity' windowSize').run [] cs = .ok (history, b') ∧
          b'.stats = b.stats ∧ b'.observe none = b.observe none) := by
  obtain ⟨b, mb, sb, sa, hrun, -, -⟩ := run_refines hvalid fresh_lockstep [] cs
    fun c hc => (hcs c hc).1
  refine ⟨_, b, hrun, fun hnone => ?_⟩
  have hfresh : SameSoFar ({} : OrderBook poolCapacity windowSize)
      ({} : OrderBook poolCapacity' windowSize') :=
    ⟨by rw [fresh_resting hvalid, fresh_resting hvalid'], rfl, rfl⟩
  obtain ⟨_, _, _, b', _, _, _, hrun', hlock, hlock', hsame⟩ := run_larger_pool hvalid hvalid' hle
    fresh_lockstep fresh_lockstep hfresh [] cs hcs (by simpa using hlen) hrun hnone
  obtain ⟨hbid, hask⟩ := hlock.bestPrice_resting hvalid
  obtain ⟨hbid', hask'⟩ := hlock'.bestPrice_resting hvalid'
  have hdepth : b'.topLevels = b.topLevels := by
    funext side n
    rw [hlock.topLevels_resting hvalid, hlock'.topLevels_resting hvalid', hsame.resting]
  refine ⟨b', hrun', hsame.stats, ?_⟩
  rw [OrderBook.observe, OrderBook.observe, hsame.fills, hdepth, hbid, hask, hbid', hask',
    (hlock.totalRestingQty_eq hvalid).1, (hlock'.totalRestingQty_eq hvalid').1, hsame.resting]

end Pools

/-- A pool of two slots that are used again, and one of five. -/
theorem larger_pool_runs_two_slots :
    ∃ history b b', ({} : OrderBook 2 64).run []
        [.add 1 .buy 100 5 0, .cancel 1, .add 2 .buy 900 4 1, .add 3 .sell 900 1 2] =
          .ok (history, b) ∧
      ({} : OrderBook 5 128).run []
        [.add 1 .buy 100 5 0, .cancel 1, .add 2 .buy 900 4 1, .add 3 .sell 900 1 2] =
          .ok (history, b') ∧
      b'.observe none = b.observe none := by
  obtain ⟨history, b, hrun, hlarger⟩ := @larger_pool_runs 2 5 64 128 ⟨⟨6, rfl⟩, by decide⟩
    ⟨⟨7, rfl⟩, by decide⟩ (by decide)
    [.add 1 .buy 100 5 0, .cancel 1, .add 2 .buy 900 4 1, .add 3 .sell 900 1 2] (by decide)
    (by decide)
  have hnone : (({} : OrderBook 2 64).run []
      [.add 1 .buy 100 5 0, .cancel 1, .add 2 .buy 900 4 1, .add 3 .sell 900 1 2]).map
        (fun r => r.2.stats.poolExhausted) = .ok 0 := by decide +kernel
  rw [hrun] at hnone
  obtain ⟨b', hrun', -, hseen⟩ := hlarger (Except.ok.inj hnone)
  exact ⟨history, b, b', hrun, hrun', hseen⟩

end LimitOrderBook
