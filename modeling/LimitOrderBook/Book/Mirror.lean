import LimitOrderBook.Book.Refusals

/-!
# The two sides are mirror images

Swapping the sides and negating the prices turns a sequence of calls into another one. The windows
of the ladders are not symmetric, so the two runs have different windows and tails, but the resting
orders of one are the mirror image of those of the other (`call_mirror`), and with them all that the
book shows (`run_mirrored`).
-/

namespace LimitOrderBook

/-- The other side. -/
def Side.mirror (s : Side) : Side := if s = .buy then .sell else .buy

/-- The order at the negated price. -/
def Resting.mirror (r : Resting) : Resting := { r with price := -r.price }

/-- The fill at the negated price. -/
def Fill.mirror (f : Fill) : Fill := { f with price := -f.price }

/-- The level at the negated price. -/
def LevelQty.mirror (x : LevelQty) : LevelQty := { x with price := -x.price }

/-- The call on the other side, at the negated price. -/
def Call.mirror : Call → Call
  | .add id side price qty ts => .add id side.mirror (-price) qty ts
  | .cancel id => .cancel id

/-- The event on the other side. -/
def Event.mirror (ev : Event) : Event :=
  ⟨ev.call.mirror, ev.result, ev.fills.map Fill.mirror, ev.cancelled⟩

/-- The outcome of the sweep at the negated prices. -/
def Sweep.mirror (s : Sweep) : Sweep :=
  ⟨s.fills.map Fill.mirror, s.left, s.rest.map Resting.mirror⟩

/-- The book with the sides swapped. -/
def RestingBook.mirror (b : RestingBook) : RestingBook :=
  ⟨b.asks.map Resting.mirror, b.bids.map Resting.mirror⟩

/-- A side is mirrored into the other one. -/
theorem Side.mirror_eq_buy (s : Side) : decide (s.mirror = .buy) = !decide (s = .buy) := by
  unfold Side.mirror
  by_cases hbuy : s = .buy
  · rw [if_pos hbuy, decide_eq_true hbuy]
    rfl
  · rw [if_neg hbuy, decide_eq_false hbuy]
    rfl

/-- Negating prices swaps worse and better. -/
theorem worse_neg {isBid : Bool} {p q : Price} : worse (!isBid) (-p) (-q) = worse isBid p q := by
  cases isBid <;> simp [worse]

/-! ## Price-time priority -/

section Sweep

variable {crosses crosses' : Price → Bool} {incoming : OrderId}

/-- A sweep at negated prices. -/
theorem sweep_mirror (hcross : ∀ p, crosses' (-p) = crosses p) (qty : Quantity)
    (l : List Resting) :
    sweep crosses' incoming qty (l.map Resting.mirror) = (sweep crosses incoming qty l).mirror := by
  induction l generalizing qty with
  | nil => rfl
  | cons r rs ih =>
      have hr : crosses' r.mirror.price = crosses r.price := hcross r.price
      rw [List.map_cons]
      rcases sweep_cons_cases crosses incoming qty r rs with
        ⟨hqty, hc, hlt, heq⟩ | ⟨hqty, hc, hge, heq⟩ | ⟨hstop, heq⟩
      · rw [heq, sweep_cons_partly hqty (hr.trans hc) hlt]
        rfl
      · rw [heq, sweep_cons_filled hqty (hr.trans hc) hge]
        show Sweep.mk (_ :: (sweep crosses' incoming (qty - r.qty) _).fills)
          (sweep crosses' incoming (qty - r.qty) _).left
          (sweep crosses' incoming (qty - r.qty) _).rest = _
        rw [ih]
        rfl
      · rw [heq, sweep_cons_stop (by rw [hr]; exact hstop)]
        rfl

/-- Joining a side at negated prices. -/
theorem enqueue_mirror (isBid : Bool) (r : Resting) (l : List Resting) :
    enqueue (!isBid) r.mirror (l.map Resting.mirror) = (enqueue isBid r l).map Resting.mirror := by
  have hcond : ∀ x : Resting, (!worse (!isBid) x.mirror.price r.mirror.price) =
      !worse isBid x.price r.price := fun x => congrArg not worse_neg
  unfold enqueue
  rw [List.takeWhile_map, List.dropWhile_map, List.map_append, List.map_cons]
  simp only [Function.comp_def, hcond]

end Sweep

/-! ## The resting book -/

namespace RestingBook

variable {b : RestingBook}

/-- A side of the mirrored book is the other side, mirrored. -/
theorem side_mirror (s : Bool) : b.mirror.side s = (b.side (!s)).map Resting.mirror := by
  cases s <;> rfl

/-- The orders of the mirrored book. -/
theorem all_mirror_perm : b.mirror.all.Perm (b.all.map Resting.mirror) := by
  rw [all, all, List.map_append]
  exact List.perm_append_comm

/-- The mirrored book has as many orders. -/
theorem length_all_mirror : b.mirror.all.length = b.all.length := by
  rw [all_mirror_perm.length_eq, List.length_map]

/-- The mirrored book has the same ids. -/
theorem rests_mirror (id : OrderId) : b.mirror.rests id = b.rests id := by
  rw [Bool.eq_iff_iff, rests_iff, rests_iff]
  simp only [all_mirror_perm.mem_iff, List.mem_map]
  refine ⟨?_, ?_⟩
  · rintro ⟨_, ⟨r, hr, rfl⟩, hid⟩
    exact ⟨r, hr, hid⟩
  · rintro ⟨r, hr, hid⟩
    exact ⟨r.mirror, ⟨r, hr, rfl⟩, hid⟩

/-- The mirrored book has the same quantities. -/
theorem qtyOf_mirror (id : OrderId) : qtyOf id b.mirror.all = qtyOf id b.all := by
  unfold qtyOf
  rw [((all_mirror_perm.filter _).map Resting.qty).sum_eq, List.filter_map, List.map_map]
  rfl

/-- The sweep of the mirrored order. -/
theorem sweepOf_mirror (isBuy : Bool) (id : OrderId) (price : Price) (qty : Quantity) :
    b.mirror.sweepOf (!isBuy) id (-price) qty = (b.sweepOf isBuy id price qty).mirror := by
  unfold sweepOf
  rw [side_mirror, Bool.not_not]
  refine sweep_mirror (fun p => ?_) qty _
  have h := @worse_neg (!isBuy) p price
  rw [Bool.not_not] at h
  rw [h]

/-- The mirrored order joins the other side. -/
theorem joined_mirror (isBuy : Bool) (id : OrderId) (price : Price) (left : Quantity)
    (l : List Resting) :
    joined (!isBuy) id (-price) left (l.map Resting.mirror) =
      (joined isBuy id price left l).map Resting.mirror := by
  unfold joined
  split
  · exact enqueue_mirror isBuy ⟨id, price, left⟩ l
  · rfl

/-- Adding the mirrored order. -/
theorem add_mirror (isBuy : Bool) (id : OrderId) (price : Price) (qty : Quantity) :
    b.mirror.add (!isBuy) id (-price) qty = (b.add isBuy id price qty).mirror := by
  have hsweep := b.sweepOf_mirror isBuy id price qty
  have hjoined := joined_mirror isBuy id price (b.sweepOf isBuy id price qty).left (b.side isBuy)
  cases isBuy with
  | true =>
      show RestingBook.mk (b.mirror.sweepOf false id (-price) qty).rest (joined false id (-price)
        (b.mirror.sweepOf false id (-price) qty).left (b.bids.map Resting.mirror)) = _
      rw [show b.mirror.sweepOf false id (-price) qty = _ from hsweep]
      exact congrArg (RestingBook.mk _) hjoined
  | false =>
      show RestingBook.mk (joined true id (-price) (b.mirror.sweepOf true id (-price) qty).left
        (b.asks.map Resting.mirror)) (b.mirror.sweepOf true id (-price) qty).rest = _
      rw [show b.mirror.sweepOf true id (-price) qty = _ from hsweep]
      exact congrArg (fun bids => RestingBook.mk bids _) hjoined

/-- Cancelling in the mirrored book. -/
theorem cancel_mirror (id : OrderId) : b.mirror.cancel id = (b.cancel id).mirror := by
  unfold cancel mirror
  rw [List.filter_map, List.filter_map]
  rfl

/-- The mirrored call, in the mirrored book. -/
theorem call_mirror (capacity : Nat) (c : Call) :
    b.mirror.call capacity c.mirror =
      ((b.call capacity c).1.mirror, (b.call capacity c).2.mirror) := by
  cases c with
  | add id side price qty ts =>
      show b.mirror.call capacity (.add id side.mirror (-price) qty ts) = _
      rw [call, call, rests_mirror, length_all_mirror, Side.mirror_eq_buy, sweepOf_mirror,
        add_mirror]
      split <;> rfl
  | cancel id =>
      show b.mirror.call capacity (.cancel id) = _
      rw [call, call, rests_mirror, qtyOf_mirror, cancel_mirror]
      split <;> rfl

/-- The counters after a call. -/
def statsAfter (capacity : Nat) (b : RestingBook) (stats : BookStats) : Call → BookStats
  | .add id _ _ _ _ =>
      if b.rests id ∨ b.all.length = capacity then refusalStats b id stats else stats
  | .cancel _ => stats

/-- The mirrored call counts the same. -/
theorem statsAfter_mirror (capacity : Nat) (stats : BookStats) (c : Call) :
    b.mirror.statsAfter capacity stats c.mirror = b.statsAfter capacity stats c := by
  cases c with
  | add id side price qty ts =>
      show b.mirror.statsAfter capacity stats (.add id side.mirror (-price) qty ts) = _
      rw [statsAfter, statsAfter, rests_mirror, length_all_mirror, refusalStats, refusalStats,
        rests_mirror]
  | cancel id => rfl

end RestingBook

/-! ## The order books -/

section Books

variable {poolCapacity windowSize : Nat} {b b' : OrderBook poolCapacity windowSize}
  {mb mb' : MapOrderBook poolCapacity} {sb sa sb' sa' : List Shelf}

/-- The counters after a call of the order book. -/
theorem call_stats (hvalid : ValidWindow windowSize) (hlock : Lockstep b mb sb sa) {c : Call}
    (hc : c.InRange windowSize) {ev : Event} (hcall : b.call c = .ok (ev, b')) :
    b'.stats = b.resting.statsAfter poolCapacity b.stats c := by
  cases c with
  | add id side price qty ts =>
      rw [OrderBook.call] at hcall
      rw [RestingBook.statsAfter]
      rcases addOrder_refines hvalid hlock id side qty ts hc with
        ⟨hdup, hrun⟩ | ⟨hnew, hfull, hrun, -⟩ | ⟨b₁, _, _, _, hnew, hroom, hrun, -, -, -, -, hstats⟩
      · rw [hrun] at hcall
        cases hcall
        have hrests := RestingBook.rests_iff.mpr hdup
        rw [if_pos (Or.inl hrests), refusalStats, if_pos hrests]
      · rw [hrun] at hcall
        cases hcall
        rw [if_pos (Or.inr hfull), refusalStats,
          if_neg (by rw [Bool.not_eq_true, RestingBook.rests_eq_false]; exact hnew)]
      · rw [hrun] at hcall
        cases hcall
        rw [hstats, if_neg]
        rw [not_or, Bool.not_eq_true, RestingBook.rests_eq_false]
        exact ⟨hnew, hroom.ne⟩
  | cancel id =>
      rw [OrderBook.call] at hcall
      rcases cancelOrder_refines hvalid hlock id with
        ⟨-, hrun, -⟩ | ⟨b₁, _, _, _, -, hrun, -, -, -, -, hstats⟩
      · rw [hrun] at hcall
        cases hcall
        rfl
      · rw [hrun] at hcall
        cases hcall
        exact hstats

/-- Two order books whose resting orders and fills are mirror images and whose counters agree. -/
structure MirrorImages (b b' : OrderBook poolCapacity windowSize) : Prop where
  resting : b'.resting = b.resting.mirror
  fills : b'.engine.fills = b.engine.fills.map Fill.mirror
  stats : b'.stats = b.stats

/-- The calls of a sequence and their mirror images keep away from the 64-bit limits. -/
def Call.BothInRange (windowSize : Nat) (c : Call) : Prop :=
  c.InRange windowSize ∧ c.mirror.InRange windowSize

instance {c : Call} : Decidable (c.BothInRange windowSize) := inferInstanceAs (Decidable (_ ∧ _))

/-- A call and its mirror image keep the books mirror images. -/
theorem call_mirrored (hvalid : ValidWindow windowSize) (hlock : Lockstep b mb sb sa)
    (hlock' : Lockstep b' mb' sb' sa') (himage : MirrorImages b b') {c : Call}
    (hc : c.BothInRange windowSize) :
    ∃ ev b₁ mb₁ sb₁ sa₁ b₁' mb₁' sb₁' sa₁', b.call c = .ok (ev, b₁) ∧
      b'.call c.mirror = .ok (ev.mirror, b₁') ∧ Lockstep b₁ mb₁ sb₁ sa₁ ∧
      Lockstep b₁' mb₁' sb₁' sa₁' ∧ MirrorImages b₁ b₁' := by
  obtain ⟨b₁, mb₁, sb₁, sa₁, hcall, hbook, hfills, hlock₁⟩ := call_refines hvalid hlock hc.1
  obtain ⟨b₁', mb₁', sb₁', sa₁', hcall', hbook', hfills', hlock₁'⟩ :=
    call_refines hvalid hlock' hc.2
  rw [himage.resting, RestingBook.call_mirror] at hcall' hbook' hfills'
  refine ⟨_, b₁, mb₁, sb₁, sa₁, b₁', mb₁', sb₁', sa₁', hcall, hcall', hlock₁, hlock₁', ?_, ?_, ?_⟩
  · rw [hbook', hbook]
  · rw [hfills', hfills, himage.fills, List.map_append]
    rfl
  · rw [call_stats hvalid hlock hc.1 hcall, call_stats hvalid hlock' hc.2 hcall', himage.resting,
      himage.stats, RestingBook.statsAfter_mirror]

/-- A sequence of calls and its mirror image keep the books mirror images. -/
theorem run_mirrored (hvalid : ValidWindow windowSize) (hlock : Lockstep b mb sb sa)
    (hlock' : Lockstep b' mb' sb' sa') (himage : MirrorImages b b') (history : List Event)
    (cs : List Call) (hcs : ∀ c ∈ cs, c.BothInRange windowSize) :
    ∃ history₁ b₁ mb₁ sb₁ sa₁ b₁' mb₁' sb₁' sa₁', b.run history cs = .ok (history₁, b₁) ∧
      b'.run (history.map Event.mirror) (cs.map Call.mirror) =
        .ok (history₁.map Event.mirror, b₁') ∧
      Lockstep b₁ mb₁ sb₁ sa₁ ∧ Lockstep b₁' mb₁' sb₁' sa₁' ∧ MirrorImages b₁ b₁' := by
  induction cs generalizing b mb sb sa b' mb' sb' sa' history with
  | nil =>
      exact ⟨history, b, mb, sb, sa, b', mb', sb', sa', rfl, rfl, hlock, hlock', himage⟩
  | cons c cs ih =>
      obtain ⟨ev, b₁, mb₁, sb₁, sa₁, b₁', mb₁', sb₁', sa₁', hcall, hcall', hlock₁, hlock₁',
        himage₁⟩ := call_mirrored hvalid hlock hlock' himage (hcs c (by simp))
      obtain ⟨history₂, b₂, mb₂, sb₂, sa₂, b₂', mb₂', sb₂', sa₂', hrun, hrun', h⟩ :=
        ih hlock₁ hlock₁' himage₁ (ev :: history) fun c hc => hcs c (by simp [hc])
      refine ⟨history₂, b₂, mb₂, sb₂, sa₂, b₂', mb₂', sb₂', sa₂', ?_, ?_, h⟩
      · rw [OrderBook.run, hcall]
        exact hrun
      · rw [List.map_cons, OrderBook.run, hcall']
        exact hrun'

end Books

end LimitOrderBook
