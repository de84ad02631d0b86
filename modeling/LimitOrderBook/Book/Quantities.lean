import LimitOrderBook.Book.Arithmetic
import LimitOrderBook.Signals.Depth
import Mathlib.Algebra.Order.BigOperators.Group.List

/-!
# Quantities of the book

What the book computes on quantities. A trade only takes from the total of a level, and an order
that comes to rest adds to one. So the calls are exact as long as at no price more rests than a
64-bit integer holds (`RestingBook.LevelsFit`), and the first call after which more does is not.
Adding up all levels is exact if and only if all that rests adds up to a 64-bit integer.
-/

namespace LimitOrderBook

open PriceLevel

/-- A quantity between 0 and the largest 64-bit integer is a 64-bit one. -/
theorem wrap64_of_nonneg {x : Int} (hlo : 0 ≤ x) (hhi : x ≤ int64Max) : wrap64 x = x :=
  wrap64_eq (le_trans (by decide) hlo) hhi

/-! ## Trades -/

section Trade

variable {poolCapacity : Nat} {e : Engine poolCapacity} {incoming o : OrderRef}
  {tradePrice : Price} {level : PriceLevel} {q r others : List OrderRef}

/-- No order of a queue has more than the total of the level. -/
theorem InMatch.quantity_le (hm : InMatch e incoming tradePrice level (o :: r) others) :
    (e.heap o).quantity ≤ level.totalQty := by
  have hrest : 0 ≤ queueQty e.heap r := by
    refine List.sum_nonneg fun x hx => ?_
    obtain ⟨s, hs, rfl⟩ := List.mem_map.mp hx
    exact (hm.positive s (by simp [hs])).le
  rw [hm.queued.total, queueQty, List.map_cons, List.sum_cons]
  unfold queueQty at hrest
  lia

/-- A trade computes quantities between 0 and what it starts with. -/
theorem tradeHeadArith_exact (hm : InMatch e incoming tradePrice level (o :: r) others)
    (hpos : 0 < (e.heap incoming).quantity) (hinc : (e.heap incoming).quantity ≤ int64Max)
    (hlevel : level.totalQty ≤ int64Max) :
    Exact .qty (e.tradeHeadArith incoming level o) := by
  have hhead : level.head = some o := hm.queued.head_eq
  have hne : o ≠ incoming := fun heq => hm.incoming_notMem (by simp [heq])
  have ho := hm.positive o (by simp)
  have hle := hm.quantity_le
  unfold Engine.tradeHeadArith reduceHeadArith reduceHead
  simp only [hhead, onOk_ok, Function.update_of_ne hne, Function.update_self, exact_append,
    exact_cons, exact_nil, true_implies, and_true]
  refine ⟨⟨wrap64_of_nonneg (by lia) (by lia), wrap64_of_nonneg (by lia) (by lia),
    wrap64_of_nonneg (by lia) (by lia)⟩, ?_⟩
  split
  · next hzero =>
      simp only [removeArith, Function.update_self, hzero, exact_cons, exact_nil, and_true]
      exact fun _ => wrap64_of_nonneg (by lia) (by lia)
  · exact exact_nil

/-- The loop over a level computes nothing once it ends. -/
theorem matchAgainstLevelArith_stop (fuel : Nat)
    (hstop : ¬ ((e.heap incoming).quantity > 0 ∧ level.empty = false)) :
    Engine.matchAgainstLevelArith incoming tradePrice fuel e level = [] := by
  cases fuel with
  | zero => rfl
  | succ fuel => exact if_neg hstop

/-- Matching against a level is exact. -/
theorem matchAgainstLevelArith_exact (hm : InMatch e incoming tradePrice level q others)
    (hinc : (e.heap incoming).quantity ≤ int64Max) (hlevel : level.totalQty ≤ int64Max)
    (fuel : Nat) : Exact .qty (Engine.matchAgainstLevelArith incoming tradePrice fuel e level) := by
  induction q generalizing fuel e level with
  | nil =>
      rw [matchAgainstLevelArith_stop fuel (by simp [hm.queued.empty_iff.mpr rfl])]
      exact exact_nil
  | cons o r ih =>
      have hhead : level.head = some o := hm.queued.head_eq
      have hempty : level.empty = false := by rw [PriceLevel.empty, hhead]; rfl
      by_cases hqty : 0 < (e.heap incoming).quantity
      swap
      · rw [matchAgainstLevelArith_stop fuel (by simp [hempty, hqty])]
        exact exact_nil
      cases fuel with
      | zero => exact exact_nil
      | succ fuel =>
          rw [Engine.matchAgainstLevelArith, if_pos ⟨hqty, hempty⟩, hhead]
          simp only [exact_append]
          refine ⟨tradeHeadArith_exact hm hqty hinc hlevel, ?_⟩
          rcases lt_or_ge (e.heap incoming).quantity (e.heap o).quantity with hlt | hge
          · -- nothing is left of the incoming order
            obtain ⟨e₁, level₁, htrade, -, -, -, hframe, -⟩ := tradeHead_partly hm hlt
            rw [htrade, onOk_ok, matchAgainstLevelArith_stop fuel (by simp [hframe.taker])]
            exact exact_nil
          · obtain ⟨e₁, level₁, htrade, hm₁, -, -, hframe, hbody⟩ := tradeHead_filled hm hge
            have ho := hm.positive o (by simp)
            have hrest : level₁.totalQty + (e.heap o).quantity = level.totalQty := by
              have hsame : queueQty e₁.heap r = queueQty e.heap r :=
                queueQty_congr fun s hs => by
                  simpa [Order.body] using congrArg Order.quantity (hbody s hs)
              rw [hm₁.queued.total, hsame, hm.queued.total, queueQty, queueQty, List.map_cons,
                List.sum_cons]
              lia
            rw [htrade, onOk_ok]
            refine ih hm₁ ?_ (by lia) fuel
            rw [hframe.taker]
            lia

end Trade

/-! ## Matching -/

section Sides

variable {isBid : Bool} {poolCapacity windowSize : Nat} {e : Engine poolCapacity}
  {l : LevelLadder isBid windowSize poolCapacity} {m : MapLevels} {s : List Shelf}
  {incoming o : OrderRef} {others : List OrderRef}

/-- The loop over a side computes nothing once nothing is left of the incoming order. -/
theorem matchLoopArith_filled (fuel : Nat) (hqty : ¬ 0 < (e.heap incoming).quantity) :
    OrderBook.matchLoopArith incoming fuel e l = [] := by
  cases fuel with
  | zero => rfl
  | succ fuel => exact if_neg hqty

/-- In the loop over a side the arithmetic on quantities is exact. -/
theorem matchLoopArith_exact (hvalid : ValidWindow windowSize)
    (hrep : LevelLadder.Represents l (priced m)) (hside : SideOk isBid e.heap m s)
    (hok : EngineOk e [incoming] (slots s ++ others))
    (hinc : (e.heap incoming).quantity ≤ int64Max)
    (hlevels : ∀ x ∈ s, x.level.totalQty ≤ int64Max) (fuel : Nat) :
    Exact .qty (OrderBook.matchLoopArith incoming fuel e l) := by
  induction s generalizing fuel e l m with
  | nil =>
      cases fuel with
      | zero => exact exact_nil
      | succ fuel =>
          rw [show m = [] from hside.entries] at hrep
          rw [OrderBook.matchLoopArith, best_priced_nil hrep]
          split <;> exact exact_nil
  | cons x s ih =>
      by_cases hqty : 0 < (e.heap incoming).quantity
      swap
      · rw [matchLoopArith_filled fuel hqty]
        exact exact_nil
      cases fuel with
      | zero => exact exact_nil
      | succ fuel =>
          have hm : m = (x.price, x.level) :: s.map Shelf.entry := hside.entries
          obtain ⟨r, hbest, hr, hget⟩ := best_priced (hm ▸ hrep)
          have hwith : (withPrice x.price x.level).price = x.price := rfl
          have hprice : (l.get r).price = x.price := by rw [hget, hwith]
          obtain ⟨e₁, level₁, q₁, hrun, hok₁, -, hqueued, hshelf, hle, hframe⟩ :=
            matchShelf_spec hside hok
          have hx := hside.shelves x (by simp)
          have hmatch : InMatch e incoming x.price (withPrice x.price x.level) x.queue
              (slots s ++ others) := by
            refine ⟨?_, hx.queued.of_fields rfl rfl rfl, hx.positive, hx.prices⟩
            rwa [slots_cons, List.append_assoc] at hok
          rw [OrderBook.matchLoopArith, if_pos hqty, hbest]
          simp only [hget, hwith]
          split
          · exact exact_nil
          rw [exact_append]
          refine ⟨matchAgainstLevelArith_exact hmatch hinc (hlevels x (by simp)) _, ?_⟩
          rw [matchAgainstLevel_withPrice, hrun]
          show Exact .qty (_ ++ _)
          rw [exact_append]
          constructor
          · split
            · exact exact_of_kind (by decide) (LevelLadder.slotArith_kind _)
            · exact exact_nil
          · have hrep₁ := put_priced hvalid hrep level₁ hr hprice
            by_cases hnil : q₁ = []
            · -- the shelf is cleared
              subst hnil
              have hempty : level₁.empty = true := hqueued.empty_iff.mpr rfl
              have hside₁ := hside.delete (a := []) level₁ (by simpa using hframe)
              rw [if_pos hempty] at hrep₁
              exact ih hrep₁ hside₁ (by simpa using hok₁) (hle.trans hinc)
                (fun y hy => hlevels y (by simp [hy])) fuel
            · rw [matchLoopArith_filled fuel (hshelf hnil).2]
              exact exact_nil

/-- The total of a shelf is positive. -/
theorem SideOk.total_pos {h : Heap} (hside : SideOk isBid h m s) {x : Shelf} (hx : x ∈ s) :
    0 < x.level.totalQty := by
  have hok := hside.shelves x hx
  rw [hok.queued.total]
  refine List.sum_pos _ (fun q hq => ?_) (by simpa using hok.nonempty)
  obtain ⟨o, ho, rfl⟩ := List.mem_map.mp hq
  exact hok.positive o ho

/-- `pushBack` adds the quantity of the order to the total. -/
theorem totalQty_pushBack {h : Heap} {level : PriceLevel} :
    (level.pushBack h o).2.totalQty = level.totalQty + (h o).quantity := by
  have hlinks : SameBodies h (setNext (setPrev h o level.tail) o none) :=
    (sameBodies_setPrev h o level.tail).trans (sameBodies_setNext _ o none)
  unfold pushBack
  cases htail : level.tail with
  | none =>
      rw [htail] at hlinks
      exact congrArg (level.totalQty + ·) (hlinks.quantity_eq o)
  | some t =>
      rw [htail] at hlinks
      exact congrArg (level.totalQty + ·)
        ((hlinks.trans (sameBodies_setNext _ t (some o))).quantity_eq o)

/-- Pushing an order to its level computes what then rests at its price. -/
theorem pushToArith_exact_iff (hvalid : ValidWindow windowSize) (hwf : l.WellFormed)
    (hroom : l.size < poolCapacity) (hprice : PriceInRange windowSize (e.heap o).price)
    {e' : Engine poolCapacity} {l' : LevelLadder isBid windowSize poolCapacity}
    (hrun : OrderBook.pushTo e l o = .ok (e', l')) {h' : Heap} {m' : MapLevels} {s' : List Shelf}
    (hrep' : LevelLadder.Represents l' (priced m')) (hside' : SideOk isBid h' m' s') :
    Exact .qty (OrderBook.pushToArith e l o) ↔
      qtyAt (e.heap o).price (viewOf h' s') ≤ int64Max := by
  obtain ⟨l₁, r, hinsert, -, hr, hget, -⟩ :=
    LevelLadder.levelForInsert_spec hwf hvalid hprice hroom.le
  rw [OrderBook.pushTo, hinsert] at hrun
  cases hrun
  have hlive : (l₁.put r ((l₁.get r).pushBack e.heap o).2).Live
      ((l₁.get r).pushBack e.heap o).2 :=
    ⟨r, LevelLadder.points_put.mpr hr, by rw [LevelLadder.get_put, if_pos rfl]⟩
  -- the level with the order is the shelf at its price
  obtain ⟨x, hx, hxprice, hxtotal⟩ := exists_shelf hrep' hside' hlive
  rw [price_pushBack, hget] at hxprice
  rw [totalQty_pushBack] at hxtotal
  have hpos := hside'.total_pos hx
  rw [hxprice, hside'.qtyAt_eq hx, OrderBook.pushToArith, hinsert, onOk_ok, exact_append,
    and_iff_right (exact_of_kind (by decide) (LevelLadder.levelForInsertArith_kind _))]
  simp only [pushBackArith, exact_cons, exact_nil, true_implies, and_true, hxtotal]
  exact ⟨fun h => (wrap64_eq_iff.mp h).2, wrap64_of_nonneg hpos.le⟩

/-- Taking an order out of its level leaves a total between 0 and the one before. -/
theorem removeFromBookArith_exact (hvalid : ValidWindow windowSize)
    (hrep : LevelLadder.Represents l (priced m)) (hside : SideOk isBid e.heap m s)
    (ho : o ∈ slots s) (hfits : ∀ x ∈ s, x.level.totalQty ≤ int64Max) :
    Exact .qty (OrderBook.removeFromBookArith e l o) := by
  obtain ⟨x, hx, hox⟩ := mem_slots.mp ho
  have hok := hside.shelves x hx
  -- the level of the order is found at its price
  have hfound : (l.find x.price).map l.get = some (withPrice x.price x.level) :=
    find_shelves hvalid hrep ((forEachLevel_shelves hvalid hrep hside).mem_iff.mp
      (List.mem_map_of_mem hx))
  obtain ⟨r, hfind, hget⟩ := Option.map_eq_some_iff.mp hfound
  have hle : (e.heap o).quantity ≤ x.level.totalQty := by
    rw [hok.queued.total]
    refine List.single_le_sum (fun q hq => ?_) _ (List.mem_map_of_mem hox)
    obtain ⟨t, ht, rfl⟩ := List.mem_map.mp hq
    exact (hok.positive t ht).le
  have hpos := hok.positive o hox
  have htotal := hfits x hx
  rw [OrderBook.removeFromBookArith, hok.prices o hox, hfind]
  simp only [hget, exact_append]
  refine ⟨exact_of_kind (by decide) (LevelLadder.slotArith_kind _), ?_, ?_⟩
  · have hleft : wrap64 (x.level.totalQty - (e.heap o).quantity) =
        x.level.totalQty - (e.heap o).quantity := wrap64_of_nonneg (by lia) (by lia)
    simpa [removeArith, withPrice] using hleft
  · split
    · exact exact_of_kind (by decide) (LevelLadder.slotArith_kind _)
    · exact exact_nil

end Sides

/-! ## What rests -/

/-- All that rests. -/
def RestingBook.totalQty (b : RestingBook) : Quantity := (b.all.map Resting.qty).sum

/-- At no price of a side more rests than a 64-bit integer holds. -/
def RestingBook.LevelsFit (b : RestingBook) : Prop :=
  ∀ isBid p, qtyAt p (b.side isBid) ≤ int64Max

/-- Only the prices of the orders count. -/
theorem RestingBook.levelsFit_iff {b : RestingBook} :
    b.LevelsFit ↔ ∀ s, ∀ r ∈ b.side s, qtyAt r.price (b.side s) ≤ int64Max := by
  refine ⟨fun h s r _ => h s r.price, fun h s p => ?_⟩
  by_cases hp : ∃ r ∈ b.side s, r.price = p
  · obtain ⟨r, hr, rfl⟩ := hp
    exact h s r hr
  · have hnil : (b.side s).filter (fun r => r.price = p) = [] :=
      List.filter_eq_nil_iff.mpr fun r hr => by simpa using fun heq => hp ⟨r, hr, heq⟩
    rw [qtyAt, hnil]
    decide

instance {b : RestingBook} : Decidable b.LevelsFit :=
  decidable_of_iff _ RestingBook.levelsFit_iff.symm

/-- A sweep takes from what rests at any choice of prices. -/
theorem sum_sweep_rest_le {crosses : Price → Bool} {incoming : OrderId} {qty : Quantity}
    {l : List Resting} (hpos : ∀ r ∈ l, 0 < r.qty) (counts : Price → Bool) :
    (((sweep crosses incoming qty l).rest.filter fun r => counts r.price).map Resting.qty).sum ≤
      ((l.filter fun r => counts r.price).map Resting.qty).sum := by
  induction l generalizing qty with
  | nil => exact le_refl _
  | cons r rs ih =>
      have hr := hpos r (by simp)
      have hrest := @ih (qty - r.qty) fun x hx => hpos x (by simp [hx])
      rcases sweep_cons_cases crosses incoming qty r rs with
        ⟨hqty, -, -, heq⟩ | ⟨-, -, -, heq⟩ | ⟨-, heq⟩
      · rw [heq]
        cases hcounts : counts r.price with
        | true => simpa [hcounts] using hqty.le
        | false => simp [hcounts]
      · rw [heq]
        cases hcounts : counts r.price with
        | true =>
            rw [List.filter_cons_of_pos (l := rs) (p := fun r => counts r.price) hcounts,
              List.map_cons, List.sum_cons]
            exact hrest.trans (by lia)
        | false => simpa [hcounts] using hrest
      · rw [heq]

namespace RestingBook

variable {b : RestingBook}

/-- The sum of the sides. -/
theorem totalQty_eq_add :
    b.totalQty = (b.bids.map Resting.qty).sum + (b.asks.map Resting.qty).sum := by
  rw [totalQty, all, List.map_append, List.sum_append]

/-- A side is part of all that rests. -/
theorem Valid.side_le (hv : b.Valid) (isBid : Bool) :
    0 ≤ ((b.side isBid).map Resting.qty).sum ∧
      ((b.side isBid).map Resting.qty).sum ≤ b.totalQty := by
  have hnonneg : ∀ s, 0 ≤ ((b.side s).map Resting.qty).sum := by
    intro s
    refine List.sum_nonneg fun q hq => ?_
    obtain ⟨r, hr, rfl⟩ := List.mem_map.mp hq
    exact (hv.positive s r hr).le
  have hbids : 0 ≤ (b.bids.map Resting.qty).sum := hnonneg true
  have hasks : 0 ≤ (b.asks.map Resting.qty).sum := hnonneg false
  refine ⟨hnonneg isBid, ?_⟩
  rw [totalQty_eq_add]
  cases isBid with
  | true =>
      show (b.bids.map Resting.qty).sum ≤ _
      lia
  | false =>
      show (b.asks.map Resting.qty).sum ≤ _
      lia

/-- If all that rests fits, the levels fit, and so do the signals. -/
theorem Valid.fits_of_totalQty (hv : b.Valid) (hfits : b.totalQty ≤ int64Max) :
    b.LevelsFit ∧ SignalsFit b := by
  constructor
  · intro isBid p
    have hle : qtyAt p (b.side isBid) ≤ ((b.side isBid).map Resting.qty).sum := by
      simpa using sum_qtyAt_le (hv.positive isBid) (List.nodup_singleton p)
    exact (hle.trans (hv.side_le isBid).2).trans hfits
  · rw [totalQty_eq_add] at hfits
    refine le_trans (add_le_add ?_ ?_) hfits
    · exact depthQty_le_sum true (hv.positive true) _
    · exact depthQty_le_sum false (hv.positive false) _

/-- After a new order the levels fit if and only if what rests at its price does. -/
theorem Valid.levelsFit_add_iff (hv : b.Valid) (hfits : b.LevelsFit) {isBuy : Bool} {id : OrderId}
    {price : Price} {qty : Quantity} :
    (b.add isBuy id price qty).LevelsFit ↔ (0 < (b.sweepOf isBuy id price qty).left →
      qtyAt price ((b.add isBuy id price qty).side isBuy) ≤ int64Max) := by
  refine ⟨fun h _ => h isBuy price, fun h s p => ?_⟩
  by_cases hs : s = isBuy
  · subst hs
    by_cases hleft : 0 < (b.sweepOf s id price qty).left
    · by_cases hp : price = p
      · rw [← hp]
        exact h hleft
      · rw [side_add_self, qtyAt_joined hleft.le, if_neg hp, Int.zero_add]
        exact hfits s p
    · rw [side_add_self, joined, if_neg hleft]
      exact hfits s p
  · obtain rfl : s = !isBuy := Bool.eq_not_of_ne hs
    rw [side_add_not]
    exact (sum_sweep_rest_le (hv.positive _) fun q => q = p).trans (hfits _ p)

/-- After a cancel the levels fit. -/
theorem Valid.levelsFit_cancel (hv : b.Valid) (hfits : b.LevelsFit) (id : OrderId) :
    (b.cancel id).LevelsFit := by
  intro s p
  rw [side_cancel]
  refine (List.Sublist.sum_le_sum ((List.filter_sublist.filter _).map Resting.qty) ?_).trans
    (hfits s p)
  intro q hq
  obtain ⟨r, hr, rfl⟩ := List.mem_map.mp hq
  exact (hv.positive s r (List.mem_filter.mp hr).1).le

end RestingBook

/-! ## Calls -/

section Books

variable {poolCapacity windowSize : Nat} {b b' : OrderBook poolCapacity windowSize}
  {mb mb' : MapOrderBook poolCapacity} {sb sa sb' sa' : List Shelf}

/-- The totals of the shelves are positive. -/
theorem Lockstep.total_pos (hlock : Lockstep b mb sb sa) :
    ∀ x ∈ sb ++ sa, 0 < x.level.totalQty := by
  intro x hx
  rcases List.mem_append.mp hx with hx | hx
  · exact hlock.map.bids.total_pos hx
  · exact hlock.map.asks.total_pos hx

/-- The totals of the shelves fit if the levels do. -/
theorem Lockstep.total_le (hvalid : ValidWindow windowSize) (hlock : Lockstep b mb sb sa)
    (hfits : b.resting.LevelsFit) : ∀ x ∈ sb ++ sa, x.level.totalQty ≤ int64Max := by
  rw [hlock.resting_eq hvalid] at hfits
  intro x hx
  rcases List.mem_append.mp hx with hx | hx
  · rw [← hlock.map.bids.qtyAt_eq hx]
    exact hfits true x.price
  · rw [← hlock.map.asks.qtyAt_eq hx]
    exact hfits false x.price

/-- In `match` the arithmetic on quantities is exact. -/
theorem Pending.matchIncomingArith_exact {o : OrderRef} (hvalid : ValidWindow windowSize)
    (hpending : Pending b mb sb sa o) (hinc : (b.engine.heap o).quantity ≤ int64Max)
    (hlevels : ∀ x ∈ sb ++ sa, x.level.totalQty ≤ int64Max) :
    Exact .qty (b.matchIncomingArith o) := by
  obtain ⟨hsim, hbids, hasks, hok⟩ := hpending
  unfold OrderBook.matchIncomingArith
  rw [hsim.engine] at hinc ⊢
  split
  · exact matchLoopArith_exact hvalid hsim.asks hasks (hok.perm List.perm_append_comm) hinc
      (fun x hx => hlevels x (by simp [hx])) _
  · exact matchLoopArith_exact hvalid hsim.bids hbids hok hinc
      (fun x hx => hlevels x (by simp [hx])) _

/-- When the remainder of an order comes to rest, the arithmetic on quantities is exact if and only
if what then rests at its price fits. -/
theorem Pending.restArith_exact_iff {o : OrderRef} (hvalid : ValidWindow windowSize)
    (hpending : Pending b mb sb sa o) (hprice : PriceInRange windowSize (b.engine.heap o).price)
    (hrun : b.rest o = .ok b') (hlock' : Lockstep b' mb' sb' sa') :
    Exact .qty (b.restArith o) ↔ (0 < (b.engine.heap o).quantity →
      qtyAt (b.engine.heap o).price (b'.resting.side ((b.engine.heap o).side = .buy)) ≤
        int64Max) := by
  obtain ⟨hbids, hasks⟩ := hpending.size_lt hvalid
  rw [hlock'.resting_eq hvalid]
  unfold OrderBook.restArith
  unfold OrderBook.rest at hrun
  split
  · next hqty =>
      rw [if_pos hqty] at hrun
      rw [forall_prop_of_true hqty]
      obtain ⟨b₁, hpush, hrun⟩ := bind_eq_ok.mp hrun
      obtain ⟨e, -, heq⟩ := bind_eq_ok.mp hrun
      cases heq
      unfold OrderBook.pushRemainder at hpush
      split
      · next hside =>
          rw [if_pos hside] at hpush
          obtain ⟨result, hto, heq⟩ := bind_eq_ok.mp hpush
          cases heq
          rw [decide_eq_true hside]
          exact pushToArith_exact_iff hvalid hpending.sim.bids.wellFormed hbids hprice hto
            hlock'.sim.bids hlock'.map.bids
      · next hside =>
          rw [if_neg hside] at hpush
          obtain ⟨result, hto, heq⟩ := bind_eq_ok.mp hpush
          cases heq
          rw [decide_eq_false hside]
          exact pushToArith_exact_iff hvalid hpending.sim.asks.wellFormed hasks hprice hto
            hlock'.sim.asks hlock'.map.asks
  · next hqty => exact iff_of_true exact_nil fun h => absurd h hqty

/-- In `add_order` the arithmetic on quantities is exact if and only if the levels still fit
afterwards. -/
theorem addOrderArith_exact_iff (hvalid : ValidWindow windowSize) (hlock : Lockstep b mb sb sa)
    (hv : b.resting.Valid) (hfits : b.resting.LevelsFit) {id : OrderId} {side : Side}
    {price : Price} {qty : Quantity} {ts : Nanos} (hprice : PriceInRange windowSize price)
    (hqty : qty ≤ int64Max) {accepted : Bool}
    (hrun : b.addOrder id side price qty ts = .ok (accepted, b')) :
    Exact .qty (b.addOrderArith id side price qty ts) ↔ b'.resting.LevelsFit := by
  have hadd := hrun
  unfold OrderBook.addOrderArith
  unfold OrderBook.addOrder at hrun
  split
  · next hknown =>
      rw [if_pos hknown] at hrun
      cases hrun
      exact iff_of_true exact_nil hfits
  next hnew =>
  rw [if_neg hnew] at hrun
  cases halloc : b.engine.pool.allocate ⟨id, side, price, qty, ts, none, none⟩ with
  | none =>
      rw [halloc] at hrun
      cases hrun
      exact iff_of_true exact_nil hfits
  | some result =>
      obtain ⟨o, pool⟩ := result
      rw [halloc] at hrun
      obtain ⟨b₁, hmatch, hrun⟩ := bind_eq_ok.mp hrun
      obtain ⟨b₂, hrest, heq⟩ := bind_eq_ok.mp hrun
      cases heq
      obtain ⟨hpending, ho, -⟩ := hlock.pending hvalid halloc
      obtain ⟨b₁', mb₁, sb₁, sa₁, hmatch', hpending₁, ho₁, -⟩ := hlock.matched hvalid halloc
      obtain rfl := Except.ok.inj (hmatch.symm.trans hmatch')
      obtain ⟨mb', sb', sa', hlock', hbook, -⟩ := hlock.accepted hvalid hprice hadd
      -- matching is exact, and the remainder decides
      have hexact : Exact .qty (OrderBook.matchIncomingArith
          { b with engine := { b.engine with pool := pool } } o) := by
        refine hpending.matchIncomingArith_exact hvalid ?_ (hlock.total_le hvalid hfits)
        show (pool.storage o).quantity ≤ int64Max
        rw [ho]
        exact hqty
      have hprice₁ : PriceInRange windowSize (b₁.engine.heap o).price := by
        rw [ho₁]
        exact hprice
      simp only [hmatch, onOk_ok, exact_append]
      rw [and_iff_right hexact, hpending₁.restArith_exact_iff hvalid hprice₁ hrest hlock', ho₁,
        hbook, hv.levelsFit_add_iff hfits]

/-- In `cancel_order` the arithmetic on quantities is exact. -/
theorem cancelOrderArith_exact (hvalid : ValidWindow windowSize) (hlock : Lockstep b mb sb sa)
    (hfits : b.resting.LevelsFit) (id : OrderId) : Exact .qty (b.cancelOrderArith id) := by
  have hlevels := hlock.total_le hvalid hfits
  unfold OrderBook.cancelOrderArith
  rw [hlock.sim.engine]
  cases hfind : mb.engine.idMap.find id with
  | none => exact exact_nil
  | some o =>
      obtain ⟨ho, -⟩ := hlock.map.engine.find_eq_some.mp hfind
      simp only
      rcases List.mem_append.mp ho with hob | hoa
      · rw [if_pos ((hlock.map.bids.order hob).2.mpr rfl)]
        exact removeFromBookArith_exact hvalid hlock.sim.bids hlock.map.bids hob fun x hx =>
          hlevels x (by simp [hx])
      · rw [if_neg fun h => Bool.false_ne_true ((hlock.map.asks.order hoa).2.mp h)]
        exact removeFromBookArith_exact hvalid hlock.sim.asks hlock.map.asks hoa fun x hx =>
          hlevels x (by simp [hx])

end Books

/-! ## Adding up all levels -/

/-- The loop of `total_resting_qty`. -/
def sumArith : Quantity → List PriceLevel → List Computed
  | _, [] => []
  | total, level :: levels =>
      ⟨.qty, total + level.totalQty⟩ :: sumArith (total + level.totalQty) levels

/-- `total_resting_qty`. -/
def OrderBook.totalRestingQtyArith {poolCapacity windowSize : Nat}
    (b : OrderBook poolCapacity windowSize) : List Computed :=
  sumArith 0 (b.bids.forEachLevel ++ b.asks.forEachLevel)

/-- Adding up is exact if and only if the sum fits. -/
theorem sumArith_exact_iff {total : Quantity} {levels : List PriceLevel} (hnonneg : 0 ≤ total)
    (htotal : total ≤ int64Max) (hlevels : ∀ level ∈ levels, 0 ≤ level.totalQty) :
    Exact .qty (sumArith total levels) ↔
      total + (levels.map PriceLevel.totalQty).sum ≤ int64Max := by
  induction levels generalizing total with
  | nil => simpa [sumArith] using htotal
  | cons level levels ih =>
      have hlevel := hlevels level (by simp)
      have hrest : 0 ≤ (levels.map PriceLevel.totalQty).sum := by
        refine List.sum_nonneg fun q hq => ?_
        obtain ⟨a, ha, rfl⟩ := List.mem_map.mp hq
        exact hlevels a (by simp [ha])
      rw [sumArith, exact_cons, List.map_cons, List.sum_cons]
      by_cases hnext : total + level.totalQty ≤ int64Max
      · rw [ih (by lia) hnext fun a ha => hlevels a (by simp [ha])]
        simp only [true_implies, wrap64_of_nonneg (show 0 ≤ total + level.totalQty by lia) hnext,
          true_and]
        lia
      · refine iff_of_false (fun h => hnext ?_) (by lia)
        exact (wrap64_eq_iff.mp (h.1 rfl)).2

/-- `total_resting_qty` is exact if and only if all that rests fits. -/
theorem Lockstep.totalRestingQtyArith_exact_iff {poolCapacity windowSize : Nat}
    {b : OrderBook poolCapacity windowSize} {mb : MapOrderBook poolCapacity} {sb sa : List Shelf}
    (hvalid : ValidWindow windowSize) (hlock : Lockstep b mb sb sa) :
    Exact .qty b.totalRestingQtyArith ↔ b.resting.totalQty ≤ int64Max := by
  have hlevels : ∀ level ∈ b.bids.forEachLevel ++ b.asks.forEachLevel, 0 ≤ level.totalQty := by
    intro level hlevel
    rcases List.mem_append.mp hlevel with h | h
    · obtain ⟨x, hx, -, heq⟩ := exists_shelf hlock.sim.bids hlock.map.bids
        ((LevelLadder.mem_forEachLevel hvalid).mp h)
      rw [heq]
      exact (hlock.total_pos x (by simp [hx])).le
    · obtain ⟨x, hx, -, heq⟩ := exists_shelf hlock.sim.asks hlock.map.asks
        ((LevelLadder.mem_forEachLevel hvalid).mp h)
      rw [heq]
      exact (hlock.total_pos x (by simp [hx])).le
  have htotal : 0 + ((b.bids.forEachLevel ++ b.asks.forEachLevel).map PriceLevel.totalQty).sum =
      b.resting.totalQty := by
    rw [← foldl_totalQty (fun level => level), List.foldl_append]
    exact (hlock.totalRestingQty_eq hvalid).1
  rw [OrderBook.totalRestingQtyArith, sumArith_exact_iff (le_refl 0) (by decide) hlevels, htotal]

end LimitOrderBook
