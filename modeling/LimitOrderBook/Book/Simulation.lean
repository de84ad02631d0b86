import LimitOrderBook.Book.MapCorrectness
import LimitOrderBook.Book.Model
import LimitOrderBook.Ladder.Correctness

/-!
# The order book simulates the map-backed book

The two books run the same code over different containers. `Sim b mb` says that they share the
pool, the id map and the fills, and that each ladder holds the levels of the corresponding map,
which do not know their price there. Each operation of the order book follows the one of the
map-backed book step by step.
-/

namespace LimitOrderBook

open OrderedMap (Sorted)

open LevelLadder (Represents)

open PriceLevel

/-! ## Levels with and without their price -/

/-- A level that knows its price. -/
def withPrice (p : Price) (level : PriceLevel) : PriceLevel := { level with price := p }

/-- The entries of a map, each level with its price. -/
def priced (m : MapLevels) : MapLevels := m.map fun e => (e.1, withPrice e.1 e.2)

section Levels

variable {p : Price} {h : Heap} {level : PriceLevel} {o : OrderRef}

/-- `pushBack` does not look at the price. -/
theorem pushBack_withPrice :
    (withPrice p level).pushBack h o =
      ((level.pushBack h o).1, withPrice p (level.pushBack h o).2) := by
  unfold pushBack withPrice
  cases level.tail <;> rfl

/-- `bypassNext` does not look at the price. -/
theorem bypassNext_withPrice {prev next : Option OrderRef} :
    (withPrice p level).bypassNext h prev next =
      ((level.bypassNext h prev next).1, withPrice p (level.bypassNext h prev next).2) := by
  cases prev <;> rfl

/-- `bypassPrev` does not look at the price. -/
theorem bypassPrev_withPrice {prev next : Option OrderRef} :
    (withPrice p level).bypassPrev h prev next =
      ((level.bypassPrev h prev next).1, withPrice p (level.bypassPrev h prev next).2) := by
  cases next <;> rfl

/-- `remove` does not look at the price. -/
theorem remove_withPrice :
    (withPrice p level).remove h o =
      ((level.remove h o).1, withPrice p (level.remove h o).2) := by
  have hqty : ({ withPrice p level with
      totalQty := (withPrice p level).totalQty - (h o).quantity } : PriceLevel) =
      withPrice p { level with totalQty := level.totalQty - (h o).quantity } := rfl
  simp only [remove, hqty, bypassNext_withPrice, bypassPrev_withPrice]

/-- `reduceHead` does not look at the price. -/
theorem reduceHead_withPrice {filled : Quantity} :
    (withPrice p level).reduceHead h filled =
      (level.reduceHead h filled).map fun r => (r.1, withPrice p r.2) := by
  unfold reduceHead withPrice
  cases level.head <;> rfl

variable {poolCapacity : Nat} {e : Engine poolCapacity} {incoming : OrderRef} {tradePrice : Price}

/-- A trade does not look at the price of the level. -/
theorem tradeHead_withPrice :
    e.tradeHead incoming (withPrice p level) o tradePrice =
      (e.tradeHead incoming level o tradePrice).map fun r => (r.1, withPrice p r.2) := by
  unfold Engine.tradeHead
  simp only [reduceHead_withPrice]
  cases level.reduceHead _ _ with
  | error fault => rfl
  | ok r =>
      obtain ⟨h', level'⟩ := r
      show (if _ = 0 then _ else _) = Except.map _ (if _ = 0 then _ else _)
      split
      · simp only [remove_withPrice]
        cases Engine.release _ o <;> rfl
      · rfl

/-- The loop over a level does not look at the price of the level. -/
theorem matchAgainstLevel_withPrice (fuel : Nat) :
    Engine.matchAgainstLevel incoming tradePrice fuel e (withPrice p level) =
      (Engine.matchAgainstLevel incoming tradePrice fuel e level).map
        fun r => (r.1, withPrice p r.2) := by
  induction fuel generalizing e level with
  | zero => rfl
  | succ fuel ih =>
      rw [Engine.matchAgainstLevel, Engine.matchAgainstLevel]
      by_cases hgo : (e.heap incoming).quantity > 0 ∧ level.empty = false
      · rw [if_pos hgo, if_pos (show _ ∧ (withPrice p level).empty = false from hgo)]
        rw [show (withPrice p level).head = level.head from rfl]
        cases level.head with
        | none => rfl
        | some o =>
            simp only [tradeHead_withPrice]
            cases e.tradeHead incoming level o tradePrice with
            | error fault => rfl
            | ok r => exact ih
      · rw [if_neg hgo, if_neg (show ¬ (_ ∧ (withPrice p level).empty = false) from hgo)]
        rfl

end Levels

section Maps

variable {isBid : Bool} {m : MapLevels} {p : Price} {level : PriceLevel}

@[simp] theorem priced_cons : priced ((p, level) :: m) = (p, withPrice p level) :: priced m := rfl

/-- Lookup in a map whose levels know their price. -/
theorem find_priced : OrderedMap.find (priced m) p = (OrderedMap.find m p).map (withPrice p) := by
  induction m with
  | nil => rfl
  | cons e m ih =>
      obtain ⟨q, level⟩ := e
      unfold OrderedMap.find at ih ⊢
      by_cases hq : q = p
      · subst hq
        simp
      · rw [priced_cons, List.find?_cons_of_neg (by simpa using hq), ih,
          List.find?_cons_of_neg (by simpa using hq)]

/-- Insertion of a default level in a map whose levels know their price. -/
theorem priced_touch : priced (OrderedMap.touch (better isBid) m p {}) =
    OrderedMap.touch (better isBid) (priced m) p ⟨p, 0, none, none⟩ := by
  unfold OrderedMap.touch
  rw [find_priced, Option.isSome_map]
  split
  · rfl
  · unfold priced
    rw [List.map_append, List.map_cons, List.takeWhile_map, List.dropWhile_map]
    rfl

/-- Replacement in a map whose levels know their price. -/
theorem priced_set : priced (OrderedMap.set m p level) =
    OrderedMap.set (priced m) p (withPrice p level) := by
  unfold priced OrderedMap.set
  rw [List.map_map, List.map_map]
  refine List.map_congr_left fun e _ => ?_
  by_cases hp : e.1 = p <;> simp [hp]

/-- Deletion in a map whose levels know their price. -/
theorem priced_erase : priced (OrderedMap.erase m p) = OrderedMap.erase (priced m) p := by
  unfold priced OrderedMap.erase
  rw [List.filter_map]
  rfl

end Maps

/-! ## One side -/

section Side

variable {isBid : Bool} {windowSize poolCapacity : Nat}
  {l : LevelLadder isBid windowSize poolCapacity} {m m' : MapLevels} {e e' : Engine poolCapacity}
  {incoming o : OrderRef}

/-- There is no best level if the map is empty. -/
theorem best_priced_nil (h : Represents l (priced [])) : l.best = none := by
  rcases h.best with ⟨hnone, -⟩ | ⟨r, rest, -, -, hcons⟩
  · exact hnone
  · cases hcons

/-- The best level of the ladder is the first one of the map. -/
theorem best_priced {p : Price} {level : PriceLevel} (h : Represents l (priced ((p, level) :: m))) :
    ∃ r, l.best = some r ∧ l.Points r ∧ l.get r = withPrice p level := by
  rcases h.best with ⟨-, hnil⟩ | ⟨r, rest, hbest, hr, hcons⟩
  · cases hnil
  · rw [priced_cons, List.cons.injEq, Prod.mk.injEq] at hcons
    exact ⟨r, hbest, hr, hcons.1.2.symm⟩

/-- A level is written, and erased if it is empty. -/
theorem put_priced (hvalid : ValidWindow windowSize) (h : Represents l (priced m))
    {r : LevelRef} {p : Price} (level : PriceLevel) (hr : l.Points r)
    (hprice : (l.get r).price = p) :
    Represents
      (if (withPrice p level).empty then (l.put r (withPrice p level)).eraseLevel r
        else l.put r (withPrice p level))
      (priced (if level.empty then OrderedMap.erase (OrderedMap.set m p level) p
        else OrderedMap.set m p level)) := by
  have hput : Represents (l.put r (withPrice p level)) (priced (OrderedMap.set m p level)) := by
    rw [priced_set]
    exact h.put hr hprice.symm
  show Represents (if level.empty then _ else _) _
  split
  · have hr' : (l.put r (withPrice p level)).Points r := LevelLadder.points_put.mpr hr
    have herase := hput.eraseLevel hvalid hr'
    rw [LevelLadder.get_put, if_pos rfl, ← priced_erase] at herase
    exact herase
  · exact hput

/-- The loop over a side follows the one over the map. -/
theorem matchLoop_sim (hvalid : ValidWindow windowSize) {fuel : Nat} (h : Represents l (priced m))
    (hrun : MapOrderBook.matchLoop isBid incoming fuel e m = .ok (e', m')) :
    ∃ l', OrderBook.matchLoop incoming fuel e l = .ok (e', l') ∧ Represents l' (priced m') := by
  induction fuel generalizing e l m with
  | zero => cases hrun
  | succ fuel ih =>
      by_cases hqty : 0 < (e.heap incoming).quantity
      swap
      · rw [matchLoop_filled hqty] at hrun
        cases hrun
        exact ⟨l, if_neg hqty, h⟩
      cases m with
      | nil =>
          rw [matchLoop_nil] at hrun
          cases hrun
          refine ⟨l, ?_, h⟩
          rw [OrderBook.matchLoop, if_pos hqty, best_priced_nil h]
          rfl
      | cons entry m =>
          obtain ⟨p, level⟩ := entry
          obtain ⟨r, hbest, hr, hget⟩ := best_priced h
          have hprice : (l.get r).price = p := by rw [hget]; rfl
          -- one iteration of the loop of the ladder, with the level as the map has it
          have hstep : OrderBook.matchLoop incoming (fuel + 1) e l =
              (if worse isBid p (e.heap incoming).price then .ok (e, l)
               else Engine.matchAgainstLevel incoming p (Engine.loopBound poolCapacity) e
                   (withPrice p level) >>= fun x => OrderBook.matchLoop incoming fuel x.1
                     (if x.2.empty then (l.put r x.2).eraseLevel r else l.put r x.2)) := by
            rw [OrderBook.matchLoop, if_pos hqty, hbest]
            simp only [hget]
            rfl
          rw [matchLoop_cons hqty] at hrun
          rw [hstep]
          by_cases hworse : worse isBid p (e.heap incoming).price = true
          · rw [if_pos hworse] at hrun ⊢
            cases hrun
            exact ⟨l, rfl, h⟩
          · rw [if_neg hworse] at hrun ⊢
            rw [matchAgainstLevel_withPrice]
            obtain ⟨⟨e₁, level₁⟩, hlevel, hrest⟩ := bind_eq_ok.mp hrun
            rw [hlevel]
            exact ih (put_priced hvalid h level₁ hr hprice) hrest

/-- Pushing an order to its level follows the map, while there is room for the level. -/
theorem pushTo_sim (hvalid : ValidWindow windowSize) (h : Represents l (priced m))
    (hprice : PriceInRange windowSize (e.heap o).price) (hroom : m.length < poolCapacity)
    (hrun : MapOrderBook.pushTo isBid e m o = (e', m')) :
    ∃ l', OrderBook.pushTo e l o = .ok (e', l') ∧ Represents l' (priced m') := by
  have hlen : (OrderedMap.touch (better isBid) (priced m) (e.heap o).price
      ⟨(e.heap o).price, 0, none, none⟩).length ≤ poolCapacity := by
    have hsame : (priced m).length = m.length := List.length_map _
    cases hfind : OrderedMap.find (priced m) (e.heap o).price with
    | none =>
        rw [OrderedMap.length_touch_of_absent hfind]
        omega
    | some level =>
        rw [OrderedMap.touch_of_present hfind]
        omega
  obtain ⟨l₁, r, hinsert, hr, hpr, hrep⟩ := h.levelForInsert hvalid hprice hlen
  rw [← priced_touch] at hrep
  -- the level of the map at the price
  obtain ⟨level, hfind, hget⟩ : ∃ level, OrderedMap.find
      (OrderedMap.touch (better isBid) m (e.heap o).price {}) (e.heap o).price = some level ∧
      l₁.get r = withPrice (e.heap o).price level := by
    have hentry := (hrep.sorted.find_eq_some (better_strict isBid)).mpr (hrep.entry hr)
    rw [hpr, find_priced, Option.map_eq_some_iff] at hentry
    obtain ⟨level, hfind, hlevel⟩ := hentry
    exact ⟨level, hfind, hlevel.symm⟩
  unfold MapOrderBook.pushTo at hrun
  simp only [hfind, Option.getD_some] at hrun
  cases hrun
  refine ⟨l₁.put r (withPrice (e.heap o).price (pushBack e.heap level o).2), ?_, ?_⟩
  · rw [OrderBook.pushTo, hinsert]
    show Except.ok (e.setHeap ((l₁.get r).pushBack e.heap o).1,
      l₁.put r ((l₁.get r).pushBack e.heap o).2) = _
    rw [hget, pushBack_withPrice]
  · rw [priced_set]
    exact hrep.put hr hpr.symm

/-- Taking an order out of its side follows the map. -/
theorem removeFromBook_sim (hvalid : ValidWindow windowSize) (h : Represents l (priced m)) :
    (MapOrderBook.removeFromBook e m o = none ∧ OrderBook.removeFromBook e l o = none) ∨
      ∃ e' m' l', MapOrderBook.removeFromBook e m o = some (e', m') ∧
        OrderBook.removeFromBook e l o = some (e', l') ∧ Represents l' (priced m') := by
  rcases h.find hvalid (e.heap o).price with ⟨hnone, hnone'⟩ | ⟨r, hfind, hr, hprice, hfind'⟩
  · rw [find_priced, Option.map_eq_none_iff] at hnone'
    refine Or.inl ⟨?_, ?_⟩
    · rw [MapOrderBook.removeFromBook, hnone']
    · rw [OrderBook.removeFromBook, hnone]
  · rw [find_priced, Option.map_eq_some_iff] at hfind'
    obtain ⟨level, hfind', hget⟩ := hfind'
    refine Or.inr ⟨_, _, _, by rw [MapOrderBook.removeFromBook, hfind'], ?_,
      put_priced hvalid h _ hr hprice⟩
    · rw [OrderBook.removeFromBook, hfind]
      simp only [← hget, remove_withPrice]

end Side

/-! ## The books -/

/-- The books share the pool, the id map and the fills, and the ladders hold the levels of the
maps. -/
structure Sim {poolCapacity windowSize : Nat} (b : OrderBook poolCapacity windowSize)
    (mb : MapOrderBook poolCapacity) : Prop where
  engine : b.engine = mb.engine
  bids : Represents b.bids (priced mb.bids)
  asks : Represents b.asks (priced mb.asks)

section Books

variable {poolCapacity windowSize : Nat} {b : OrderBook poolCapacity windowSize}
  {mb mb' : MapOrderBook poolCapacity} {o : OrderRef}

/-- The fresh books. -/
theorem fresh_sim : Sim ({} : OrderBook poolCapacity windowSize) {} :=
  ⟨rfl, LevelLadder.fresh_represents, LevelLadder.fresh_represents⟩

/-- Adding an order follows the map-backed book, while there is room for its level. -/
theorem AddsTo.sim (hvalid : ValidWindow windowSize) (hsim : Sim b mb) (hadds : AddsTo o mb mb')
    (hprice : PriceInRange windowSize (mb.engine.heap o).price)
    (hbids : mb.bids.length < poolCapacity) (hasks : mb.asks.length < poolCapacity) :
    ∃ b', (b.matchIncoming o >>= fun b => b.rest o) = .ok b' ∧ Sim b' mb' ∧
      b'.stats = b.stats := by
  obtain ⟨hengine, hbids₀, hasks₀⟩ := hsim
  unfold AddsTo at hadds
  split at hadds
  · next hside =>
      obtain ⟨e₁, hmatch, hside₁, hprice₁, hrest⟩ := hadds
      obtain ⟨asks', hmatch', hasks'⟩ := matchLoop_sim hvalid hasks₀ hmatch
      rw [OrderBook.matchIncoming, hengine, if_pos hside, hmatch']
      show ∃ b', OrderBook.rest { b with engine := e₁, asks := asks' } o = .ok b' ∧ _
      rw [OrderBook.rest]
      -- a remainder rests, a filled order is released
      rcases hrest with ⟨hqty, e₂, hpush, hinsert⟩ | ⟨hqty, hrelease, hsame⟩
      · obtain ⟨bids', hpush', hbids'⟩ := pushTo_sim hvalid hbids₀ (by rw [hprice₁]; exact hprice)
          hbids hpush
        refine ⟨{ b with engine := mb'.engine, bids := bids', asks := asks' }, ?_,
          ⟨rfl, hbids', hasks'⟩, rfl⟩
        rw [if_pos hqty, OrderBook.pushRemainder, if_pos (hside₁.trans hside), hpush']
        show (e₂.insertId (e₂.heap o).id o >>= _) = _
        rw [hinsert]
        rfl
      · refine ⟨{ b with engine := mb'.engine, asks := asks' }, ?_, ⟨rfl, ?_, hasks'⟩, rfl⟩
        · rw [if_neg hqty]
          show (e₁.release o >>= _) = _
          rw [hrelease]
          rfl
        · rw [hsame]
          exact hbids₀
  · next hside =>
      obtain ⟨e₁, hmatch, hside₁, hprice₁, hrest⟩ := hadds
      obtain ⟨bids', hmatch', hbids'⟩ := matchLoop_sim hvalid hbids₀ hmatch
      rw [OrderBook.matchIncoming, hengine, if_neg hside, hmatch']
      show ∃ b', OrderBook.rest { b with engine := e₁, bids := bids' } o = .ok b' ∧ _
      rw [OrderBook.rest]
      rcases hrest with ⟨hqty, e₂, hpush, hinsert⟩ | ⟨hqty, hrelease, hsame⟩
      · obtain ⟨asks', hpush', hasks'⟩ := pushTo_sim hvalid hasks₀ (by rw [hprice₁]; exact hprice)
          hasks hpush
        refine ⟨{ b with engine := mb'.engine, bids := bids', asks := asks' }, ?_,
          ⟨rfl, hbids', hasks'⟩, rfl⟩
        rw [if_pos hqty, OrderBook.pushRemainder,
          if_neg (show (e₁.heap o).side ≠ .buy by rw [hside₁]; exact hside), hpush']
        show (e₂.insertId (e₂.heap o).id o >>= _) = _
        rw [hinsert]
        rfl
      · refine ⟨{ b with engine := mb'.engine, bids := bids' }, ?_, ⟨rfl, hbids', ?_⟩, rfl⟩
        · rw [if_neg hqty]
          show (e₁.release o >>= _) = _
          rw [hrelease]
          rfl
        · rw [hsame]
          exact hasks₀

/-- Cancelling an order follows the map-backed book. -/
theorem cancelOrder_sim (hvalid : ValidWindow windowSize) (hsim : Sim b mb) {id : OrderId}
    {found : Bool} (hrun : mb.cancelOrder id = .ok (found, mb')) :
    ∃ b', b.cancelOrder id = .ok (found, b') ∧ Sim b' mb' ∧ b'.stats = b.stats := by
  unfold MapOrderBook.cancelOrder at hrun
  unfold OrderBook.cancelOrder
  rw [hsim.engine]
  cases hfind : mb.engine.idMap.find id with
  | none =>
      rw [hfind] at hrun
      cases hrun
      exact ⟨b, rfl, hsim, rfl⟩
  | some o =>
      rw [hfind] at hrun
      -- the side of the order decides which ladder and which map it leaves
      by_cases hside : (mb.engine.heap o).side = .buy
      · simp only [if_pos hside] at hrun ⊢
        rcases removeFromBook_sim (o := o) (e := mb.engine) hvalid hsim.bids with
          ⟨hm, hl⟩ | ⟨e₁, m₁, l₁, hm, hl, hrep⟩
        · simp only [hm, hl, Option.map_none] at hrun ⊢
          cases hrun
          exact ⟨b, rfl, hsim, rfl⟩
        · simp only [hm, hl, Option.map_some] at hrun ⊢
          obtain ⟨e', hrelease, heq⟩ := bind_eq_ok.mp hrun
          cases heq
          rw [hrelease]
          exact ⟨_, rfl, ⟨rfl, hrep, hsim.asks⟩, rfl⟩
      · simp only [if_neg hside] at hrun ⊢
        rcases removeFromBook_sim (o := o) (e := mb.engine) hvalid hsim.asks with
          ⟨hm, hl⟩ | ⟨e₁, m₁, l₁, hm, hl, hrep⟩
        · simp only [hm, hl, Option.map_none] at hrun ⊢
          cases hrun
          exact ⟨b, rfl, hsim, rfl⟩
        · simp only [hm, hl, Option.map_some] at hrun ⊢
          obtain ⟨e', hrelease, heq⟩ := bind_eq_ok.mp hrun
          cases heq
          rw [hrelease]
          exact ⟨_, rfl, ⟨rfl, hsim.bids, hrep⟩, rfl⟩

end Books

end LimitOrderBook
