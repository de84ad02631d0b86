import LimitOrderBook.Book.Windows
import LimitOrderBook.Ladder.Arithmetic

/-!
# Arithmetic of the book

What the book computes on prices and quantities, call by call and over whole runs, in the same way
as for the ladder. Matching computes with quantities; the ladder computes with prices when a level
is looked up, erased or made.

In a run all price arithmetic is exact if and only if each order that comes to rest and moves an
anchored window lies at a 64-bit distance from the price that the window was last centred on
(`run_prices_exact_iff`).
-/

namespace LimitOrderBook

namespace PriceLevel

/-- `push_back`. -/
def pushBackArith (h : Heap) (level : PriceLevel) (o : OrderRef) : List Computed :=
  [⟨.qty, level.totalQty + (h o).quantity⟩]

/-- `remove`. -/
def removeArith (h : Heap) (level : PriceLevel) (o : OrderRef) : List Computed :=
  [⟨.qty, level.totalQty - (h o).quantity⟩]

/-- `reduce_head`. -/
def reduceHeadArith (h : Heap) (level : PriceLevel) (filled : Quantity) : List Computed :=
  match level.head with
  | none => []
  | some o => [⟨.qty, (h o).quantity - filled⟩, ⟨.qty, level.totalQty - filled⟩]

end PriceLevel

namespace Engine

variable {poolCapacity : Nat}

/-- One iteration of `match_against_level`. -/
def tradeHeadArith (e : Engine poolCapacity) (incoming : OrderRef) (level : PriceLevel)
    (resting : OrderRef) : List Computed :=
  let h := e.heap
  let traded := min (h incoming).quantity (h resting).quantity
  let left := (h incoming).quantity - traded
  let h := Function.update h incoming { h incoming with quantity := left }
  ⟨.qty, left⟩ :: level.reduceHeadArith h traded ++
    onOk (level.reduceHead h traded) fun (h, level) =>
      if (h resting).quantity = 0 then level.removeArith h resting else []

/-- `match_against_level`. -/
def matchAgainstLevelArith (incoming : OrderRef) (tradePrice : Price) :
    Nat → Engine poolCapacity → PriceLevel → List Computed
  | 0, _, _ => []
  | fuel + 1, e, level =>
      if (e.heap incoming).quantity > 0 ∧ level.empty = false then
        match level.head with
        | none => []
        | some resting =>
            e.tradeHeadArith incoming level resting ++
              onOk (e.tradeHead incoming level resting tradePrice) fun (e, level) =>
                matchAgainstLevelArith incoming tradePrice fuel e level
      else []

end Engine

namespace OrderBook

variable {poolCapacity windowSize : Nat}

/-- The loop of `match` over one side. -/
def matchLoopArith {isBid : Bool} (incoming : OrderRef) :
    Nat → Engine poolCapacity → LevelLadder isBid windowSize poolCapacity → List Computed
  | 0, _, _ => []
  | fuel + 1, e, levels =>
      if (e.heap incoming).quantity > 0 then
        match levels.best with
        | none => []
        | some best =>
            let price := (levels.get best).price
            if worse isBid price (e.heap incoming).price then []
            else
              Engine.matchAgainstLevelArith incoming price (Engine.loopBound poolCapacity) e
                  (levels.get best) ++
                onOk (Engine.matchAgainstLevel incoming price (Engine.loopBound poolCapacity) e
                    (levels.get best)) fun (e, level) =>
                  let levels := levels.put best level
                  (if level.empty then levels.eraseLevelArith best else []) ++
                    matchLoopArith incoming fuel e
                      (if level.empty then levels.eraseLevel best else levels)
      else []

/-- `match`. -/
def matchIncomingArith (b : OrderBook poolCapacity windowSize) (incoming : OrderRef) :
    List Computed :=
  if (b.engine.heap incoming).side = .buy then
    matchLoopArith incoming (Engine.loopBound poolCapacity) b.engine b.asks
  else matchLoopArith incoming (Engine.loopBound poolCapacity) b.engine b.bids

/-- `levels.level_for_insert(o->price).push_back(o)`. -/
def pushToArith {isBid : Bool} (e : Engine poolCapacity)
    (levels : LevelLadder isBid windowSize poolCapacity) (o : OrderRef) : List Computed :=
  levels.levelForInsertArith (e.heap o).price ++
    onOk (levels.levelForInsert (e.heap o).price) fun (levels, r) =>
      (levels.get r).pushBackArith e.heap o

/-- The second part of `add_order`. -/
def restArith (b : OrderBook poolCapacity windowSize) (o : OrderRef) : List Computed :=
  if (b.engine.heap o).quantity > 0 then
    if (b.engine.heap o).side = .buy then pushToArith b.engine b.bids o
    else pushToArith b.engine b.asks o
  else []

/-- `add_order`. -/
def addOrderArith (b : OrderBook poolCapacity windowSize) (id : OrderId) (side : Side)
    (price : Price) (qty : Quantity) (ts : Nanos) : List Computed :=
  if (b.engine.idMap.find id).isSome then []
  else
    match b.engine.pool.allocate ⟨id, side, price, qty, ts, none, none⟩ with
    | none => []
    | some (o, pool) =>
        let b := { b with engine := { b.engine with pool := pool } }
        b.matchIncomingArith o ++ onOk (b.matchIncoming o) fun b => b.restArith o

/-- `remove_from_book`. -/
def removeFromBookArith {isBid : Bool} (e : Engine poolCapacity)
    (levels : LevelLadder isBid windowSize poolCapacity) (o : OrderRef) : List Computed :=
  levels.findArith (e.heap o).price ++
    match levels.find (e.heap o).price with
    | none => []
    | some r =>
        let level := ((levels.get r).remove e.heap o).2
        (levels.get r).removeArith e.heap o ++
          if level.empty then (levels.put r level).eraseLevelArith r else []

/-- `cancel_order`. -/
def cancelOrderArith (b : OrderBook poolCapacity windowSize) (id : OrderId) : List Computed :=
  match b.engine.idMap.find id with
  | none => []
  | some o =>
      if (b.engine.heap o).side = .buy then removeFromBookArith b.engine b.bids o
      else removeFromBookArith b.engine b.asks o

/-- One call. -/
def callArith (b : OrderBook poolCapacity windowSize) : Call → List Computed
  | .add id side price qty ts => b.addOrderArith id side price qty ts
  | .cancel id => b.cancelOrderArith id

/-- A sequence of calls. -/
def runArith (b : OrderBook poolCapacity windowSize) : List Call → List Computed
  | [] => []
  | c :: cs => b.callArith c ++ onOk (b.call c) fun (_, b) => runArith b cs

/-- If the order is taken and something is left of it to rest, its price is within reach of the
window of its side. -/
def InReach (b : OrderBook poolCapacity windowSize) : Call → Prop
  | .add id side price qty _ =>
      b.resting.rests id = false → b.resting.all.length < poolCapacity →
        0 < (b.resting.sweepOf (side = .buy) id price qty).left →
        if side = .buy then b.bids.WithinReach price else b.asks.WithinReach price
  | .cancel _ => True

/-- Every order of the sequence is within reach in the state in which it arrives. -/
def StaysInReach (b : OrderBook poolCapacity windowSize) : List Call → Prop
  | [] => True
  | c :: cs => b.InReach c ∧ ∀ ev b', b.call c = .ok (ev, b') → StaysInReach b' cs

end OrderBook

namespace RestingBook

/-- An order that comes to rest and moves the window of its side lies at a 64-bit distance from the
price that the window was last centred on. -/
def WithinReach (capacity windowSize : Nat) (b : RestingBook) (centres : Bool → Option Price)
    (c : Call) : Prop :=
  ∀ x ∈ b.comesToRest capacity c, ∀ q ∈ centres x.1,
    recentres x.1 windowSize (some q) (b.side x.1) x.2 = true → FitsInt64 (x.2 - q)

/-- Every order of the sequence does, where the windows are as the calls before it have put them. -/
def StaysInReach (capacity windowSize : Nat) :
    RestingBook → (Bool → Option Price) → List Call → Prop
  | _, _, [] => True
  | b, centres, c :: cs =>
      b.WithinReach capacity windowSize centres c ∧
        StaysInReach capacity windowSize (b.call capacity c).2
          (b.centresAfter capacity windowSize centres c) cs

instance {capacity windowSize : Nat} {b : RestingBook} {centres : Bool → Option Price} {c : Call} :
    Decidable (b.WithinReach capacity windowSize centres c) :=
  inferInstanceAs (Decidable (∀ _ ∈ _, ∀ _ ∈ _, _ → _))

instance decidableStaysInReach (capacity windowSize : Nat) :
    ∀ (b : RestingBook) (centres : Bool → Option Price) (cs : List Call),
      Decidable (b.StaysInReach capacity windowSize centres cs)
  | _, _, [] => isTrue trivial
  | b, centres, c :: cs =>
      have := decidableStaysInReach capacity windowSize (b.call capacity c).2
        (b.centresAfter capacity windowSize centres c) cs
      inferInstanceAs (Decidable (_ ∧ _))

end RestingBook

/-! ## Prices -/

section Kinds

variable {poolCapacity : Nat} {e : Engine poolCapacity} {level : PriceLevel}
  {incoming resting : OrderRef}

/-- A trade computes quantities. -/
theorem tradeHeadArith_kind : ∀ c ∈ e.tradeHeadArith incoming level resting, c.kind = .qty := by
  unfold Engine.tradeHeadArith PriceLevel.reduceHeadArith PriceLevel.reduceHead
  cases level.head with
  | none => simp [onOk]
  | some o =>
      simp only [onOk_ok]
      split <;> simp [PriceLevel.removeArith]

/-- Matching against a level computes quantities. -/
theorem matchAgainstLevelArith_kind {tradePrice : Price} (fuel : Nat) :
    ∀ c ∈ Engine.matchAgainstLevelArith incoming tradePrice fuel e level, c.kind = .qty := by
  induction fuel generalizing e level with
  | zero => exact fun c hc => by cases hc
  | succ fuel ih =>
      rw [Engine.matchAgainstLevelArith]
      split
      · cases level.head with
        | none => exact fun c hc => by cases hc
        | some resting =>
            simp only [List.forall_mem_append]
            exact ⟨tradeHeadArith_kind, forall_mem_onOk fun result => ih⟩
      · exact fun c hc => by cases hc

end Kinds

section Sides

variable {isBid : Bool} {poolCapacity windowSize : Nat} {e e' : Engine poolCapacity}
  {l l' : LevelLadder isBid windowSize poolCapacity} {incoming o : OrderRef}

/-- In the loop over a side all price arithmetic is exact. -/
theorem matchLoopArith_prices (hvalid : ValidWindow windowSize) (hcentred : l.Centred)
    (fuel : Nat) : Exact .price (OrderBook.matchLoopArith incoming fuel e l) := by
  induction fuel generalizing e l with
  | zero => exact exact_nil
  | succ fuel ih =>
      rw [OrderBook.matchLoopArith]
      split
      · cases l.best with
        | none => exact exact_nil
        | some best =>
            simp only
            split
            · exact exact_nil
            · rw [exact_append]
              refine ⟨exact_of_kind (by decide) (matchAgainstLevelArith_kind _),
                exact_onOk fun result _ => ?_⟩
              rw [exact_append]
              refine ⟨?_, ih (hcentred.congr (LevelLadder.centre?_write best result.2))⟩
              split
              · exact LevelLadder.slotArith_exact (hcentred.congr (LevelLadder.centre?_put ..))
                  hvalid _
              · exact exact_nil
      · exact exact_nil

/-- Taking an order out of its side is exact on prices. -/
theorem removeFromBookArith_prices (hvalid : ValidWindow windowSize) (hcentred : l.Centred) :
    Exact .price (OrderBook.removeFromBookArith e l o) := by
  unfold OrderBook.removeFromBookArith
  rw [exact_append]
  refine ⟨LevelLadder.slotArith_exact hcentred hvalid _, ?_⟩
  cases l.find (e.heap o).price with
  | none => exact exact_nil
  | some r =>
      simp only [exact_append]
      refine ⟨by simp [PriceLevel.removeArith], ?_⟩
      split
      · exact LevelLadder.slotArith_exact (hcentred.congr (LevelLadder.centre?_put ..)) hvalid _
      · exact exact_nil

/-- Pushing an order to its level is exact on prices if and only if its price is within reach. -/
theorem pushToArith_prices (hvalid : ValidWindow windowSize) (hwf : l.WellFormed)
    (hsize : l.size ≤ poolCapacity) (hcentred : l.Centred)
    (hprice : PriceInRange windowSize (e.heap o).price) :
    Exact .price (OrderBook.pushToArith e l o) ↔ l.WithinReach (e.heap o).price := by
  have hpush : Exact .price (onOk (l.levelForInsert (e.heap o).price)
      fun (levels, r) => (levels.get r).pushBackArith e.heap o) :=
    exact_onOk fun result _ => by simp [PriceLevel.pushBackArith]
  rw [OrderBook.pushToArith, exact_append, and_iff_left hpush]
  exact LevelLadder.levelForInsertArith_exact_iff hwf hvalid hsize hcentred hprice

end Sides

section Books

variable {poolCapacity windowSize : Nat} {b : OrderBook poolCapacity windowSize}
  {mb : MapOrderBook poolCapacity} {sb sa : List Shelf}

/-- Both windows were centred on prices that keep away from the limits. -/
def Centred (b : OrderBook poolCapacity windowSize) : Prop := b.bids.Centred ∧ b.asks.Centred

/-- That is, all the centres keep away from the limits. -/
theorem centred_iff : Centred b ↔ ∀ s q, b.centres s = some q → PriceInRange windowSize q := by
  rw [Centred, LevelLadder.centred_iff, LevelLadder.centred_iff, Bool.forall_bool, and_comm]
  rfl

/-- In `match` all price arithmetic is exact. -/
theorem matchIncomingArith_prices {o : OrderRef} (hvalid : ValidWindow windowSize)
    (hcentred : Centred b) : Exact .price (b.matchIncomingArith o) := by
  unfold OrderBook.matchIncomingArith
  split
  · exact matchLoopArith_prices hvalid hcentred.2 _
  · exact matchLoopArith_prices hvalid hcentred.1 _

/-- In the second part of `add_order` all price arithmetic is exact if and only if an order that
rests is within reach of the window of its side. -/
theorem Pending.restArith_prices {o : OrderRef} (hvalid : ValidWindow windowSize)
    (hpending : Pending b mb sb sa o) (hcentred : Centred b)
    (hprice : PriceInRange windowSize (b.engine.heap o).price) :
    Exact .price (b.restArith o) ↔ (0 < (b.engine.heap o).quantity →
      if (b.engine.heap o).side = .buy then b.bids.WithinReach (b.engine.heap o).price
      else b.asks.WithinReach (b.engine.heap o).price) := by
  obtain ⟨hbids, hasks⟩ := hpending.size_lt hvalid
  unfold OrderBook.restArith
  split
  · next hqty =>
      rw [forall_prop_of_true hqty]
      split
      · exact pushToArith_prices hvalid hpending.sim.bids.wellFormed hbids.le hcentred.1 hprice
      · exact pushToArith_prices hvalid hpending.sim.asks.wellFormed hasks.le hcentred.2 hprice
  · next hqty => exact iff_of_true exact_nil fun h => absurd h hqty

/-- What `add_order` computes on prices. -/
theorem addOrderArith_prices (hvalid : ValidWindow windowSize) (hlock : Lockstep b mb sb sa)
    (hcentred : Centred b) (id : OrderId) (side : Side) {price : Price} (qty : Quantity)
    (ts : Nanos) (hprice : PriceInRange windowSize price) :
    Exact .price (b.addOrderArith id side price qty ts) ↔
      b.InReach (.add id side price qty ts) := by
  unfold OrderBook.addOrderArith
  simp only [OrderBook.InReach, hlock.rests_eq hvalid]
  cases hfind : b.engine.idMap.find id with
  | some o => exact iff_of_true exact_nil fun h => by cases h
  | none =>
      simp only [Option.isSome_none, Bool.false_eq_true, if_false, true_implies]
      rw [← hlock.allocate_isSome hvalid ⟨id, side, price, qty, ts, none, none⟩]
      cases halloc : b.engine.pool.allocate ⟨id, side, price, qty, ts, none, none⟩ with
      | none => exact iff_of_true exact_nil fun h => by cases h
      | some result =>
          obtain ⟨o, pool⟩ := result
          -- the windows after matching are those before it, so the reach is the same
          obtain ⟨b₁, mb₁, sb₁, sa₁, hmatch, hpending, ho, hbids, hasks⟩ :=
            hlock.matched hvalid halloc
          have hcentred₀ : Centred { b with engine := { b.engine with pool := pool } } := hcentred
          have hcentred₁ : Centred b₁ := by
            rw [centred_iff, matchIncoming_centres hmatch, ← centred_iff]
            exact hcentred₀
          have hprice₁ : PriceInRange windowSize (b₁.engine.heap o).price := by
            rw [ho]
            exact hprice
          simp only [hmatch, onOk_ok, exact_append, Option.isSome_some, true_implies]
          rw [and_iff_right (matchIncomingArith_prices hvalid hcentred₀),
            hpending.restArith_prices hvalid hcentred₁ hprice₁, ho]
          refine imp_congr_right fun _ => ?_
          by_cases hside : side = .buy
          · rw [if_pos hside, if_pos hside, hbids hside]
          · rw [if_neg hside, if_neg hside, hasks hside]

/-- What `cancel_order` computes on prices is exact. -/
theorem cancelOrderArith_prices (hvalid : ValidWindow windowSize) (hcentred : Centred b)
    (id : OrderId) : Exact .price (b.cancelOrderArith id) := by
  unfold OrderBook.cancelOrderArith
  cases b.engine.idMap.find id with
  | none => exact exact_nil
  | some o =>
      simp only
      split
      · exact removeFromBookArith_prices hvalid hcentred.1
      · exact removeFromBookArith_prices hvalid hcentred.2

/-- What a call computes on prices. -/
theorem callArith_prices (hvalid : ValidWindow windowSize) (hlock : Lockstep b mb sb sa)
    (hcentred : Centred b) {c : Call} (hc : c.InRange windowSize) :
    Exact .price (b.callArith c) ↔ b.InReach c := by
  cases c with
  | add id side price qty ts => exact addOrderArith_prices hvalid hlock hcentred id side qty ts hc
  | cancel id => exact iff_of_true (cancelOrderArith_prices hvalid hcentred id) trivial

/-- A call leaves the windows where they are or centres one on the price of the call. -/
theorem Centred.call (hvalid : ValidWindow windowSize) (hlock : Lockstep b mb sb sa)
    (hcentred : Centred b) {c : Call} (hc : c.InRange windowSize) {ev : Event}
    {b' : OrderBook poolCapacity windowSize} (hcall : b.call c = .ok (ev, b')) : Centred b' := by
  rw [centred_iff] at hcentred ⊢
  rw [call_centres hvalid hlock hc hcall, RestingBook.centresAfter]
  cases hrest : b.resting.comesToRest poolCapacity c with
  | none => exact hcentred
  | some x =>
      obtain ⟨s, p⟩ := x
      have hp : PriceInRange windowSize p := by
        cases c with
        | add id side price qty ts =>
            rw [RestingBook.comesToRest] at hrest
            split at hrest
            · cases hrest
              exact hc
            · cases hrest
        | cancel id => cases hrest
      simp only
      split
      · intro t q hq
        by_cases ht : t = s
        · subst ht
          rw [Function.update_self] at hq
          cases hq
          exact hp
        · rw [Function.update_of_ne ht] at hq
          exact hcentred t q hq
      · exact hcentred

/-- What a run from any state computes on prices. -/
theorem runArith_prices (hvalid : ValidWindow windowSize) (hlock : Lockstep b mb sb sa)
    (hcentred : Centred b) (cs : List Call) (hcs : ∀ c ∈ cs, c.InRange windowSize) :
    Exact .price (b.runArith cs) ↔ b.StaysInReach cs := by
  induction cs generalizing b mb sb sa with
  | nil => exact iff_of_true exact_nil trivial
  | cons c cs ih =>
      have hc := hcs c (by simp)
      obtain ⟨b', mb', sb', sa', hcall, -, -, hlock'⟩ := call_refines hvalid hlock hc
      have hrest := ih hlock' (hcentred.call hvalid hlock hc hcall) fun c hc => hcs c (by simp [hc])
      rw [OrderBook.runArith, OrderBook.StaysInReach, exact_append,
        callArith_prices hvalid hlock hcentred hc, hcall]
      refine and_congr_right fun _ => hrest.trans ⟨fun h ev b₁ heq => ?_, fun h => h _ b' rfl⟩
      cases heq
      exact h

/-- Whether an order is within reach is said by the resting orders and the last centres. -/
theorem Lockstep.inReach_iff (hvalid : ValidWindow windowSize) (hlock : Lockstep b mb sb sa)
    (c : Call) :
    b.InReach c ↔ b.resting.WithinReach poolCapacity windowSize b.centres c := by
  unfold RestingBook.WithinReach
  cases c with
  | cancel id => exact iff_of_true trivial fun x hx => by cases hx
  | add id side price qty ts =>
      -- the reach of the window of the side
      have hside : (if side = .buy then b.bids.WithinReach price else b.asks.WithinReach price) ↔
          ∀ q ∈ b.centres (side = .buy), recentres (side = .buy) windowSize (some q)
            (b.resting.side (side = .buy)) price = true → FitsInt64 (price - q) := by
        have hmoves : ∀ s, (∀ q, b.centres s = some q → b.MovesWindow s price →
            FitsInt64 (price - q)) ↔ ∀ q ∈ b.centres s, recentres s windowSize (some q)
            (b.resting.side s) price = true → FitsInt64 (price - q) := by
          intro s
          refine forall₂_congr fun q hq => ?_
          rw [hlock.movesWindow_iff hvalid, hq]
        rw [← hmoves]
        by_cases hbuy : side = .buy
        · rw [if_pos hbuy, decide_eq_true hbuy]
          exact LevelLadder.withinReach_iff
        · rw [if_neg hbuy, decide_eq_false hbuy]
          exact LevelLadder.withinReach_iff
      rw [OrderBook.InReach, hside, RestingBook.comesToRest]
      split
      · next h =>
          refine ⟨fun hreach x hx => ?_, fun hreach _ _ _ => hreach _ rfl⟩
          cases hx
          exact hreach h.1 h.2.1 h.2.2
      · next h =>
          refine iff_of_true (fun hnew hroom hleft => absurd ⟨hnew, hroom, hleft⟩ h) fun x hx => ?_
          cases hx

/-- The same for all orders of a sequence. -/
theorem Lockstep.staysInReach_iff (hvalid : ValidWindow windowSize)
    (hlock : Lockstep b mb sb sa) (cs : List Call) (hcs : ∀ c ∈ cs, c.InRange windowSize) :
    b.StaysInReach cs ↔ b.resting.StaysInReach poolCapacity windowSize b.centres cs := by
  induction cs generalizing b mb sb sa with
  | nil => exact Iff.rfl
  | cons c cs ih =>
      have hc := hcs c (by simp)
      obtain ⟨b', mb', sb', sa', hcall, hbook, -, hlock'⟩ := call_refines hvalid hlock hc
      have hrest := ih hlock' fun c hc => hcs c (by simp [hc])
      rw [OrderBook.StaysInReach, RestingBook.StaysInReach, hlock.inReach_iff hvalid, hcall,
        ← hbook, ← call_centres hvalid hlock hc hcall, ← hrest]
      refine and_congr_right fun _ => ⟨fun h => h _ b' rfl, fun h ev b₁ heq => ?_⟩
      cases heq
      exact h

end Books

/-- A run never faults, and all its arithmetic on prices is exact if and only if every order that
comes to rest and moves an anchored window lies at a 64-bit distance from the price that the window
was last centred on. Which orders do, and which price that is, depends on the calls alone. -/
theorem run_prices_exact_iff {poolCapacity windowSize : Nat} (hvalid : ValidWindow windowSize)
    (cs : List Call) (hcs : ∀ c ∈ cs, c.InRange windowSize) :
    (∃ history b, OrderBook.run [] ({} : OrderBook poolCapacity windowSize) cs =
        .ok (history, b)) ∧
      (Exact .price (({} : OrderBook poolCapacity windowSize).runArith cs) ↔
        ({} : OrderBook poolCapacity windowSize).StaysInReach cs) ∧
      (Exact .price (({} : OrderBook poolCapacity windowSize).runArith cs) ↔
        RestingBook.StaysInReach poolCapacity windowSize {} (fun _ => none) cs) := by
  obtain ⟨history, b, -, -, -, hrun, -⟩ : ∃ history b mb sb sa,
      OrderBook.run [] ({} : OrderBook poolCapacity windowSize) cs = .ok (history, b) ∧ _ ∧ _ :=
    run_ok hvalid cs hcs
  have hlock₀ : Lockstep ({} : OrderBook poolCapacity windowSize) {} [] [] := fresh_lockstep
  have hexact := runArith_prices hvalid hlock₀
    ⟨LevelLadder.fresh_centred, LevelLadder.fresh_centred⟩ cs hcs
  have hcentres : ({} : OrderBook poolCapacity windowSize).centres = fun _ => none := by
    funext s
    cases s <;> rfl
  have hcalls := hlock₀.staysInReach_iff hvalid cs hcs
  rw [fresh_resting hvalid, hcentres] at hcalls
  exact ⟨⟨history, b, hrun⟩, hexact, hexact.trans hcalls⟩

/-- A bid that moves an empty window, one that moves it away from the first, and a cancel. -/
theorem run_prices_exact_iff_two_moves :
    ({} : OrderBook 2 64).StaysInReach [.add 1 .buy 0 5 0, .add 2 .buy 1000 5 0, .cancel 1] ∧
      Exact .price (({} : OrderBook 2 64).runArith
        [.add 1 .buy 0 5 0, .add 2 .buy 1000 5 0, .cancel 1]) := by
  obtain ⟨-, hiff, hcalls⟩ := @run_prices_exact_iff 2 64 ⟨⟨6, rfl⟩, by decide⟩
    [.add 1 .buy 0 5 0, .add 2 .buy 1000 5 0, .cancel 1] (by decide)
  have hexact := hcalls.mpr (by decide +kernel)
  exact ⟨hiff.mp hexact, hexact⟩

/-- Two bids almost `2 ^ 64` ticks apart, each `windowSize` ticks away from a limit: the distance
overflows. -/
theorem not_run_prices_exact_far_bids :
    (∀ c ∈ [Call.add 1 .buy (int64Min + 64) 1 0, .add 2 .buy (int64Max - 64) 1 0],
        c.InRange 64) ∧
      ¬ Exact .price (({} : OrderBook 2 64).runArith
        [.add 1 .buy (int64Min + 64) 1 0, .add 2 .buy (int64Max - 64) 1 0]) :=
  ⟨by decide, by decide +kernel⟩

end LimitOrderBook
