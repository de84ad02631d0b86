import LimitOrderBook.Book.Runs

/-!
# Swapping the container changes nothing

The differential test of the source runs the same calls on the order book and on the map-backed
book and compares what can be seen of them after each call. `trace_eq` says that they agree on
every sequence of calls in which no order has the id of one that rests: the map-backed book does
not look for duplicates.
-/

namespace LimitOrderBook

/-- What can be seen of a book after a call: the fills so far, the result if the call was a
cancel, the best prices, the depth of both sides and the total quantity. -/
structure Observation where
  fills : List Fill
  cancelled : Option Bool
  bestBid : Option Price
  bestAsk : Option Price
  topLevels : Side → Nat → List LevelQty
  totalRestingQty : Quantity

namespace OrderBook

variable {poolCapacity windowSize : Nat}

/-- What can be seen of the order book. -/
def observe (b : OrderBook poolCapacity windowSize) (cancelled : Option Bool) : Observation :=
  ⟨b.engine.fills, cancelled, b.bestBid, b.bestAsk, b.topLevels, b.totalRestingQty⟩

/-- What can be seen after each of a sequence of calls. -/
def trace (b : OrderBook poolCapacity windowSize) : List Call → Result (List Observation)
  | [] => pure []
  | .add id side price qty ts :: cs => do
      let (_, b) ← b.addOrder id side price qty ts
      let rest ← trace b cs
      pure (b.observe none :: rest)
  | .cancel id :: cs => do
      let (found, b) ← b.cancelOrder id
      let rest ← trace b cs
      pure (b.observe (some found) :: rest)

/-- No order of the sequence has the id of one that rests when it is added. -/
def noDuplicates (b : OrderBook poolCapacity windowSize) : List Call → Bool
  | [] => true
  | .add id side price qty ts :: cs =>
      !b.resting.rests id && match b.addOrder id side price qty ts with
        | .ok (_, b) => noDuplicates b cs
        | .error _ => true
  | .cancel id :: cs =>
      match b.cancelOrder id with
      | .ok (_, b) => noDuplicates b cs
      | .error _ => true

end OrderBook

namespace MapOrderBook

variable {poolCapacity : Nat}

/-- What can be seen of the map-backed book. -/
def observe (b : MapOrderBook poolCapacity) (cancelled : Option Bool) : Observation :=
  ⟨b.engine.fills, cancelled, b.bestBid, b.bestAsk, b.topLevels, b.totalRestingQty⟩

/-- What can be seen after each of a sequence of calls. -/
def trace (b : MapOrderBook poolCapacity) : List Call → Result (List Observation)
  | [] => pure []
  | .add id side price qty ts :: cs => do
      let b ← b.addOrder id side price qty ts
      let rest ← trace b cs
      pure (b.observe none :: rest)
  | .cancel id :: cs => do
      let (found, b) ← b.cancelOrder id
      let rest ← trace b cs
      pure (b.observe (some found) :: rest)

end MapOrderBook

section Traces

variable {poolCapacity windowSize : Nat} {b : OrderBook poolCapacity windowSize}
  {mb : MapOrderBook poolCapacity} {sb sa : List Shelf}

/-- Books in lockstep look the same. -/
theorem observe_eq (hvalid : ValidWindow windowSize) (hlock : Lockstep b mb sb sa)
    (cancelled : Option Bool) : mb.observe cancelled = b.observe cancelled := by
  have hbid := hlock.bestBid_eq
  have hask := hlock.bestAsk_eq
  have hdepth : mb.topLevels = b.topLevels := by
    funext side n
    exact (hlock.topLevels_eq hvalid side n).2
  rw [OrderBook.observe, MapOrderBook.observe, hlock.sim.engine, hbid.1, hbid.2, hask.1, hask.2,
    hdepth, (hlock.totalRestingQty_eq hvalid).2]

/-- Books in lockstep look the same after each of a sequence of calls. -/
theorem trace_lockstep (hvalid : ValidWindow windowSize) (hlock : Lockstep b mb sb sa)
    (cs : List Call) (hcs : ∀ c ∈ cs, c.InRange windowSize) (hnew : b.noDuplicates cs = true) :
    ∃ t, b.trace cs = .ok t ∧ mb.trace cs = .ok t ∧ t.length = cs.length := by
  induction cs generalizing b mb sb sa with
  | nil => exact ⟨[], rfl, rfl, rfl⟩
  | cons c cs ih =>
      have hrest : ∀ c ∈ cs, c.InRange windowSize := fun c hc => hcs c (by simp [hc])
      cases c with
      | add id side price qty ts =>
          rw [OrderBook.noDuplicates, Bool.and_eq_true, Bool.not_eq_true',
            RestingBook.rests_eq_false] at hnew
          obtain ⟨hfresh, hnew⟩ := hnew
          -- in both cases the books go on in lockstep
          have hgo : ∀ accepted b' mb' sb' sa',
              b.addOrder id side price qty ts = .ok (accepted, b') →
              mb.addOrder id side price qty ts = .ok mb' → Lockstep b' mb' sb' sa' →
              ∃ t, b.trace (.add id side price qty ts :: cs) = .ok t ∧
                mb.trace (.add id side price qty ts :: cs) = .ok t ∧ t.length = cs.length + 1 := by
            intro accepted b' mb' sb' sa' hadd hadd' hlock'
            rw [hadd] at hnew
            obtain ⟨t, ht, ht', hlen⟩ := ih hlock' hrest hnew
            refine ⟨b'.observe none :: t, ?_, ?_, by rw [List.length_cons, hlen]⟩
            · rw [OrderBook.trace, hadd]
              show (b'.trace cs >>= _) = _
              rw [ht]
              rfl
            · rw [MapOrderBook.trace, hadd', ok_bind, ht', ← observe_eq hvalid hlock']
              rfl
          have hprice : PriceInRange windowSize price :=
            hcs (.add id side price qty ts) (by simp)
          rcases addOrder_refines hvalid hlock id side qty ts hprice with
            ⟨⟨r, hr, hid⟩, -⟩ | ⟨-, -, hadd, hadd'⟩ |
              ⟨b', mb', sb', sa', -, -, hadd, hadd', hlock', -⟩
          · exact absurd hid (hfresh r hr)
          · exact hgo _ _ _ _ _ hadd hadd' (hlock.setStats _)
          · exact hgo _ _ _ _ _ hadd hadd' hlock'
      | cancel id =>
          rw [OrderBook.noDuplicates] at hnew
          have hgo : ∀ found b' mb' sb' sa', b.cancelOrder id = .ok (found, b') →
              mb.cancelOrder id = .ok (found, mb') → Lockstep b' mb' sb' sa' →
              ∃ t, b.trace (.cancel id :: cs) = .ok t ∧ mb.trace (.cancel id :: cs) = .ok t ∧
                t.length = cs.length + 1 := by
            intro found b' mb' sb' sa' hcancel hcancel' hlock'
            rw [hcancel] at hnew
            obtain ⟨t, ht, ht', hlen⟩ := ih hlock' hrest hnew
            refine ⟨b'.observe (some found) :: t, ?_, ?_, by rw [List.length_cons, hlen]⟩
            · rw [OrderBook.trace, hcancel]
              show (b'.trace cs >>= _) = _
              rw [ht]
              rfl
            · rw [MapOrderBook.trace, hcancel']
              show (mb'.trace cs >>= _) = _
              rw [ht', ← observe_eq hvalid hlock']
              rfl
          rcases cancelOrder_refines hvalid hlock id with
            ⟨-, hcancel, hcancel'⟩ | ⟨b', mb', sb', sa', -, hcancel, hcancel', hlock', -⟩
          · exact hgo _ _ _ _ _ hcancel hcancel' hlock
          · exact hgo _ _ _ _ _ hcancel hcancel' hlock'

end Traces

/-- The fresh books look the same after each of a sequence of calls. -/
theorem trace_eq {poolCapacity windowSize : Nat} (hvalid : ValidWindow windowSize) (cs : List Call)
    (hcs : ∀ c ∈ cs, c.InRange windowSize)
    (hnew : ({} : OrderBook poolCapacity windowSize).noDuplicates cs = true) :
    ∃ t, OrderBook.trace ({} : OrderBook poolCapacity windowSize) cs = .ok t ∧
      MapOrderBook.trace ({} : MapOrderBook poolCapacity) cs = .ok t ∧ t.length = cs.length :=
  trace_lockstep hvalid fresh_lockstep cs hcs hnew

/-- Bids that move the window, a sweep over two of them, and a cancel. -/
theorem trace_eq_moving_window :
    ∃ t, OrderBook.trace ({} : OrderBook 4 64) [.add 1 .buy 100 5 0, .add 2 .buy 300 5 0,
        .add 3 .sell 50 7 0, .cancel 1] = .ok t ∧
      MapOrderBook.trace ({} : MapOrderBook 4) [.add 1 .buy 100 5 0, .add 2 .buy 300 5 0,
        .add 3 .sell 50 7 0, .cancel 1] = .ok t ∧ t.length = 4 :=
  trace_eq ⟨⟨6, rfl⟩, by decide⟩ [.add 1 .buy 100 5 0, .add 2 .buy 300 5 0, .add 3 .sell 50 7 0,
    .cancel 1] (by decide) (by decide +kernel)

end LimitOrderBook
