import LimitOrderBook.Book.Refinement

/-!
# Runs of the order book

A run makes one call after the other and keeps a history of them. Every run of the order book is a
run of the resting book (`run_refines`): no call faults, the answers are the same, and the orders
that rest are the same. What holds after every run of the resting book therefore holds after every
run of the order book.
-/

namespace LimitOrderBook

/-- The price of an order keeps away from the 64-bit limits. -/
def Call.InRange (windowSize : Nat) : Call → Prop
  | .add _ _ price _ _ => PriceInRange windowSize price
  | .cancel _ => True

instance {windowSize : Nat} {c : Call} : Decidable (c.InRange windowSize) :=
  match c with
  | .add _ _ price _ _ => inferInstanceAs (Decidable (PriceInRange windowSize price))
  | .cancel _ => inferInstanceAs (Decidable True)

namespace OrderBook

variable {poolCapacity windowSize : Nat}

/-- One call, and what there is to say about it. -/
def call (b : OrderBook poolCapacity windowSize) :
    Call → Result (Event × OrderBook poolCapacity windowSize)
  | .add id side price qty ts => do
      let (accepted, b') ← b.addOrder id side price qty ts
      pure (⟨.add id side price qty ts, accepted,
        b'.engine.fills.drop b.engine.fills.length, 0⟩, b')
  | .cancel id => do
      let (found, b') ← b.cancelOrder id
      pure (⟨.cancel id, found, b'.engine.fills.drop b.engine.fills.length,
        qtyOf id b.resting.all⟩, b')

/-- The history of a sequence of calls, the last one first, and the book after it. -/
def run (history : List Event) (b : OrderBook poolCapacity windowSize) :
    List Call → Result (List Event × OrderBook poolCapacity windowSize)
  | [] => pure (history, b)
  | c :: cs => do
      let (ev, b') ← b.call c
      run (ev :: history) b' cs

end OrderBook

section Runs

variable {poolCapacity windowSize : Nat} {b : OrderBook poolCapacity windowSize}
  {mb : MapOrderBook poolCapacity} {sb sa : List Shelf}

/-- An id that does not rest has no quantity. -/
theorem qtyOf_eq_zero {id : OrderId} {l : List Resting} (h : ∀ r ∈ l, r.id ≠ id) :
    qtyOf id l = 0 := by
  rw [qtyOf, List.filter_eq_nil_iff.mpr fun r hr => by simpa using h r hr]
  rfl

/-- Every call of the order book is one of the resting book. -/
theorem call_refines (hvalid : ValidWindow windowSize) (hlock : Lockstep b mb sb sa) {c : Call}
    (hc : c.InRange windowSize) :
    ∃ b' mb' sb' sa', b.call c = .ok ((b.resting.call poolCapacity c).1, b') ∧
      b'.resting = (b.resting.call poolCapacity c).2 ∧
      b'.engine.fills = b.engine.fills ++ (b.resting.call poolCapacity c).1.fills ∧
      Lockstep b' mb' sb' sa' := by
  have hnil : b.engine.fills = b.engine.fills ++ [] := (List.append_nil _).symm
  cases c with
  | add id side price qty ts =>
      rw [RestingBook.call]
      -- a refused order changes the counters only
      have hrefused : ∀ stats, b.addOrder id side price qty ts =
          .ok (false, { b with stats := stats }) → b.call (.add id side price qty ts) =
          .ok (⟨.add id side price qty ts, false, [], 0⟩, { b with stats := stats }) := by
        intro stats hrun
        rw [OrderBook.call, hrun]
        show Except.ok (Event.mk _ _ (List.drop _ b.engine.fills) _, _) = _
        rw [List.drop_length]
      rcases addOrder_refines hvalid hlock id side qty ts hc with
        ⟨hdup, hrun⟩ | ⟨hnew, hfull, hrun, -⟩ | ⟨b', mb', sb', sa', hnew, hroom, hrun, -, h⟩
      · rw [if_pos (Or.inl (RestingBook.rests_iff.mpr hdup))]
        exact ⟨_, mb, sb, sa, hrefused _ hrun, rfl, hnil, hlock.setStats _⟩
      · rw [if_pos (Or.inr hfull)]
        exact ⟨_, mb, sb, sa, hrefused _ hrun, rfl, hnil, hlock.setStats _⟩
      · obtain ⟨hlock', hbook, hfills, -⟩ := h
        have hok : ¬ (b.resting.rests id = true ∨ b.resting.all.length = poolCapacity) := by
          rw [not_or, Bool.not_eq_true, RestingBook.rests_eq_false]
          exact ⟨hnew, hroom.ne⟩
        rw [if_neg hok]
        refine ⟨b', mb', sb', sa', ?_, hbook, hfills, hlock'⟩
        rw [OrderBook.call, hrun]
        show Except.ok (Event.mk _ _ (List.drop _ b'.engine.fills) _, _) = _
        rw [hfills, List.drop_left]
  | cancel id =>
      rw [RestingBook.call]
      rcases cancelOrder_refines hvalid hlock id with
        ⟨hnew, hrun, -⟩ | ⟨b', mb', sb', sa', hex, hrun, -, hlock', hbook, hfills, -⟩
      · rw [if_neg (by rw [Bool.not_eq_true, RestingBook.rests_eq_false]; exact hnew)]
        refine ⟨b, mb, sb, sa, ?_, rfl, hnil, hlock⟩
        rw [OrderBook.call, hrun]
        show Except.ok (Event.mk _ _ (List.drop _ b.engine.fills) _, _) = _
        rw [List.drop_length, qtyOf_eq_zero hnew]
      · rw [if_pos (RestingBook.rests_iff.mpr hex)]
        refine ⟨b', mb', sb', sa', ?_, hbook, hfills.trans hnil, hlock'⟩
        rw [OrderBook.call, hrun]
        show Except.ok (Event.mk _ _ (List.drop _ b'.engine.fills) _, _) = _
        rw [hfills, List.drop_length]

/-- Every run of the order book is one of the resting book. -/
theorem run_refines (hvalid : ValidWindow windowSize) (hlock : Lockstep b mb sb sa)
    (history : List Event) (cs : List Call) (hcs : ∀ c ∈ cs, c.InRange windowSize) :
    ∃ b' mb' sb' sa',
      b.run history cs = .ok ((RestingBook.run poolCapacity history b.resting cs).1, b') ∧
      b'.resting = (RestingBook.run poolCapacity history b.resting cs).2 ∧
      Lockstep b' mb' sb' sa' := by
  induction cs generalizing b mb sb sa history with
  | nil => exact ⟨b, mb, sb, sa, rfl, rfl, hlock⟩
  | cons c cs ih =>
      obtain ⟨b₁, mb₁, sb₁, sa₁, hcall, hbook, -, hlock₁⟩ := call_refines hvalid hlock
        (hcs c (by simp))
      obtain ⟨b', mb', sb', sa', hrun, hbook', hlock'⟩ := ih hlock₁
        ((b.resting.call poolCapacity c).1 :: history) fun c hc => hcs c (by simp [hc])
      rw [hbook] at hrun hbook'
      refine ⟨b', mb', sb', sa', ?_, hbook', hlock'⟩
      rw [OrderBook.run, hcall]
      exact hrun

/-- A fresh book has no resting orders. -/
theorem fresh_resting (hvalid : ValidWindow windowSize) :
    ({} : OrderBook poolCapacity windowSize).resting = {} :=
  fresh_lockstep.resting_eq hvalid

/-- After every run from a fresh book: the run has not faulted, and the book is in order. -/
theorem run_ok (hvalid : ValidWindow windowSize) (cs : List Call)
    (hcs : ∀ c ∈ cs, c.InRange windowSize) :
    ∃ history b mb sb sa,
      OrderBook.run [] ({} : OrderBook poolCapacity windowSize) cs = .ok (history, b) ∧
      RestingBook.run poolCapacity [] {} cs = (history, b.resting) ∧
      Lockstep b mb sb sa ∧ b.resting.Valid ∧ InTurn history b.resting := by
  obtain ⟨b, mb, sb, sa, hrun, hbook, hlock⟩ := run_refines hvalid
    (fresh_lockstep : Lockstep ({} : OrderBook poolCapacity windowSize) {} [] []) [] cs hcs
  rw [fresh_resting hvalid] at hrun hbook
  obtain ⟨hv, ht⟩ := RestingBook.run_inTurn poolCapacity cs
  rw [← hbook] at hv ht
  exact ⟨_, b, mb, sb, sa, hrun, Prod.ext rfl hbook.symm, hlock, hv, ht⟩

end Runs

end LimitOrderBook
