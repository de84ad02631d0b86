import LimitOrderBook.Book.Runs
import Mathlib.Algebra.BigOperators.Group.Finset.Basic
import Mathlib.Algebra.BigOperators.Group.Finset.Piecewise

/-!
# Quantity is conserved

An id may be used again once its order is gone, so the history of an id falls into incarnations:
each begins with the call that accepts it and ends where the next order with the same id is
accepted. What an incarnation has submitted is at every moment what it has traded, what has been
cancelled of it and what rests of it.
-/

namespace LimitOrderBook

/-- Whether a fill names an id, as resting or as incoming. -/
def Fill.names (f : Fill) (id : OrderId) : Bool := f.restingId = id || f.incomingId = id

/-- The quantity that an event has traded under an id. -/
def Event.filledQty (id : OrderId) (ev : Event) : Quantity :=
  ((ev.fills.filter fun f => f.names id).map Fill.qty).sum

/-- The quantity that an event has cancelled under an id. -/
def Event.cancelledQty (id : OrderId) (ev : Event) : Quantity :=
  if ev.call = .cancel id then ev.cancelled else 0

/-- One use of an id: the quantity submitted, the events from its acceptance on, the last one
first, and whether the id has been accepted again after them. -/
structure Incarnation where
  id : OrderId
  submitted : Quantity
  events : List Event
  closed : Bool

namespace Incarnation

/-- The quantity of all fills that name the incarnation. -/
def filled (i : Incarnation) : Quantity := (i.events.map (Event.filledQty i.id)).sum

/-- The quantity that the incarnation still had when it was cancelled. -/
def cancelled (i : Incarnation) : Quantity := (i.events.map (Event.cancelledQty i.id)).sum

/-- The quantity of the incarnation that rests. -/
def rests (b : RestingBook) (i : Incarnation) : Quantity := if i.closed then 0 else qtyOf i.id b.all

/-- The incarnation after one more event. -/
def push (ev : Event) (i : Incarnation) : Incarnation :=
  if i.closed then i
  else if ev.accepts i.id then { i with closed := true }
  else { i with events := ev :: i.events }

end Incarnation

/-- The incarnation that an event begins, if it does. -/
def Event.opened (ev : Event) : List Incarnation :=
  match ev.call with
  | .add id _ _ qty _ => if ev.result then [⟨id, qty, [ev], false⟩] else []
  | .cancel _ => []

/-- The incarnations of a history. -/
def incarnations : List Event → List Incarnation
  | [] => []
  | ev :: history => ev.opened ++ (incarnations history).map (Incarnation.push ev)

/-- Every incarnation has what it has submitted: traded, cancelled or resting. -/
def Conserved (history : List Event) (b : RestingBook) : Prop :=
  ∀ i ∈ incarnations history, 0 < i.submitted →
    i.submitted = i.filled + i.cancelled + i.rests b

/-! ## One call -/

section Step

variable {b : RestingBook} {isBuy : Bool} {id id' : OrderId} {price : Price} {qty : Quantity}

/-- The quantity under an id in two lists. -/
theorem qtyOf_append (l m : List Resting) : qtyOf id (l ++ m) = qtyOf id l + qtyOf id m := by
  simp [qtyOf]

/-- The quantity under an id in a list with one more order. -/
theorem qtyOf_cons (r : Resting) (l : List Resting) :
    qtyOf id (r :: l) = (if r.id = id then r.qty else 0) + qtyOf id l := by
  unfold qtyOf
  by_cases h : r.id = id
  · simp [h]
  · simp [h]

/-- The quantity under an id does not depend on the order of the list. -/
theorem qtyOf_perm {l m : List Resting} (h : l.Perm m) : qtyOf id l = qtyOf id m :=
  ((h.filter _).map _).sum_eq

/-- What a sweep takes from an order and what it leaves is what the order had. -/
theorem sweep_conserves {crosses : Price → Bool} {incoming : OrderId} (l : List Resting) :
    qtyOf id l = consumed (sweep crosses incoming qty l).fills id +
      qtyOf id (sweep crosses incoming qty l).rest := by
  induction l generalizing qty with
  | nil => rfl
  | cons r rs ih =>
      rcases sweep_cons_cases crosses incoming qty r rs with
        ⟨hqty, hcross, hlt, heq⟩ | ⟨hqty, hcross, hge, heq⟩ | ⟨hstop, heq⟩
      · rw [heq, qtyOf_cons, qtyOf_cons, consumed_cons]
        have hnil : consumed [] id = 0 := rfl
        rw [hnil]
        split <;> lia
      · rw [heq, qtyOf_cons, consumed_cons]
        have h : qtyOf id rs = consumed (sweep crosses incoming (qty - r.qty) rs).fills id +
            qtyOf id (sweep crosses incoming (qty - r.qty) rs).rest := ih
        lia
      · rw [heq]
        exact (Int.zero_add _).symm

/-- The quantity under an id on a side that an order may have joined. -/
theorem qtyOf_joined {left : Quantity} {l : List Resting} :
    qtyOf id (RestingBook.joined isBuy id' price left l) =
      (if 0 < left ∧ id' = id then left else 0) + qtyOf id l := by
  unfold RestingBook.joined
  by_cases hleft : 0 < left
  · rw [if_pos hleft, qtyOf_perm enqueue_perm, qtyOf_cons]
    simp [hleft]
  · rw [if_neg hleft]
    simp [hleft]

/-- The quantity under an id after an order has been added. -/
theorem qtyOf_add (b : RestingBook) (isBuy : Bool) (id id' : OrderId) (price : Price)
    (qty : Quantity) :
    qtyOf id (b.add isBuy id' price qty).all =
      (if 0 < (b.sweepOf isBuy id' price qty).left ∧ id' = id then
          (b.sweepOf isBuy id' price qty).left else 0) +
        qtyOf id b.all - consumed (b.sweepOf isBuy id' price qty).fills id := by
  have hsweep : qtyOf id (b.side (!isBuy)) = consumed (b.sweepOf isBuy id' price qty).fills id +
      qtyOf id (b.sweepOf isBuy id' price qty).rest := sweep_conserves _
  rw [qtyOf_perm (RestingBook.all_perm isBuy), qtyOf_append, RestingBook.side_add_self,
    RestingBook.side_add_not, qtyOf_joined, qtyOf_perm (RestingBook.all_perm isBuy), qtyOf_append]
  lia

/-- Fills that all name the id as incoming. -/
theorem filledQty_incoming {ev : Event} (h : ∀ f ∈ ev.fills, f.incomingId = id) :
    ev.filledQty id = tradedQty ev.fills := by
  unfold Event.filledQty tradedQty
  rw [List.filter_eq_self.mpr fun f hf => by simp [Fill.names, h f hf]]

/-- Fills that all name another id as incoming. -/
theorem filledQty_resting {ev : Event} (h : ∀ f ∈ ev.fills, f.incomingId ≠ id) :
    ev.filledQty id = consumed ev.fills id := by
  have hsame : ev.fills.filter (fun f => f.names id) =
      ev.fills.filter fun f => f.restingId = id :=
    List.filter_congr fun f hf => by simp [Fill.names, h f hf]
  rw [Event.filledQty, hsame, consumed]

/-- A call that does not accept an id moves its quantity from resting to traded or cancelled. -/
theorem call_conserves_other (hv : b.Valid) (capacity : Nat) (c : Call)
    (hother : (b.call capacity c).1.accepts id = false) :
    qtyOf id b.all = (b.call capacity c).1.filledQty id + (b.call capacity c).1.cancelledQty id +
      qtyOf id (b.call capacity c).2.all := by
  cases c with
  | add id' side price qty ts =>
      rw [RestingBook.call] at hother ⊢
      split at hother
      · next hrefused =>
          rw [if_pos hrefused]
          exact (Int.zero_add _).symm
      · next hok =>
          rw [if_neg hok]
          have hne : id' ≠ id := of_decide_eq_false hother
          -- the order is not the incoming one, so its fills are those in which it rested
          have hfills : Event.filledQty id ⟨.add id' side price qty ts, true,
              (b.sweepOf (side = .buy) id' price qty).fills, 0⟩ =
              consumed (b.sweepOf (side = .buy) id' price qty).fills id :=
            filledQty_resting fun f hf => by
              rw [(sweep_fills_mem (hv.positive _) hf).2.1]
              exact hne
          have hadd := qtyOf_add b (side = .buy) id id' price qty
          rw [if_neg fun h => hne h.2] at hadd
          show qtyOf id b.all = Event.filledQty id _ + 0 + qtyOf id (b.add _ id' price qty).all
          rw [hfills, hadd]
          lia
  | cancel id' =>
      rw [RestingBook.call]
      split
      · show qtyOf id b.all = 0 + Event.cancelledQty id _ + qtyOf id (b.cancel id').all
        by_cases heq : id' = id
        · subst heq
          -- everything that was left of a cancelled order is counted as cancelled
          have hgone : qtyOf id' (b.cancel id').all = 0 := qtyOf_eq_zero fun r hr => by
            rw [RestingBook.all_cancel] at hr
            exact of_decide_eq_true (List.mem_filter.mp hr).2
          rw [hgone, Event.cancelledQty, if_pos rfl]
          lia
        · have hsame : qtyOf id (b.cancel id').all = qtyOf id b.all := by
            rw [RestingBook.all_cancel, qtyOf, qtyOf, List.filter_filter]
            rw [List.filter_congr fun r _ => ?_]
            by_cases hr : r.id = id
            · simp [hr, Ne.symm heq]
            · simp [hr]
          rw [hsame, Event.cancelledQty, if_neg fun h => heq (Call.cancel.inj h)]
          lia
      · show qtyOf id b.all = 0 + Event.cancelledQty id _ + qtyOf id b.all
        rw [Event.cancelledQty]
        split <;> lia

/-- The call that accepts an order gives it what it submits: traded or resting. -/
theorem call_conserves_self (hv : b.Valid) (capacity : Nat) (side : Side) (ts : Nanos)
    (hqty : 0 < qty) (haccepts : (b.call capacity (.add id side price qty ts)).1.result = true) :
    qty = (b.call capacity (.add id side price qty ts)).1.filledQty id +
      qtyOf id (b.call capacity (.add id side price qty ts)).2.all := by
  rw [RestingBook.call] at haccepts ⊢
  split at haccepts
  · cases haccepts
  · next hok =>
      rw [if_neg hok]
      rw [not_or, Bool.not_eq_true, RestingBook.rests_eq_false] at hok
      have hzero : qtyOf id b.all = 0 := qtyOf_eq_zero hok.1
      have hfills : Event.filledQty id ⟨.add id side price qty ts, true,
          (b.sweepOf (side = .buy) id price qty).fills, 0⟩ =
          tradedQty (b.sweepOf (side = .buy) id price qty).fills :=
        filledQty_incoming fun f hf => (sweep_fills_mem (hv.positive _) hf).2.1
      have hnone : consumed (b.sweepOf (side = .buy) id price qty).fills id = 0 :=
        consumed_eq_zero fun f hf heq => by
          obtain ⟨-, -, x, hx, hid, -⟩ := sweep_fills_mem (hv.positive _) hf
          exact hok.1 x (RestingBook.mem_all.mpr ⟨_, hx⟩) (hid.symm.trans heq)
      have hleft : (b.sweepOf (side = .buy) id price qty).left =
          qty - tradedQty (b.sweepOf (side = .buy) id price qty).fills := sweep_left _
      have hnonneg : 0 ≤ (b.sweepOf (side = .buy) id price qty).left :=
        sweep_left_nonneg hqty.le _
      have hadd := qtyOf_add b (side = .buy) id id price qty
      rw [hnone, hzero] at hadd
      show qty = Event.filledQty id _ + qtyOf id (b.add _ id price qty).all
      rw [hfills, hadd]
      simp only [and_true]
      split <;> lia

end Step

/-! ## Whole runs -/

/-- An event is about its call. -/
theorem call_call (b : RestingBook) (capacity : Nat) (c : Call) :
    (b.call capacity c).1.call = c := by
  cases c with
  | add id side price qty ts =>
      rw [RestingBook.call]
      split <;> rfl
  | cancel id =>
      rw [RestingBook.call]
      split <;> rfl

/-- The incarnation that an event begins. -/
theorem mem_opened {ev : Event} {i : Incarnation} :
    i ∈ ev.opened ↔ ∃ id side price qty ts, ev.call = .add id side price qty ts ∧
      ev.result = true ∧ i = ⟨id, qty, [ev], false⟩ := by
  unfold Event.opened
  cases hcall : ev.call with
  | add id side price qty ts =>
      cases hresult : ev.result with
      | true =>
          constructor
          · intro hi
            exact ⟨id, side, price, qty, ts, rfl, rfl, List.mem_singleton.mp hi⟩
          · rintro ⟨_, _, _, _, _, h, -, rfl⟩
            cases h
            exact List.mem_singleton.mpr rfl
      | false =>
          refine iff_of_false List.not_mem_nil ?_
          rintro ⟨_, _, _, _, _, -, h, -⟩
          cases h
  | cancel id =>
      refine iff_of_false List.not_mem_nil ?_
      rintro ⟨_, _, _, _, _, h, -⟩
      cases h

/-- An accepted id did not rest before. -/
theorem qtyOf_of_accepts {b : RestingBook} {capacity : Nat} {c : Call} {id : OrderId}
    (h : (b.call capacity c).1.accepts id = true) : qtyOf id b.all = 0 := by
  cases c with
  | add id' side price qty ts =>
      rw [RestingBook.call] at h
      split at h
      · cases h
      · next hok =>
          rw [not_or, Bool.not_eq_true, RestingBook.rests_eq_false] at hok
          have hid : id' = id := of_decide_eq_true h
          subst hid
          exact qtyOf_eq_zero hok.1
  | cancel id' =>
      rw [Event.accepts, call_call] at h
      cases h

/-- Every call conserves the quantity of every incarnation. -/
theorem Conserved.call {history : List Event} {b : RestingBook} (hc : Conserved history b)
    (hv : b.Valid) (capacity : Nat) (c : Call) :
    Conserved ((b.call capacity c).1 :: history) (b.call capacity c).2 := by
  intro i hi hpos
  rcases List.mem_append.mp hi with hi | hi
  · -- the incarnation begins with this call
    obtain ⟨id, side, price, qty, ts, hcall, hresult, rfl⟩ := mem_opened.mp hi
    rw [call_call] at hcall
    subst hcall
    have hself := call_conserves_self hv capacity side ts hpos hresult
    have hnot : Event.cancelledQty id (b.call capacity (.add id side price qty ts)).1 = 0 := by
      rw [Event.cancelledQty, call_call]
      rfl
    simp only [Incarnation.filled, Incarnation.cancelled, Incarnation.rests, List.map_cons,
      List.map_nil, List.sum_cons, List.sum_nil, hnot, Bool.false_eq_true, if_false]
    lia
  · -- an earlier one goes on, or its id is accepted again
    obtain ⟨j, hj, rfl⟩ := List.mem_map.mp hi
    have hold := hc j hj
    unfold Incarnation.push at hpos ⊢
    by_cases hclosed : j.closed = true
    · rw [if_pos hclosed] at hpos ⊢
      have h := hold hpos
      rw [Incarnation.rests, if_pos hclosed] at h ⊢
      exact h
    · rw [if_neg hclosed] at hpos ⊢
      by_cases haccepts : (b.call capacity c).1.accepts j.id = true
      · rw [if_pos haccepts] at hpos ⊢
        have h := hold hpos
        rw [Incarnation.rests, if_neg hclosed, qtyOf_of_accepts haccepts] at h
        exact h
      · rw [if_neg haccepts] at hpos ⊢
        have h := hold hpos
        rw [Bool.not_eq_true] at haccepts
        have hother := call_conserves_other hv capacity c haccepts
        rw [Incarnation.rests, if_neg hclosed] at h ⊢
        simp only [Incarnation.filled, Incarnation.cancelled, List.map_cons, List.sum_cons] at h ⊢
        lia

/-! ## The sum over all incarnations -/

/-- The ids that a history has accepted. -/
def acceptedIds : List Event → Finset OrderId
  | [] => ∅
  | ev :: history => (ev.opened.map Incarnation.id).toFinset ∪ acceptedIds history

/-- An event begins one incarnation or none. -/
theorem opened_cases (ev : Event) :
    (ev.opened = [] ∧ ∀ x, ev.accepts x = false) ∨
      ∃ id qty, ev.opened = [⟨id, qty, [ev], false⟩] ∧ ∀ x, ev.accepts x = decide (id = x) := by
  unfold Event.opened Event.accepts
  cases ev.call with
  | add id side price qty ts =>
      cases ev.result with
      | true => exact Or.inr ⟨id, qty, rfl, fun x => rfl⟩
      | false => exact Or.inl ⟨rfl, fun x => rfl⟩
  | cancel id => exact Or.inl ⟨rfl, fun x => rfl⟩

/-- An incarnation counts as long as its id has not been accepted again. -/
theorem push_weight (w : OrderId → Quantity) (ev : Event) (i : Incarnation) :
    (if (i.push ev).closed then 0 else w (i.push ev).id) =
      if i.closed then 0 else if ev.accepts i.id then 0 else w i.id := by
  unfold Incarnation.push
  by_cases hclosed : i.closed = true
  · simp [hclosed]
  · rw [if_neg hclosed, if_neg hclosed]
    by_cases haccepts : ev.accepts i.id = true
    · simp [haccepts]
    · simp [haccepts, hclosed]

/-- Summing over the incarnations that are not closed is summing over the accepted ids. -/
theorem sum_incarnations (w : OrderId → Quantity) (history : List Event) :
    ((incarnations history).map fun i => if i.closed then 0 else w i.id).sum =
      ∑ id ∈ acceptedIds history, w id := by
  induction history generalizing w with
  | nil => rfl
  | cons ev history ih =>
      have hold : ((incarnations history).map
          ((fun i => if i.closed then 0 else w i.id) ∘ Incarnation.push ev)).sum =
          ∑ id ∈ acceptedIds history, if ev.accepts id then 0 else w id := by
        rw [← ih fun x => if ev.accepts x then 0 else w x]
        exact congrArg List.sum (List.map_congr_left fun i _ => push_weight w ev i)
      rw [incarnations, acceptedIds, List.map_append, List.sum_append, List.map_map, hold]
      rcases opened_cases ev with ⟨hnil, hnone⟩ | ⟨id, qty, hone, haccepts⟩
      · rw [hnil]
        simp [hnone]
      · -- the new incarnation counts for its id, and an old one with the same id no longer does
        have hzero : (if ev.accepts id then 0 else w id) = 0 := by simp [haccepts]
        have hunion : ([(⟨id, qty, [ev], false⟩ : Incarnation)].map Incarnation.id).toFinset ∪
            acceptedIds history = insert id (acceptedIds history) := rfl
        rw [hone, hunion,
          ← Finset.sum_insert_zero (f := fun x => if ev.accepts x then 0 else w x) hzero,
          ← Finset.add_sum_erase _ w (Finset.mem_insert_self id _),
          ← Finset.add_sum_erase _ _ (Finset.mem_insert_self id _), hzero, Int.zero_add]
        refine congrArg₂ (· + ·) (by simp) (Finset.sum_congr rfl fun x hx => ?_)
        have hne : id ≠ x := (Finset.mem_erase.mp hx).1.symm
        simp [haccepts, hne]

/-- Summing the quantities of a list is summing over its ids. -/
theorem sum_qtyOf {l : List Resting} {ids : Finset OrderId} (hids : ∀ r ∈ l, r.id ∈ ids) :
    (l.map Resting.qty).sum = ∑ id ∈ ids, qtyOf id l := by
  induction l with
  | nil => simp [qtyOf]
  | cons r l ih =>
      simp only [qtyOf_cons, Finset.sum_add_distrib, Finset.sum_ite_eq, hids r (by simp), if_true,
        List.map_cons, List.sum_cons]
      rw [ih fun x hx => hids x (by simp [hx])]

/-- Every resting order has been accepted. -/
theorem accepted_call {history : List Event} {b : RestingBook} (capacity : Nat) (c : Call)
    (h : ∀ r ∈ b.all, r.id ∈ acceptedIds history) :
    ∀ r ∈ (b.call capacity c).2.all, r.id ∈ acceptedIds ((b.call capacity c).1 :: history) := by
  intro r hr
  rw [acceptedIds, Finset.mem_union]
  cases c with
  | add id side price qty ts =>
      rw [RestingBook.call] at hr ⊢
      split at hr
      · next hrefused =>
          rw [if_pos hrefused]
          exact Or.inr (h r hr)
      · next hok =>
          rw [if_neg hok]
          rcases RestingBook.mem_add_all hr with ⟨hid, -⟩ | ⟨x, hx, hid, -⟩
          · refine Or.inl ?_
            rw [hid]
            exact List.mem_toFinset.mpr (List.mem_singleton.mpr rfl)
          · refine Or.inr ?_
            rw [hid]
            exact h x hx
  | cancel id =>
      refine Or.inr (h r ?_)
      rw [RestingBook.call] at hr
      split at hr
      · have hr : r ∈ (b.cancel id).all := hr
        rw [RestingBook.all_cancel] at hr
        exact (List.mem_filter.mp hr).1
      · exact hr

/-! ## The ledger of the order book -/

/-- What is right about the fills of a call: they are reported for an accepted order, name it as
incoming and distinct orders that rest as the other party, and have positive quantities. -/
structure FillsInOrder (b : RestingBook) (c : Call) (ev : Event) : Prop where
  accepted : ∀ f ∈ ev.fills, ev.result = true ∧ ∃ side price qty ts,
    c = .add f.incomingId side price qty ts
  resting : ∀ f ∈ ev.fills, ∃ r ∈ b.all, r.id = f.restingId
  distinct : (ev.fills.map Fill.restingId).Nodup
  differ : ∀ f ∈ ev.fills, f.restingId ≠ f.incomingId
  positive : ∀ f ∈ ev.fills, 0 < f.qty

/-- The fills of every call are right. -/
theorem call_fillsInOrder {b : RestingBook} (hv : b.Valid) (capacity : Nat) (c : Call) :
    FillsInOrder b c (b.call capacity c).1 := by
  -- without a fill there is nothing to show
  have hnone : ∀ ev : Event, ev.fills = [] → FillsInOrder b c ev := by
    intro ev hnil
    refine ⟨?_, ?_, ?_, ?_, ?_⟩
    · simp [hnil]
    · simp [hnil]
    · simp [hnil]
    · simp [hnil]
    · simp [hnil]
  cases c with
  | add id side price qty ts =>
      rw [RestingBook.call]
      split
      · exact hnone _ rfl
      · next hok =>
          rw [not_or, Bool.not_eq_true, RestingBook.rests_eq_false] at hok
          have hmem : ∀ f ∈ (b.sweepOf (side = .buy) id price qty).fills, 0 < f.qty ∧
              f.incomingId = id ∧ ∃ r ∈ b.all, r.id = f.restingId := by
            intro f hf
            obtain ⟨hpos, hinc, x, hx, hid, -⟩ := sweep_fills_mem (hv.positive _) hf
            exact ⟨hpos, hinc, x, RestingBook.mem_all.mpr ⟨_, hx⟩, hid.symm⟩
          refine ⟨fun f hf => ⟨rfl, side, price, qty, ts, ?_⟩, fun f hf => (hmem f hf).2.2, ?_,
            fun f hf => ?_, fun f hf => (hmem f hf).1⟩
          · rw [(hmem f hf).2.1]
          · exact (sweep_fills_ids _).sublist.nodup (hv.ids_side _)
          · obtain ⟨-, hinc, r, hr, hid⟩ := hmem f hf
            rw [hinc, ← hid]
            exact hok.1 r hr
  | cancel id =>
      rw [RestingBook.call]
      split
      · exact hnone _ rfl
      · exact hnone _ rfl

/-- After every run of the resting book, quantity is conserved and every resting order has been
accepted. -/
theorem RestingBook.run_conserved (capacity : Nat) (cs : List Call) :
    Conserved (RestingBook.run capacity [] {} cs).1 (RestingBook.run capacity [] {} cs).2 ∧
      ∀ r ∈ (RestingBook.run capacity [] {} cs).2.all,
        r.id ∈ acceptedIds (RestingBook.run capacity [] {} cs).1 := by
  refine And.right (a := (RestingBook.run capacity [] {} cs).2.Valid) ?_
  refine RestingBook.run_induction
    (P := fun history b => b.Valid ∧ Conserved history b ∧ ∀ r ∈ b.all, r.id ∈ acceptedIds history)
    (fun history b c h => ?_) cs ⟨RestingBook.empty_valid, ?_, ?_⟩
  · exact ⟨h.1.call capacity c, h.2.1.call h.1 capacity c, accepted_call capacity c h.2.2⟩
  · intro i hi
    cases hi
  · intro r hr
    cases hr

/-- Quantity is conserved, after every run: every incarnation has what it has submitted, the total
of the book is what rests of all incarnations, and the fills of every further call are right. -/
theorem run_conserves_quantity {poolCapacity windowSize : Nat} (hvalid : ValidWindow windowSize)
    (cs : List Call) (hcs : ∀ c ∈ cs, c.InRange windowSize) :
    ∃ history b, OrderBook.run [] ({} : OrderBook poolCapacity windowSize) cs = .ok (history, b) ∧
      Conserved history b.resting ∧
      b.totalRestingQty = ((incarnations history).map (Incarnation.rests b.resting)).sum ∧
      ∀ c : Call, c.InRange windowSize → ∃ ev b', b.call c = .ok (ev, b') ∧
        b'.engine.fills = b.engine.fills ++ ev.fills ∧ FillsInOrder b.resting c ev := by
  obtain ⟨history, b, mb, sb, sa, hrun, hbook, hlock, hv, -⟩ := run_ok hvalid cs hcs
  obtain ⟨hconserved, haccepted⟩ := RestingBook.run_conserved poolCapacity cs
  rw [hbook] at hconserved haccepted
  refine ⟨history, b, hrun, hconserved, ?_, fun c hc => ?_⟩
  · rw [(hlock.totalRestingQty_eq hvalid).1, sum_qtyOf haccepted,
      ← sum_incarnations (fun id => qtyOf id b.resting.all)]
    rfl
  · obtain ⟨b', mb', sb', sa', hcall, -, hfills, -⟩ := call_refines hvalid hlock hc
    exact ⟨_, b', hcall, hfills, call_fillsInOrder hv poolCapacity c⟩

/-- An ask that is partly filled, cancelled, and followed by another one with the same id. -/
theorem run_conserves_quantity_reused_id :
    ∃ history b,
      OrderBook.run [] ({} : OrderBook 2 64)
        [.add 1 .sell 100 5 0, .add 2 .buy 100 2 0, .cancel 1, .add 1 .sell 101 4 0] =
          .ok (history, b) ∧
      Conserved history b.resting ∧
      (incarnations history).map (fun i => (i.id, i.submitted, i.filled, i.cancelled)) =
        [(1, 4, 0, 0), (2, 2, 2, 0), (1, 5, 2, 3)] := by
  obtain ⟨history, b, hrun, hconserved, -⟩ := @run_conserves_quantity 2 64 ⟨⟨6, rfl⟩, by decide⟩
    [.add 1 .sell 100 5 0, .add 2 .buy 100 2 0, .cancel 1, .add 1 .sell 101 4 0] (by decide)
  have heval : (OrderBook.run [] ({} : OrderBook 2 64)
      [.add 1 .sell 100 5 0, .add 2 .buy 100 2 0, .cancel 1, .add 1 .sell 101 4 0]).map (fun r =>
        (incarnations r.1).map fun i => (i.id, i.submitted, i.filled, i.cancelled)) =
      .ok [(1, 4, 0, 0), (2, 2, 2, 0), (1, 5, 2, 3)] := by decide +kernel
  rw [hrun] at heval
  exact ⟨history, b, hrun, hconserved, Except.ok.inj heval⟩

end LimitOrderBook
