import LimitOrderBook.Book.Retraction

/-!
# Calls that do not get in each other's way

Calls that neither trade with nor queue behind one another may be made in either order
(`independent_calls_commute`). It is a law of price-time priority and proved of the resting book,
where the two orders of the calls lead to the same book; `call_refines` carries it over to the order
book, whose windows and slots may be different afterwards.
-/

namespace LimitOrderBook

/-! ## Joining a side -/

section Join

variable {isBid : Bool} {r r' x : Resting} {l : List Resting}

/-- Joining a side whose first order is worse. -/
theorem enqueue_cons_worse (hx : worse isBid x.price r.price = true) :
    enqueue isBid r (x :: l) = r :: x :: l := by
  rw [enqueue, List.takeWhile_cons_of_neg (by simp [hx]), List.dropWhile_cons_of_neg (by simp [hx])]
  rfl

/-- Joining a side whose first order is not worse. -/
theorem enqueue_cons_behind (hx : worse isBid x.price r.price = false) :
    enqueue isBid r (x :: l) = x :: enqueue isBid r l := by
  rw [enqueue, List.takeWhile_cons_of_pos (by simp [hx]), List.dropWhile_cons_of_pos (by simp [hx])]
  rfl

/-- An order may join a side before or after a worse one. -/
theorem enqueue_comm_worse (hworse : worse isBid r'.price r.price = true) :
    enqueue isBid r (enqueue isBid r' l) = enqueue isBid r' (enqueue isBid r l) := by
  have hbehind : ∀ m, enqueue isBid r' (r :: m) = r :: enqueue isBid r' m := fun m =>
    enqueue_cons_behind ((worse_strict isBid).asymm hworse)
  induction l with
  | nil =>
      show enqueue isBid r [r'] = enqueue isBid r' [r]
      rw [enqueue_cons_worse hworse, hbehind]
      rfl
  | cons x l ih =>
      cases hx : worse isBid x.price r.price with
      | false =>
          have hx' : worse isBid x.price r'.price = false := by
            by_contra h
            rw [Bool.not_eq_false] at h
            rw [(worse_strict isBid).trans h hworse] at hx
            cases hx
          rw [enqueue_cons_behind hx', enqueue_cons_behind hx, enqueue_cons_behind hx,
            enqueue_cons_behind hx', ih]
      | true =>
          rw [enqueue_cons_worse hx, hbehind]
          cases hx' : worse isBid x.price r'.price with
          | false => rw [enqueue_cons_behind hx', enqueue_cons_worse hx]
          | true => rw [enqueue_cons_worse hx', enqueue_cons_worse hworse]

/-- Two orders at different prices may join a side in either order. -/
theorem enqueue_comm (hne : r.price ≠ r'.price) :
    enqueue isBid r (enqueue isBid r' l) = enqueue isBid r' (enqueue isBid r l) := by
  rcases (worse_strict isBid).total r'.price r.price with hworse | heq | hworse
  · exact enqueue_comm_worse hworse
  · exact absurd heq.symm hne
  · exact (enqueue_comm_worse hworse).symm

/-- An order with another id may be taken out before or after one joins. -/
theorem filter_enqueue_ne {id : OrderId} (hsorted : BestFirst isBid l) (hid : r.id ≠ id) :
    (enqueue isBid r l).filter (fun x => x.id ≠ id) =
      enqueue isBid r (l.filter fun x => x.id ≠ id) := by
  obtain ⟨a, c, hl, heq, ha, hc⟩ := enqueue_split (r := r) hsorted
  rw [heq, hl, List.filter_append, List.filter_append,
    List.filter_cons_of_pos (by simpa using hid)]
  refine (enqueue_append (fun x hx => ?_) fun x hx => ?_).symm
  · exact ha x (List.mem_of_mem_filter hx)
  · exact hc x (List.mem_of_mem_filter hx)

end Join

/-! ## Sweeping a side -/

section Sweep

variable {isBid : Bool} {limit : Price} {incoming : OrderId} {l : List Resting}

/-- Behind an order that is out of reach all are. -/
theorem out_of_reach {r : Resting} (hsorted : BestFirst isBid (r :: l))
    (hr : worse isBid r.price limit = true) :
    ∀ x ∈ r :: l, (!worse isBid x.price limit) = false := by
  intro x hx
  rcases List.mem_cons.mp hx with rfl | hx
  · rw [hr]
    rfl
  · rw [worse_of_behind (List.rel_of_pairwise_cons hsorted hx) hr]
    rfl

/-- A sweep is not affected by the cancel of an order that is out of its reach. -/
theorem sweep_filter_ne {id : OrderId} (hsorted : BestFirst isBid l)
    (hreach : ∀ r ∈ l, r.id = id → worse isBid r.price limit = true) (qty : Quantity) :
    sweep (fun p => !worse isBid p limit) incoming qty (l.filter fun r => r.id ≠ id) =
      { sweep (fun p => !worse isBid p limit) incoming qty l with
        rest := (sweep (fun p => !worse isBid p limit) incoming qty l).rest.filter
          fun r => r.id ≠ id } := by
  induction l generalizing qty with
  | nil => rfl
  | cons r rs ih =>
      by_cases hid : r.id = id
      · have hout := out_of_reach hsorted (hreach r (by simp) hid)
        rw [sweep_of_uncrossed fun x hx => hout x (List.mem_of_mem_filter hx),
          sweep_of_uncrossed hout]
      · have hkeep : ∀ (q : Quantity) (m : List Resting),
            (({ r with qty := q } : Resting) :: m).filter (fun r => r.id ≠ id) =
              { r with qty := q } :: m.filter (fun r => r.id ≠ id) := fun q m =>
          List.filter_cons_of_pos (by simpa using hid)
        have hrs := ih hsorted.of_cons fun x hx => hreach x (by simp [hx])
        rw [hkeep r.qty rs]
        rcases sweep_cons_cases (fun p => !worse isBid p limit) incoming qty r rs with
          ⟨hqty, hcross, hlt, heq⟩ | ⟨hqty, hcross, hge, heq⟩ | ⟨hstop, heq⟩
        · rw [heq, sweep_cons_partly hqty hcross hlt, hkeep]
        · rw [heq, sweep_cons_filled hqty hcross hge, hrs]
        · rw [heq, sweep_cons_stop hstop, hkeep r.qty]

/-- A sweep leaves an order that is out of its reach as it is. -/
theorem filter_sweep_rest {id : OrderId}
    (hreach : ∀ r ∈ l, r.id = id → worse isBid r.price limit = true) (qty : Quantity) :
    (sweep (fun p => !worse isBid p limit) incoming qty l).rest.filter (fun r => r.id = id) =
      l.filter fun r => r.id = id := by
  induction l generalizing qty with
  | nil => rfl
  | cons r rs ih =>
      have hrs := ih fun x hx => hreach x (by simp [hx])
      have hskip : (!worse isBid r.price limit) = true → ∀ (q : Quantity) (m : List Resting),
          (({ r with qty := q } : Resting) :: m).filter (fun r => r.id = id) =
            m.filter (fun r => r.id = id) := by
        intro hcross q m
        refine List.filter_cons_of_neg fun hid => ?_
        rw [hreach r (by simp) (of_decide_eq_true hid)] at hcross
        cases hcross
      rcases sweep_cons_cases (fun p => !worse isBid p limit) incoming qty r rs with
        ⟨hqty, hcross, hlt, heq⟩ | ⟨hqty, hcross, hge, heq⟩ | ⟨hstop, heq⟩
      · rw [heq, hskip hcross, hskip hcross r.qty]
      · rw [heq, hskip hcross r.qty]
        exact hrs _
      · rw [heq]

/-- A sweep is not affected by an order that joins out of its reach. -/
theorem sweep_enqueue {r : Resting} (hr : worse isBid r.price limit = true) (qty : Quantity) :
    sweep (fun p => !worse isBid p limit) incoming qty (enqueue isBid r l) =
      { sweep (fun p => !worse isBid p limit) incoming qty l with
        rest := enqueue isBid r
          (sweep (fun p => !worse isBid p limit) incoming qty l).rest } := by
  have hout : ∀ m q, sweep (fun p => !worse isBid p limit) incoming q (r :: m) = ⟨[], q, r :: m⟩ :=
    fun m q => sweep_cons_stop (by simp [hr])
  induction l generalizing qty with
  | nil => exact hout [] qty
  | cons x l ih =>
      cases hx : worse isBid x.price r.price with
      | true =>
          have hxout := (worse_strict isBid).trans hx hr
          rw [enqueue_cons_worse hx, hout, sweep_cons_stop (by simp [hxout]),
            enqueue_cons_worse hx]
      | false =>
          rw [enqueue_cons_behind hx]
          rcases sweep_cons_cases (fun p => !worse isBid p limit) incoming qty x l with
            ⟨hqty, hcross, hlt, heq⟩ | ⟨hqty, hcross, hge, heq⟩ | ⟨hstop, heq⟩
          · rw [heq, sweep_cons_partly hqty hcross hlt]
            exact congrArg (Sweep.mk _ _)
              (enqueue_cons_behind (x := { x with qty := x.qty - qty }) hx).symm
          · rw [heq, sweep_cons_filled hqty hcross hge, ih]
          · rw [heq, sweep_cons_stop hstop, enqueue_cons_behind hx]

end Sweep

/-! ## The resting book -/

/-- Whether the event is an order that is refused. -/
def Event.refuses (ev : Event) : Bool :=
  match ev.call with
  | .add _ _ _ _ _ => !ev.result
  | .cancel _ => false

namespace RestingBook

variable {b : RestingBook} {capacity : Nat} {isBuy isBuy' : Bool} {id id' : OrderId}
  {price price' : Price} {qty qty' : Quantity}

/-- No order of the other side trades with an order at the price. -/
def Quiet (b : RestingBook) (isBuy : Bool) (price : Price) : Prop :=
  ∀ r ∈ b.side (!isBuy), worse (!isBuy) r.price price = true

instance : Decidable (b.Quiet isBuy price) :=
  inferInstanceAs (Decidable (∀ r ∈ b.side (!isBuy), worse (!isBuy) r.price price = true))

/-- An order with the id would be accepted, also if `others` more orders rested. -/
structure Welcomes (capacity : Nat) (b : RestingBook) (others : Nat) (id : OrderId) : Prop where
  isNew : ∀ r ∈ b.all, r.id ≠ id
  room : b.all.length + others < capacity

/-- Two calls that do not get in each other's way. A cancel and a new order do not if the order
could not have traded with the one that is cancelled; two new orders do not if they could not trade
with each other and compete neither for the orders of the other side nor for a place in a queue. -/
def Independent (capacity : Nat) (b : RestingBook) : Call → Call → Prop
  | .cancel id, .cancel id' => id ≠ id'
  | .add id side price _ _, .cancel id' | .cancel id', .add id side price _ _ =>
      id ≠ id' ∧ b.Welcomes capacity 0 id ∧
        ∀ r ∈ b.side (!decide (side = .buy)), r.id = id' →
          worse (!decide (side = .buy)) r.price price = true
  | .add id side price _ _, .add id' side' price' _ _ =>
      id ≠ id' ∧ b.Welcomes capacity 1 id ∧ b.Welcomes capacity 1 id' ∧
        if decide (side = .buy) = decide (side' = .buy) then
          price ≠ price' ∧ (b.Quiet (side = .buy) price ∨ b.Quiet (side = .buy) price')
        else worse (!decide (side = .buy)) price' price = true

/-- A cancel, whether the order rests or not. -/
theorem call_cancel :
    b.call capacity (.cancel id) = (⟨.cancel id, b.rests id, [], qtyOf id b.all⟩, b.cancel id) := by
  rw [call]
  cases hrests : b.rests id with
  | true => rfl
  | false =>
      have hnone := rests_eq_false.mp hrests
      have hside : ∀ s, ∀ r ∈ b.side s, r.id ≠ id := fun s r hr => hnone r (mem_all.mpr ⟨s, hr⟩)
      have hkeep : b.cancel id = b := eq_of_sides fun s => by
        rw [side_cancel]
        exact List.filter_eq_self.mpr fun r hr => decide_eq_true (hside s r hr)
      rw [qtyOf_eq_zero hnone, hkeep]
      rfl

/-- The answer to a cancel depends on the order with the id only. -/
theorem cancel_answer_congr {b' : RestingBook}
    (h : b'.all.filter (fun r => r.id = id) = b.all.filter fun r => r.id = id) :
    (b'.call capacity (.cancel id)).1 = (b.call capacity (.cancel id)).1 := by
  have hrests : b'.rests id = b.rests id := by
    have hiff : ∀ c : RestingBook, c.rests id = true ↔ c.all.filter (fun r => r.id = id) ≠ [] := by
      intro c
      rw [rests_iff, ne_eq, List.filter_eq_nil_iff]
      simp
    rw [Bool.eq_iff_iff, hiff, hiff, h]
  rw [call_cancel, call_cancel, hrests, qtyOf, h, ← qtyOf]

/-- A new order that is accepted. -/
theorem Welcomes.call_add {others : Nat} (h : b.Welcomes capacity others id) (side : Side)
    (ts : Nanos) :
    b.call capacity (.add id side price qty ts) =
      (⟨.add id side price qty ts, true, (b.sweepOf (side = .buy) id price qty).fills, 0⟩,
        b.add (side = .buy) id price qty) := by
  have hroom := h.room
  rw [call, if_neg]
  rw [not_or, Bool.not_eq_true, rests_eq_false]
  exact ⟨h.isNew, by omega⟩

/-- A new order takes one slot at most. -/
theorem length_add_le (b : RestingBook) (isBuy : Bool) (id : OrderId) (price : Price)
    (qty : Quantity) : (b.add isBuy id price qty).all.length ≤ b.all.length + 1 := by
  rw [(all_perm isBuy).length_eq, (all_perm (b := b) isBuy).length_eq, List.length_append,
    List.length_append, side_add_self, side_add_not]
  have hrest : (b.sweepOf isBuy id price qty).rest.length ≤ (b.side (!isBuy)).length := by
    have h := (@sweep_rest_suffix (fun p => !worse (!isBuy) p price) id qty
      (b.side (!isBuy))).length_le
    rwa [List.length_map, List.length_map] at h
  have hjoined : ∀ left, (joined isBuy id price left (b.side isBuy)).length ≤
      (b.side isBuy).length + 1 := by
    intro left
    unfold joined
    split
    · rw [enqueue_perm.length_eq, List.length_cons]
    · omega
  have := hjoined (b.sweepOf isBuy id price qty).left
  omega

/-- After a new order another one is still accepted. -/
theorem Welcomes.add (h : b.Welcomes capacity 1 id') (hne : id ≠ id') :
    (b.add isBuy id price qty).Welcomes capacity 0 id' := by
  refine ⟨fun r hr => ?_, ?_⟩
  · rcases mem_add_all hr with ⟨hid, -⟩ | ⟨x, hx, hid, -⟩
    · rw [hid]
      exact hne
    · rw [hid]
      exact h.isNew x hx
  · have hroom := h.room
    have hlen := b.length_add_le isBuy id price qty
    omega

/-- After a cancel a new order is still accepted. -/
theorem Welcomes.cancel (h : b.Welcomes capacity 0 id) :
    (b.cancel id').Welcomes capacity 0 id := by
  refine ⟨fun r hr => ?_, ?_⟩
  · rw [all_cancel] at hr
    exact h.isNew r (List.mem_of_mem_filter hr)
  · have hroom := h.room
    have hlen := List.length_filter_le (fun r : Resting => r.id ≠ id') b.all
    rw [all_cancel]
    omega

/-! ### A cancel and a new order -/

section CancelAdd

variable (hreach : ∀ r ∈ b.side (!isBuy), r.id = id' → worse (!isBuy) r.price price = true)
include hreach

/-- A new order leaves the order with the other id as it is. -/
theorem filter_add_all (hne : id ≠ id') :
    (b.add isBuy id price qty).all.filter (fun r => r.id = id') =
      b.all.filter fun r => r.id = id' := by
  have hjoined : ∀ left l, (joined isBuy id price left l).filter (fun r => r.id = id') =
      l.filter fun r => r.id = id' := by
    intro left l
    unfold joined
    split
    · rw [enqueue, List.filter_append, List.filter_cons_of_neg (by simpa using hne),
        ← List.filter_append, List.takeWhile_append_dropWhile]
    · rfl
  have hself : ((b.add isBuy id price qty).side isBuy).filter (fun r => r.id = id') =
      (b.side isBuy).filter fun r => r.id = id' := by
    rw [side_add_self, hjoined]
  have hother : ((b.add isBuy id price qty).side (!isBuy)).filter (fun r => r.id = id') =
      (b.side (!isBuy)).filter fun r => r.id = id' := by
    rw [side_add_not]
    exact filter_sweep_rest hreach qty
  rw [all, all, List.filter_append, List.filter_append]
  cases isBuy with
  | true => exact congrArg₂ _ hself hother
  | false => exact congrArg₂ _ hother hself

/-- The sweep of the new order is the same after the cancel. -/
theorem sweepOf_cancel (hv : b.Valid) :
    (b.cancel id').sweepOf isBuy id price qty =
      { b.sweepOf isBuy id price qty with
        rest := (b.sweepOf isBuy id price qty).rest.filter fun r => r.id ≠ id' } := by
  rw [sweepOf, side_cancel]
  exact sweep_filter_ne (hv.sorted _) hreach qty

/-- A cancel and a new order may be made in either order. -/
theorem add_cancel (hne : id ≠ id') (hv : b.Valid) :
    (b.cancel id').add isBuy id price qty = (b.add isBuy id price qty).cancel id' := by
  have hsweep := @sweepOf_cancel b isBuy id id' price qty hreach hv
  refine eq_of_sides fun s => ?_
  rw [side_cancel]
  by_cases hs : s = isBuy
  · subst hs
    rw [side_add_self, side_add_self, hsweep, side_cancel]
    unfold joined
    split
    · exact (filter_enqueue_ne (hv.sorted _) hne).symm
    · rfl
  · obtain rfl : s = !isBuy := by
      cases s <;> cases isBuy <;> simp_all
    rw [side_add_not, side_add_not, hsweep]

end CancelAdd

/-! ### Two new orders -/

/-- One of two orders on different sides that do not trade with each other is quiet. -/
theorem Valid.quiet_or (hv : b.Valid) (hprices : worse (!isBuy) price' price = true) :
    b.Quiet isBuy price ∨ b.Quiet (!isBuy) price' := by
  by_cases hquiet : b.Quiet isBuy price
  · exact Or.inl hquiet
  · refine Or.inr fun r hr => ?_
    unfold Quiet at hquiet
    push Not at hquiet
    obtain ⟨y, hy, hreach⟩ := hquiet
    rw [Bool.not_not] at hr ⊢
    have hry : worse isBuy r.price y.price = true := by
      rw [← worse_not]
      exact hv.uncrossed isBuy r hr y hy
    rw [worse_not] at hprices hreach
    exact (worse_strict isBuy).trans hry
      (worse_of_behind (Bool.eq_false_iff.mpr hreach) hprices)

/-- A quiet order joins its side. -/
theorem Quiet.side_add_self (h : b.Quiet isBuy price) :
    (b.add isBuy id price qty).side isBuy = joined isBuy id price qty (b.side isBuy) := by
  rw [RestingBook.side_add_self, sweepOf_uncrossed h]

/-- A quiet order leaves the other side as it is. -/
theorem Quiet.side_add_not (h : b.Quiet isBuy price) :
    (b.add isBuy id price qty).side (!isBuy) = b.side (!isBuy) := by
  rw [RestingBook.side_add_not, sweepOf_uncrossed h]

/-- Two orders that may join a side may do so in either order. -/
theorem joined_comm {left left' : Quantity} {l : List Resting} (hne : price ≠ price') :
    joined isBuy id price left (joined isBuy id' price' left' l) =
      joined isBuy id' price' left' (joined isBuy id price left l) := by
  unfold joined
  by_cases hleft : 0 < left
  · by_cases hleft' : 0 < left'
    · rw [if_pos hleft, if_pos hleft', if_pos hleft', if_pos hleft]
      exact enqueue_comm hne
    · rw [if_neg hleft', if_neg hleft']
  · rw [if_neg hleft, if_neg hleft]

/-- A sweep is not affected by an order that may join out of its reach. -/
theorem sweep_joined {left : Quantity} {l : List Resting} {limit : Price} {incoming : OrderId}
    (hout : worse isBuy price limit = true) (qty : Quantity) :
    sweep (fun p => !worse isBuy p limit) incoming qty (joined isBuy id price left l) =
      { sweep (fun p => !worse isBuy p limit) incoming qty l with
        rest := joined isBuy id price left
          (sweep (fun p => !worse isBuy p limit) incoming qty l).rest } := by
  unfold joined
  split
  · exact sweep_enqueue hout qty
  · rfl

/-- A new order and a quiet one at another price of the same side. -/
theorem Quiet.add_comm_same (h : b.Quiet isBuy price') (hne : price ≠ price') :
    (b.add isBuy id price qty).Quiet isBuy price' ∧
      (b.add isBuy id' price' qty').sweepOf isBuy id price qty = b.sweepOf isBuy id price qty ∧
      (b.add isBuy id price qty).add isBuy id' price' qty' =
        (b.add isBuy id' price' qty').add isBuy id price qty := by
  have hquiet : (b.add isBuy id price qty).Quiet isBuy price' := by
    intro r hr
    rw [RestingBook.side_add_not] at hr
    have hpair := (sweep_rest_suffix _).subset
      (List.mem_map_of_mem (f := fun x => (x.id, x.price)) hr)
    obtain ⟨x, hx, heq⟩ := List.mem_map.mp hpair
    rw [← (Prod.mk.inj heq).2]
    exact h x hx
  have hsweep : (b.add isBuy id' price' qty').sweepOf isBuy id price qty =
      b.sweepOf isBuy id price qty := by
    rw [sweepOf, h.side_add_not]
    rfl
  refine ⟨hquiet, hsweep, eq_of_sides fun s => ?_⟩
  by_cases hs : s = isBuy
  · subst hs
    rw [hquiet.side_add_self, RestingBook.side_add_self, RestingBook.side_add_self, hsweep,
      h.side_add_self]
    exact (joined_comm hne).symm
  · obtain rfl : s = !isBuy := by
      cases s <;> cases isBuy <;> simp_all
    rw [hquiet.side_add_not, RestingBook.side_add_not, RestingBook.side_add_not, hsweep]

/-- A new order and a quiet one on the other side that do not trade with each other. -/
theorem Quiet.add_comm_not (h : b.Quiet (!isBuy) price')
    (hprices : worse (!isBuy) price' price = true) :
    (b.add isBuy id price qty).Quiet (!isBuy) price' ∧
      ((b.add (!isBuy) id' price' qty').sweepOf isBuy id price qty).fills =
        (b.sweepOf isBuy id price qty).fills ∧
      (b.add isBuy id price qty).add (!isBuy) id' price' qty' =
        (b.add (!isBuy) id' price' qty').add isBuy id price qty := by
  have hquiet : (b.add isBuy id price qty).Quiet (!isBuy) price' := by
    intro r hr
    rw [Bool.not_not, RestingBook.side_add_self, mem_joined] at hr
    rw [Bool.not_not]
    rcases hr with hr | ⟨-, rfl⟩
    · have hworse := h r (by rwa [Bool.not_not])
      rwa [Bool.not_not] at hworse
    · rwa [worse_not] at hprices
  have hsweep : (b.add (!isBuy) id' price' qty').sweepOf isBuy id price qty =
      { b.sweepOf isBuy id price qty with
        rest := joined (!isBuy) id' price' qty' (b.sweepOf isBuy id price qty).rest } := by
    rw [sweepOf, h.side_add_self]
    exact sweep_joined hprices qty
  refine ⟨hquiet, by rw [hsweep], eq_of_sides fun s => ?_⟩
  by_cases hs : s = isBuy
  · subst hs
    have hother := @Quiet.side_add_not _ (!s) id' price' qty' hquiet
    have hown := @Quiet.side_add_not _ (!s) id' price' qty' h
    rw [Bool.not_not] at hother hown
    rw [hother, RestingBook.side_add_self, RestingBook.side_add_self, hsweep, hown]
  · obtain rfl : s = !isBuy := by
      cases s <;> cases isBuy <;> simp_all
    rw [hquiet.side_add_self, RestingBook.side_add_not, RestingBook.side_add_not, hsweep]

/-! ### Either order -/

/-- A call that is not refused leaves the counters as they are. -/
theorem statsAfter_of_granted {stats : BookStats} {c : Call}
    (h : (b.call capacity c).1.refuses = false) : b.statsAfter capacity stats c = stats := by
  cases c with
  | add id side price qty ts =>
      rw [statsAfter, if_neg]
      intro hrefused
      rw [call, if_pos hrefused] at h
      cases h
  | cancel id => rfl

/-- Two calls that are answered alike in either order, after which the book is the same. -/
structure Commutes (capacity : Nat) (b : RestingBook) (c c' : Call) : Prop where
  answer : ((b.call capacity c').2.call capacity c).1 = (b.call capacity c).1
  answer' : ((b.call capacity c).2.call capacity c').1 = (b.call capacity c').1
  book : ((b.call capacity c).2.call capacity c').2 = ((b.call capacity c').2.call capacity c).2
  granted : (b.call capacity c).1.refuses = false
  granted' : (b.call capacity c').1.refuses = false
  fills : (b.call capacity c).1.fills = [] ∨ (b.call capacity c').1.fills = []

variable {c c' : Call}

/-- The calls may be named in either order. -/
theorem Commutes.symm (h : b.Commutes capacity c c') : b.Commutes capacity c' c :=
  ⟨h.answer', h.answer, h.book.symm, h.granted', h.granted, h.fills.symm⟩

/-- Cancels of different orders. -/
theorem cancel_commutes (hne : id ≠ id') : b.Commutes capacity (.cancel id) (.cancel id') := by
  have hfilter : ∀ {i j : OrderId}, i ≠ j →
      (b.cancel j).all.filter (fun r => r.id = i) = b.all.filter fun r => r.id = i := by
    intro i j hij
    rw [all_cancel, List.filter_filter]
    refine List.filter_congr fun r _ => ?_
    by_cases hr : r.id = i
    · simp [hr, hij]
    · simp [hr]
  refine ⟨?_, ?_, ?_, ?_, ?_, ?_⟩
  · rw [@call_cancel b capacity id']
    exact cancel_answer_congr (hfilter hne)
  · rw [@call_cancel b capacity id]
    exact cancel_answer_congr (hfilter hne.symm)
  · rw [call_cancel, call_cancel, call_cancel, call_cancel]
    refine eq_of_sides fun s => ?_
    rw [side_cancel, side_cancel, side_cancel, side_cancel, List.filter_filter, List.filter_filter]
    exact List.filter_congr fun r _ => Bool.and_comm _ _
  · rw [call_cancel]
    rfl
  · rw [call_cancel]
    rfl
  · rw [call_cancel]
    exact Or.inl rfl

/-- A new order and a cancel of one that it could not have traded with. -/
theorem add_commutes_cancel (hv : b.Valid) {side : Side} {ts : Nanos} (hne : id ≠ id')
    (hwelcome : b.Welcomes capacity 0 id)
    (hreach : ∀ r ∈ b.side (!decide (side = .buy)), r.id = id' →
      worse (!decide (side = .buy)) r.price price = true) :
    b.Commutes capacity (.add id side price qty ts) (.cancel id') := by
  have hadd := @Welcomes.call_add b capacity id price qty 0 hwelcome side ts
  have hadd' := @Welcomes.call_add (b.cancel id') capacity id price qty 0 hwelcome.cancel side ts
  refine ⟨?_, ?_, ?_, ?_, ?_, ?_⟩
  · rw [call_cancel, hadd', hadd, sweepOf_cancel hreach hv]
  · rw [hadd]
    exact cancel_answer_congr (filter_add_all hreach hne)
  · rw [hadd, call_cancel, call_cancel, hadd']
    exact (add_cancel hreach hne hv).symm
  · rw [hadd]
    rfl
  · rw [call_cancel]
    rfl
  · rw [call_cancel]
    exact Or.inr rfl

/-- A new order and a quiet one that neither trades nor queues with it. -/
theorem add_commutes_quiet {side side' : Side} {ts ts' : Nanos} (hne : id ≠ id')
    (hwelcome : b.Welcomes capacity 1 id) (hwelcome' : b.Welcomes capacity 1 id')
    (hquiet : b.Quiet (side' = .buy) price')
    (hprices : if decide (side = .buy) = decide (side' = .buy) then price ≠ price'
      else worse (!decide (side = .buy)) price' price = true) :
    b.Commutes capacity (.add id side price qty ts) (.add id' side' price' qty' ts') := by
  have hcomm : (b.add (side = .buy) id price qty).Quiet (side' = .buy) price' ∧
      ((b.add (side' = .buy) id' price' qty').sweepOf (side = .buy) id price qty).fills =
        (b.sweepOf (side = .buy) id price qty).fills ∧
      (b.add (side = .buy) id price qty).add (side' = .buy) id' price' qty' =
        (b.add (side' = .buy) id' price' qty').add (side = .buy) id price qty := by
    by_cases hsides : decide (side = .buy) = decide (side' = .buy)
    · rw [if_pos hsides] at hprices
      rw [← hsides] at hquiet ⊢
      obtain ⟨hstill, hsweep, hbook⟩ := hquiet.add_comm_same hprices
      exact ⟨hstill, by rw [hsweep], hbook⟩
    · rw [if_neg hsides] at hprices
      have hother : decide (side' = .buy) = !decide (side = .buy) :=
        Bool.eq_not_of_ne fun h => hsides h.symm
      rw [hother] at hquiet ⊢
      exact hquiet.add_comm_not hprices
  obtain ⟨hstill, hfills, hbook⟩ := hcomm
  have hadd := @Welcomes.call_add b capacity id price qty 1 hwelcome side ts
  have hadd' := @Welcomes.call_add b capacity id' price' qty' 1 hwelcome' side' ts'
  have hlate := @Welcomes.call_add (b.add (side' = .buy) id' price' qty') capacity id price qty 0
    (hwelcome.add hne.symm) side ts
  have hlate' := @Welcomes.call_add (b.add (side = .buy) id price qty) capacity id' price' qty' 0
    (hwelcome'.add hne) side' ts'
  refine ⟨?_, ?_, ?_, ?_, ?_, ?_⟩
  · rw [hadd', hlate, hadd, hfills]
  · rw [hadd, hlate', hadd', sweepOf_uncrossed hstill, sweepOf_uncrossed hquiet]
  · rw [hadd, hlate', hadd', hlate]
    exact hbook
  · rw [hadd]
    rfl
  · rw [hadd']
    rfl
  · rw [hadd', sweepOf_uncrossed hquiet]
    exact Or.inr rfl

/-- Calls that do not get in each other's way may be made in either order. -/
theorem Independent.commutes (hv : b.Valid) (h : b.Independent capacity c c') :
    b.Commutes capacity c c' := by
  cases c with
  | add id side price qty ts =>
      cases c' with
      | add id' side' price' qty' ts' =>
          obtain ⟨hne, hwelcome, hwelcome', hprices⟩ := h
          by_cases hsides : decide (side = .buy) = decide (side' = .buy)
          · rw [if_pos hsides] at hprices
            obtain ⟨hdiffer, hquiet | hquiet⟩ := hprices
            · refine (add_commutes_quiet hne.symm hwelcome' hwelcome hquiet ?_).symm
              rw [if_pos hsides.symm]
              exact hdiffer.symm
            · rw [hsides] at hquiet
              refine add_commutes_quiet hne hwelcome hwelcome' hquiet ?_
              rw [if_pos hsides]
              exact hdiffer
          · rw [if_neg hsides] at hprices
            have hother : decide (side' = .buy) = !decide (side = .buy) :=
              Bool.eq_not_of_ne fun h => hsides h.symm
            rcases hv.quiet_or hprices with hquiet | hquiet
            · refine (add_commutes_quiet hne.symm hwelcome' hwelcome hquiet ?_).symm
              rw [if_neg fun h => hsides h.symm, hother, worse_not]
              exact hprices
            · rw [← hother] at hquiet
              refine add_commutes_quiet hne hwelcome hwelcome' hquiet ?_
              rw [if_neg hsides]
              exact hprices
      | cancel id' =>
          obtain ⟨hne, hwelcome, hreach⟩ := h
          exact add_commutes_cancel hv hne hwelcome hreach
  | cancel id =>
      cases c' with
      | add id' side' price' qty' ts' =>
          obtain ⟨hne, hwelcome, hreach⟩ := h
          exact (add_commutes_cancel hv hne hwelcome hreach).symm
      | cancel id' => exact cancel_commutes h

end RestingBook

/-! ## The order book -/

section Books

variable {poolCapacity windowSize : Nat} {b : OrderBook poolCapacity windowSize}
  {mb : MapOrderBook poolCapacity} {sb sa : List Shelf}

/-- Two calls that commute lead to books that are alike. -/
theorem Lockstep.commute (hvalid : ValidWindow windowSize) (hlock : Lockstep b mb sb sa)
    {c c' : Call} (hc : c.InRange windowSize) (hc' : c'.InRange windowSize)
    (h : b.resting.Commutes poolCapacity c c') :
    ∃ ev ev' b₁ b₂, b.run [] [c, c'] = .ok ([ev', ev], b₁) ∧
      b.run [] [c', c] = .ok ([ev, ev'], b₂) ∧ b₁.stats = b.stats ∧ Alike b₁ b₂ := by
  obtain ⟨x, mx, sbx, sax, hx, hxbook, hxfills, hlockx⟩ := call_refines hvalid hlock hc
  obtain ⟨y, my, sby, say, hy, hybook, hyfills, hlocky⟩ := call_refines hvalid hlock hc'
  obtain ⟨b₁, m₁, sb₁, sa₁, h₁, h₁book, h₁fills, hlock₁⟩ := call_refines hvalid hlockx hc'
  obtain ⟨b₂, m₂, sb₂, sa₂, h₂, h₂book, h₂fills, hlock₂⟩ := call_refines hvalid hlocky hc
  have hstats : ∀ {b b' : OrderBook poolCapacity windowSize} {mb sb sa c ev},
      Lockstep b mb sb sa → c.InRange windowSize → b.call c = .ok (ev, b') →
      (b.resting.call poolCapacity c).1.refuses = false → b'.stats = b.stats := by
    intro b b' mb sb sa c ev hlock hc hcall hgranted
    rw [call_stats hvalid hlock hc hcall, RestingBook.statsAfter_of_granted hgranted]
  have hstatsx := hstats hlock hc hx h.granted
  have hstatsy := hstats hlock hc' hy h.granted'
  have hstats₁ := hstats hlockx hc' h₁ (by rw [hxbook, h.answer']; exact h.granted')
  have hstats₂ := hstats hlocky hc h₂ (by rw [hybook, h.answer]; exact h.granted)
  rw [hxbook, h.answer'] at h₁ h₁fills
  rw [hybook, h.answer] at h₂ h₂fills
  refine ⟨(b.resting.call poolCapacity c).1, (b.resting.call poolCapacity c').1, b₁, b₂, ?_, ?_,
    hstats₁.trans hstatsx, ⟨m₁, sb₁, sa₁, hlock₁⟩, ⟨m₂, sb₂, sa₂, hlock₂⟩, ?_, ?_, ?_⟩
  · rw [OrderBook.run, hx]
    show (OrderBook.run _ x [c']) = _
    rw [OrderBook.run, h₁]
    rfl
  · rw [OrderBook.run, hy]
    show (OrderBook.run _ y [c]) = _
    rw [OrderBook.run, h₂]
    rfl
  · rw [h₂book, h₁book, hybook, hxbook, h.book]
  · rw [h₂fills, h₁fills, hyfills, hxfills]
    rcases h.fills with hnil | hnil
    · rw [hnil, List.append_nil, List.append_nil]
    · rw [hnil, List.append_nil, List.append_nil]
  · rw [hstats₂, hstatsy, hstats₁, hstatsx]

/-- After every run, two calls that do not get in each other's way may be made in either order: each
is answered the same, nothing is refused, and the books cannot be told apart, neither then nor by
any sequence of calls that follows. -/
theorem independent_calls_commute (hvalid : ValidWindow windowSize) (cs : List Call)
    (hcs : ∀ c ∈ cs, c.InRange windowSize) :
    ∃ history b, OrderBook.run [] ({} : OrderBook poolCapacity windowSize) cs = .ok (history, b) ∧
      ∀ c c', c.InRange windowSize → c'.InRange windowSize →
        b.resting.Independent poolCapacity c c' →
        ∃ ev ev' b₁ b₂, b.run [] [c, c'] = .ok ([ev', ev], b₁) ∧
          b.run [] [c', c] = .ok ([ev, ev'], b₂) ∧ b₁.stats = b.stats ∧ b₂.stats = b.stats ∧
          b₂.observe none = b₁.observe none ∧
          ∀ ds, (∀ d ∈ ds, d.InRange windowSize) →
            ∃ answers, b₁.answers ds = .ok answers ∧ b₂.answers ds = .ok answers := by
  obtain ⟨history, b, mb, sb, sa, hrun, -, hlock, hv, -⟩ := run_ok hvalid cs hcs
  refine ⟨history, b, hrun, fun c c' hc hc' hindependent => ?_⟩
  obtain ⟨ev, ev', b₁, b₂, h₁, h₂, hstats, halike⟩ :=
    hlock.commute hvalid hc hc' (hindependent.commutes hv)
  exact ⟨ev, ev', b₁, b₂, h₁, h₂, hstats, halike.stats.trans hstats, halike.observe hvalid none,
    halike.answers hvalid⟩

end Books

/-- A purchase that takes the ask at 105 and rests at 106, and an offer at 110. -/
theorem independent_calls_commute_taker :
    ∃ history b, OrderBook.run [] ({} : OrderBook 8 64)
        [.add 1 .buy 100 5 0, .add 2 .sell 105 4 1] = .ok (history, b) ∧
      ∃ ev ev' b₁ b₂,
        b.run [] [.add 3 .buy 106 6 2, .add 4 .sell 110 1 3] = .ok ([ev', ev], b₁) ∧
        b.run [] [.add 4 .sell 110 1 3, .add 3 .buy 106 6 2] = .ok ([ev, ev'], b₂) ∧
        b₂.observe none = b₁.observe none := by
  obtain ⟨history, b, hrun, hcommute⟩ := @independent_calls_commute 8 64 ⟨⟨6, rfl⟩, by decide⟩
    [.add 1 .buy 100 5 0, .add 2 .sell 105 4 1] (by decide)
  have hresting : (OrderBook.run [] ({} : OrderBook 8 64)
      [.add 1 .buy 100 5 0, .add 2 .sell 105 4 1]).map (fun r => r.2.resting) =
      .ok ⟨[⟨1, 100, 5⟩], [⟨2, 105, 4⟩]⟩ := by decide +kernel
  rw [hrun] at hresting
  replace hresting : b.resting = ⟨[⟨1, 100, 5⟩], [⟨2, 105, 4⟩]⟩ := Except.ok.inj hresting
  have hindependent : b.resting.Independent 8 (.add 3 .buy 106 6 2) (.add 4 .sell 110 1 3) := by
    rw [hresting]
    exact ⟨by decide, ⟨by decide, by decide⟩, ⟨by decide, by decide⟩, by decide⟩
  obtain ⟨ev, ev', b₁, b₂, h₁, h₂, _, _, hseen, _⟩ :=
    hcommute (.add 3 .buy 106 6 2) (.add 4 .sell 110 1 3) (by decide) (by decide) hindependent
  exact ⟨history, b, hrun, ev, ev', b₁, b₂, h₁, h₂, hseen⟩

end LimitOrderBook
