import LimitOrderBook.Book.PriceTime
import Mathlib.Data.List.Pairwise

/-!
# The resting book

The order book as its users see it: the resting orders of both sides, each in the order in which
they trade. It takes calls and answers them; an order is refused if its id rests already or if as
many orders rest as the book has room for.

`Valid` holds after every call: quantities are positive, ids are distinct, prices are in order and
the sides do not cross. `InTurn` says that the orders of a side stand in the order of their prices
and, at one price, of the calls that have accepted them.
-/

namespace LimitOrderBook

/-- The resting orders of both sides, each in the order in which they trade. -/
structure RestingBook where
  bids : List Resting := []
  asks : List Resting := []
  deriving DecidableEq, Repr

namespace RestingBook

/-- One side. -/
def side (b : RestingBook) : Bool → List Resting
  | true => b.bids
  | false => b.asks

/-- All resting orders. -/
def all (b : RestingBook) : List Resting := b.bids ++ b.asks

/-- The sweep of a new order over the other side. -/
def sweepOf (b : RestingBook) (isBuy : Bool) (id : OrderId) (price : Price) (qty : Quantity) :
    Sweep :=
  sweep (fun p => !worse (!isBuy) p price) id qty (b.side (!isBuy))

/-- The orders of the own side, with what is left of the new one. -/
def joined (isBuy : Bool) (id : OrderId) (price : Price) (left : Quantity) (l : List Resting) :
    List Resting :=
  if 0 < left then enqueue isBuy ⟨id, price, left⟩ l else l

/-- A new order sweeps the other side, and its remainder joins its own. -/
def add (b : RestingBook) (isBuy : Bool) (id : OrderId) (price : Price) (qty : Quantity) :
    RestingBook :=
  let s := b.sweepOf isBuy id price qty
  match isBuy with
  | true => ⟨joined true id price s.left b.bids, s.rest⟩
  | false => ⟨s.rest, joined false id price s.left b.asks⟩

/-- An order leaves the book. -/
def cancel (b : RestingBook) (id : OrderId) : RestingBook :=
  ⟨b.bids.filter fun r => r.id ≠ id, b.asks.filter fun r => r.id ≠ id⟩

end RestingBook

/-! ## Calls -/

/-- A call of the book. -/
inductive Call where
  /-- `add_order`. -/
  | add (id : OrderId) (side : Side) (price : Price) (qty : Quantity) (ts : Nanos)
  /-- `cancel_order`. -/
  | cancel (id : OrderId)
  deriving DecidableEq, Repr

/-- A call that has been made: its result, the fills it has reported, and the quantity that it has
cancelled. -/
structure Event where
  call : Call
  result : Bool
  fills : List Fill
  cancelled : Quantity
  deriving DecidableEq, Repr

/-- Whether the event is an accepted order with the id. -/
def Event.accepts (ev : Event) (id : OrderId) : Bool :=
  match ev.call with
  | .add id' _ _ _ _ => ev.result && id' = id
  | .cancel _ => false

/-- The quantity that rests under an id. -/
def qtyOf (id : OrderId) (l : List Resting) : Quantity :=
  ((l.filter fun r => r.id = id).map Resting.qty).sum

/-- Whether an id rests. -/
def RestingBook.rests (b : RestingBook) (id : OrderId) : Bool := b.all.any fun r => r.id = id

/-- The answer to a call, and the book after it. -/
def RestingBook.call (capacity : Nat) (b : RestingBook) : Call → Event × RestingBook
  | .add id side price qty ts =>
      if b.rests id ∨ b.all.length = capacity then (⟨.add id side price qty ts, false, [], 0⟩, b)
      else
        (⟨.add id side price qty ts, true, (b.sweepOf (side = .buy) id price qty).fills, 0⟩,
          b.add (side = .buy) id price qty)
  | .cancel id =>
      if b.rests id then (⟨.cancel id, true, [], qtyOf id b.all⟩, b.cancel id)
      else (⟨.cancel id, false, [], 0⟩, b)

/-- The history of a sequence of calls, the last one first, and the book after it. -/
def RestingBook.run (capacity : Nat) (history : List Event) (b : RestingBook) :
    List Call → List Event × RestingBook
  | [] => (history, b)
  | c :: cs => RestingBook.run capacity ((b.call capacity c).1 :: history) (b.call capacity c).2 cs

/-- The number of calls up to the last one that has accepted an order with the id. -/
def acceptedAt : List Event → OrderId → Nat
  | [], _ => 0
  | ev :: history, id => if ev.accepts id then history.length + 1 else acceptedAt history id

/-! ## Joining a side -/

/-- The orders of a side, no one worse than a later one. -/
def BestFirst (isBid : Bool) (l : List Resting) : Prop :=
  l.Pairwise fun x y => worse isBid x.price y.price = false

section Join

variable {isBid : Bool} {r : Resting} {l : List Resting}

/-- What is behind a worse order is worse. -/
theorem worse_of_behind {p q limit : Price} (hpq : worse isBid p q = false)
    (hp : worse isBid p limit = true) : worse isBid q limit = true := by
  cases isBid with
  | true =>
      simp only [worse, if_true, decide_eq_true_eq, decide_eq_false_iff_not] at *
      lia
  | false =>
      simp only [worse, Bool.false_eq_true, if_false, decide_eq_true_eq,
        decide_eq_false_iff_not] at *
      lia

/-- Where an order joins a side: behind the orders that are not worse and before those that
are. -/
theorem enqueue_split (hsorted : BestFirst isBid l) :
    ∃ a c, l = a ++ c ∧ enqueue isBid r l = a ++ r :: c ∧
      (∀ x ∈ a, worse isBid x.price r.price = false) ∧
      ∀ x ∈ c, worse isBid x.price r.price = true := by
  refine ⟨_, _, (List.takeWhile_append_dropWhile (p := fun x => !worse isBid x.price r.price)).symm,
    rfl, fun x hx => ?_, ?_⟩
  · have h := List.mem_takeWhile_imp (p := fun x : Resting => !worse isBid x.price r.price) hx
    simpa using h
  · induction l with
    | nil => exact fun x hx => by cases hx
    | cons y l ih =>
        obtain ⟨hy, hl⟩ := List.pairwise_cons.mp hsorted
        by_cases hworse : worse isBid y.price r.price = true
        · rw [List.dropWhile_cons_of_neg (by simpa using hworse)]
          intro x hx
          rcases List.mem_cons.mp hx with rfl | hx
          · exact hworse
          · exact worse_of_behind (hy x hx) hworse
        · rw [List.dropWhile_cons_of_pos (by simpa using hworse)]
          exact ih hl

/-- An order joins the others. -/
theorem enqueue_perm : (enqueue isBid r l).Perm (r :: l) := by
  unfold enqueue
  refine List.perm_middle.trans ?_
  rw [List.takeWhile_append_dropWhile]

/-- The orders stay in order. -/
theorem BestFirst.enqueue (hsorted : BestFirst isBid l) : BestFirst isBid (enqueue isBid r l) := by
  obtain ⟨a, c, hl, heq, ha, hc⟩ := enqueue_split (r := r) hsorted
  have hsplit := hsorted
  rw [hl] at hsplit
  obtain ⟨hsa, hsc, hac⟩ := List.pairwise_append.mp hsplit
  rw [heq]
  refine List.pairwise_append.mpr ⟨hsa, List.pairwise_cons.mpr ⟨fun x hx => ?_, hsc⟩, ?_⟩
  · exact (worse_strict isBid).asymm (hc x hx)
  · intro x hx y hy
    rcases List.mem_cons.mp hy with rfl | hy
    · exact ha x hx
    · exact hac x hx y hy

namespace RestingBook

/-- What is on a side that an order may have joined. -/
theorem mem_joined {id : OrderId} {price : Price} {left : Quantity} {y : Resting} :
    y ∈ joined isBid id price left l ↔ y ∈ l ∨ (0 < left ∧ y = ⟨id, price, left⟩) := by
  unfold joined
  split
  · next hpos =>
      rw [enqueue_perm.mem_iff, List.mem_cons, or_comm]
      exact or_congr_right ⟨fun h => ⟨hpos, h⟩, fun h => h.2⟩
  · next hneg => exact ⟨Or.inl, fun h => h.resolve_right fun h => hneg h.1⟩

end RestingBook

end Join

/-- Being worse on the other side is being better. -/
theorem worse_not {isBid : Bool} {p q : Price} : worse (!isBid) p q = worse isBid q p := by
  cases isBid <;> rfl

/-- The orders that a sweep leaves are in order. -/
theorem BestFirst.sweep {isBid : Bool} {l : List Resting} {crosses : Price → Bool}
    {incoming : OrderId} {qty : Quantity} (hsorted : BestFirst isBid l) :
    BestFirst isBid (sweep crosses incoming qty l).rest := by
  have hpairs : (l.map fun x => (x.id, x.price)).Pairwise
      fun x y => worse isBid x.2 y.2 = false := List.pairwise_map.mpr hsorted
  exact List.pairwise_map.mp (hpairs.sublist (sweep_rest_suffix l).sublist)

/-! ## The sides after a call -/

namespace RestingBook

section Sides

variable {b : RestingBook} {isBuy : Bool} {id : OrderId} {price : Price} {qty : Quantity}

/-- All orders are those of one side and those of the other. -/
theorem all_perm (isBuy : Bool) : b.all.Perm (b.side isBuy ++ b.side (!isBuy)) := by
  cases isBuy with
  | true => exact List.Perm.refl _
  | false => exact List.perm_append_comm

/-- An order is on one of the sides. -/
theorem mem_all {r : Resting} : r ∈ b.all ↔ ∃ s, r ∈ b.side s := by
  rw [all, List.mem_append]
  constructor
  · rintro (h | h)
    · exact ⟨true, h⟩
    · exact ⟨false, h⟩
  · rintro ⟨s, h⟩
    cases s with
    | true => exact Or.inl h
    | false => exact Or.inr h

/-- The other side after an order has been added. -/
theorem side_add_not :
    (b.add isBuy id price qty).side (!isBuy) = (b.sweepOf isBuy id price qty).rest := by
  cases isBuy <;> rfl

/-- The own side after an order has been added. -/
theorem side_add_self :
    (b.add isBuy id price qty).side isBuy =
      joined isBuy id price (b.sweepOf isBuy id price qty).left (b.side isBuy) := by
  cases isBuy <;> rfl

/-- A side after an order has been cancelled. -/
theorem side_cancel (s : Bool) : (b.cancel id).side s = (b.side s).filter fun r => r.id ≠ id := by
  cases s <;> rfl

/-- The orders after one has been cancelled. -/
theorem all_cancel : (b.cancel id).all = b.all.filter fun r => r.id ≠ id := by
  rw [all, all, List.filter_append]
  rfl

/-- The orders after one has been added have its id and price or those of an old one. -/
theorem mem_add_all {r : Resting} (hr : r ∈ (b.add isBuy id price qty).all) :
    (r.id = id ∧ r.price = price) ∨ ∃ x ∈ b.all, r.id = x.id ∧ r.price = x.price := by
  rw [(all_perm isBuy).mem_iff, List.mem_append, side_add_self, side_add_not, mem_joined] at hr
  rcases hr with (hr | ⟨-, rfl⟩) | hr
  · exact Or.inr ⟨r, mem_all.mpr ⟨_, hr⟩, rfl, rfl⟩
  · exact Or.inl ⟨rfl, rfl⟩
  · have hpair := (sweep_rest_suffix _).subset
      (List.mem_map_of_mem (f := fun x => (x.id, x.price)) hr)
    obtain ⟨x, hx, heq⟩ := List.mem_map.mp hpair
    have heq := Prod.mk.inj heq
    exact Or.inr ⟨x, mem_all.mpr ⟨_, hx⟩, heq.1.symm, heq.2.symm⟩

/-- Whether an id rests. -/
theorem rests_iff : b.rests id = true ↔ ∃ r ∈ b.all, r.id = id := by
  simp [rests]

/-- Whether an id does not rest. -/
theorem rests_eq_false : b.rests id = false ↔ ∀ r ∈ b.all, r.id ≠ id := by
  simp [rests]

end Sides

/-! ## What holds after every call -/

/-- Quantities are positive, ids are distinct, prices are in order, and no order crosses one of
the other side. -/
structure Valid (b : RestingBook) : Prop where
  positive : ∀ s, ∀ r ∈ b.side s, 0 < r.qty
  ids : (b.all.map Resting.id).Nodup
  sorted : ∀ s, BestFirst s (b.side s)
  uncrossed : ∀ s, ∀ x ∈ b.side s, ∀ y ∈ b.side (!s), worse (!s) y.price x.price = true

/-- The empty book is valid. -/
theorem empty_valid : Valid {} := by
  have hnil : ∀ s, ({} : RestingBook).side s = [] := fun s => by cases s <;> rfl
  refine ⟨fun s r hr => ?_, List.nodup_nil, fun s => ?_, fun s x hx => ?_⟩
  · rw [hnil] at hr
    cases hr
  · rw [hnil]
    exact List.Pairwise.nil
  · rw [hnil] at hx
    cases hx

namespace Valid

variable {b : RestingBook} {isBuy : Bool} {id : OrderId} {price : Price} {qty : Quantity}

/-- Bids are below asks. -/
theorem bid_lt_ask (hv : b.Valid) {x y : Resting} (hx : x ∈ b.bids) (hy : y ∈ b.asks) :
    x.price < y.price := by
  have h := hv.uncrossed true x hx y hy
  simpa [worse] using h

/-- The ids of one side are distinct. -/
theorem ids_side (hv : b.Valid) (s : Bool) : ((b.side s).map Resting.id).Nodup := by
  have h := (((all_perm s).map Resting.id).nodup_iff.mp hv.ids)
  rw [List.map_append] at h
  exact (List.nodup_append.mp h).1

/-- The orders that the sweep of a new order leaves do not cross it, if it has something left. -/
theorem sweep_uncrossed (hv : b.Valid) (hleft : 0 < (b.sweepOf isBuy id price qty).left)
    {y : Resting} (hy : y ∈ (b.sweepOf isBuy id price qty).rest) :
    worse (!isBuy) y.price price = true := by
  have hsorted : BestFirst (!isBuy) (b.sweepOf isBuy id price qty).rest := (hv.sorted _).sweep
  have hstop : ¬ 0 < (b.sweepOf isBuy id price qty).left ∨
      ∀ x, (b.sweepOf isBuy id price qty).rest.head? = some x →
        (!worse (!isBuy) x.price price) = false := sweep_stop _
  have hhead := hstop.resolve_left (not_not_intro hleft)
  cases hrest : (b.sweepOf isBuy id price qty).rest with
  | nil =>
      rw [hrest] at hy
      cases hy
  | cons x xs =>
      rw [hrest] at hy hhead hsorted
      have hx : worse (!isBuy) x.price price = true := by simpa using hhead x rfl
      rcases List.mem_cons.mp hy with rfl | hy
      · exact hx
      · exact worse_of_behind ((List.pairwise_cons.mp hsorted).1 y hy) hx

/-- A new order with a new id keeps the book valid. -/
theorem add (hv : b.Valid) (hnew : ∀ r ∈ b.all, r.id ≠ id) : (b.add isBuy id price qty).Valid := by
  have hsides : ∀ s, s = isBuy ∨ s = !isBuy := fun s => by cases s <;> cases isBuy <;> simp
  have hrest : ∀ y ∈ (b.sweepOf isBuy id price qty).rest, 0 < y.qty ∧
      ∃ x ∈ b.side (!isBuy), y.id = x.id ∧ y.price = x.price ∧ y.qty ≤ x.qty :=
    fun y hy => sweep_rest_mem (hv.positive _) hy
  -- the own side against what is left of the other one
  have hcross : ∀ x ∈ (b.add isBuy id price qty).side isBuy,
      ∀ y ∈ (b.add isBuy id price qty).side (!isBuy), worse (!isBuy) y.price x.price = true := by
    intro x hx y hy
    rw [side_add_self, mem_joined] at hx
    rw [side_add_not] at hy
    rcases hx with hx | ⟨hleft, rfl⟩
    · obtain ⟨-, z, hz, -, hprice, -⟩ := hrest y hy
      rw [hprice]
      exact hv.uncrossed isBuy x hx z hz
    · exact hv.sweep_uncrossed hleft hy
  refine ⟨fun s r hr => ?_, ?_, fun s => ?_, fun s => ?_⟩
  · rcases hsides s with rfl | rfl
    · rw [side_add_self, mem_joined] at hr
      rcases hr with hr | ⟨hleft, rfl⟩
      · exact hv.positive _ r hr
      · exact hleft
    · rw [side_add_not] at hr
      exact (hrest r hr).1
  · -- the ids are old ones, and possibly the new one
    have hsub : ((b.sweepOf isBuy id price qty).rest.map Resting.id).Sublist
        ((b.side (!isBuy)).map Resting.id) := by
      have hsuffix : ((b.sweepOf isBuy id price qty).rest.map fun x => (x.id, x.price)) <:+
          (b.side (!isBuy)).map fun x => (x.id, x.price) := sweep_rest_suffix _
      have h := (hsuffix.map Prod.fst).sublist
      rwa [List.map_map, List.map_map] at h
    have hold : ((b.side isBuy).map Resting.id ++ (b.side (!isBuy)).map Resting.id).Nodup := by
      rw [← List.map_append]
      exact ((all_perm isBuy).map _).nodup_iff.mp hv.ids
    have hfresh : id ∉ (b.side isBuy).map Resting.id ++ (b.side (!isBuy)).map Resting.id := by
      rw [← List.map_append, ← ((all_perm isBuy).map Resting.id).mem_iff]
      rintro hmem
      obtain ⟨r, hr, hid⟩ := List.mem_map.mp hmem
      exact hnew r hr hid
    rw [((all_perm isBuy).map Resting.id).nodup_iff, List.map_append, side_add_self, side_add_not,
      joined]
    split
    · rw [((enqueue_perm.map Resting.id).append_right _).nodup_iff, List.map_cons, List.cons_append]
      refine (((List.Sublist.refl _).append hsub).cons_cons id).nodup ?_
      exact List.nodup_cons.mpr ⟨hfresh, hold⟩
    · exact ((List.Sublist.refl _).append hsub).nodup hold
  · rcases hsides s with rfl | rfl
    · rw [side_add_self, joined]
      split
      · exact (hv.sorted s).enqueue
      · exact hv.sorted s
    · rw [side_add_not]
      exact (hv.sorted _).sweep
  · rcases hsides s with rfl | rfl
    · exact hcross
    · intro x hx y hy
      rw [Bool.not_not] at hy ⊢
      rw [← worse_not]
      exact hcross y hy x hx

/-- Cancelling an order keeps the book valid. -/
theorem cancel (hv : b.Valid) : (b.cancel id).Valid := by
  refine ⟨fun s r hr => ?_, ?_, fun s => ?_, fun s x hx y hy => ?_⟩
  · rw [side_cancel] at hr
    exact hv.positive s r (List.mem_filter.mp hr).1
  · rw [all_cancel]
    exact (List.filter_sublist.map Resting.id).nodup hv.ids
  · rw [side_cancel]
    exact List.Pairwise.filter _ (hv.sorted s)
  · rw [side_cancel] at hx hy
    exact hv.uncrossed s x (List.mem_filter.mp hx).1 y (List.mem_filter.mp hy).1

/-- Every call keeps the book valid. -/
theorem call (hv : b.Valid) (capacity : Nat) (c : Call) : (b.call capacity c).2.Valid := by
  cases c with
  | add id side price qty ts =>
      rw [RestingBook.call]
      split
      · exact hv
      · next hok =>
          rw [not_or, Bool.not_eq_true, rests_eq_false] at hok
          exact hv.add hok.1
  | cancel id =>
      rw [RestingBook.call]
      split
      · exact hv.cancel
      · exact hv

end Valid

end RestingBook

/-! ## Time priority -/

/-- Order `x` trades before order `y`: it has the better price, or the same price and has been
accepted earlier. -/
def Before (isBid : Bool) (history : List Event) (x y : Resting) : Prop :=
  better isBid x.price y.price = true ∨
    (x.price = y.price ∧ acceptedAt history x.id < acceptedAt history y.id)

/-- The orders of each side stand in the order in which it is their turn. -/
def InTurn (history : List Event) (b : RestingBook) : Prop :=
  ∀ s, (b.side s).Pairwise (Before s history)

section Time

variable {isBid : Bool} {history : List Event} {ev : Event} {x y : Resting}

/-- No order has been accepted later than now. -/
theorem acceptedAt_le (history : List Event) (id : OrderId) :
    acceptedAt history id ≤ history.length := by
  induction history with
  | nil => exact Nat.le_refl 0
  | cons ev history ih =>
      rw [acceptedAt, List.length_cons]
      split
      · exact Nat.le_refl _
      · omega

/-- An event that accepts neither of two orders does not change their turn. -/
theorem Before.cons (h : Before isBid history x y) (hx : ev.accepts x.id = false)
    (hy : ev.accepts y.id = false) : Before isBid (ev :: history) x y := by
  refine h.imp_right fun ⟨hprice, hlt⟩ => ⟨hprice, ?_⟩
  rw [acceptedAt, acceptedAt, hx, hy]
  exact hlt

/-- An event that accepts no order of a list does not change their turn. -/
theorem pairwise_before_cons {l : List Resting} (h : l.Pairwise (Before isBid history))
    (hl : ∀ x ∈ l, ev.accepts x.id = false) : l.Pairwise (Before isBid (ev :: history)) :=
  h.imp_of_mem fun hx hy hxy => hxy.cons (hl _ hx) (hl _ hy)

/-- The turn of the orders depends on their ids and prices only. -/
theorem pairwise_before_sublist {l m : List Resting} (h : l.Pairwise (Before isBid history))
    (hsub : (m.map fun x => (x.id, x.price)).Sublist (l.map fun x => (x.id, x.price))) :
    m.Pairwise (Before isBid history) := by
  have hpairs : (l.map fun x => (x.id, x.price)).Pairwise fun x y =>
      Before isBid history ⟨x.1, x.2, 0⟩ ⟨y.1, y.2, 0⟩ := List.pairwise_map.mpr h
  have hm := hpairs.sublist hsub
  rw [List.pairwise_map] at hm
  exact hm

/-- A new order joins a side as the last one at its price. -/
theorem pairwise_before_joined {l : List Resting} {id : OrderId} {price : Price} {left : Quantity}
    (hsorted : BestFirst isBid l) (h : l.Pairwise (Before isBid history))
    (hl : ∀ x ∈ l, ev.accepts x.id = false) (hnew : ev.accepts id = true) :
    (RestingBook.joined isBid id price left l).Pairwise (Before isBid (ev :: history)) := by
  have hold := pairwise_before_cons h hl
  unfold RestingBook.joined
  split
  · obtain ⟨a, c, hac, heq, ha, hc⟩ := enqueue_split (r := ⟨id, price, left⟩) hsorted
    rw [hac] at hold
    obtain ⟨hpa, hpc, hpac⟩ := List.pairwise_append.mp hold
    rw [heq]
    refine List.pairwise_append.mpr ⟨hpa, List.pairwise_cons.mpr ⟨fun y hy => Or.inl ?_, hpc⟩, ?_⟩
    · rw [better_eq]
      exact hc y hy
    · intro x hx y hy
      rcases List.mem_cons.mp hy with rfl | hy
      · rcases (worse_strict isBid).total x.price price with hw | heq | hb
        · rw [ha x hx] at hw
          cases hw
        · refine Or.inr ⟨heq, ?_⟩
          rw [acceptedAt, acceptedAt, hl x (by rw [hac]; simp [hx]), hnew, if_pos rfl]
          exact Nat.lt_succ_of_le (acceptedAt_le history x.id)
        · refine Or.inl ?_
          rw [better_eq]
          exact hb
      · exact hpac x hx y hy
  · exact hold

/-- Every call keeps the orders in turn. -/
theorem InTurn.call {b : RestingBook} (ht : InTurn history b) (hv : b.Valid) (capacity : Nat)
    (c : Call) : InTurn ((b.call capacity c).1 :: history) (b.call capacity c).2 := by
  intro s
  cases c with
  | add id side price qty ts =>
      rw [RestingBook.call]
      split
      · exact pairwise_before_cons (ht s) fun x _ => rfl
      · next hok =>
          rw [not_or, Bool.not_eq_true, RestingBook.rests_eq_false] at hok
          have hother : ∀ s, ∀ x ∈ b.side s, Event.accepts
              ⟨.add id side price qty ts, true, (b.sweepOf (side = .buy) id price qty).fills, 0⟩
              x.id = false := fun s x hx =>
            decide_eq_false fun heq => hok.1 x (RestingBook.mem_all.mpr ⟨s, hx⟩) heq.symm
          generalize decide (side = .buy) = isBuy at hother ⊢
          have hsides : s = isBuy ∨ s = !isBuy := by cases s <;> cases isBuy <;> simp
          rcases hsides with rfl | rfl
          · show ((b.add s id price qty).side s).Pairwise _
            rw [RestingBook.side_add_self]
            exact pairwise_before_joined (hv.sorted s) (ht s) (hother s) (decide_eq_true rfl)
          · show ((b.add isBuy id price qty).side (!isBuy)).Pairwise _
            rw [RestingBook.side_add_not]
            exact pairwise_before_sublist (pairwise_before_cons (ht _) (hother _))
              (sweep_rest_suffix _).sublist
  | cancel id =>
      rw [RestingBook.call]
      split
      · refine pairwise_before_cons ?_ fun x _ => rfl
        show ((b.cancel id).side s).Pairwise _
        rw [RestingBook.side_cancel]
        exact (ht s).filter _
      · exact pairwise_before_cons (ht s) fun x _ => rfl

/-- What holds of a book and its history, and is kept by every call, holds after every run. -/
theorem RestingBook.run_induction {capacity : Nat} {P : List Event → RestingBook → Prop}
    (hstep : ∀ history b c, P history b →
      P ((b.call capacity c).1 :: history) (b.call capacity c).2)
    (cs : List Call) {b : RestingBook} (h : P history b) :
    P (RestingBook.run capacity history b cs).1 (RestingBook.run capacity history b cs).2 := by
  induction cs generalizing history b with
  | nil => exact h
  | cons c cs ih => exact ih (hstep history b c h)

/-- The price of an order satisfies a condition. -/
def Call.PriceIs (P : Price → Prop) : Call → Prop
  | .add _ _ price _ _ => P price
  | .cancel _ => True

instance {P : Price → Prop} [DecidablePred P] {c : Call} : Decidable (c.PriceIs P) :=
  match c with
  | .add _ _ price _ _ => inferInstanceAs (Decidable (P price))
  | .cancel _ => inferInstanceAs (Decidable True)

/-- Resting orders have prices that have been asked for. -/
theorem RestingBook.call_prices {P : Price → Prop} {b : RestingBook}
    (hb : ∀ r ∈ b.all, P r.price) (capacity : Nat) {c : Call} (hc : c.PriceIs P) :
    ∀ r ∈ (b.call capacity c).2.all, P r.price := by
  intro r hr
  cases c with
  | add id side price qty ts =>
      rw [RestingBook.call] at hr
      split at hr
      · exact hb r hr
      · rcases mem_add_all hr with ⟨-, hprice⟩ | ⟨x, hx, -, hprice⟩
        · rw [hprice]
          exact hc
        · rw [hprice]
          exact hb x hx
  | cancel id =>
      rw [RestingBook.call] at hr
      split at hr
      · have hr : r ∈ (b.cancel id).all := hr
        rw [RestingBook.all_cancel] at hr
        exact hb r (List.mem_filter.mp hr).1
      · exact hb r hr

/-- After every run the resting orders have prices that have been asked for. -/
theorem RestingBook.run_prices {P : Price → Prop} (capacity : Nat) (cs : List Call)
    (hcs : ∀ c ∈ cs, c.PriceIs P) {b : RestingBook} (hb : ∀ r ∈ b.all, P r.price) :
    ∀ r ∈ (RestingBook.run capacity history b cs).2.all, P r.price := by
  induction cs generalizing history b with
  | nil => exact hb
  | cons c cs ih =>
      exact ih (fun c hc => hcs c (by simp [hc])) (call_prices hb capacity (hcs c (by simp)))

/-- After every run the book is valid and its orders are in turn. -/
theorem RestingBook.run_inTurn (capacity : Nat) (cs : List Call) :
    (RestingBook.run capacity [] {} cs).2.Valid ∧
      InTurn (RestingBook.run capacity [] {} cs).1 (RestingBook.run capacity [] {} cs).2 := by
  refine RestingBook.run_induction (P := fun history b => b.Valid ∧ InTurn history b)
    (fun history b c h => ⟨h.1.call capacity c, h.2.call h.1 capacity c⟩) cs
    ⟨RestingBook.empty_valid, fun s => ?_⟩
  cases s <;> exact List.Pairwise.nil

end Time

end LimitOrderBook
