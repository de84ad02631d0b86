import LimitOrderBook.Book.Engine
import LimitOrderBook.Ladder.TailCorrectness
import Mathlib.Data.List.Infix

/-!
# Price-time priority

What an order book is for, without its data structures: each side is the list of its resting
orders in the order in which they trade. An incoming order sweeps the other side from the front
(`sweep`), and its remainder is put behind all orders of its own side that are not worse
(`enqueue`).

The later lemmas about `sweep` say what it does without following its steps: each fill in turn
(`sweep_fill`), what is left of the incoming order (`sweep_left`) and of the others
(`sweep_rest_eq`), and where it stops (`sweep_stop`).
-/

namespace LimitOrderBook

/-- A resting order. -/
structure Resting where
  id : OrderId
  price : Price
  qty : Quantity
  deriving DecidableEq, Repr

/-- The outcome of a sweep: the fills, the quantity left of the incoming order, and the resting
orders. -/
structure Sweep where
  fills : List Fill
  left : Quantity
  rest : List Resting
  deriving DecidableEq, Repr

/-- Match a quantity against resting orders, first come first served, as long as they cross. -/
def sweep (crosses : Price → Bool) (incoming : OrderId) : Quantity → List Resting → Sweep
  | qty, [] => ⟨[], qty, []⟩
  | qty, r :: rs =>
      if 0 < qty ∧ crosses r.price = true then
        let traded := min qty r.qty
        if r.qty = traded then
          let s := sweep crosses incoming (qty - traded) rs
          { s with fills := ⟨r.id, incoming, r.price, traded⟩ :: s.fills }
        else
          ⟨[⟨r.id, incoming, r.price, traded⟩], qty - traded,
            { r with qty := r.qty - traded } :: rs⟩
      else ⟨[], qty, r :: rs⟩

/-- Put an order behind all orders that are not worse. -/
def enqueue (isBid : Bool) (r : Resting) (l : List Resting) : List Resting :=
  l.takeWhile (fun x => !worse isBid x.price r.price) ++
    r :: l.dropWhile (fun x => !worse isBid x.price r.price)

section Sweep

variable {crosses : Price → Bool} {incoming : OrderId} {qty : Quantity} {r : Resting}
  {rs : List Resting}

/-- A sweep that fills its first order goes on. -/
theorem sweep_cons_filled (hqty : 0 < qty) (hcross : crosses r.price = true)
    (hle : r.qty ≤ qty) :
    sweep crosses incoming qty (r :: rs) =
      { sweep crosses incoming (qty - r.qty) rs with
        fills := ⟨r.id, incoming, r.price, r.qty⟩ ::
          (sweep crosses incoming (qty - r.qty) rs).fills } := by
  have hmin : min qty r.qty = r.qty := min_eq_right hle
  simp only [sweep, hqty, hcross, and_self, if_true, hmin]

/-- A sweep that is filled by its first order ends there. -/
theorem sweep_cons_partly (hqty : 0 < qty) (hcross : crosses r.price = true)
    (hlt : qty < r.qty) :
    sweep crosses incoming qty (r :: rs) =
      ⟨[⟨r.id, incoming, r.price, qty⟩], 0, { r with qty := r.qty - qty } :: rs⟩ := by
  have hmin : min qty r.qty = qty := min_eq_left hlt.le
  simp only [sweep, hqty, hcross, and_self, if_true, hmin, if_neg (ne_of_gt hlt), Int.sub_self]

/-- A sweep with nothing to trade, or whose first order does not cross, does nothing. -/
theorem sweep_cons_stop (hstop : ¬ (0 < qty ∧ crosses r.price = true)) :
    sweep crosses incoming qty (r :: rs) = ⟨[], qty, r :: rs⟩ := by
  rw [sweep, if_neg hstop]

/-- The three ways in which a sweep deals with its first order. -/
theorem sweep_cons_cases (crosses : Price → Bool) (incoming : OrderId) (qty : Quantity)
    (r : Resting) (rs : List Resting) :
    (0 < qty ∧ crosses r.price = true ∧ qty < r.qty ∧ sweep crosses incoming qty (r :: rs) =
        ⟨[⟨r.id, incoming, r.price, qty⟩], 0, { r with qty := r.qty - qty } :: rs⟩) ∨
      (0 < qty ∧ crosses r.price = true ∧ r.qty ≤ qty ∧ sweep crosses incoming qty (r :: rs) =
        { sweep crosses incoming (qty - r.qty) rs with
          fills := ⟨r.id, incoming, r.price, r.qty⟩ ::
            (sweep crosses incoming (qty - r.qty) rs).fills }) ∨
      (¬ (0 < qty ∧ crosses r.price = true) ∧
        sweep crosses incoming qty (r :: rs) = ⟨[], qty, r :: rs⟩) := by
  by_cases hgo : 0 < qty ∧ crosses r.price = true
  · rcases lt_or_ge qty r.qty with hlt | hge
    · exact Or.inl ⟨hgo.1, hgo.2, hlt, sweep_cons_partly hgo.1 hgo.2 hlt⟩
    · exact Or.inr (Or.inl ⟨hgo.1, hgo.2, hge, sweep_cons_filled hgo.1 hgo.2 hge⟩)
  · exact Or.inr (Or.inr ⟨hgo, sweep_cons_stop hgo⟩)

/-- A sweep with nothing to trade does nothing. -/
theorem sweep_of_nonpos (hqty : ¬ 0 < qty) (l : List Resting) :
    sweep crosses incoming qty l = ⟨[], qty, l⟩ := by
  cases l with
  | nil => rfl
  | cons r rs => exact sweep_cons_stop fun h => hqty h.1

/-- A sweep of a list that is not exhausted by its first part ends in that part. -/
theorem sweep_append_stop {a b : List Resting} (hrest : (sweep crosses incoming qty a).rest ≠ []) :
    sweep crosses incoming qty (a ++ b) =
      { sweep crosses incoming qty a with rest := (sweep crosses incoming qty a).rest ++ b } := by
  induction a generalizing qty with
  | nil => exact absurd rfl hrest
  | cons r rs ih =>
      rw [List.cons_append]
      by_cases hgo : 0 < qty ∧ crosses r.price = true
      · rcases lt_or_ge qty r.qty with hlt | hge
        · rw [sweep_cons_partly hgo.1 hgo.2 hlt, sweep_cons_partly hgo.1 hgo.2 hlt]
          rfl
        · rw [sweep_cons_filled hgo.1 hgo.2 hge] at hrest
          rw [sweep_cons_filled hgo.1 hgo.2 hge, sweep_cons_filled hgo.1 hgo.2 hge, ih hrest]
      · rw [sweep_cons_stop hgo, sweep_cons_stop hgo]
        rfl

/-- A sweep that exhausts the first part of a list goes on with the second. -/
theorem sweep_append_go {a b : List Resting} (hrest : (sweep crosses incoming qty a).rest = []) :
    sweep crosses incoming qty (a ++ b) =
      { sweep crosses incoming (sweep crosses incoming qty a).left b with
        fills := (sweep crosses incoming qty a).fills ++
          (sweep crosses incoming (sweep crosses incoming qty a).left b).fills } := by
  induction a generalizing qty with
  | nil => rfl
  | cons r rs ih =>
      rw [List.cons_append]
      by_cases hgo : 0 < qty ∧ crosses r.price = true
      · rcases lt_or_ge qty r.qty with hlt | hge
        · rw [sweep_cons_partly hgo.1 hgo.2 hlt] at hrest
          cases hrest
        · rw [sweep_cons_filled hgo.1 hgo.2 hge] at hrest
          rw [sweep_cons_filled hgo.1 hgo.2 hge, sweep_cons_filled hgo.1 hgo.2 hge, ih hrest]
          rfl
      · rw [sweep_cons_stop hgo] at hrest
        cases hrest

/-- Where a sweep stops, it is out of quantity or the next order does not cross. -/
theorem sweep_stop (l : List Resting) :
    ¬ 0 < (sweep crosses incoming qty l).left ∨
      ∀ x, (sweep crosses incoming qty l).rest.head? = some x → crosses x.price = false := by
  induction l generalizing qty with
  | nil => exact Or.inr fun x hx => by cases hx
  | cons r rs ih =>
      rcases sweep_cons_cases crosses incoming qty r rs with
        ⟨hqty, hcross, hlt, heq⟩ | ⟨hqty, hcross, hge, heq⟩ | ⟨hstop, heq⟩
      · rw [heq]
        exact Or.inl (lt_irrefl _)
      · rw [heq]
        exact ih
      · rw [heq]
        by_cases hqty : 0 < qty
        · refine Or.inr fun x hx => ?_
          cases hx
          simpa [hqty] using hstop
        · exact Or.inl hqty

/-- A sweep depends on which orders of the list cross only. -/
theorem sweep_congr {crosses' : Price → Bool} {l : List Resting}
    (heq : ∀ x ∈ l, crosses' x.price = crosses x.price) :
    sweep crosses' incoming qty l = sweep crosses incoming qty l := by
  induction l generalizing qty with
  | nil => rfl
  | cons r rs ih =>
      have hr := heq r (by simp)
      have hrs : ∀ x ∈ rs, crosses' x.price = crosses x.price := fun x hx => heq x (by simp [hx])
      simp only [sweep, hr, ih hrs]

/-- The orders that a sweep leaves are the last ones of the list, with their ids and prices. -/
theorem sweep_rest_suffix (l : List Resting) :
    ((sweep crosses incoming qty l).rest.map fun x => (x.id, x.price)) <:+
      l.map fun x => (x.id, x.price) := by
  induction l generalizing qty with
  | nil => exact List.suffix_refl _
  | cons r rs ih =>
      rcases sweep_cons_cases crosses incoming qty r rs with
        ⟨hqty, hcross, hlt, heq⟩ | ⟨hqty, hcross, hge, heq⟩ | ⟨hstop, heq⟩
      · rw [heq]
        exact List.suffix_refl _
      · rw [heq]
        exact ih.trans (List.suffix_cons _ _)
      · rw [heq]

/-- Every order that a sweep leaves has been in the list, with at least its quantity, and has
something left. -/
theorem sweep_rest_mem {l : List Resting} (hpos : ∀ x ∈ l, 0 < x.qty) {y : Resting}
    (hy : y ∈ (sweep crosses incoming qty l).rest) :
    0 < y.qty ∧ ∃ x ∈ l, y.id = x.id ∧ y.price = x.price ∧ y.qty ≤ x.qty := by
  induction l generalizing qty with
  | nil => cases hy
  | cons r rs ih =>
      have hrs : ∀ x ∈ rs, 0 < x.qty := fun x hx => hpos x (by simp [hx])
      have hself : ∀ x ∈ r :: rs, 0 < x.qty ∧
          ∃ z ∈ r :: rs, x.id = z.id ∧ x.price = z.price ∧ x.qty ≤ z.qty :=
        fun x hx => ⟨hpos x hx, x, hx, rfl, rfl, le_refl _⟩
      rcases sweep_cons_cases crosses incoming qty r rs with
        ⟨hqty, hcross, hlt, heq⟩ | ⟨hqty, hcross, hge, heq⟩ | ⟨hstop, heq⟩
      · rw [heq] at hy
        rcases List.mem_cons.mp hy with rfl | hy
        · exact ⟨Int.sub_pos_of_lt hlt, r, by simp, rfl, rfl, Int.sub_le_self _ hqty.le⟩
        · exact hself y (by simp [hy])
      · rw [heq] at hy
        obtain ⟨hpos', x, hx, h⟩ := ih hrs hy
        exact ⟨hpos', x, by simp [hx], h⟩
      · rw [heq] at hy
        exact hself y hy

/-- The fills of a sweep name resting orders, trade at their prices, and have positive
quantities. -/
theorem sweep_fills_mem {l : List Resting} (hpos : ∀ x ∈ l, 0 < x.qty) {f : Fill}
    (hf : f ∈ (sweep crosses incoming qty l).fills) :
    0 < f.qty ∧ f.incomingId = incoming ∧ ∃ x ∈ l, f.restingId = x.id ∧ f.price = x.price := by
  induction l generalizing qty with
  | nil => cases hf
  | cons r rs ih =>
      have hrs : ∀ x ∈ rs, 0 < x.qty := fun x hx => hpos x (by simp [hx])
      rcases sweep_cons_cases crosses incoming qty r rs with
        ⟨hqty, hcross, hlt, heq⟩ | ⟨hqty, hcross, hge, heq⟩ | ⟨hstop, heq⟩
      · rw [heq] at hf
        obtain rfl := List.mem_singleton.mp hf
        exact ⟨hqty, rfl, r, by simp, rfl, rfl⟩
      · rw [heq] at hf
        rcases List.mem_cons.mp hf with rfl | hf
        · exact ⟨hpos r (by simp), rfl, r, by simp, rfl, rfl⟩
        · obtain ⟨hpos', hinc, x, hx, h⟩ := ih hrs hf
          exact ⟨hpos', hinc, x, by simp [hx], h⟩
      · rw [heq] at hf
        cases hf

/-- The fills of a sweep name the first orders of the list, each once. -/
theorem sweep_fills_ids (l : List Resting) :
    (sweep crosses incoming qty l).fills.map Fill.restingId <+: l.map Resting.id := by
  induction l generalizing qty with
  | nil => exact List.prefix_refl _
  | cons r rs ih =>
      rcases sweep_cons_cases crosses incoming qty r rs with
        ⟨hqty, hcross, hlt, heq⟩ | ⟨hqty, hcross, hge, heq⟩ | ⟨hstop, heq⟩
      · rw [heq]
        exact ⟨rs.map Resting.id, rfl⟩
      · rw [heq]
        exact (List.prefix_cons_inj r.id).mpr ih
      · rw [heq]
        exact List.nil_prefix

/-- The quantity that a list of fills takes from the resting order with an id. -/
def consumed (fills : List Fill) (id : OrderId) : Quantity :=
  ((fills.filter fun f => f.restingId = id).map Fill.qty).sum

/-- The quantity of all fills of a list. -/
def tradedQty (fills : List Fill) : Quantity := (fills.map Fill.qty).sum

/-- An order without what the fills have taken from it. -/
def Resting.minus (fills : List Fill) (r : Resting) : Resting :=
  { r with qty := r.qty - consumed fills r.id }

/-- Each fill of a sweep, in order: the next order of the list crosses and trades, at its price,
as much as both have left, and all that it has unless the fill is the last one. -/
theorem sweep_fill {l : List Resting} (hpos : ∀ x ∈ l, 0 < x.qty) {i : Nat}
    (hi : i < (sweep crosses incoming qty l).fills.length) :
    ∃ r, l[i]? = some r ∧ crosses r.price = true ∧
      0 < qty - tradedQty ((sweep crosses incoming qty l).fills.take i) ∧
      (sweep crosses incoming qty l).fills[i]? = some ⟨r.id, incoming, r.price,
        min (qty - tradedQty ((sweep crosses incoming qty l).fills.take i)) r.qty⟩ ∧
      (i + 1 < (sweep crosses incoming qty l).fills.length →
        r.qty ≤ qty - tradedQty ((sweep crosses incoming qty l).fills.take i)) := by
  -- the remaining quantity changes with every order, so the induction is over all of them
  induction l generalizing qty i with
  | nil => cases hi
  | cons r rs ih =>
      have hrs : ∀ x ∈ rs, 0 < x.qty := fun x hx => hpos x (by simp [hx])
      by_cases hgo : 0 < qty ∧ crosses r.price = true
      swap
      · rw [sweep_cons_stop hgo] at hi
        cases hi
      have hzero : qty - tradedQty [] = qty := Int.sub_zero qty
      rcases lt_or_ge qty r.qty with hlt | hge
      · rw [sweep_cons_partly hgo.1 hgo.2 hlt] at hi ⊢
        obtain rfl : i = 0 := by simpa using hi
        refine ⟨r, rfl, hgo.2, ?_, ?_, fun h => ?_⟩
        · rw [List.take_zero, hzero]
          exact hgo.1
        · rw [List.take_zero, hzero, min_eq_left hlt.le]
          rfl
        · cases h with
          | step h => cases h
      · rw [sweep_cons_filled hgo.1 hgo.2 hge] at hi ⊢
        cases i with
        | zero =>
            refine ⟨r, rfl, hgo.2, ?_, ?_, fun _ => ?_⟩
            · rw [List.take_zero, hzero]
              exact hgo.1
            · rw [List.take_zero, hzero, min_eq_right hge]
              rfl
            · rw [List.take_zero, hzero]
              exact hge
        | succ i =>
            -- behind the first fill the remaining quantity is less by that fill
            have hshift : ∀ fs : List Fill, qty - tradedQty
                ((⟨r.id, incoming, r.price, r.qty⟩ :: fs : List Fill).take (i + 1)) =
                qty - r.qty - tradedQty (fs.take i) := by
              intro fs
              simp only [tradedQty, List.take_succ_cons, List.map_cons, List.sum_cons]
              lia
            obtain ⟨x, hx, hcross, hleft, hfill, hfull⟩ := ih hrs (Nat.lt_of_succ_lt_succ hi)
            refine ⟨x, hx, hcross, ?_, ?_, fun h => ?_⟩
            · rw [hshift]
              exact hleft
            · rw [hshift]
              exact hfill
            · rw [hshift]
              exact hfull (Nat.lt_of_succ_lt_succ h)

/-- A sweep neither creates nor destroys quantity. -/
theorem sweep_left (l : List Resting) :
    (sweep crosses incoming qty l).left = qty - tradedQty (sweep crosses incoming qty l).fills := by
  induction l generalizing qty with
  | nil => exact (Int.sub_zero qty).symm
  | cons r rs ih =>
      rcases sweep_cons_cases crosses incoming qty r rs with
        ⟨hqty, hcross, hlt, heq⟩ | ⟨hqty, hcross, hge, heq⟩ | ⟨hstop, heq⟩
      · rw [heq]
        simp [tradedQty]
      · rw [heq]
        simp only [ih, tradedQty, List.map_cons, List.sum_cons]
        lia
      · rw [heq]
        exact (Int.sub_zero qty).symm

/-- A sweep takes no more than it is given. -/
theorem sweep_left_nonneg (hqty : 0 ≤ qty) (l : List Resting) :
    0 ≤ (sweep crosses incoming qty l).left := by
  induction l generalizing qty with
  | nil => exact hqty
  | cons r rs ih =>
      rcases sweep_cons_cases crosses incoming qty r rs with
        ⟨hqty, hcross, hlt, heq⟩ | ⟨hqty, hcross, hge, heq⟩ | ⟨hstop, heq⟩
      · rw [heq]
      · rw [heq]
        exact ih (Int.sub_nonneg_of_le hge)
      · rw [heq]
        exact hqty

/-- A sweep does not add to what it is given. -/
theorem sweep_left_le {l : List Resting} (hpos : ∀ x ∈ l, 0 < x.qty) :
    (sweep crosses incoming qty l).left ≤ qty := by
  induction l generalizing qty with
  | nil => exact le_refl qty
  | cons r rs ih =>
      have hr := hpos r (by simp)
      rcases sweep_cons_cases crosses incoming qty r rs with
        ⟨hqty, hcross, hlt, heq⟩ | ⟨hqty, hcross, hge, heq⟩ | ⟨hstop, heq⟩
      · rw [heq]
        exact hqty.le
      · rw [heq]
        have hrest : (sweep crosses incoming (qty - r.qty) rs).left ≤ qty - r.qty :=
          ih fun x hx => hpos x (by simp [hx])
        show (sweep crosses incoming (qty - r.qty) rs).left ≤ qty
        lia
      · rw [heq]

/-- What fills that do not name an order take from it. -/
theorem consumed_eq_zero {fills : List Fill} {id : OrderId} (h : ∀ f ∈ fills, f.restingId ≠ id) :
    consumed fills id = 0 := by
  unfold consumed
  rw [List.filter_eq_nil_iff.mpr fun f hf => by simpa using h f hf]
  rfl

/-- What one more fill takes. -/
theorem consumed_cons (f : Fill) (fills : List Fill) (id : OrderId) :
    consumed (f :: fills) id = (if f.restingId = id then f.qty else 0) + consumed fills id := by
  unfold consumed
  by_cases h : f.restingId = id
  · rw [List.filter_cons_of_pos (by simpa using h), if_pos h, List.map_cons, List.sum_cons]
  · rw [List.filter_cons_of_neg (by simpa using h), if_neg h, Int.zero_add]

/-- A sweep leaves the orders without what it has taken from them, in their order, and those that
have nothing left are gone. -/
theorem sweep_rest_eq {l : List Resting} (hpos : ∀ x ∈ l, 0 < x.qty)
    (hids : (l.map Resting.id).Nodup) :
    (sweep crosses incoming qty l).rest =
      (l.map (Resting.minus (sweep crosses incoming qty l).fills)).filter fun x => 0 < x.qty := by
  -- orders that no fill names stay as they are
  have hkeep : ∀ (m : List Resting) (fills : List Fill), (∀ x ∈ m, 0 < x.qty) →
      (∀ f ∈ fills, ∀ x ∈ m, f.restingId ≠ x.id) →
      (m.map (Resting.minus fills)).filter (fun x => 0 < x.qty) = m := by
    intro m fills hm hf
    have hmap : m.map (Resting.minus fills) = m := by
      conv_rhs => rw [← List.map_id m]
      refine List.map_congr_left fun x hx => ?_
      rw [Resting.minus, consumed_eq_zero fun f hmem => hf f hmem x hx, Int.sub_zero, id]
    rw [hmap]
    exact List.filter_eq_self.mpr fun x hx => decide_eq_true (hm x hx)
  induction l generalizing qty with
  | nil => rfl
  | cons r rs ih =>
      have hrs : ∀ x ∈ rs, 0 < x.qty := fun x hx => hpos x (by simp [hx])
      obtain ⟨hr, hids'⟩ := List.nodup_cons.mp (List.map_cons ▸ hids)
      have hne : ∀ x ∈ rs, r.id ≠ x.id := fun x hx heq => hr (heq ▸ List.mem_map_of_mem hx)
      rcases sweep_cons_cases crosses incoming qty r rs with
        ⟨hqty, hcross, hlt, heq⟩ | ⟨hqty, hcross, hge, heq⟩ | ⟨hstop, heq⟩
      · rw [heq, List.map_cons,
          List.filter_cons_of_pos (by simp [Resting.minus, consumed, hlt]),
          hkeep rs _ hrs fun f hf x hx => by
            obtain rfl := List.mem_singleton.mp hf
            exact hne x hx]
        simp [Resting.minus, consumed]
      · rw [heq]
        -- the later fills do not name the first order, because its id is different
        have hnone : consumed (sweep crosses incoming (qty - r.qty) rs).fills r.id = 0 :=
          consumed_eq_zero fun f hf heq => by
            obtain ⟨-, -, x, hx, hid, -⟩ := sweep_fills_mem hrs hf
            exact hne x hx (heq.symm.trans hid)
        have hsame : rs.map (Resting.minus (⟨r.id, incoming, r.price, r.qty⟩ ::
            (sweep crosses incoming (qty - r.qty) rs).fills)) =
            rs.map (Resting.minus (sweep crosses incoming (qty - r.qty) rs).fills) :=
          List.map_congr_left fun x hx => by
            rw [Resting.minus, consumed_cons, if_neg (hne x hx), Int.zero_add, Resting.minus]
        rw [List.map_cons, hsame, List.filter_cons_of_neg, ih hrs hids']
        simp [Resting.minus, consumed_cons, hnone]
      · rw [heq, hkeep _ _ hpos fun f hf => by cases hf]

end Sweep

/-- Putting an order between those that are not worse and those that are. -/
theorem enqueue_append {isBid : Bool} {r : Resting} {a b : List Resting}
    (ha : ∀ x ∈ a, worse isBid x.price r.price = false)
    (hb : ∀ x ∈ b, worse isBid x.price r.price = true) :
    enqueue isBid r (a ++ b) = a ++ r :: b := by
  have hkeep : ∀ x ∈ a, (!worse isBid x.price r.price) = true := fun x hx => by rw [ha x hx]; rfl
  unfold enqueue
  rw [List.takeWhile_append_of_pos hkeep, List.dropWhile_append_of_pos hkeep]
  cases b with
  | nil => simp
  | cons y b =>
      simp [hb y (by simp)]

end LimitOrderBook
