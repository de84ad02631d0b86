import LimitOrderBook.Book.Runs

/-!
# Refusals and cancels

After every run, an order is refused exactly if its id rests or all slots are in use, and an order
that is refused leaves nothing behind but a count. A cancel succeeds exactly if the id rests, and
takes that order and nothing else out of the book.
-/

namespace LimitOrderBook

/-- The counters after an order has been refused. -/
def refusalStats (b : RestingBook) (id : OrderId) (stats : BookStats) : BookStats :=
  if b.rests id then { stats with duplicateId := stats.duplicateId + 1 }
  else { stats with poolExhausted := stats.poolExhausted + 1 }

/-- What a cancel that succeeds does: the order with the id is gone, the others are as they were
and where they were, one more slot is free, and no fill is reported. -/
structure CancelledOne {poolCapacity windowSize : Nat} (id : OrderId)
    (b b' : OrderBook poolCapacity windowSize) : Prop where
  bids : b'.resting.bids = b.resting.bids.filter fun r => r.id ≠ id
  asks : b'.resting.asks = b.resting.asks.filter fun r => r.id ≠ id
  one : b.resting.all.length = b'.resting.all.length + 1
  slot : b'.engine.pool.available = b.engine.pool.available + 1
  fills : b'.engine.fills = b.engine.fills
  stats : b'.stats = b.stats

/-- Exactly one order has an id that rests. -/
theorem length_cancel {b : RestingBook} {id : OrderId} (hids : (b.all.map Resting.id).Nodup)
    (hex : ∃ r ∈ b.all, r.id = id) : b.all.length = (b.cancel id).all.length + 1 := by
  obtain ⟨r, hr, rfl⟩ := hex
  obtain ⟨l, m, hall⟩ := List.append_of_mem hr
  rw [hall, List.map_append, List.map_cons] at hids
  have hout := (List.nodup_cons.mp (List.nodup_middle.mp hids)).1
  have hkeep : (l ++ m).filter (fun x => x.id ≠ r.id) = l ++ m := by
    refine List.filter_eq_self.mpr fun x hx => decide_eq_true fun heq => hout ?_
    rw [← List.map_append, ← heq]
    exact List.mem_map_of_mem hx
  rw [List.filter_append] at hkeep
  rw [RestingBook.all_cancel, hall, List.filter_append, List.filter_cons_of_neg (by simp), hkeep,
    List.length_append, List.length_append, List.length_cons, Nat.add_assoc]

/-- Refusals and cancels are exact and atomic, after every run. -/
theorem run_refusals_exact {poolCapacity windowSize : Nat} (hvalid : ValidWindow windowSize)
    (cs : List Call) (hcs : ∀ c ∈ cs, c.InRange windowSize) :
    ∃ history b, OrderBook.run [] ({} : OrderBook poolCapacity windowSize) cs = .ok (history, b) ∧
      (∀ id side price qty ts, PriceInRange windowSize price →
        ∃ accepted b', b.addOrder id side price qty ts = .ok (accepted, b') ∧
          (accepted = false ↔
            (∃ r ∈ b.resting.all, r.id = id) ∨ b.resting.all.length = poolCapacity) ∧
          (accepted = false → b' = { b with stats := refusalStats b.resting id b.stats })) ∧
      ∀ id, ∃ found b', b.cancelOrder id = .ok (found, b') ∧
        (found = true ↔ ∃ r ∈ b.resting.all, r.id = id) ∧
        (found = false → b' = b) ∧ (found = true → CancelledOne id b b') := by
  obtain ⟨history, b, mb, sb, sa, hrun, -, hlock, hv, -⟩ := run_ok hvalid cs hcs
  refine ⟨history, b, hrun, fun id side price qty ts hprice => ?_, fun id => ?_⟩
  · rcases addOrder_refines hvalid hlock id side qty ts hprice with
      ⟨hdup, hadd⟩ | ⟨hnew, hfull, hadd, -⟩ | ⟨b', mb', sb', sa', hnew, hroom, hadd, -⟩
    · refine ⟨false, _, hadd, iff_of_true rfl (Or.inl hdup), fun _ => ?_⟩
      rw [refusalStats, if_pos (RestingBook.rests_iff.mpr hdup)]
    · refine ⟨false, _, hadd, iff_of_true rfl (Or.inr hfull), fun _ => ?_⟩
      rw [refusalStats, if_neg (by rw [Bool.not_eq_true, RestingBook.rests_eq_false]; exact hnew)]
    · refine ⟨true, b', hadd, iff_of_false Bool.noConfusion ?_, Bool.noConfusion⟩
      rintro (⟨r, hr, hid⟩ | hfull)
      · exact hnew r hr hid
      · exact hroom.ne hfull
  · rcases cancelOrder_refines hvalid hlock id with
      ⟨hnew, hcancel, -⟩ | ⟨b', mb', sb', sa', hex, hcancel, -, hlock', hbook, hfills, hstats⟩
    · refine ⟨false, b, hcancel, iff_of_false Bool.noConfusion ?_, fun _ => rfl, Bool.noConfusion⟩
      rintro ⟨r, hr, hid⟩
      exact hnew r hr hid
    · have hone := length_cancel hv.ids hex
      rw [← hbook] at hone
      have hslots := hlock.available_eq hvalid
      have hslots' := hlock'.available_eq hvalid
      refine ⟨true, b', hcancel, iff_of_true rfl hex, Bool.noConfusion, fun _ =>
        ⟨?_, ?_, hone, by omega, hfills, hstats⟩⟩
      · rw [hbook]
        rfl
      · rw [hbook]
        rfl

/-- A book with two slots and two resting orders: a third order is refused, and the first one can
be cancelled. -/
theorem run_refusals_exact_full_pool :
    ∃ history b,
      OrderBook.run [] ({} : OrderBook 2 64) [.add 1 .buy 100 5 0, .add 2 .buy 100 5 0] =
        .ok (history, b) ∧
      b.addOrder 3 .sell 101 7 0 =
        .ok (false, { b with stats := refusalStats b.resting 3 b.stats }) ∧
      ∃ b', b.cancelOrder 1 = .ok (true, b') ∧ CancelledOne 1 b b' := by
  obtain ⟨history, b, hrun, hadd, hcancel⟩ := @run_refusals_exact 2 64 ⟨⟨6, rfl⟩, by decide⟩
    [.add 1 .buy 100 5 0, .add 2 .buy 100 5 0] (by decide)
  have hresting : (OrderBook.run [] ({} : OrderBook 2 64)
      [.add 1 .buy 100 5 0, .add 2 .buy 100 5 0]).map (fun r => r.2.resting) =
      .ok ⟨[⟨1, 100, 5⟩, ⟨2, 100, 5⟩], []⟩ := by decide +kernel
  rw [hrun] at hresting
  replace hresting : b.resting = _ := Except.ok.inj hresting
  obtain ⟨accepted, b₁, hadd₁, hiff₁, hkept⟩ := hadd 3 .sell 101 7 0 (by decide)
  obtain ⟨found, b₂, hcancel₂, hiff₂, -, hgone⟩ := hcancel 1
  have hrefused : accepted = false := hiff₁.mpr (Or.inr (by rw [hresting]; rfl))
  have hfound : found = true := hiff₂.mpr ⟨⟨1, 100, 5⟩, by rw [hresting]; decide, rfl⟩
  subst hrefused hfound
  exact ⟨history, b, hrun, hkept rfl ▸ hadd₁, b₂, hcancel₂, hgone rfl⟩

end LimitOrderBook
