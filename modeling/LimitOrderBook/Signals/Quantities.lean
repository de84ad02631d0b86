import LimitOrderBook.Book.Quantities
import LimitOrderBook.Signals.Arithmetic
import LimitOrderBook.Signals.Depth

/-!
# Quantities of the signals

What `compute_signals` computes on quantities. The arithmetic is exact if and only if the quantities
of the levels that it looks at, of both sides together, add up to a 64-bit integer
(`Lockstep.computeSignalsArith_exact_iff`).
-/

namespace LimitOrderBook

/-- `microprice_scaled`. What follows the two operations is 128-bit arithmetic. -/
def micropriceScaledArith (bid : Price) (bidQty : Quantity) (ask : Price) (askQty : Quantity) :
    List Computed :=
  [⟨.price, ask - bid⟩, ⟨.qty, bidQty + askQty⟩]

/-- `imbalance_scaled`. -/
def imbalanceScaledArith (bidQty askQty : Quantity) : List Computed :=
  ⟨.qty, bidQty + askQty⟩ ::
    if wrap64 (bidQty + askQty) = 0 then [] else [⟨.qty, bidQty - askQty⟩]

namespace Accumulator

/-- The cumulative quantity of a side. -/
def cumulateArith (levels : List LevelQty) (level : Nat) (cum : Quantity) : List Computed :=
  match levels[level]? with
  | some x => [⟨.qty, cum + x.qty⟩]
  | none => []

/-- One iteration of the accumulation loop. -/
def stepArith (depths : List Nat) (bids asks : List LevelQty) (level : Nat) (a : Accumulator) :
    List Computed :=
  cumulateArith bids level a.cumBid ++ cumulateArith asks level a.cumAsk ++
    if depths[a.d]? = some (level + 1) then
      imbalanceScaledArith (cumulate bids level a.cumBid) (cumulate asks level a.cumAsk)
    else []

/-- The accumulation loop. -/
def loopArith (depths : List Nat) (bids asks : List LevelQty) :
    (left level : Nat) → Accumulator → List Computed
  | 0, _, _ => []
  | left + 1, level, a =>
      a.stepArith depths bids asks level ++
        onOk (a.step depths bids asks level) fun a =>
          loopArith depths bids asks left (level + 1) a

end Accumulator

/-- `compute_signals`. It overwrites its output, so the old value does not matter. -/
def computeSignalsArith (topLevels : Side → Nat → List LevelQty) : List Computed :=
  let bids := topLevels .buy kMaxSignalDepth
  let asks := topLevels .sell kMaxSignalDepth
  let out := setQuotes bids asks {}
  (if bids.length ≠ 0 ∧ asks.length ≠ 0 then
      micropriceScaledArith out.bestBid out.bidQty out.bestAsk out.askQty
    else []) ++
    Accumulator.loopArith kImbalanceDepths bids asks kMaxSignalDepth 0
      { imbalance := out.imbalance }

/-- An iteration of the accumulation loop takes one more level into account. -/
theorem Accumulator.step_cum {depths : List Nat} {bids asks : List LevelQty} {level : Nat}
    {a a' : Accumulator} (hstep : a.step depths bids asks level = .ok a') :
    a'.cumBid = cumulate bids level a.cumBid ∧ a'.cumAsk = cumulate asks level a.cumAsk := by
  unfold Accumulator.step at hstep
  simp only at hstep
  split at hstep
  · cases hstep
  · split at hstep
    · split at hstep
      · cases hstep
        exact ⟨rfl, rfl⟩
      · cases hstep
    · cases hstep
      exact ⟨rfl, rfl⟩

/-- More levels have no less, up to all of them. -/
theorem cumQty_le {levels : List LevelQty} (hnonneg : ∀ x ∈ levels, 0 ≤ x.qty) {n : Nat}
    (hlen : levels.length ≤ n) (k : Nat) :
    0 ≤ cumQty levels k ∧ cumQty levels k ≤ cumQty levels n := by
  unfold cumQty
  rw [List.take_of_length_le hlen]
  have hqty : ∀ q ∈ levels.map LevelQty.qty, 0 ≤ q := fun q hq => by
    obtain ⟨x, hx, rfl⟩ := List.mem_map.mp hq
    exact hnonneg x hx
  have hsub : List.Sublist ((levels.take k).map LevelQty.qty) (levels.map LevelQty.qty) :=
    (List.take_sublist k levels).map LevelQty.qty
  exact ⟨List.sum_nonneg fun q hq => hqty q (hsub.subset hq), hsub.sum_le_sum hqty⟩

/-- The quantities of the levels of both sides are not negative and add up to a 64-bit integer. -/
structure DepthFits (bids asks : List LevelQty) : Prop where
  bids_nonneg : ∀ k, 0 ≤ cumQty bids k
  asks_nonneg : ∀ k, 0 ≤ cumQty asks k
  total : ∀ j k, cumQty bids j + cumQty asks k ≤ int64Max

namespace DepthFits

variable {bids asks : List LevelQty}

/-- Levels in quantities that are not negative fit if all of them together do. -/
theorem of_total {n : Nat} (hbids : ∀ x ∈ bids, 0 ≤ x.qty) (hasks : ∀ x ∈ asks, 0 ≤ x.qty)
    (hbidsLen : bids.length ≤ n) (hasksLen : asks.length ≤ n)
    (htotal : cumQty bids n + cumQty asks n ≤ int64Max) : DepthFits bids asks := by
  refine ⟨fun k => (cumQty_le hbids hbidsLen k).1, fun k => (cumQty_le hasks hasksLen k).1,
    fun j k => ?_⟩
  have hb := (cumQty_le hbids hbidsLen j).2
  have ha := (cumQty_le hasks hasksLen k).2
  lia

/-- Each side fits. -/
theorem side_le (h : DepthFits bids asks) (k : Nat) :
    cumQty bids k ≤ int64Max ∧ cumQty asks k ≤ int64Max := by
  have hb := h.bids_nonneg k
  have ha := h.asks_nonneg k
  have htotal := h.total k k
  lia

/-- The imbalance of cumulative quantities is exact. -/
theorem imbalanceScaledArith_exact (h : DepthFits bids asks) (k : Nat) :
    Exact .qty (imbalanceScaledArith (cumQty bids k) (cumQty asks k)) := by
  have hb := h.bids_nonneg k
  have ha := h.asks_nonneg k
  have htotal := h.total k k
  have hsum : wrap64 (cumQty bids k + cumQty asks k) = cumQty bids k + cumQty asks k :=
    wrap64_of_nonneg (by lia) htotal
  have hdiff : wrap64 (cumQty bids k - cumQty asks k) = cumQty bids k - cumQty asks k := by
    apply wrap64_eq <;> unfold int64Min int64Max at * <;> lia
  unfold imbalanceScaledArith
  rw [exact_cons]
  refine ⟨fun _ => hsum, ?_⟩
  split
  · exact exact_nil
  · simpa using hdiff

/-- The cumulative quantity of a side with one more level is exact. -/
theorem cumulate_exact {levels : List LevelQty} (hnonneg : ∀ k, 0 ≤ cumQty levels k)
    (hle : ∀ k, cumQty levels k ≤ int64Max) (level : Nat) :
    Exact .qty (Accumulator.cumulateArith levels level (cumQty levels level)) ∧
      Accumulator.cumulate levels level (cumQty levels level) = cumQty levels (level + 1) := by
  have hnext : wrap64 (cumQty levels (level + 1)) = cumQty levels (level + 1) :=
    wrap64_of_nonneg (hnonneg _) (hle _)
  have hsucc : cumQty levels (level + 1) =
      cumQty levels level + (levels[level]?.map LevelQty.qty).getD 0 := cumQty_succ
  unfold Accumulator.cumulateArith Accumulator.cumulate
  cases hlevel : levels[level]? with
  | none =>
      rw [hlevel] at hsucc
      exact ⟨exact_nil, by simpa using hsucc.symm⟩
  | some x =>
      rw [hlevel] at hsucc
      have hsucc : cumQty levels (level + 1) = cumQty levels level + x.qty := hsucc
      rw [hsucc] at hnext
      exact ⟨by simpa using hnext, by rw [hsucc]; exact hnext⟩

/-- The accumulation loop is exact from any iteration on. -/
theorem loopArith_exact (h : DepthFits bids asks) (depths : List Nat) (left level : Nat)
    {a : Accumulator} (hbid : a.cumBid = cumQty bids level)
    (hask : a.cumAsk = cumQty asks level) :
    Exact .qty (Accumulator.loopArith depths bids asks left level a) := by
  induction left generalizing level a with
  | zero => exact exact_nil
  | succ left ih =>
      obtain ⟨hb, hb'⟩ := cumulate_exact h.bids_nonneg (fun k => (h.side_le k).1) level
      obtain ⟨ha, ha'⟩ := cumulate_exact h.asks_nonneg (fun k => (h.side_le k).2) level
      rw [Accumulator.loopArith, exact_append]
      constructor
      · rw [Accumulator.stepArith, hbid, hask, hb', ha', exact_append, exact_append]
        refine ⟨⟨hb, ha⟩, ?_⟩
        split
        · exact h.imbalanceScaledArith_exact _
        · exact exact_nil
      · refine exact_onOk fun a' hstep => ?_
        obtain ⟨hbid', hask'⟩ := Accumulator.step_cum hstep
        exact ih (level + 1) (by rw [hbid', hbid, hb']) (by rw [hask', hask, ha'])

/-- `compute_signals` is exact on quantities. -/
theorem computeSignalsArith_exact {topLevels : Side → Nat → List LevelQty}
    (h : DepthFits (topLevels .buy kMaxSignalDepth) (topLevels .sell kMaxSignalDepth)) :
    Exact .qty (computeSignalsArith topLevels) := by
  have hquote : ∀ levels : List LevelQty,
      (levels.head?.map LevelQty.qty).getD 0 = cumQty levels 1 := by
    intro levels
    cases levels with
    | nil => rfl
    | cons x levels => simp [cumQty]
  unfold computeSignalsArith
  simp only [exact_append]
  refine ⟨?_, h.loopArith_exact _ _ _ rfl rfl⟩
  split
  · have hb := h.bids_nonneg 1
    have ha := h.asks_nonneg 1
    simp only [micropriceScaledArith, setQuotes, hquote]
    have hsum := wrap64_of_nonneg (show 0 ≤ cumQty (topLevels .buy kMaxSignalDepth) 1 +
      cumQty (topLevels .sell kMaxSignalDepth) 1 by lia) (h.total 1 1)
    simpa using hsum
  · exact exact_nil

end DepthFits

/-- One more level fits if adding it is exact. -/
theorem Accumulator.cumulate_fits {levels : List LevelQty} {level : Nat}
    (hfits : FitsInt64 (cumQty levels level))
    (hexact : Exact .qty (cumulateArith levels level (wrap64 (cumQty levels level)))) :
    FitsInt64 (cumQty levels (level + 1)) := by
  rw [cumQty_succ]
  rw [wrap64_eq_iff.mpr hfits] at hexact
  unfold cumulateArith at hexact
  cases hlevel : levels[level]? with
  | none => simpa using hfits
  | some x =>
      rw [hlevel] at hexact
      simp only [exact_cons, exact_nil, true_implies, and_true] at hexact
      exact wrap64_eq_iff.mp hexact

/-- If the loop is exact from an iteration on, what the last iteration adds up fits. -/
theorem Accumulator.Reached.fits {bids asks : List LevelQty} {left level : Nat}
    {done rest : List Nat} {a : Accumulator} (h : Reached bids asks level done rest a)
    (hsorted : rest.Pairwise (· < ·)) (hle : ∀ k ∈ rest, k ≤ level + left)
    (hlast : level + left ∈ rest) (hbids : FitsInt64 (cumQty bids level))
    (hasks : FitsInt64 (cumQty asks level))
    (hexact : Exact .qty (loopArith (done ++ rest) bids asks left level a)) :
    FitsInt64 (cumQty bids (level + left) + cumQty asks (level + left)) := by
  induction left generalizing level done rest a with
  | zero => exact absurd (h.ahead _ hlast) (Nat.lt_irrefl level)
  | succ left ih =>
      cases rest with
      | nil => cases hlast
      | cons k rest =>
          obtain ⟨hk, hrest⟩ := List.pairwise_cons.mp hsorted
          rw [loopArith, exact_append, stepArith, exact_append, exact_append, h.next, h.cumBid,
            h.cumAsk, cumulate_eq, cumulate_eq] at hexact
          obtain ⟨⟨⟨hbid, hask⟩, himbalance⟩, hloop⟩ := hexact
          replace hbids := cumulate_fits hbids hbid
          replace hasks := cumulate_fits hasks hask
          rw [show level + (left + 1) = level + 1 + left by omega] at hlast hle ⊢
          by_cases hreach : level + 1 = k
          · subst hreach
            cases left with
            | zero =>
                rw [if_pos rfl, imbalanceScaledArith, exact_cons, wrap64_eq_iff.mpr hbids,
                  wrap64_eq_iff.mpr hasks] at himbalance
                exact wrap64_eq_iff.mp (himbalance.1 rfl)
            | succ left =>
                obtain ⟨a₁, hstep, -, h₁⟩ := h.reach hk
                rw [hstep, onOk_ok, List.append_cons] at hloop
                exact ih h₁ hrest (fun j hj => hle j (by simp [hj]))
                  ((List.mem_cons.mp hlast).resolve_left (by omega)) hbids hasks hloop
          · obtain ⟨a₁, hstep, -, h₁⟩ := h.pass hk hreach
            rw [hstep, onOk_ok] at hloop
            exact ih h₁ hsorted hle hlast hbids hasks hloop

/-- If `compute_signals` is exact on quantities, the depths of both sides together fit. -/
theorem computeSignalsArith_fits {topLevels : Side → Nat → List LevelQty}
    (hexact : Exact .qty (computeSignalsArith topLevels)) :
    FitsInt64 (cumQty (topLevels .buy kMaxSignalDepth) kMaxSignalDepth +
      cumQty (topLevels .sell kMaxSignalDepth) kMaxSignalDepth) := by
  obtain ⟨hmem, hle⟩ := Accumulator.maxDepth_spec kImbalanceDepths_ascending
  have hdepth : maxDepth kImbalanceDepths = 0 + kMaxSignalDepth := rfl
  rw [hdepth] at hmem hle
  have hzero : ∀ levels, FitsInt64 (cumQty levels 0) := fun levels => by
    rw [cumQty, List.take_zero]
    exact ⟨by decide, by decide⟩
  unfold computeSignalsArith at hexact
  simp only [exact_append] at hexact
  have h := (Accumulator.Reached.start kImbalanceDepths_ascending rfl).fits
    kImbalanceDepths_ascending.ascending hle hmem (hzero _) (hzero _) hexact.2
  rwa [Nat.zero_add] at h

section Books

variable {poolCapacity windowSize : Nat} {b b' : OrderBook poolCapacity windowSize}
  {mb : MapOrderBook poolCapacity} {sb sa : List Shelf}

/-- `compute_signals` is exact on quantities if and only if the depths of both sides together
fit. -/
theorem Lockstep.computeSignalsArith_exact_iff (hvalid : ValidWindow windowSize)
    (hlock : Lockstep b mb sb sa) (hv : b.resting.Valid) :
    Exact .qty (computeSignalsArith b.topLevels) ↔ SignalsFit b.resting := by
  have hbids := hlock.topLevels_resting hvalid .buy kMaxSignalDepth
  have hasks := hlock.topLevels_resting hvalid .sell kMaxSignalDepth
  have hcum : cumQty (b.topLevels .buy kMaxSignalDepth) kMaxSignalDepth +
      cumQty (b.topLevels .sell kMaxSignalDepth) kMaxSignalDepth =
      depthQty true kMaxSignalDepth b.resting.bids +
        depthQty false kMaxSignalDepth b.resting.asks := by
    rw [hbids, hasks, cumQty_depthOf le_rfl, cumQty_depthOf le_rfl]
    rfl
  have hnonneg : ∀ side, ∀ x ∈ b.topLevels side kMaxSignalDepth, 0 ≤ x.qty := by
    intro side x hx
    rw [hlock.topLevels_resting hvalid] at hx
    obtain ⟨p, -, rfl⟩ := List.mem_map.mp hx
    exact qtyAt_nonneg (hv.positive _) p
  have hlen : ∀ side, (b.topLevels side kMaxSignalDepth).length ≤ kMaxSignalDepth := by
    intro side
    rw [hlock.topLevels_resting hvalid, depthOf, List.length_map]
    exact List.length_take_le _ _
  unfold SignalsFit
  rw [← hcum]
  refine ⟨fun h => (computeSignalsArith_fits h).2, fun h => ?_⟩
  exact (DepthFits.of_total (hnonneg .buy) (hnonneg .sell) (hlen .buy) (hlen .sell)
    h).computeSignalsArith_exact

end Books

end LimitOrderBook
