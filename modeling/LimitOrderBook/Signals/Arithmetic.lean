import LimitOrderBook.Signals.Model
import Mathlib.Algebra.Order.Ring.Int
import Mathlib.Tactic.Linarith
import Mathlib.Tactic.Ring

/-!
# Signal arithmetic

The formulas of `signals.hpp` without their 64-bit and 128-bit steps. The function `fSteps` beside a
function `f` lists the exact results of its operations, each with its type. In the range that the
source asks for every one of them fits: `micropriceScaled` is a floor, `imbalanceScaled` a truncated
quotient, and `midScaled` exact.
-/

namespace LimitOrderBook

/-- A price whose scaled value is a 64-bit integer. -/
def InSignalRange (p : Price) : Prop := FitsInt64 (p * kSignalScale)

instance {p : Price} : Decidable (InSignalRange p) := inferInstanceAs (Decidable (FitsInt64 _))

/-- A price in the range is not the smallest 64-bit integer when scaled, so the range is
symmetric. -/
theorem InSignalRange.neg {p : Price} (h : InSignalRange p) : InSignalRange (-p) := by
  unfold InSignalRange FitsInt64 int64Min int64Max kSignalScale at *
  lia

/-- A 128-bit value that fits. -/
theorem wrap128_eq {x : Int} (hlo : -2 ^ 127 ≤ x) (hhi : x < 2 ^ 127) : wrap128 x = x :=
  Int.bmod_eq_of_le (by omega) (by omega)

/-! ## Steps of a computation -/

/-- The type of an intermediate result. -/
inductive Width where
  | int64
  | int128
  deriving DecidableEq, Repr

/-- The type holds the value. -/
def Width.Holds : Width → Int → Prop
  | .int64, x => FitsInt64 x
  | .int128, x => -2 ^ 127 ≤ x ∧ x < 2 ^ 127

/-- An operation on signed integers. -/
inductive Step where
  /-- A sum, a difference, a product or a conversion, with its exact result. -/
  | value (width : Width) (x : Int)
  /-- A division. -/
  | quotient (width : Width) (x y : Int)
  deriving DecidableEq, Repr

/-- The operation does not overflow and does not divide by zero. -/
def Step.Defined : Step → Prop
  | .value width x => width.Holds x
  | .quotient width x y => y ≠ 0 ∧ width.Holds (x.tdiv y)

/-- A 64-bit result that fits is exact. -/
theorem Step.Defined.wrap64 {x : Int} (h : (Step.value .int64 x).Defined) : wrap64 x = x :=
  wrap64_eq h.1 h.2

/-- A 128-bit result that fits is exact. -/
theorem Step.Defined.wrap128 {x : Int} (h : (Step.value .int128 x).Defined) : wrap128 x = x :=
  wrap128_eq h.1 h.2

/-! ## The microprice -/

/-- The operations of `micropriceScaled`. -/
def micropriceSteps (bid : Price) (bidQty : Quantity) (ask : Price) (askQty : Quantity) :
    List Step :=
  let product := (ask - bid) * bidQty * kSignalScale
  let offset := product.tdiv (bidQty + askQty)
  [.value .int64 (ask - bid), .value .int128 ((ask - bid) * bidQty), .value .int128 product,
    .value .int64 (bidQty + askQty), .quotient .int128 product (bidQty + askQty),
    .value .int128 (bid * kSignalScale), .value .int128 (bid * kSignalScale + offset),
    .value .int64 (bid * kSignalScale + offset)]

/-- A quantity times a price difference, scaled, fits into 128 bits. -/
theorem scaled_product_lt {spread qty : Int} (hspread : spread * kSignalScale ≤ 2 * int64Max)
    (hqty : qty ≤ int64Max) (hpos : 0 ≤ qty) : spread * qty * kSignalScale < 2 ^ 127 := by
  have hswap : spread * qty * kSignalScale = spread * kSignalScale * qty := by ring
  have hle : spread * kSignalScale * qty ≤ 2 * int64Max * int64Max :=
    (mul_le_mul_of_nonneg_right hspread hpos).trans
      (mul_le_mul_of_nonneg_left hqty (by decide))
  rw [hswap]
  exact lt_of_le_of_lt hle (by decide)

section Microprice

variable {bid ask : Price} {bidQty askQty : Quantity}

/-- The share of the spread that the microprice adds to the bid is at most the spread. -/
theorem offset_bounds (hlt : bid < ask) (hbid : 0 < bidQty) (hask : 0 < askQty) :
    0 ≤ (ask - bid) * bidQty * kSignalScale / (bidQty + askQty) ∧
      (ask - bid) * bidQty * kSignalScale / (bidQty + askQty) ≤ (ask - bid) * kSignalScale := by
  have hspread : 0 < ask - bid := Int.sub_pos_of_lt hlt
  have hnum : 0 ≤ (ask - bid) * bidQty * kSignalScale := by
    have := Int.mul_pos hspread hbid
    exact Int.mul_nonneg this.le (by decide)
  refine ⟨Int.ediv_nonneg hnum (by lia), Int.ediv_le_of_le_mul (by lia) ?_⟩
  have hswap : (ask - bid) * bidQty * kSignalScale = (ask - bid) * kSignalScale * bidQty := by ring
  rw [hswap]
  refine mul_le_mul_of_nonneg_left (by lia) (Int.mul_nonneg hspread.le (by decide))

/-- The division truncates a numerator that is not negative. -/
theorem tdiv_offset (hlt : bid < ask) (hbid : 0 < bidQty) :
    ((ask - bid) * bidQty * kSignalScale).tdiv (bidQty + askQty) =
      (ask - bid) * bidQty * kSignalScale / (bidQty + askQty) := by
  have hpos : 0 < (ask - bid) * bidQty := Int.mul_pos (Int.sub_pos_of_lt hlt) hbid
  exact Int.tdiv_eq_ediv_of_nonneg (Int.mul_nonneg hpos.le (by decide))

/-- Every operation of `micropriceScaled` fits its type. -/
theorem micropriceSteps_defined (hpre : MicropricePre bid bidQty ask askQty)
    (hfits : bidQty + askQty ≤ int64Max) (hb : InSignalRange bid) (ha : InSignalRange ask) :
    ∀ s ∈ micropriceSteps bid bidQty ask askQty, s.Defined := by
  obtain ⟨hlt, hbid, hask⟩ := hpre
  obtain ⟨hoff, hoff'⟩ := offset_bounds hlt hbid hask
  have hspread : (ask - bid) * kSignalScale ≤ 2 * int64Max := by
    unfold InSignalRange FitsInt64 int64Min int64Max kSignalScale at *
    lia
  have hprod := scaled_product_lt hspread (by lia : bidQty ≤ int64Max) hbid.le
  have hpos : 0 < (ask - bid) * bidQty := Int.mul_pos (Int.sub_pos_of_lt hlt) hbid
  have hscale : (ask - bid) * bidQty ≤ (ask - bid) * bidQty * kSignalScale :=
    le_mul_of_one_le_right hpos.le (by decide)
  have hdiff : FitsInt64 (ask - bid) := by
    unfold InSignalRange FitsInt64 int64Min int64Max kSignalScale at *
    lia
  have htotal : FitsInt64 (bidQty + askQty) := ⟨by unfold int64Min; lia, hfits⟩
  have hsplit : (ask - bid) * kSignalScale = ask * kSignalScale - bid * kSignalScale := by ring
  rw [hsplit] at hoff'
  unfold InSignalRange at ha hb
  simp only [micropriceSteps, List.forall_mem_cons, Step.Defined, Width.Holds, tdiv_offset hlt hbid]
  refine ⟨hdiff, ⟨by lia, by lia⟩, ⟨by lia, hprod⟩, htotal, ⟨by lia, ?_⟩, ?_⟩
  all_goals
    -- from here on the two scaled prices and the share of the spread are just numbers
    generalize (ask - bid) * bidQty * kSignalScale / (bidQty + askQty) = offset at hoff hoff' ⊢
    generalize bid * kSignalScale = low at hb hoff' ⊢
    generalize ask * kSignalScale = high at ha hoff'
    unfold FitsInt64 int64Min int64Max at *
  · exact ⟨by lia, by lia⟩
  · exact ⟨⟨by lia, by lia⟩, ⟨by lia, by lia⟩, ⟨by lia, by lia⟩, fun s hs => by cases hs⟩

/-- The microprice is the bid and a share of the spread, rounded down. -/
theorem micropriceScaled_eq (hpre : MicropricePre bid bidQty ask askQty)
    (hfits : bidQty + askQty ≤ int64Max) (hb : InSignalRange bid) (ha : InSignalRange ask) :
    micropriceScaled bid bidQty ask askQty =
      bid * kSignalScale + (ask - bid) * bidQty * kSignalScale / (bidQty + askQty) := by
  have hsteps := micropriceSteps_defined hpre hfits hb ha
  simp only [micropriceSteps, List.forall_mem_cons] at hsteps
  obtain ⟨hdiff, hfirst, hsecond, htotal, ⟨_, hoffset⟩, hlow, hsum, hresult, _⟩ := hsteps
  unfold micropriceScaled
  simp only [hdiff.wrap64, hfirst.wrap128, hsecond.wrap128, htotal.wrap64,
    wrap128_eq hoffset.1 hoffset.2, hlow.wrap128, hsum.wrap128, hresult.wrap64]
  rw [tdiv_offset hpre.1 hpre.2.1]

/-- The microprice of the mirror image: rounding down costs one unit in one of the two, unless
nothing is rounded. -/
theorem micropriceScaled_mirror (hpre : MicropricePre bid bidQty ask askQty)
    (hfits : bidQty + askQty ≤ int64Max) (hb : InSignalRange bid) (ha : InSignalRange ask) :
    micropriceScaled bid bidQty ask askQty + micropriceScaled (-ask) askQty (-bid) bidQty =
      if (bidQty + askQty) ∣ (ask - bid) * bidQty * kSignalScale then 0 else -1 := by
  obtain ⟨hlt, hbid, hask⟩ := hpre
  have hpos : 0 < bidQty + askQty := by lia
  rw [micropriceScaled_eq ⟨hlt, hbid, hask⟩ hfits hb ha,
    micropriceScaled_eq ⟨Int.neg_lt_neg hlt, hask, hbid⟩ (by lia) ha.neg hb.neg,
    Int.add_comm askQty bidQty]
  -- the two shares add up to the spread before they are rounded
  have hshares : (-bid - -ask) * askQty * kSignalScale =
      -((ask - bid) * bidQty * kSignalScale) + (ask - bid) * kSignalScale * (bidQty + askQty) := by
    ring
  rw [hshares, Int.add_mul_ediv_right _ _ hpos.ne']
  generalize (ask - bid) * bidQty * kSignalScale = product
  have hspread : (ask - bid) * kSignalScale = ask * kSignalScale - bid * kSignalScale := by ring
  have hneg : -ask * kSignalScale = -(ask * kSignalScale) := by ring
  have hround : product / (bidQty + askQty) + -product / (bidQty + askQty) =
      if (bidQty + askQty) ∣ product then 0 else -1 := by
    split
    · next hdvd => rw [Int.neg_ediv_of_dvd hdvd, Int.add_right_neg]
    · next hdvd =>
        rw [Int.neg_ediv, if_neg hdvd, Int.sign_eq_one_of_pos hpos]
        lia
  rw [← hround, hspread, hneg]
  lia

end Microprice

/-! ## Imbalance -/

section Imbalance

variable {bidQty askQty : Quantity}

/-- The operations of `imbalanceScaled`. -/
def imbalanceSteps (bidQty askQty : Quantity) : List Step :=
  let product := (bidQty - askQty) * kSignalScale
  .value .int64 (bidQty + askQty) ::
    if bidQty + askQty = 0 then []
    else
      [.value .int64 (bidQty - askQty), .value .int128 product,
        .quotient .int128 product (bidQty + askQty),
        .value .int64 (product.tdiv (bidQty + askQty))]

/-- The difference is at most the sum, so the imbalance is at most the scale. -/
theorem natAbs_imbalance_le (hbid : 0 ≤ bidQty) (hask : 0 ≤ askQty) :
    (((bidQty - askQty) * kSignalScale).tdiv (bidQty + askQty)).natAbs ≤ 1000000 := by
  rw [Int.natAbs_tdiv]
  refine Nat.div_le_of_le_mul ?_
  rw [Int.natAbs_mul]
  exact Nat.mul_le_mul_right _ (by lia)

/-- Every operation of `imbalanceScaled` fits its type. -/
theorem imbalanceSteps_defined (hbid : 0 ≤ bidQty) (hask : 0 ≤ askQty)
    (hfits : bidQty + askQty ≤ int64Max) :
    ∀ s ∈ imbalanceSteps bidQty askQty, s.Defined := by
  have hquot := natAbs_imbalance_le hbid hask
  have htotal : FitsInt64 (bidQty + askQty) := ⟨by unfold int64Min; lia, hfits⟩
  have hdiff : FitsInt64 (bidQty - askQty) := by
    unfold FitsInt64 int64Min int64Max at *
    lia
  have hscaled : -2 ^ 127 ≤ (bidQty - askQty) * kSignalScale ∧
      (bidQty - askQty) * kSignalScale < 2 ^ 127 := by
    unfold FitsInt64 int64Min int64Max at hdiff
    unfold kSignalScale
    exact ⟨by lia, by lia⟩
  unfold imbalanceSteps
  simp only [List.forall_mem_cons]
  refine ⟨htotal, ?_⟩
  split
  · exact fun s hs => by cases hs
  · next hne =>
      simp only [List.forall_mem_cons, Step.Defined, Width.Holds]
      generalize ((bidQty - askQty) * kSignalScale).tdiv (bidQty + askQty) = quot at hquot
      refine ⟨hdiff, hscaled, ⟨hne, by lia, by lia⟩, ?_, fun s hs => by cases hs⟩
      unfold FitsInt64 int64Min int64Max
      lia

/-- The imbalance is a truncated quotient. -/
theorem imbalanceScaled_eq (hbid : 0 ≤ bidQty) (hask : 0 ≤ askQty)
    (hfits : bidQty + askQty ≤ int64Max) :
    imbalanceScaled bidQty askQty =
      if bidQty + askQty = 0 then 0
      else ((bidQty - askQty) * kSignalScale).tdiv (bidQty + askQty) := by
  have hsteps := imbalanceSteps_defined hbid hask hfits
  unfold imbalanceSteps at hsteps
  simp only [List.forall_mem_cons] at hsteps
  obtain ⟨htotal, hsteps⟩ := hsteps
  unfold imbalanceScaled
  rw [htotal.wrap64]
  dsimp only
  split
  · rfl
  · next hne =>
      simp only [if_neg hne, List.forall_mem_cons] at hsteps
      obtain ⟨hdiff, hscaled, ⟨_, hquot⟩, hresult, _⟩ := hsteps
      rw [hdiff.wrap64, hscaled.wrap128, wrap128_eq hquot.1 hquot.2, hresult.wrap64]

/-- The imbalance of the mirror image. -/
theorem imbalanceScaled_neg (hbid : 0 ≤ bidQty) (hask : 0 ≤ askQty)
    (hfits : bidQty + askQty ≤ int64Max) :
    imbalanceScaled askQty bidQty = -imbalanceScaled bidQty askQty := by
  rw [imbalanceScaled_eq hbid hask hfits, imbalanceScaled_eq hask hbid (by lia),
    Int.add_comm askQty bidQty]
  split
  · rfl
  · rw [← Int.neg_tdiv, ← Int.neg_mul, Int.neg_sub]

end Imbalance

/-! ## The mid -/

/-- The operations of `midScaled`. -/
def BookSignals.midSteps (s : BookSignals) : List Step :=
  if s.twoSided then
    [.value .int64 (s.bestBid * kSignalScale), .value .int64 (s.bestAsk - s.bestBid),
      .value .int64 ((s.bestAsk - s.bestBid) * (kSignalScale / 2)),
      .value .int64 (s.bestBid * kSignalScale + (s.bestAsk - s.bestBid) * (kSignalScale / 2))]
  else []

/-- Every operation of `midScaled` fits its type. -/
theorem midSteps_defined {s : BookSignals} (hlt : s.bestBid < s.bestAsk)
    (hb : InSignalRange s.bestBid) (ha : InSignalRange s.bestAsk) :
    ∀ step ∈ s.midSteps, step.Defined := by
  have hhalf : kSignalScale / 2 = 500000 := rfl
  unfold BookSignals.midSteps
  split
  · simp only [List.forall_mem_cons, Step.Defined, Width.Holds, hhalf]
    refine ⟨hb, ?_, ?_, ?_, fun step hstep => by cases hstep⟩
    all_goals
      unfold InSignalRange FitsInt64 int64Min int64Max kSignalScale at *
      lia
  · exact fun step hstep => by cases hstep

/-- The mid of both quotes. -/
theorem midScaled_eq {s : BookSignals} (htwo : s.twoSided = true) (hlt : s.bestBid < s.bestAsk)
    (hb : InSignalRange s.bestBid) (ha : InSignalRange s.bestAsk) :
    s.midScaled = (s.bestBid + s.bestAsk) * (kSignalScale / 2) := by
  have hsteps := midSteps_defined hlt hb ha
  unfold BookSignals.midSteps at hsteps
  simp only [if_pos htwo, List.forall_mem_cons] at hsteps
  obtain ⟨hbid, hdiff, hspread, hsum, _⟩ := hsteps
  have hhalf : kSignalScale / 2 = 500000 := rfl
  unfold BookSignals.midScaled
  rw [if_pos htwo, hbid.wrap64, hdiff.wrap64, hspread.wrap64, hsum.wrap64, hhalf]
  unfold kSignalScale
  lia

end LimitOrderBook
