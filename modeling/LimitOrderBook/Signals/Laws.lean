import LimitOrderBook.Signals.Arithmetic

/-!
# Laws of the signals

What the microprice and the imbalance promise over the whole range of their arguments: no operation
overflows, the results are what the textbook formulas say, they stay between their limits, and they
move with the quantities in the right direction. Both are rounded quotients of a product by the sum
of the quantities, and the rounding must not break any of this.
-/

namespace LimitOrderBook

/-! ## Shares of a spread -/

section Shares

variable {x a a' b b' : Int}

/-- The share of `x` that belongs to `b` against `a` grows with `b`. -/
theorem share_mono (hx : 0 ≤ x) (ha : 0 ≤ a) (hpos : 0 < b + a) (hle : b ≤ b') :
    x * b / (b + a) ≤ x * b' / (b' + a) := by
  have hshare : x * b / (b + a) ≤ x :=
    Int.ediv_le_of_le_mul hpos (mul_le_mul_of_nonneg_left (by lia) hx)
  have hfloor : x * b / (b + a) * (b + a) ≤ x * b := Int.ediv_mul_le _ hpos.ne'
  rw [Int.le_ediv_iff_mul_le (by lia)]
  calc x * b / (b + a) * (b' + a)
      = x * b / (b + a) * (b + a) + x * b / (b + a) * (b' - b) := by ring
    _ ≤ x * b + x * (b' - b) :=
        add_le_add hfloor (mul_le_mul_of_nonneg_right hshare (by lia))
    _ = x * b' := by ring

/-- The share shrinks as `a` grows. -/
theorem share_anti (hx : 0 ≤ x) (hb : 0 ≤ b) (hpos : 0 < b + a) (hle : a ≤ a') :
    x * b / (b + a') ≤ x * b / (b + a) := by
  have hnonneg : 0 ≤ x * b / (b + a') := Int.ediv_nonneg (Int.mul_nonneg hx hb) (by lia)
  rw [Int.le_ediv_iff_mul_le hpos]
  calc x * b / (b + a') * (b + a)
      ≤ x * b / (b + a') * (b + a') := mul_le_mul_of_nonneg_left (by lia) hnonneg
    _ ≤ x * b := Int.ediv_mul_le _ (by lia)

end Shares

/-! ## The microprice -/

section Microprice

variable {bid ask : Price} {bidQty askQty : Quantity}

/-- A price whose size can be scaled is in the range of the signals. -/
theorem inSignalRange_of_natAbs {p : Price} (h : (p.natAbs : Int) * kSignalScale ≤ int64Max) :
    InSignalRange p := by
  unfold InSignalRange FitsInt64 int64Min int64Max kSignalScale at *
  lia

/-- The microprice by the share of the spread that belongs to the bid quantity. -/
theorem micropriceScaled_share (hpre : MicropricePre bid bidQty ask askQty)
    (hfits : bidQty + askQty ≤ int64Max) (hb : InSignalRange bid) (ha : InSignalRange ask) :
    micropriceScaled bid bidQty ask askQty =
      bid * kSignalScale + (ask - bid) * kSignalScale * bidQty / (bidQty + askQty) := by
  rw [micropriceScaled_eq hpre hfits hb ha,
    show (ask - bid) * bidQty * kSignalScale = (ask - bid) * kSignalScale * bidQty by ring]

/-- The scaled spread of quotes that do not cross. -/
theorem scaled_spread_pos (hlt : bid < ask) : 0 < (ask - bid) * kSignalScale :=
  Int.mul_pos (Int.sub_pos_of_lt hlt) (by decide)

/-- The microprice is the weighted mid, rounded down: the bid is a multiple of the divisor. -/
theorem micropriceScaled_floor (hpre : MicropricePre bid bidQty ask askQty)
    (hfits : bidQty + askQty ≤ int64Max) (hb : InSignalRange bid) (ha : InSignalRange ask) :
    micropriceScaled bid bidQty ask askQty =
      kSignalScale * (bid * askQty + ask * bidQty) / (bidQty + askQty) := by
  have ⟨_, hbq, haq⟩ := hpre
  have hwhole : kSignalScale * (bid * askQty + ask * bidQty) =
      (ask - bid) * kSignalScale * bidQty + bid * kSignalScale * (bidQty + askQty) := by ring
  rw [micropriceScaled_share hpre hfits hb ha, hwhole, Int.add_mul_ediv_right _ _ (by lia),
    Int.add_comm]

/-- The microprice lies between the quotes. -/
theorem micropriceScaled_between (hpre : MicropricePre bid bidQty ask askQty)
    (hfits : bidQty + askQty ≤ int64Max) (hb : InSignalRange bid) (ha : InSignalRange ask) :
    bid * kSignalScale ≤ micropriceScaled bid bidQty ask askQty ∧
      micropriceScaled bid bidQty ask askQty < ask * kSignalScale := by
  have ⟨hlt, hbq, haq⟩ := hpre
  have hspread := scaled_spread_pos hlt
  have hshare : (ask - bid) * kSignalScale * bidQty / (bidQty + askQty) <
      (ask - bid) * kSignalScale :=
    Int.ediv_lt_of_lt_mul (by lia) (mul_lt_mul_of_pos_left (by lia) hspread)
  rw [micropriceScaled_share hpre hfits hb ha]
  constructor
  · exact le_add_of_nonneg_right (Int.ediv_nonneg (Int.mul_nonneg hspread.le hbq.le) (by lia))
  · calc bid * kSignalScale + (ask - bid) * kSignalScale * bidQty / (bidQty + askQty)
        < bid * kSignalScale + (ask - bid) * kSignalScale := Int.add_lt_add_left hshare _
      _ = ask * kSignalScale := by ring

/-- The microprice does not fall as the bid quantity grows. -/
theorem micropriceScaled_mono {bidQty' : Quantity} (hpre : MicropricePre bid bidQty ask askQty)
    (hb : InSignalRange bid) (ha : InSignalRange ask) (hle : bidQty ≤ bidQty')
    (hfits : bidQty' + askQty ≤ int64Max) :
    micropriceScaled bid bidQty ask askQty ≤ micropriceScaled bid bidQty' ask askQty := by
  have ⟨hlt, hbq, haq⟩ := hpre
  rw [micropriceScaled_share hpre (by lia) hb ha,
    micropriceScaled_share ⟨hlt, by lia, haq⟩ hfits hb ha]
  exact Int.add_le_add_left
    (share_mono (scaled_spread_pos hlt).le haq.le (by lia) hle) _

/-- The microprice does not rise as the ask quantity grows. -/
theorem micropriceScaled_anti {askQty' : Quantity} (hpre : MicropricePre bid bidQty ask askQty)
    (hb : InSignalRange bid) (ha : InSignalRange ask) (hle : askQty ≤ askQty')
    (hfits : bidQty + askQty' ≤ int64Max) :
    micropriceScaled bid bidQty ask askQty' ≤ micropriceScaled bid bidQty ask askQty := by
  have ⟨hlt, hbq, haq⟩ := hpre
  rw [micropriceScaled_share hpre (by lia) hb ha,
    micropriceScaled_share ⟨hlt, hbq, by lia⟩ hfits hb ha]
  exact Int.add_le_add_left (share_anti (scaled_spread_pos hlt).le hbq.le (by lia) hle) _

/-- With equal quantities the microprice is the mid: half of the spread is a whole number of
units. -/
theorem micropriceScaled_mid {s : BookSignals}
    (hpre : MicropricePre s.bestBid s.bidQty s.bestAsk s.askQty)
    (hfits : s.bidQty + s.askQty ≤ int64Max) (hb : InSignalRange s.bestBid)
    (ha : InSignalRange s.bestAsk) :
    2 * s.midScaled = (s.bestBid + s.bestAsk) * kSignalScale ∧
      (s.bidQty = s.askQty →
        micropriceScaled s.bestBid s.bidQty s.bestAsk s.askQty = s.midScaled) := by
  have ⟨hlt, hbq, haq⟩ := hpre
  have htwo : s.twoSided = true := by
    simp [BookSignals.twoSided, BookSignals.hasBid, BookSignals.hasAsk, hbq, haq]
  have hmid := midScaled_eq htwo hlt hb ha
  -- the scale is even, so half of a scaled spread is whole
  have hhalf : kSignalScale = kSignalScale / 2 * 2 := rfl
  constructor
  · rw [hmid]
    generalize kSignalScale / 2 = half at hhalf
    rw [hhalf]
    ring
  · intro hsame
    have hdivide : (s.bestAsk - s.bestBid) * kSignalScale * s.bidQty =
        (s.bestAsk - s.bestBid) * (kSignalScale / 2) * (s.bidQty + s.bidQty) := by
      generalize kSignalScale / 2 = half at hhalf
      rw [hhalf]
      ring
    rw [micropriceScaled_share hpre hfits hb ha, ← hsame, hdivide,
      Int.mul_ediv_cancel _ (by lia), hmid]
    generalize kSignalScale / 2 = half at hhalf
    rw [hhalf]
    ring

/-- The microprice is exact over its whole range. No operation overflows, and the result is the
weighted mid rounded down. It lies between the quotes, rises with the bid quantity and falls with
the ask quantity, and is the mid if both are equal. -/
theorem microprice_exact (hlt : bid < ask) (hbid : (bid.natAbs : Int) * kSignalScale ≤ int64Max)
    (hask : (ask.natAbs : Int) * kSignalScale ≤ int64Max) (hbq : 0 < bidQty) (haq : 0 < askQty)
    (hfits : bidQty + askQty ≤ int64Max) :
    (∀ s ∈ micropriceSteps bid bidQty ask askQty, s.Defined) ∧
      micropriceScaled bid bidQty ask askQty =
        kSignalScale * (bid * askQty + ask * bidQty) / (bidQty + askQty) ∧
      bid * kSignalScale ≤ micropriceScaled bid bidQty ask askQty ∧
      micropriceScaled bid bidQty ask askQty < ask * kSignalScale ∧
      (∀ bidQty', bidQty ≤ bidQty' → bidQty' + askQty ≤ int64Max →
        micropriceScaled bid bidQty ask askQty ≤ micropriceScaled bid bidQty' ask askQty) ∧
      (∀ askQty', askQty ≤ askQty' → bidQty + askQty' ≤ int64Max →
        micropriceScaled bid bidQty ask askQty' ≤ micropriceScaled bid bidQty ask askQty) ∧
      ∀ s : BookSignals, s.bestBid = bid → s.bestAsk = ask → s.bidQty = bidQty →
        s.askQty = askQty → (∀ step ∈ s.midSteps, step.Defined) ∧
          2 * s.midScaled = (bid + ask) * kSignalScale ∧
          (bidQty = askQty → micropriceScaled bid bidQty ask askQty = s.midScaled) := by
  have hpre : MicropricePre bid bidQty ask askQty := ⟨hlt, hbq, haq⟩
  have hb := inSignalRange_of_natAbs hbid
  have ha := inSignalRange_of_natAbs hask
  obtain ⟨hlow, hhigh⟩ := micropriceScaled_between hpre hfits hb ha
  refine ⟨micropriceSteps_defined hpre hfits hb ha, micropriceScaled_floor hpre hfits hb ha, hlow,
    hhigh, fun _ => micropriceScaled_mono hpre hb ha, fun _ => micropriceScaled_anti hpre hb ha, ?_⟩
  intro s hsb hsa hsbq hsaq
  subst hsb hsa hsbq hsaq
  exact ⟨midSteps_defined hlt hb ha, micropriceScaled_mid hpre hfits hb ha⟩

/-- One lot on the bid and two on the ask, two ticks apart. -/
theorem microprice_exact_two_ticks :
    micropriceScaled (-1) 1 1 2 = kSignalScale * (-1 * 2 + 1 * 1) / (1 + 2) ∧
      -1 * kSignalScale ≤ micropriceScaled (-1) 1 1 2 := by
  obtain ⟨_, heq, hle, _⟩ := @microprice_exact (-1) 1 1 2 (by decide) (by decide) (by decide)
    (by decide) (by decide) (by decide)
  exact ⟨heq, hle⟩

end Microprice

/-! ## The imbalance -/

section Imbalance

variable {scale a a' b b' : Int}

/-- The scaled surplus of `b` over `a`, as a part of both, is a share less a constant. -/
theorem surplus_eq_share (hpos : 0 < b + a) :
    (b - a) * scale / (b + a) = 2 * scale * b / (b + a) - scale := by
  have hsplit : (b - a) * scale = 2 * scale * b + -scale * (b + a) := by ring
  rw [hsplit, Int.add_mul_ediv_right _ _ hpos.ne']
  rfl

/-- The surplus grows with `b`. -/
theorem surplus_mono (hscale : 0 ≤ scale) (ha : 0 ≤ a) (hpos : 0 < b + a) (hle : b ≤ b') :
    (b - a) * scale / (b + a) ≤ (b' - a) * scale / (b' + a) := by
  rw [surplus_eq_share hpos, surplus_eq_share (by lia)]
  exact Int.sub_le_sub_right (share_mono (by lia) ha hpos hle) _

/-- The surplus shrinks as `a` grows. -/
theorem surplus_anti (hscale : 0 ≤ scale) (hb : 0 ≤ b) (hpos : 0 < b + a) (hle : a ≤ a') :
    (b - a') * scale / (b + a') ≤ (b - a) * scale / (b + a) := by
  rw [surplus_eq_share hpos, surplus_eq_share (by lia)]
  exact Int.sub_le_sub_right (share_anti (by lia) hb hpos hle) _

/-- If the bids are not less than the asks, truncation is rounding down. -/
theorem imbalanceScaled_surplus (ha : 0 ≤ a) (hle : a ≤ b) (hpos : 0 < b + a)
    (hfits : b + a ≤ int64Max) :
    imbalanceScaled b a = (b - a) * kSignalScale / (b + a) := by
  rw [imbalanceScaled_eq (ha.trans hle) ha hfits, if_neg hpos.ne']
  exact Int.tdiv_eq_ediv_of_nonneg (Int.mul_nonneg (by lia) (by decide))

/-- If the bids are not less than the asks, the imbalance is not negative. -/
theorem imbalanceScaled_nonneg (ha : 0 ≤ a) (hle : a ≤ b) (hfits : b + a ≤ int64Max) :
    0 ≤ imbalanceScaled b a := by
  by_cases hpos : 0 < b + a
  · rw [imbalanceScaled_surplus ha hle hpos hfits]
    exact Int.ediv_nonneg (Int.mul_nonneg (by lia) (by decide)) hpos.le
  · rw [imbalanceScaled_eq (ha.trans hle) ha hfits, if_pos (by lia)]

/-- The imbalance lies between the limits of the scale. -/
theorem imbalanceScaled_between (hb : 0 ≤ b) (ha : 0 ≤ a) (hfits : b + a ≤ int64Max) :
    -kSignalScale ≤ imbalanceScaled b a ∧ imbalanceScaled b a ≤ kSignalScale := by
  rw [imbalanceScaled_eq hb ha hfits]
  split
  · exact ⟨by decide, by decide⟩
  · have hquot := natAbs_imbalance_le hb ha
    generalize ((b - a) * kSignalScale).tdiv (b + a) = quot at hquot
    unfold kSignalScale
    lia

/-- The imbalance reaches the upper limit exactly if there are bids and no asks. -/
theorem imbalanceScaled_eq_scale (hb : 0 ≤ b) (ha : 0 ≤ a) (hfits : b + a ≤ int64Max) :
    imbalanceScaled b a = kSignalScale ↔ a = 0 ∧ 0 < b := by
  constructor
  · intro heq
    have hpos : 0 < b + a := by
      by_contra hzero
      rw [imbalanceScaled_eq hb ha hfits, if_pos (by lia)] at heq
      exact absurd heq (by decide)
    have hle : a ≤ b := by
      by_contra hlt
      have hneg := imbalanceScaled_neg hb ha hfits
      have hnonneg := imbalanceScaled_nonneg hb (by lia : b ≤ a) (by lia)
      unfold kSignalScale at heq
      lia
    rw [imbalanceScaled_surplus ha hle hpos hfits] at heq
    have hfloor : (b - a) * kSignalScale / (b + a) * (b + a) ≤ (b - a) * kSignalScale :=
      Int.ediv_mul_le _ hpos.ne'
    rw [heq] at hfloor
    unfold kSignalScale at hfloor
    exact ⟨by lia, by lia⟩
  · intro hside
    obtain ⟨rfl, hpos⟩ := hside
    rw [imbalanceScaled_surplus (le_refl 0) hb (by lia) hfits, Int.sub_zero, Int.add_zero,
      Int.mul_ediv_cancel_left _ hpos.ne']

/-- The imbalance does not fall as the bids grow. The sign may change on the way. -/
theorem imbalanceScaled_mono (hb : 0 ≤ b) (ha : 0 ≤ a) (hle : b ≤ b')
    (hfits : b' + a ≤ int64Max) : imbalanceScaled b a ≤ imbalanceScaled b' a := by
  have hscale : 0 ≤ kSignalScale := by decide
  rcases lt_or_ge b a with hlt | hge
  · rw [imbalanceScaled_neg ha hb (by lia)]
    -- both negative, or the sign changes on the way
    rcases lt_or_ge b' a with hlt' | hge'
    · rw [imbalanceScaled_neg ha (hb.trans hle) (by lia),
        imbalanceScaled_surplus hb hlt.le (by lia) (by lia),
        imbalanceScaled_surplus (hb.trans hle) hlt'.le (by lia) (by lia)]
      exact Int.neg_le_neg (surplus_anti hscale ha (by lia) hle)
    · have hlow := imbalanceScaled_nonneg hb hlt.le (by lia)
      have hhigh := imbalanceScaled_nonneg ha hge' hfits
      lia
  · by_cases hpos : 0 < b + a
    · rw [imbalanceScaled_surplus ha hge hpos (by lia),
        imbalanceScaled_surplus ha (hge.trans hle) (by lia) hfits]
      exact surplus_mono hscale ha hpos hle
    · rw [imbalanceScaled_eq hb ha (by lia), if_pos (by lia)]
      exact imbalanceScaled_nonneg ha (hge.trans hle) hfits

/-- A common factor of both quantities does not count. -/
theorem imbalanceScaled_mul {k : Int} (hk : 0 < k) (hb : 0 ≤ b) (ha : 0 ≤ a)
    (hfits : k * b + k * a ≤ int64Max) : imbalanceScaled (k * b) (k * a) = imbalanceScaled b a := by
  have hle : b + a ≤ k * b + k * a := by
    rw [← Int.mul_add]
    exact le_mul_of_one_le_left (by lia) hk
  rw [imbalanceScaled_eq (Int.mul_nonneg hk.le hb) (Int.mul_nonneg hk.le ha) hfits,
    imbalanceScaled_eq hb ha (hle.trans hfits), ← Int.mul_add, ← Int.mul_sub, Int.mul_assoc,
    Int.mul_tdiv_mul_of_pos _ _ hk]
  simp only [Int.mul_eq_zero, hk.ne', false_or]

/-- The imbalance keeps its laws over its whole range, although its division rounds in different
directions on both sides of zero. -/
theorem imbalance_laws (hb : 0 ≤ b) (ha : 0 ≤ a) (hfits : b + a ≤ int64Max) :
    (∀ s ∈ imbalanceSteps b a, s.Defined) ∧
      -kSignalScale ≤ imbalanceScaled b a ∧ imbalanceScaled b a ≤ kSignalScale ∧
      imbalanceScaled a b = -imbalanceScaled b a ∧
      (imbalanceScaled b a = kSignalScale ↔ a = 0 ∧ 0 < b) ∧
      (imbalanceScaled b a = -kSignalScale ↔ b = 0 ∧ 0 < a) ∧
      (∀ b', b ≤ b' → b' + a ≤ int64Max → imbalanceScaled b a ≤ imbalanceScaled b' a) ∧
      (∀ a', a ≤ a' → b + a' ≤ int64Max → imbalanceScaled b a' ≤ imbalanceScaled b a) ∧
      ∀ k, 0 < k → k * b + k * a ≤ int64Max →
        imbalanceScaled (k * b) (k * a) = imbalanceScaled b a := by
  have hneg := imbalanceScaled_neg hb ha hfits
  obtain ⟨hlow, hhigh⟩ := imbalanceScaled_between hb ha hfits
  refine ⟨imbalanceSteps_defined hb ha hfits, hlow, hhigh, hneg,
    imbalanceScaled_eq_scale hb ha hfits, ?_, fun b' => imbalanceScaled_mono hb ha,
    fun a' hle hfits' => ?_, fun k hk => imbalanceScaled_mul hk hb ha⟩
  · rw [← imbalanceScaled_eq_scale ha hb (by lia), hneg]
    lia
  · rw [imbalanceScaled_neg ha hb (by lia), imbalanceScaled_neg (ha.trans hle) hb (by lia)]
    exact Int.neg_le_neg (imbalanceScaled_mono ha hb hle (by lia))

/-- Two bids against one ask. -/
theorem imbalance_laws_two_to_one :
    imbalanceScaled 1 2 = -imbalanceScaled 2 1 ∧ imbalanceScaled (3 * 2) (3 * 1) = 333333 := by
  obtain ⟨_, _, _, hneg, _, _, _, _, hmul⟩ :=
    @imbalance_laws 1 2 (by decide) (by decide) (by decide)
  exact ⟨hneg, (hmul 3 (by decide) (by decide)).trans (by decide)⟩

end Imbalance

end LimitOrderBook
