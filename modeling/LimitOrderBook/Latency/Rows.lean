import LimitOrderBook.Latency.Quantiles
import LimitOrderBook.Latency.Stages

/-!
# Rows of the latency report

What can be read off the rows of `print_latency_row`. The columns of a row ascend
(`Records.row_ascending`). If one stage contains another, so that each of its measurements is at
least that of the other, its row is not below that of the other in any column
(`Records.quantiles_le`): the pass of the benchmark and the loop of the listener measure such stages
(`bench_measures`, `listen_measures`).
-/

namespace LimitOrderBook

open OrderStatistics (atRank)

namespace LatencyHistogram

section Order

variable {h h' : LatencyHistogram} {vs vs' : List UInt64}

/-- Cutting off keeps the order. -/
theorem clamped_le (hle : List.Forall₂ (· ≤ ·) vs vs') :
    List.Forall₂ (· ≤ ·) (clamped vs) (clamped vs') := by
  refine List.forall₂_map_left_iff.mpr (List.forall₂_map_right_iff.mpr (hle.imp fun v w h => ?_))
  exact min_le_min_right _ (UInt64.le_iff_toNat_le.mp h)

/-- A histogram without values. -/
theorem Records.of_nil (hr : Records h []) (ppm : UInt64) :
    h.quantilePpm ppm = 0 ∧ h.min = 0 ∧ h.max = 0 := by
  have htotal : h.total = 0 := UInt64.toNat_inj.mp hr.total
  have hmax : h.maxValue = 0 := UInt64.toNat_inj.mp (List.mem_singleton.mp hr.max_mem)
  refine ⟨?_, ?_, hmax⟩
  · rw [LatencyHistogram.quantilePpm, if_pos htotal]
  · rw [LatencyHistogram.min, if_neg (not_not.mpr htotal)]

/-- No value is above the tracked range. -/
theorem Records.max_lt (hr : Records h vs) : h.max.toNat < 2 ^ 40 := by
  rcases List.mem_cons.mp hr.max_mem with hzero | hmem
  · unfold LatencyHistogram.max
    omega
  · obtain ⟨v, -, hv⟩ := List.mem_map.mp hmem
    have hcut : clamp v ≤ kMaxValue.toNat := Nat.min_le_right _ _
    have hmax : kMaxValue.toNat < 2 ^ 40 := by decide
    unfold LatencyHistogram.max
    omega

/-- If no value is above all those of another histogram, the largest one is not either. -/
theorem Records.max_le (hr : Records h vs) (hr' : Records h' vs')
    (hle : ∀ v ∈ vs, ∃ w ∈ vs', v ≤ w) : h.max ≤ h'.max := by
  rw [UInt64.le_iff_toNat_le]
  rcases List.mem_cons.mp hr.max_mem with hzero | hmem
  · exact hzero.le.trans (Nat.zero_le _)
  · obtain ⟨v, hv, hclamp⟩ := List.mem_map.mp hmem
    obtain ⟨w, hw, hvw⟩ := hle v hv
    calc h.max.toNat = clamp v := hclamp.symm
      _ ≤ clamp w := min_le_min_right _ (UInt64.le_iff_toNat_le.mp hvw)
      _ ≤ h'.max.toNat := hr'.le_max _ (List.mem_map_of_mem hw)

/-- Measurements that are larger one by one have larger quantiles and extremes. -/
theorem Records.quantiles_le (hr : Records h vs) (hr' : Records h' vs') (hlen : vs.length < 2 ^ 64)
    (hle : List.Forall₂ (· ≤ ·) vs vs') :
    (∀ ppm ≤ 1000000, h.quantilePpm ppm ≤ h'.quantilePpm ppm) ∧ h.min ≤ h'.min ∧
      h.max ≤ h'.max := by
  have hlength := hle.length_eq
  by_cases hne : vs = []
  · subst hne
    have h0 := hr.of_nil
    refine ⟨fun ppm _ => ?_, ?_, ?_⟩
    · rw [(h0 ppm).1]
      exact UInt64.zero_le
    · rw [(h0 0).2.1]
      exact UInt64.zero_le
    · rw [(h0 0).2.2]
      exact UInt64.zero_le
  have hne' : vs' ≠ [] := by
    intro hnil
    rw [hnil] at hlength
    exact hne (List.eq_nil_of_length_eq_zero hlength)
  have hmax : h.max ≤ h'.max := hr.max_le hr' fun v hv =>
    OrderStatistics.exists_mem_left hle.flip hv
  refine ⟨fun ppm hppm => ?_, ?_, hmax⟩
  · obtain ⟨x, hx, hmem, hq⟩ := hr.quantilePpm hlen hne hppm
    obtain ⟨y, hy, hmem', hq'⟩ := hr'.quantilePpm (hlength ▸ hlen) hne' hppm
    rw [← hlength] at hy
    have hxy := OrderStatistics.atRank_le_atRank (clamped_le hle) (Nat.le_max_left _ _) hx hy
    rw [UInt64.le_iff_toNat_le, hq, hq']
    refine min_le_min ?_ (UInt64.le_iff_toNat_le.mp hmax)
    rw [toNat_bucketUpper (bucketOf_lt hmem), toNat_bucketUpper (bucketOf_lt hmem'),
      toNat_bucketOf, toNat_bucketOf]
    exact LogLinear.upper_bucket_mono hxy
  · obtain ⟨hmem, -⟩ := hr'.min_spec hne'
    obtain ⟨x, hx, hxy⟩ := OrderStatistics.exists_mem_left (clamped_le hle) hmem
    exact UInt64.le_iff_toNat_le.mpr (((hr.min_spec hne).2 x hx).trans hxy)

/-- The columns of a row before they are converted: the smallest value, the quantiles and the
largest value. -/
theorem Records.columns (hr : Records h vs) (hlen : vs.length < 2 ^ 64) {ppm ppm' : UInt64}
    (hle : ppm ≤ ppm') (hppm' : ppm' ≤ 1000000) :
    h.min ≤ h.quantilePpm ppm ∧ h.quantilePpm ppm ≤ h.quantilePpm ppm' ∧
      h.quantilePpm ppm' ≤ h.max := by
  by_cases hne : vs = []
  · subst hne
    rw [(hr.of_nil ppm).1, (hr.of_nil ppm').1, (hr.of_nil 0).2.1, (hr.of_nil 0).2.2]
    exact ⟨UInt64.le_refl 0, UInt64.le_refl 0, UInt64.le_refl 0⟩
  obtain ⟨x, hx, hmem, hq⟩ := hr.quantilePpm hlen hne (UInt64.le_trans hle hppm')
  obtain ⟨y, hy, hmem', hq'⟩ := hr.quantilePpm hlen hne hppm'
  have hxy := OrderStatistics.atRank_mono
    (rankAt_mono (UInt64.le_iff_toNat_le.mp hle) vs.length) hx hy
  have hmin : h.min ≤ x := UInt64.le_iff_toNat_le.mpr ((hr.min_spec hne).2 _ hmem)
  refine ⟨UInt64.le_trans hmin (hr.quantile_bounds hmem hq).1, ?_, ?_⟩
  · rw [UInt64.le_iff_toNat_le, hq, hq']
    exact min_le_min_right _ (bucketUpper_mono hmem hmem' hxy)
  · exact (hr.quantile_bounds hmem' hq').2.2.2

end Order

end LatencyHistogram

/-! ## Nanoseconds -/

section Calibration

variable {cal : StampCalibration}

/-- A calibration that `calibrate_stamps` can return. -/
def StampCalibration.Measured (cal : StampCalibration) : Prop :=
  ∃ n0 t0 t1 readings, calibrateStamps kCalibrationWindowNs n0 t0 t1 readings = some cal

/-- A calibration for which the tracked values have nanoseconds that fit: a tick takes less than
2 ^ 24 ns. -/
def StampCalibration.Usable (cal : StampCalibration) : Prop :=
  cal.ns.toNat < 2 ^ 24 * cal.ticks.toNat

instance : Decidable cal.Usable := inferInstanceAs (Decidable (_ < _))

/-- The stamp clock has moved. -/
theorem StampCalibration.Usable.ticks_ne_zero (hcal : cal.Usable) : cal.ticks ≠ 0 := by
  intro hzero
  unfold StampCalibration.Usable at hcal
  rw [hzero] at hcal
  exact absurd hcal (Nat.not_lt_zero _)

/-- `to_ns` of a tracked value is exact up to the remainder of the division. -/
theorem StampCalibration.Usable.toNs (hcal : cal.Usable) {t : UInt64} (ht : t.toNat < 2 ^ 40) :
    ∃ ns, cal.toNs t = some ns ∧ ns.toNat = t.toNat * cal.ns.toNat / cal.ticks.toNat := by
  have hns := cal.ns.toNat_lt
  have hticks := cal.ticks.toNat_lt
  have hpos : 0 < cal.ticks.toNat := by
    refine Nat.pos_of_ne_zero fun hzero => hcal.ticks_ne_zero (UInt64.toNat_inj.mp hzero)
  have hprod : t.toNat * cal.ns.toNat < 2 ^ 40 * 2 ^ 64 := Nat.mul_lt_mul'' ht hns
  have hquot : t.toNat * cal.ns.toNat / cal.ticks.toNat < 2 ^ 64 := by
    refine Nat.div_lt_of_lt_mul ?_
    calc t.toNat * cal.ns.toNat ≤ t.toNat * (2 ^ 24 * cal.ticks.toNat) :=
          Nat.mul_le_mul_left _ hcal.le
      _ = cal.ticks.toNat * (t.toNat * 2 ^ 24) := by ring
      _ < cal.ticks.toNat * 2 ^ 64 := Nat.mul_lt_mul_of_pos_left (by omega) hpos
  unfold StampCalibration.toNs
  rw [if_neg hcal.ticks_ne_zero]
  refine ⟨_, rfl, ?_⟩
  rw [UInt64.toNat_ofBitVec, BitVec.toNat_setWidth, BitVec.toNat_udiv, BitVec.toNat_mul,
    BitVec.toNat_setWidth, BitVec.toNat_setWidth, BitVec.toNat_setWidth, UInt64.toNat_toBitVec,
    UInt64.toNat_toBitVec, UInt64.toNat_toBitVec, Nat.mod_eq_of_lt (a := t.toNat) (by omega),
    Nat.mod_eq_of_lt (a := cal.ns.toNat) (by omega),
    Nat.mod_eq_of_lt (a := cal.ticks.toNat) (by omega),
    Nat.mod_eq_of_lt (a := t.toNat * cal.ns.toNat) (by omega), Nat.mod_eq_of_lt hquot]

/-- `to_ns` keeps the order of tracked values. -/
theorem StampCalibration.Usable.toNs_mono (hcal : cal.Usable) {t t' ns ns' : UInt64}
    (ht' : t'.toNat < 2 ^ 40) (hle : t ≤ t') (hns : cal.toNs t = some ns)
    (hns' : cal.toNs t' = some ns') : ns ≤ ns' := by
  rw [UInt64.le_iff_toNat_le] at hle ⊢
  obtain ⟨_, h, heq⟩ := hcal.toNs (Nat.lt_of_le_of_lt hle ht')
  obtain ⟨_, h', heq'⟩ := hcal.toNs ht'
  obtain rfl := Option.some_inj.mp (hns.symm.trans h)
  obtain rfl := Option.some_inj.mp (hns'.symm.trans h')
  rw [heq, heq']
  exact Nat.div_le_div_right (Nat.mul_le_mul_right _ hle)

/-- The calibration that `calibrate_stamps` returns: at least the window has passed, so that `mhz`
does not divide by zero. -/
theorem calibrateStamps_window {windowNs n0 t0 t1 : UInt64} {readings : List UInt64}
    (h : calibrateStamps windowNs n0 t0 t1 readings = some cal) :
    cal.ticks = t1 - t0 ∧ windowNs ≤ cal.ns ∧ ∃ n1 ∈ readings, cal.ns = n1 - n0 := by
  induction readings with
  | nil => cases h
  | cons n1 readings ih =>
      rw [calibrateStamps] at h
      split at h
      · obtain ⟨hticks, hns, n, hn, heq⟩ := ih h
        exact ⟨hticks, hns, n, List.mem_cons_of_mem _ hn, heq⟩
      · next hge =>
          cases h
          exact ⟨rfl, UInt64.not_lt.mp hge, n1, List.mem_cons_self, rfl⟩

/-- The stamp clock has a frequency in MHz. -/
theorem StampCalibration.Measured.mhz (hcal : cal.Measured) : ∃ mhz, cal.mhz = some mhz := by
  obtain ⟨n0, t0, t1, readings, h⟩ := hcal
  obtain ⟨-, hwindow, -⟩ := calibrateStamps_window h
  refine ⟨_, if_neg fun hzero => ?_⟩
  rw [hzero] at hwindow
  exact absurd hwindow (by decide)

end Calibration

/-- The columns of a row ascend. -/
structure LatencyRow.Ascending (row : LatencyRow) : Prop where
  min : row.min ≤ row.p50
  p50 : row.p50 ≤ row.p99
  p99 : row.p99 ≤ row.p999
  p999 : row.p999 ≤ row.p9999
  p9999 : row.p9999 ≤ row.max

/-- The columns of one row are not above those of another. -/
structure LatencyRow.Below (row row' : LatencyRow) : Prop where
  min : row.min ≤ row'.min
  p50 : row.p50 ≤ row'.p50
  p99 : row.p99 ≤ row'.p99
  p999 : row.p999 ≤ row'.p999
  p9999 : row.p9999 ≤ row'.p9999
  max : row.max ≤ row'.max

section Rows

open LatencyHistogram

variable {h h' : LatencyHistogram} {vs vs' : List UInt64} {cal : StampCalibration}

/-- A row holds the converted values. -/
structure LatencyRow.Of (cal : StampCalibration) (h : LatencyHistogram) (row : LatencyRow) :
    Prop where
  count : row.count = h.count
  min : cal.toNs h.min = some row.min
  p50 : cal.toNs (h.quantilePpm 500000) = some row.p50
  p99 : cal.toNs (h.quantilePpm 990000) = some row.p99
  p999 : cal.toNs (h.quantilePpm 999000) = some row.p999
  p9999 : cal.toNs (h.quantilePpm 999900) = some row.p9999
  max : cal.toNs h.max = some row.max

/-- No column is above the tracked range. -/
theorem LatencyHistogram.Records.column_lt (hr : Records h vs) (hlen : vs.length < 2 ^ 64)
    {ppm : UInt64} (hppm : ppm ≤ 1000000) :
    h.min.toNat < 2 ^ 40 ∧ (h.quantilePpm ppm).toNat < 2 ^ 40 := by
  obtain ⟨hmin, -, hmax⟩ := hr.columns hlen (UInt64.le_refl ppm) hppm
  rw [UInt64.le_iff_toNat_le] at hmin hmax
  have hlt := hr.max_lt
  omega

/-- There is a row for every histogram. -/
theorem LatencyHistogram.Records.row (hr : Records h vs) (hlen : vs.length < 2 ^ 64)
    (hcal : cal.Usable) : ∃ row, latencyRow h cal = some row ∧ row.Of cal h := by
  have hcolumn : ∀ ppm ≤ 1000000, (h.quantilePpm ppm).toNat < 2 ^ 40 := fun ppm hppm =>
    (hr.column_lt hlen hppm).2
  obtain ⟨min, hmin, -⟩ := hcal.toNs (hr.column_lt hlen (UInt64.le_refl 1000000)).1
  obtain ⟨p50, hp50, -⟩ := hcal.toNs (hcolumn 500000 (by decide))
  obtain ⟨p99, hp99, -⟩ := hcal.toNs (hcolumn 990000 (by decide))
  obtain ⟨p999, hp999, -⟩ := hcal.toNs (hcolumn 999000 (by decide))
  obtain ⟨p9999, hp9999, -⟩ := hcal.toNs (hcolumn 999900 (by decide))
  obtain ⟨max, hmax, -⟩ := hcal.toNs hr.max_lt
  refine ⟨⟨h.count, min, p50, p99, p999, p9999, max⟩, ?_, rfl, hmin, hp50, hp99, hp999, hp9999,
    hmax⟩
  rw [latencyRow, hmin, hp50, hp99, hp999, hp9999, hmax]
  rfl

/-- The columns of the row of a histogram ascend. -/
theorem LatencyHistogram.Records.row_ascending (hr : Records h vs) (hlen : vs.length < 2 ^ 64)
    (hcal : cal.Usable) {row : LatencyRow} (hrow : row.Of cal h) : row.Ascending := by
  have hcolumn : ∀ ppm ≤ 1000000, (h.quantilePpm ppm).toNat < 2 ^ 40 := fun ppm hppm =>
    (hr.column_lt hlen hppm).2
  have hstep : ∀ ppm ppm', ppm ≤ ppm' → ppm' ≤ 1000000 →
      h.quantilePpm ppm ≤ h.quantilePpm ppm' := fun ppm ppm' hle hppm' =>
    (hr.columns hlen hle hppm').2.1
  refine ⟨?_, ?_, ?_, ?_, ?_⟩
  · exact hcal.toNs_mono (hcolumn 500000 (by decide))
      (hr.columns hlen (UInt64.le_refl 500000) (by decide)).1 hrow.min hrow.p50
  · exact hcal.toNs_mono (hcolumn 990000 (by decide)) (hstep _ _ (by decide) (by decide)) hrow.p50
      hrow.p99
  · exact hcal.toNs_mono (hcolumn 999000 (by decide)) (hstep _ _ (by decide) (by decide)) hrow.p99
      hrow.p999
  · exact hcal.toNs_mono (hcolumn 999900 (by decide)) (hstep _ _ (by decide) (by decide)) hrow.p999
      hrow.p9999
  · exact hcal.toNs_mono hr.max_lt (hr.columns hlen (UInt64.le_refl 999900) (by decide)).2.2
      hrow.p9999 hrow.max

/-- The row of measurements that are larger one by one is not below in any column. -/
theorem LatencyHistogram.Records.row_below (hr : Records h vs) (hr' : Records h' vs')
    (hlen : vs.length < 2 ^ 64) (hle : List.Forall₂ (· ≤ ·) vs vs') (hcal : cal.Usable)
    {row row' : LatencyRow} (hrow : row.Of cal h) (hrow' : row'.Of cal h') : row.Below row' := by
  obtain ⟨hquantile, hmin, hmax⟩ := hr.quantiles_le hr' hlen hle
  have hlen' : vs'.length < 2 ^ 64 := by rwa [← hle.length_eq]
  have hcolumn : ∀ ppm ≤ 1000000, (h'.quantilePpm ppm).toNat < 2 ^ 40 := fun ppm hppm =>
    (hr'.column_lt hlen' hppm).2
  refine ⟨?_, ?_, ?_, ?_, ?_, ?_⟩
  · exact hcal.toNs_mono (hr'.column_lt hlen' (UInt64.le_refl 1000000)).1 hmin hrow.min hrow'.min
  · exact hcal.toNs_mono (hcolumn 500000 (by decide)) (hquantile _ (by decide)) hrow.p50 hrow'.p50
  · exact hcal.toNs_mono (hcolumn 990000 (by decide)) (hquantile _ (by decide)) hrow.p99 hrow'.p99
  · exact hcal.toNs_mono (hcolumn 999000 (by decide)) (hquantile _ (by decide)) hrow.p999 hrow'.p999
  · exact hcal.toNs_mono (hcolumn 999900 (by decide)) (hquantile _ (by decide)) hrow.p9999
      hrow'.p9999
  · exact hcal.toNs_mono hr'.max_lt hmax hrow.max hrow'.max

end Rows

end LimitOrderBook
