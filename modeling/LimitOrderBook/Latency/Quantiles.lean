import LimitOrderBook.Latency.Histogram
import LimitOrderBook.Library.LogLinear
import LimitOrderBook.Library.OrderStatistics
import Mathlib.Algebra.Order.Floor.Div

/-!
# Quantiles of the latency histogram

The buckets are those of `LogLinear` with 128 of them in an octave, the counters count the values
that were recorded, cut off at `kMaxValue`, and the loop of `quantilePpm` stops at the bucket of the
value at the requested rank. A quantile is therefore never below the exact one and less than one
part in 128 above it.
-/

namespace LimitOrderBook

open OrderStatistics (atRank)

namespace LatencyHistogram

/-! ## Buckets -/

section Buckets

variable {v : UInt64}

/-- The position of the leading bit. -/
theorem log2_eq_clz (hv : v.toNat ≠ 0) :
    v.toBitVec.clz.toNat + v.toNat.log2 = 63 := by
  have hne : v.toBitVec ≠ 0#64 := fun hzero => hv (congrArg BitVec.toNat hzero)
  have hclz : v.toBitVec.clz.toNat < 64 := by
    have h := BitVec.clz_lt_iff_ne_zero.mpr hne
    rwa [BitVec.lt_def] at h
  have hlo : 2 ^ (64 - 1 - v.toBitVec.clz.toNat) ≤ v.toNat :=
    BitVec.two_pow_sub_clz_le_toNat_of_ne_zero (by decide) hne
  have hhi : v.toNat < 2 ^ (64 - v.toBitVec.clz.toNat) := BitVec.toNat_lt_two_pow_sub_clz
  have hlog := (Nat.log2_lt hv).mpr hhi
  have hlog' := (Nat.le_log2 hv).mpr hlo
  omega

/-- The number of bits that `bucketOf` drops. -/
theorem toNat_shift (hge : 256 ≤ v.toNat) :
    (63 - UInt32.ofNat v.toBitVec.clz.toNat - (kExactBits - 1)).toNat =
      LogLinear.shift 7 v.toNat := by
  have hclz := log2_eq_clz (v := v) (by omega)
  have hlog := LogLinear.log2_eq_shift (m := 7) hge
  have hmsb : 8 ≤ v.toNat.log2 := (Nat.le_log2 (by omega)).mpr hge
  have hc : (UInt32.ofNat v.toBitVec.clz.toNat).toNat = v.toBitVec.clz.toNat :=
    UInt32.toNat_ofNat_of_lt' (by rw [UInt32.size]; omega)
  generalize UInt32.ofNat v.toBitVec.clz.toNat = c at hc ⊢
  have hc63 : c.toNat ≤ (63 : UInt32).toNat := by
    show _ ≤ 63
    omega
  have h63 : (63 - c).toNat = 63 - c.toNat := UInt32.toNat_sub_of_le _ _ hc63
  have h7 : (kExactBits - 1).toNat ≤ (63 - c).toNat := by
    show 7 ≤ _
    omega
  rw [UInt32.toNat_sub_of_le _ _ h7, h63]
  show 63 - c.toNat - 7 = _
  omega

/-- `bucketOf` is the bucket of a log-linear partition. -/
theorem toNat_bucketOf (v : UInt64) : (bucketOf v).toNat = LogLinear.bucket 7 v.toNat := by
  have hexact : kExact.toNat = 256 := rfl
  have hsubBuckets : kSubBuckets.toNat = 128 := rfl
  unfold bucketOf
  split
  · next hlt =>
      rw [UInt64.lt_iff_toNat_lt, hexact] at hlt
      exact (LogLinear.bucket_eq_self hlt).symm
  · next hge =>
      rw [UInt64.lt_iff_toNat_lt, hexact, not_lt] at hge
      have hlog := LogLinear.log2_eq_shift (m := 7) hge
      have hmsb : 8 ≤ v.toNat.log2 := (Nat.le_log2 (by omega)).mpr hge
      have hmsb' : v.toNat.log2 < 64 := (Nat.log2_lt (by omega)).mpr v.toNat_lt
      have hlead := LogLinear.leading_lt 7 v.toNat
      have hlead' := LogLinear.le_leading (m := 7) (v := v.toNat) (by omega)
      have hshift := toNat_shift hge
      unfold LogLinear.bucket
      dsimp only
      -- with the shift and its position named, the rest is arithmetic without a carry
      generalize LogLinear.shift 7 v.toNat = s at hlog hlead hlead' hshift ⊢
      generalize 63 - UInt32.ofNat v.toBitVec.clz.toNat - (kExactBits - 1) = shift at hshift ⊢
      have hone : (1 : UInt32).toNat ≤ shift.toNat := by
        show 1 ≤ _
        omega
      have hoctave : (shift - 1).toNat = shift.toNat - 1 := UInt32.toNat_sub_of_le _ _ hone
      have hsub : (v >>> shift.toUInt64).toNat = v.toNat / 2 ^ s := by
        rw [UInt64.toNat_shiftRight, UInt32.toNat_toUInt64, hshift, Nat.mod_eq_of_lt (by omega),
          Nat.shiftRight_eq_div_pow]
      have hle : kSubBuckets.toNat ≤ (v >>> shift.toUInt64).toNat := by rwa [hsub]
      rw [UInt64.toNat_add, UInt64.toNat_add, UInt64.toNat_mul, UInt64.toNat_sub_of_le _ _ hle,
        UInt32.toNat_toUInt64, hoctave, hshift, hsub, hexact, hsubBuckets]
      omega

/-- The last value with the leading bits `sub`. -/
theorem toNat_last {sub : UInt64} {shift : UInt32} (hsub : sub.toNat < 256)
    (hshift : shift.toNat ≤ 32) :
    ((sub <<< shift.toUInt64) + ((1 <<< shift.toUInt64) - 1)).toNat =
      (sub.toNat + 1) * 2 ^ shift.toNat - 1 := by
  have hwidth : 2 ^ shift.toNat ≤ 2 ^ 32 := Nat.pow_le_pow_right (by decide) hshift
  have hpos : 1 ≤ 2 ^ shift.toNat := Nat.two_pow_pos _
  have hprod : sub.toNat * 2 ^ shift.toNat ≤ 256 * 2 ^ 32 := Nat.mul_le_mul hsub.le hwidth
  have hmod : shift.toUInt64.toNat % 64 = shift.toNat := by
    rw [UInt32.toNat_toUInt64]
    omega
  have hleft : (sub <<< shift.toUInt64).toNat = sub.toNat * 2 ^ shift.toNat := by
    rw [UInt64.toNat_shiftLeft, hmod, Nat.shiftLeft_eq]
    omega
  have hright : ((1 : UInt64) <<< shift.toUInt64).toNat = 2 ^ shift.toNat := by
    rw [UInt64.toNat_shiftLeft, hmod, Nat.shiftLeft_eq]
    show 1 * _ % 2 ^ 64 = _
    omega
  have hone : (1 : UInt64).toNat ≤ ((1 : UInt64) <<< shift.toUInt64).toNat := by rwa [hright]
  rw [UInt64.toNat_add, UInt64.toNat_sub_of_le _ _ hone, hleft, hright, Nat.add_mul, Nat.one_mul]
  show (_ + (_ - 1)) % 2 ^ 64 = _
  omega

/-- `bucketUpper` is the end of a bucket of a log-linear partition. -/
theorem toNat_bucketUpper {i : UInt64} (hi : i < kNumBuckets) :
    (bucketUpper i).toNat = LogLinear.upper 7 i.toNat := by
  have hexact : kExact.toNat = 256 := rfl
  have hsubBuckets : kSubBuckets.toNat = 128 := rfl
  replace hi : i.toNat < 4352 := UInt64.lt_iff_toNat_lt.mp hi
  unfold bucketUpper LogLinear.upper
  split
  · next hlt =>
      rw [UInt64.lt_iff_toNat_lt, hexact] at hlt
      split
      · rfl
      · next hge =>
          have hdiv : i.toNat / 2 ^ 7 = 1 := by omega
          rw [hdiv, Nat.sub_self, pow_zero, mul_one]
          omega
  · next hge =>
      rw [UInt64.lt_iff_toNat_lt, hexact, not_lt] at hge
      rw [if_neg (by omega)]
      dsimp only
      have hk : (i - kExact).toNat = i.toNat - 256 :=
        UInt64.toNat_sub_of_le _ _ hge
      have hshift : (((i - kExact) / kSubBuckets).toUInt32 + 1).toNat = i.toNat / 2 ^ 7 - 1 := by
        rw [UInt32.toNat_add, UInt64.toNat_toUInt32, UInt64.toNat_div, hk, hsubBuckets]
        show ((i.toNat - 256) / 128 % 2 ^ 32 + 1) % 2 ^ 32 = _
        omega
      have hsub : (kSubBuckets + (i - kExact) % kSubBuckets).toNat = 2 ^ 7 + i.toNat % 2 ^ 7 := by
        rw [UInt64.toNat_add, UInt64.toNat_mod, hk, hsubBuckets]
        omega
      rw [toNat_last (by omega) (by omega), hsub, hshift]

end Buckets

/-! ## Recorded values -/

/-- A counter does not wrap. -/
theorem toNat_succ {n : UInt64} {k : Nat} (hn : n.toNat ≤ k) (hk : k + 1 < 2 ^ 64) :
    (n + 1).toNat = n.toNat + 1 := by
  rw [UInt64.toNat_add]
  exact Nat.mod_eq_of_lt (by show _ + 1 < _; omega)

/-- The smaller of two words. -/
theorem toNat_smaller (v w : UInt64) :
    (if v < w then v else w).toNat = min v.toNat w.toNat := by
  split
  · next hlt => exact (Nat.min_eq_left (UInt64.lt_iff_toNat_lt.mp hlt).le).symm
  · next hge => exact (Nat.min_eq_right (UInt64.not_lt.mp hge)).symm

/-- The larger of two words. -/
theorem toNat_larger (v w : UInt64) :
    (if v > w then v else w).toNat = max v.toNat w.toNat := by
  split
  · next hgt => exact (Nat.max_eq_left (UInt64.lt_iff_toNat_lt.mp hgt).le).symm
  · next hle => exact (Nat.max_eq_right (UInt64.not_lt.mp hle)).symm

/-- The value that is counted for `v`. -/
def clamp (v : UInt64) : Nat := min v.toNat kMaxValue.toNat

/-- The values that are counted for a list. -/
def clamped (vs : List UInt64) : List Nat := vs.map clamp

/-- `record` counts the value that it cuts off. -/
theorem toNat_clamp (v : UInt64) : (if v > kMaxValue then kMaxValue else v).toNat = clamp v :=
  (toNat_smaller kMaxValue v).trans (Nat.min_comm _ _)

/-- A value that is counted has a bucket. -/
theorem bucket_clamp_lt (v : UInt64) : LogLinear.bucket 7 (clamp v) < 4352 := by
  have hlt : clamp v < 2 ^ 40 := Nat.lt_of_le_of_lt (Nat.min_le_right _ _) (by decide)
  exact LogLinear.bucket_lt (by decide) hlt

/-- The histogram after the values of a list. -/
structure Records (h : LatencyHistogram) (vs : List UInt64) : Prop where
  counts : ∀ i, (h.counts i).toNat = (clamped vs).countP fun x => LogLinear.bucket 7 x = i
  total : h.total.toNat = vs.length
  overflow : h.overflow.toNat = vs.countP fun v => kMaxValue < v
  min_le : ∀ x ∈ clamped vs, h.minValue.toNat ≤ x
  min_mem : h.minValue.toNat ∈ (2 ^ 64 - 1) :: clamped vs
  le_max : ∀ x ∈ clamped vs, x ≤ h.maxValue.toNat
  max_mem : h.maxValue.toNat ∈ 0 :: clamped vs

/-- The fresh histogram has counted nothing. -/
theorem fresh_records : Records {} [] where
  counts _ := rfl
  total := rfl
  overflow := rfl
  min_le _ hx := absurd hx List.not_mem_nil
  min_mem := List.mem_cons_self
  le_max _ hx := absurd hx List.not_mem_nil
  max_mem := List.mem_cons_self

section Records

variable {h : LatencyHistogram} {vs : List UInt64}

/-- `record` finds a counter for every value and counts it. -/
theorem Records.record (hr : Records h vs) (hlen : vs.length + 1 < 2 ^ 64) (v : UInt64) :
    ∃ h', h.record v = .ok h' ∧ Records h' (vs ++ [v]) := by
  have hclamp := toNat_clamp v
  have hcounted : clamped (vs ++ [v]) = clamped vs ++ [clamp v] := List.map_append
  have hlength : (clamped vs).length = vs.length := List.length_map _
  unfold LatencyHistogram.record
  dsimp only
  -- from here on only the value that is counted matters
  generalize (if v > kMaxValue then kMaxValue else v) = w at hclamp ⊢
  have hbucket : (bucketOf w).toNat = LogLinear.bucket 7 (clamp v) := by
    rw [toNat_bucketOf, hclamp]
  have hvalid : bucketOf w < kNumBuckets := by
    rw [UInt64.lt_iff_toNat_lt, hbucket]
    exact bucket_clamp_lt v
  rw [if_pos hvalid]
  refine ⟨_, rfl, ?_⟩
  constructor
  case counts =>
    intro i
    have hle : (h.counts i).toNat ≤ vs.length := by
      rw [hr.counts, ← hlength]
      exact List.countP_le_length
    rw [hcounted, List.countP_append, List.countP_singleton, hbucket, ← hr.counts]
    dsimp only
    by_cases hi : LogLinear.bucket 7 (clamp v) = i
    · subst hi
      rw [Function.update_self, toNat_succ hle hlen]
      simp
    · rw [Function.update_of_ne (Ne.symm hi)]
      simp [hi]
  case total =>
    rw [toNat_succ hr.total.le hlen, hr.total, List.length_append, List.length_singleton]
  case overflow =>
    rw [List.countP_append, List.countP_singleton, ← hr.overflow]
    split
    · next hgt =>
        have hle : h.overflow.toNat ≤ vs.length := by
          rw [hr.overflow]
          exact List.countP_le_length
        rw [toNat_succ hle hlen]
        simpa using hgt
    · next hle => simpa using hle
  case min_le =>
    rw [hcounted, toNat_smaller, hclamp]
    exact OrderStatistics.min_le_append hr.min_le
  case min_mem =>
    rw [hcounted, toNat_smaller, hclamp]
    exact OrderStatistics.min_mem_append hr.min_mem
  case le_max =>
    rw [hcounted, toNat_larger, hclamp]
    exact OrderStatistics.le_max_append hr.le_max
  case max_mem =>
    rw [hcounted, toNat_larger, hclamp]
    exact OrderStatistics.max_mem_append hr.max_mem

/-- A list of values is counted one by one. -/
theorem Records.recordAll (ws : List UInt64) :
    ∀ {h : LatencyHistogram} {vs : List UInt64}, Records h vs → vs.length + ws.length < 2 ^ 64 →
      ∃ h', h.recordAll ws = .ok h' ∧ Records h' (vs ++ ws) := by
  induction ws with
  | nil =>
      intro h vs hr _
      exact ⟨h, rfl, by rwa [List.append_nil]⟩
  | cons w ws ih =>
      intro h vs hr hlen
      rw [List.length_cons] at hlen
      obtain ⟨h₁, hrecord, hr₁⟩ := hr.record (by omega) w
      obtain ⟨h', hrun, hr'⟩ := ih hr₁ (by rw [List.length_append, List.length_singleton]; omega)
      rw [List.append_assoc, List.singleton_append] at hr'
      refine ⟨h', ?_, hr'⟩
      unfold LatencyHistogram.recordAll at hrun ⊢
      rw [List.foldlM_cons, hrecord]
      exact hrun

/-- The number of values is zero only if there are none. -/
theorem Records.total_ne_zero (hr : Records h vs) (hne : vs ≠ []) : h.total ≠ 0 := by
  intro hzero
  have hlength := hr.total
  rw [hzero] at hlength
  exact hne (List.eq_nil_of_length_eq_zero hlength.symm)

/-- `min` is the smallest value. -/
theorem Records.min_spec (hr : Records h vs) (hne : vs ≠ []) :
    h.min.toNat ∈ clamped vs ∧ ∀ x ∈ clamped vs, h.min.toNat ≤ x := by
  unfold LatencyHistogram.min
  rw [if_pos (hr.total_ne_zero hne)]
  refine ⟨?_, hr.min_le⟩
  rcases List.mem_cons.mp hr.min_mem with htop | hmem
  · -- no word is larger than the initial value
    obtain ⟨v, hv⟩ := List.exists_mem_of_ne_nil _ hne
    have hv' : clamp v ∈ clamped vs := List.mem_map_of_mem hv
    have hle := hr.min_le _ hv'
    have hlt := v.toNat_lt
    have hcut : clamp v ≤ v.toNat := Nat.min_le_left _ _
    rwa [show h.minValue.toNat = clamp v by omega]
  · exact hmem

/-- `max` is the largest value. -/
theorem Records.max_spec (hr : Records h vs) (hne : vs ≠ []) :
    h.max.toNat ∈ clamped vs ∧ ∀ x ∈ clamped vs, x ≤ h.max.toNat := by
  refine ⟨?_, hr.le_max⟩
  rcases List.mem_cons.mp hr.max_mem with hzero | hmem
  · obtain ⟨v, hv⟩ := List.exists_mem_of_ne_nil _ hne
    have hv' : clamp v ∈ clamped vs := List.mem_map_of_mem hv
    have hle := hr.le_max _ hv'
    have hmax : h.max.toNat = clamp v := by
      unfold LatencyHistogram.max
      omega
    rwa [hmax]
  · exact hmem

end Records

/-! ## Ranks -/

/-- The rank of a quantile in parts per million among `count` values. -/
def rankAt (ppm count : Nat) : Nat := max 1 ((ppm * count) ⌈/⌉ 1000000)

/-- A quantile in the range has a rank. -/
theorem rankAt_le {ppm count : Nat} (hppm : ppm ≤ 1000000) (hpos : 0 < count) :
    rankAt ppm count ≤ count := by
  have hle : ppm * count ≤ 1000000 * count := Nat.mul_le_mul_right _ hppm
  exact Nat.max_le.mpr ⟨hpos, (ceilDiv_le_iff_le_mul (by decide)).mpr hle⟩

/-- The rank grows with the quantile. -/
theorem rankAt_mono {ppm ppm' : Nat} (h : ppm ≤ ppm') (count : Nat) :
    rankAt ppm count ≤ rankAt ppm' count := by
  have hpos : 0 < 1000000 := by decide
  have hle : ppm * count ≤ ppm' * count := Nat.mul_le_mul_right _ h
  exact max_le_max le_rfl ((gc_mul_ceilDiv hpos).monotone_l hle)

/-- The last rank. -/
theorem rankAt_million {count : Nat} (hpos : 0 < count) : rankAt 1000000 count = count := by
  unfold rankAt
  rw [Nat.ceilDiv_eq_add_pred_div]
  omega

/-- The rank is computed without overflow. -/
theorem toNat_rankPpm (h : LatencyHistogram) {ppm : UInt64} (hppm : ppm ≤ 1000000) :
    (h.rankPpm ppm).toNat = rankAt ppm.toNat h.total.toNat := by
  have hppm' : ppm.toNat ≤ 1000000 := UInt64.le_iff_toNat_le.mp hppm
  have htotal := h.total.toNat_lt
  have hprod : h.total.toNat * ppm.toNat ≤ h.total.toNat * 1000000 := Nat.mul_le_mul_left _ hppm'
  -- the product of the count and the parts per million needs 84 bits at most
  have hnum : (h.total.toBitVec.setWidth 128 * ppm.toBitVec.setWidth 128).toNat =
      ppm.toNat * h.total.toNat := by
    rw [BitVec.toNat_mul, BitVec.toNat_setWidth, BitVec.toNat_setWidth, UInt64.toNat_toBitVec,
      UInt64.toNat_toBitVec, Nat.mod_eq_of_lt (a := h.total.toNat) (by omega),
      Nat.mod_eq_of_lt (a := ppm.toNat) (by omega), Nat.mod_eq_of_lt (by omega), mul_comm]
  unfold rankPpm rankAt
  dsimp only
  generalize h.total.toBitVec.setWidth 128 * ppm.toBitVec.setWidth 128 = num at hnum ⊢
  have hrank : (UInt64.ofBitVec (((num + 999999#128) / 1000000#128).setWidth 64)).toNat =
      (ppm.toNat * h.total.toNat) ⌈/⌉ 1000000 := by
    rw [UInt64.toNat_ofBitVec, BitVec.toNat_setWidth, BitVec.toNat_udiv, BitVec.toNat_add, hnum,
      Nat.ceilDiv_eq_add_pred_div]
    show (ppm.toNat * h.total.toNat + 999999) % 2 ^ 128 / 1000000 % 2 ^ 64 = _
    rw [mul_comm] at hprod
    omega
  generalize UInt64.ofBitVec (((num + 999999#128) / 1000000#128).setWidth 64) = rank at hrank ⊢
  rw [← hrank]
  split
  · next hzero =>
      rw [hzero]
      rfl
  · next hne =>
      have hpos : rank.toNat ≠ 0 := fun hzero => hne (UInt64.toNat_inj.mp hzero)
      exact (Nat.max_eq_right (Nat.one_le_iff_ne_zero.mpr hpos)).symm

/-! ## Quantiles -/

section Quantiles

variable {h : LatencyHistogram} {vs : List UInt64}

/-- A value that was counted has a bucket. -/
theorem bucketOf_lt {x : UInt64} (hx : x.toNat ∈ clamped vs) : bucketOf x < kNumBuckets := by
  obtain ⟨v, hv, hv'⟩ := List.mem_map.mp hx
  rw [UInt64.lt_iff_toNat_lt, toNat_bucketOf, ← hv']
  exact bucket_clamp_lt v

/-- The loop of `quantilePpm` stops at the bucket of the value at the rank. -/
theorem Records.quantileLoop (hr : Records h vs) (hlen : vs.length < 2 ^ 64) {rank : UInt64}
    (hpos : 0 < rank.toNat) {x : Nat} (hx : atRank (clamped vs) rank.toNat = some x)
    (hbucket : LogLinear.bucket 7 x < 4352) (fuel : Nat) :
    ∀ (i : Nat) (seen : UInt64), i + fuel = 4352 → i ≤ LogLinear.bucket 7 x →
      seen.toNat = (clamped vs).countP (fun y => LogLinear.bucket 7 y < i) →
      (h.quantileLoop rank fuel i seen).toNat =
        min (LogLinear.upper 7 (LogLinear.bucket 7 x)) h.max.toNat := by
  induction fuel with
  | zero =>
      intro i seen hend hle _
      omega
  | succ fuel ih =>
      intro i seen hend hle hseen
      -- `seen` is the number of values up to this bucket
      have hcount : (seen + h.counts i).toNat =
          (clamped vs).countP fun y => LogLinear.bucket 7 y ≤ i := by
        have hbound : (clamped vs).countP (fun y => LogLinear.bucket 7 y ≤ i) ≤ vs.length :=
          List.countP_le_length.trans (List.length_map _).le
        rw [OrderStatistics.countP_le, ← hseen, ← hr.counts] at hbound
        rw [OrderStatistics.countP_le, ← hseen, ← hr.counts, UInt64.toNat_add]
        exact Nat.mod_eq_of_lt (by omega)
      -- the loop stops here if and only if the value at the rank is not in a later bucket
      have hstop : seen + h.counts i ≥ rank ↔ LogLinear.bucket 7 x ≤ i := by
        rw [ge_iff_le, UInt64.le_iff_toNat_le, hcount]
        exact OrderStatistics.le_countP_iff (fun _ _ => LogLinear.bucket_mono) hpos hx i
      rw [LatencyHistogram.quantileLoop]
      split
      · next hge =>
          obtain rfl : i = LogLinear.bucket 7 x := le_antisymm hle (hstop.mp hge)
          have hi : (UInt64.ofNat (LogLinear.bucket 7 x)).toNat = LogLinear.bucket 7 x :=
            UInt64.toNat_ofNat_of_lt' (by rw [UInt64.size]; omega)
          have hvalid : UInt64.ofNat (LogLinear.bucket 7 x) < kNumBuckets := by
            rw [UInt64.lt_iff_toNat_lt, hi]
            exact hbucket
          rw [toNat_smaller, toNat_bucketUpper hvalid, hi]
          rfl
      · next hlt =>
          rw [hstop, not_le] at hlt
          refine ih (i + 1) _ (by omega) hlt ?_
          rw [hcount]
          exact List.countP_congr fun y _ => by
            rw [decide_eq_true_iff, decide_eq_true_iff, Nat.lt_succ_iff]

/-- A quantile is the end of the bucket of the exact one, but not more than the largest value. -/
theorem Records.quantilePpm (hr : Records h vs) (hlen : vs.length < 2 ^ 64) (hne : vs ≠ [])
    {ppm : UInt64} (hppm : ppm ≤ 1000000) :
    ∃ x : UInt64, atRank (clamped vs) (rankAt ppm.toNat vs.length) = some x.toNat ∧
      x.toNat ∈ clamped vs ∧
      (h.quantilePpm ppm).toNat = min (bucketUpper (bucketOf x)).toNat h.max.toNat := by
  have hrank := toNat_rankPpm h hppm
  rw [hr.total] at hrank
  have hpos : 0 < rankAt ppm.toNat vs.length := Nat.le_max_left _ _
  have hle : rankAt ppm.toNat vs.length ≤ (clamped vs).length := by
    rw [clamped, List.length_map]
    exact rankAt_le (UInt64.le_iff_toNat_le.mp hppm) (List.length_pos_iff.mpr hne)
  obtain ⟨x, hx⟩ := OrderStatistics.exists_atRank hpos hle
  have hmem := OrderStatistics.mem_of_atRank hx
  obtain ⟨v, hv, rfl⟩ := List.mem_map.mp hmem
  obtain ⟨w, hw⟩ : ∃ w : UInt64, w.toNat = clamp v := ⟨_, toNat_clamp v⟩
  rw [← hw] at hmem
  refine ⟨w, by rw [hw, hx], hmem, ?_⟩
  unfold LatencyHistogram.quantilePpm
  rw [if_neg (hr.total_ne_zero hne), toNat_bucketUpper (bucketOf_lt hmem), toNat_bucketOf, hw]
  rw [← hrank] at hpos hx
  exact hr.quantileLoop hlen hpos hx (bucket_clamp_lt v) _ 0 0 (by decide) (Nat.zero_le _)
    (by simp)

/-- The exact quantile is below the reported one, by less than one part in 128. -/
theorem Records.quantile_bounds (hr : Records h vs) {x q : UInt64} (hx : x.toNat ∈ clamped vs)
    (hq : q.toNat = min (bucketUpper (bucketOf x)).toNat h.max.toNat) :
    x ≤ q ∧ q.toNat ≤ x.toNat + x.toNat / 128 ∧ (x < 256 → q = x) ∧ q ≤ h.max := by
  rw [toNat_bucketUpper (bucketOf_lt hx), toNat_bucketOf] at hq
  have hmax : x.toNat ≤ h.max.toNat := hr.le_max _ hx
  have hlo := LogLinear.le_upper_bucket 7 x.toNat
  have hhi : LogLinear.upper 7 (LogLinear.bucket 7 x.toNat) ≤ x.toNat + x.toNat / 128 :=
    LogLinear.upper_bucket_le 7 x.toNat
  refine ⟨UInt64.le_iff_toNat_le.mpr (by omega), by omega, fun hsmall => ?_,
    UInt64.le_iff_toNat_le.mpr (by omega)⟩
  have hexact : x.toNat < 2 ^ (7 + 1) := UInt64.lt_iff_toNat_lt.mp hsmall
  rw [LogLinear.upper_bucket_eq hexact] at hq
  exact UInt64.toNat_inj.mp (by omega)

/-- A larger exact quantile is not reported as a smaller one. -/
theorem bucketUpper_mono {x y : UInt64} (hx : x.toNat ∈ clamped vs) (hy : y.toNat ∈ clamped vs)
    (hle : x.toNat ≤ y.toNat) :
    (bucketUpper (bucketOf x)).toNat ≤ (bucketUpper (bucketOf y)).toNat := by
  rw [toNat_bucketUpper (bucketOf_lt hx), toNat_bucketUpper (bucketOf_lt hy), toNat_bucketOf,
    toNat_bucketOf]
  exact LogLinear.upper_bucket_mono hle

/-- The last quantile is the largest value. -/
theorem Records.quantile_million (hr : Records h vs) (hne : vs ≠ []) {x q : UInt64}
    (hx : atRank (clamped vs) (rankAt 1000000 vs.length) = some x.toNat) (hlo : x ≤ q)
    (hhi : q ≤ h.max) : q = h.max := by
  have hlength : (clamped vs).length = vs.length := List.length_map _
  rw [rankAt_million (List.length_pos_iff.mpr hne), ← hlength] at hx
  have hmax := OrderStatistics.le_of_atRank_length hx (hr.max_spec hne).1
  rw [UInt64.le_iff_toNat_le] at hlo hhi
  exact UInt64.toNat_inj.mp (by omega)

end Quantiles

end LatencyHistogram

open LatencyHistogram in
/-- The quantiles of any list of recorded values: a quantile is never below the exact one, less than
one part in 128 above it, and not above the largest value. The smallest value, the largest one and
the number of values that were too large are exact. -/
theorem quantiles_honest {vs : List UInt64} (hne : vs ≠ []) (hlen : vs.length < 2 ^ 64) :
    ∃ h, recordAll {} vs = .ok h ∧
      (∀ v ∈ vs, bucketOf (UInt64.ofNat (clamp v)) < kNumBuckets) ∧
      (∀ ppm ≤ 1000000, ∃ x : UInt64,
        atRank (clamped vs) (rankAt ppm.toNat vs.length) = some x.toNat ∧
        (h.quantilePpm ppm).toNat = min (bucketUpper (bucketOf x)).toNat h.max.toNat ∧
        x ≤ h.quantilePpm ppm ∧ (h.quantilePpm ppm).toNat ≤ x.toNat + x.toNat / 128 ∧
        (x < 256 → h.quantilePpm ppm = x) ∧ h.quantilePpm ppm ≤ h.max) ∧
      (∀ ppm ppm', ppm ≤ ppm' → ppm' ≤ 1000000 → h.quantilePpm ppm ≤ h.quantilePpm ppm') ∧
      h.quantilePpm 1000000 = h.max ∧
      (h.min.toNat ∈ clamped vs ∧ ∀ x ∈ clamped vs, h.min.toNat ≤ x) ∧
      (h.max.toNat ∈ clamped vs ∧ ∀ x ∈ clamped vs, x ≤ h.max.toNat) ∧
      h.overflowCount.toNat = vs.countP fun v => kMaxValue < v := by
  obtain ⟨h, hrun, hr⟩ := fresh_records.recordAll vs (by simpa using hlen)
  rw [List.nil_append] at hr
  refine ⟨h, hrun, fun v hv => ?_, fun ppm hppm => ?_, fun ppm ppm' hle hppm' => ?_, ?_,
    hr.min_spec hne, hr.max_spec hne, hr.overflow⟩
  · rw [← toNat_clamp, UInt64.ofNat_toNat]
    have hmem : clamp v ∈ clamped vs := List.mem_map_of_mem hv
    rw [← toNat_clamp] at hmem
    exact bucketOf_lt hmem
  · obtain ⟨x, hx, hmem, hq⟩ := hr.quantilePpm hlen hne hppm
    exact ⟨x, hx, hq, hr.quantile_bounds hmem hq⟩
  · obtain ⟨x, hx, hmem, hq⟩ := hr.quantilePpm hlen hne (UInt64.le_trans hle hppm')
    obtain ⟨y, hy, hmem', hq'⟩ := hr.quantilePpm hlen hne hppm'
    have hxy := OrderStatistics.atRank_mono
      (rankAt_mono (UInt64.le_iff_toNat_le.mp hle) vs.length) hx hy
    rw [UInt64.le_iff_toNat_le, hq, hq']
    exact min_le_min_right _ (bucketUpper_mono hmem hmem' hxy)
  · obtain ⟨x, hx, hmem, hq⟩ := hr.quantilePpm hlen hne (UInt64.le_refl 1000000)
    obtain ⟨hlo, _, _, hhi⟩ := hr.quantile_bounds hmem hq
    exact hr.quantile_million hne hx hlo hhi

open LatencyHistogram in
/-- The median of three values, of which one is too large. -/
theorem quantiles_honest_three : ∃ h, recordAll {} [300, 0xFFFFFFFFFFFFFFFF, 5] = .ok h ∧
    h.quantilePpm 500000 = 301 ∧ h.quantilePpm 1000000 = kMaxValue ∧ h.min = 5 ∧
    h.overflowCount = 1 := by
  have hcounted : clamped [300, 0xFFFFFFFFFFFFFFFF, 5] = [300, 2 ^ 40 - 1, 5] := by decide
  obtain ⟨h, hrun, _, hquantile, _, hmillion, hmin, hmax, hoverflow⟩ :=
    @quantiles_honest [300, 0xFFFFFFFFFFFFFFFF, 5] (by decide) (by decide)
  obtain ⟨x, hx, hq, _⟩ := hquantile 500000 (by decide)
  rw [hcounted] at hx hmin hmax
  have hthree : h.max.toNat = 2 ^ 40 - 1 := by
    have hle := hmax.2 (2 ^ 40 - 1) (by decide)
    have hmem := hmax.1
    simp only [List.mem_cons, List.not_mem_nil, or_false] at hmem
    omega
  have hfive : h.min.toNat = 5 := by
    have hle := hmin.2 5 (by decide)
    have hmem := hmin.1
    simp only [List.mem_cons, List.not_mem_nil, or_false] at hmem
    omega
  have hmedian : x.toNat = 300 := by
    have heq : atRank [300, 2 ^ 40 - 1, 5] (rankAt (500000 : UInt64).toNat 3) = some 300 := by
      decide
    exact Option.some_inj.mp (hx.symm.trans heq)
  obtain rfl : x = 300 := UInt64.toNat_inj.mp hmedian
  rw [hthree] at hq
  exact ⟨h, hrun, UInt64.toNat_inj.mp hq, hmillion.trans (UInt64.toNat_inj.mp hthree),
    UInt64.toNat_inj.mp hfive, UInt64.toNat_inj.mp hoverflow⟩

end LimitOrderBook
