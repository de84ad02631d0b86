import Mathlib.Algebra.Order.Ring.Nat
import Mathlib.Tactic.Common
import Mathlib.Tactic.Ring

/-!
# Log-linear buckets

A partition of the natural numbers into intervals: every power-of-two octave is cut into `2 ^ m`
intervals of equal width. Numbers below `2 ^ (m + 1)` have an interval of their own, and a larger
number shares its interval with numbers that differ from it by less than one part in `2 ^ m`.
`bucket` numbers the intervals from below and `upper` is the last number of an interval.
-/

namespace LogLinear

/-- The number of low bits that the bucket of `v` drops. -/
def shift (m v : Nat) : Nat := v.log2 - m

/-- The index of the bucket of `v`. -/
def bucket (m v : Nat) : Nat := shift m v * 2 ^ m + v / 2 ^ shift m v

/-- The largest number of bucket `i`. -/
def upper (m i : Nat) : Nat :=
  if i < 2 ^ m then i else (2 ^ m + i % 2 ^ m + 1) * 2 ^ (i / 2 ^ m - 1) - 1

variable {m v w : Nat}

/-! ## Leading bits -/

/-- A number below `2 ^ (m + 1)` keeps all its bits. -/
theorem shift_eq_zero (h : v < 2 ^ (m + 1)) : shift m v = 0 := by
  by_cases hv : v = 0
  · simp [shift, hv]
  · have hlog := (Nat.log2_lt hv).mpr h
    unfold shift
    omega

/-- A larger number has `m + 1` bits and those that are dropped. -/
theorem log2_eq_shift (h : 2 ^ (m + 1) ≤ v) : v.log2 = m + shift m v := by
  have hv : v ≠ 0 := Nat.ne_of_gt (lt_of_lt_of_le (Nat.two_pow_pos _) h)
  have hlog := (Nat.le_log2 hv).mpr h
  unfold shift
  omega

/-- Larger numbers drop at least as many bits. -/
theorem shift_mono (h : v ≤ w) : shift m v ≤ shift m w := by
  by_cases hv : v = 0
  · simp [shift, hv]
  · have hlog : v.log2 ≤ w.log2 := (Nat.le_log2 (by omega)).mpr ((Nat.log2_self_le hv).trans h)
    unfold shift
    omega

/-- What is left has at most `m + 1` bits. -/
theorem leading_lt (m v : Nat) : v / 2 ^ shift m v < 2 ^ (m + 1) := by
  by_cases h : v < 2 ^ (m + 1)
  · rwa [shift_eq_zero h, pow_zero, Nat.div_one]
  · have hlt := Nat.lt_log2_self (n := v)
    rw [log2_eq_shift (not_lt.mp h)] at hlt
    rw [Nat.div_lt_iff_lt_mul (Nat.two_pow_pos _), ← pow_add]
    rwa [show m + 1 + shift m v = m + shift m v + 1 by omega]

/-- If bits are dropped, what is left has all its bits. -/
theorem le_leading (h : 0 < shift m v) : 2 ^ m ≤ v / 2 ^ shift m v := by
  have hlarge : 2 ^ (m + 1) ≤ v := by
    by_contra hlt
    rw [shift_eq_zero (not_le.mp hlt)] at h
    exact lt_irrefl 0 h
  have hv : v ≠ 0 := Nat.ne_of_gt (lt_of_lt_of_le (Nat.two_pow_pos _) hlarge)
  have hle := Nat.log2_self_le hv
  rw [log2_eq_shift hlarge, pow_add] at hle
  exact (Nat.le_div_iff_mul_le (Nat.two_pow_pos _)).mpr hle

/-! ## Buckets -/

/-- A number below `2 ^ (m + 1)` is its own bucket. -/
theorem bucket_eq_self (h : v < 2 ^ (m + 1)) : bucket m v = v := by
  unfold bucket
  rw [shift_eq_zero h, zero_mul, zero_add, pow_zero, Nat.div_one]

/-- Larger numbers are in the same bucket or in a later one. -/
theorem bucket_mono (h : v ≤ w) : bucket m v ≤ bucket m w := by
  unfold bucket
  rcases (shift_mono h : shift m v ≤ shift m w).eq_or_lt with heq | hlt
  · rw [heq]
    exact Nat.add_le_add_left (Nat.div_le_div_right h) _
  · -- one more bit is dropped, and this moves the index by at least one octave
    have hv := leading_lt m v
    have hw : 2 ^ m ≤ w / 2 ^ shift m w := le_leading (by omega)
    have hoctave : (shift m v + 1) * 2 ^ m ≤ shift m w * 2 ^ m := Nat.mul_le_mul_right _ hlt
    rw [Nat.add_mul, Nat.one_mul] at hoctave
    rw [pow_succ] at hv
    omega

/-- The numbers with at most `b` bits need this many buckets. -/
theorem bucket_lt {b : Nat} (hb : m < b) (h : v < 2 ^ b) : bucket m v < (b - m + 1) * 2 ^ m := by
  have hlead := leading_lt m v
  have hshift : shift m v ≤ b - m - 1 := by
    by_cases hv : v = 0
    · simp [shift, hv]
    · have hlog := (Nat.log2_lt hv).mpr h
      unfold shift
      omega
  have hoctave : shift m v * 2 ^ m ≤ (b - m - 1) * 2 ^ m := Nat.mul_le_mul_right _ hshift
  unfold bucket
  calc shift m v * 2 ^ m + v / 2 ^ shift m v
      < (b - m - 1) * 2 ^ m + 2 ^ (m + 1) := by omega
    _ = (b - m - 1 + 2) * 2 ^ m := by ring
    _ = (b - m + 1) * 2 ^ m := by rw [show b - m - 1 + 2 = b - m + 1 by omega]

/-! ## Bounds of a bucket -/

/-- The bucket of `v` ends before the next multiple of its width. -/
theorem upper_bucket (m v : Nat) :
    upper m (bucket m v) = (v / 2 ^ shift m v + 1) * 2 ^ shift m v - 1 := by
  have hlead := leading_lt m v
  by_cases hzero : shift m v = 0
  · rw [hzero, pow_zero, Nat.div_one] at hlead
    rw [bucket_eq_self hlead, hzero, pow_zero, Nat.div_one, mul_one, Nat.add_sub_cancel]
    unfold upper
    split
    · rfl
    · next hge =>
        have hdiv : v / 2 ^ m = 1 :=
          Nat.div_eq_of_lt_le (by omega) (by rw [pow_succ] at hlead; omega)
        have hmod := Nat.div_add_mod v (2 ^ m)
        rw [hdiv, mul_one] at hmod
        rw [hdiv, hmod, Nat.sub_self, pow_zero, mul_one, Nat.add_sub_cancel]
  · have hle := le_leading (Nat.pos_of_ne_zero hzero)
    obtain ⟨sub, hsub⟩ : ∃ sub, v / 2 ^ shift m v = 2 ^ m + sub := ⟨_, (Nat.add_sub_of_le hle).symm⟩
    rw [hsub, pow_succ] at hlead
    have hsplit : bucket m v = sub + 2 ^ m * (shift m v + 1) := by
      unfold bucket
      rw [hsub]
      ring
    have hlt : sub < 2 ^ m := by omega
    have hdiv : bucket m v / 2 ^ m = shift m v + 1 := by
      rw [hsplit, Nat.add_mul_div_left _ _ (Nat.two_pow_pos m), Nat.div_eq_of_lt hlt, zero_add]
    have hmod : bucket m v % 2 ^ m = sub := by
      rw [hsplit, Nat.add_mul_mod_self_left, Nat.mod_eq_of_lt hlt]
    have hlarge : ¬ bucket m v < 2 ^ m := by
      intro hsmall
      rw [Nat.div_eq_of_lt hsmall] at hdiv
      omega
    unfold upper
    rw [if_neg hlarge, hdiv, hmod, hsub, Nat.add_sub_cancel]

/-- A number is not above its bucket. -/
theorem le_upper_bucket (m v : Nat) : v ≤ upper m (bucket m v) := by
  rw [upper_bucket]
  exact Nat.le_sub_one_of_lt
    ((Nat.div_lt_iff_lt_mul (Nat.two_pow_pos _)).mp (Nat.lt_succ_self _))

/-- The end of its bucket is within one part in `2 ^ m` of a number. -/
theorem upper_bucket_le (m v : Nat) : upper m (bucket m v) ≤ v + v / 2 ^ m := by
  by_cases hzero : shift m v = 0
  · rw [upper_bucket, hzero, pow_zero, Nat.div_one, mul_one, Nat.add_sub_cancel]
    exact Nat.le_add_right _ _
  · have hle := le_leading (Nat.pos_of_ne_zero hzero)
    have hfloor := Nat.div_mul_le_self v (2 ^ shift m v)
    have hwidth : 2 ^ shift m v ≤ v / 2 ^ m := by
      rw [Nat.le_div_iff_mul_le (Nat.two_pow_pos m), mul_comm]
      exact (Nat.mul_le_mul_right _ hle).trans hfloor
    have hpos := Nat.two_pow_pos (shift m v)
    rw [upper_bucket, Nat.add_mul, Nat.one_mul]
    omega

/-- A number below `2 ^ (m + 1)` is alone in its bucket. -/
theorem upper_bucket_eq (h : v < 2 ^ (m + 1)) : upper m (bucket m v) = v := by
  rw [upper_bucket, shift_eq_zero h, pow_zero, Nat.div_one, mul_one, Nat.add_sub_cancel]

/-- A larger number has the same end of its bucket or a later one. -/
theorem upper_bucket_mono (h : v ≤ w) : upper m (bucket m v) ≤ upper m (bucket m w) := by
  rcases (shift_mono h : shift m v ≤ shift m w).eq_or_lt with heq | hlt
  · rw [upper_bucket, upper_bucket, heq]
    exact Nat.sub_le_sub_right
      (Nat.mul_le_mul_right _ (Nat.succ_le_succ (Nat.div_le_div_right h))) 1
  · -- the bucket of `v` ends in an octave before that of `w`
    have hoctave : (v / 2 ^ shift m v + 1) * 2 ^ shift m v ≤ w :=
      calc (v / 2 ^ shift m v + 1) * 2 ^ shift m v
          ≤ 2 ^ (m + 1) * 2 ^ shift m v := Nat.mul_le_mul_right _ (leading_lt m v)
        _ = 2 ^ m * 2 ^ (shift m v + 1) := by ring
        _ ≤ w / 2 ^ shift m w * 2 ^ shift m w :=
            Nat.mul_le_mul (le_leading (by omega)) (Nat.pow_le_pow_right (by decide) hlt)
        _ ≤ w := Nat.div_mul_le_self _ _
    have hw := le_upper_bucket m w
    rw [upper_bucket m v]
    omega

end LogLinear
