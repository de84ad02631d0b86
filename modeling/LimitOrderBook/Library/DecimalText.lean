import Mathlib.Algebra.Order.Ring.Int
import Mathlib.Data.List.Basic
import Mathlib.Tactic.Common

/-!
# Decimal text

The decimal text of numbers, as a list of characters: natural numbers, signed integers, numbers of a
fixed width and numbers with a decimal point. A number can be read off its text, also if the text
goes on behind it with a character that no number has. Texts that begin with different words are
told apart by `Apart`.
-/

namespace DecimalText

/-- The text of a natural number. -/
def ofNat (n : Nat) : List Char := Nat.toDigits 10 n

/-- A text with its sign. -/
def signed (negative : Bool) (text : List Char) : List Char :=
  if negative then '-' :: text else text

/-- The text of an integer. -/
def ofInt (z : Int) : List Char := signed (z < 0) (ofNat z.natAbs)

/-- The text of a natural number, filled up to a width with zeros. -/
def padded (width n : Nat) : List Char := (ofNat n).leftpad width '0'

/-- The text of a number of units of `1 / 10 ^ places`. -/
def ofUnits (places units : Nat) : List Char :=
  ofNat (units / 10 ^ places) ++ '.' :: padded places (units % 10 ^ places)

variable {m n : Nat} {c : Char}

/-- Two texts can be told apart up to a character that neither of them has. -/
theorem append_cons_inj {xs : List Char} : ∀ {ys s t : List Char}, c ∉ xs → c ∉ ys →
    (xs ++ c :: s = ys ++ c :: t ↔ xs = ys ∧ s = t) := by
  induction xs with
  | nil =>
      intro ys s t _ hys
      cases ys with
      | nil => simp only [List.nil_append, List.cons.injEq, true_and]
      | cons y ys =>
          refine iff_of_false (fun h => hys ?_) (fun h => by cases h.1)
          rw [(List.cons.inj h).1]
          exact List.mem_cons_self
  | cons x xs ih =>
      intro ys s t hxs hys
      cases ys with
      | nil =>
          refine iff_of_false (fun h => hxs ?_) (fun h => by cases h.1)
          rw [← (List.cons.inj h).1]
          exact List.mem_cons_self
      | cons y ys =>
          rw [List.cons_append, List.cons_append, List.cons.injEq, List.cons.injEq,
            ih (fun h => hxs (List.mem_cons_of_mem _ h)) (fun h => hys (List.mem_cons_of_mem _ h)),
            and_assoc]

/-- The value of a text. -/
theorem ofDigitChars_ofNat (n : Nat) : Nat.ofDigitChars 10 (ofNat n) 0 = n :=
  Nat.ofDigitChars_ten_toDigits

/-- A natural number can be read off its text. -/
theorem ofNat_inj : ofNat m = ofNat n ↔ m = n := by
  refine ⟨fun h => ?_, fun h => h ▸ rfl⟩
  rw [← ofDigitChars_ofNat m, h, ofDigitChars_ofNat]

/-- The text of a natural number consists of digits. -/
theorem notMem_ofNat (hc : c.isDigit = false) : c ∉ ofNat n := by
  intro hmem
  have hdigit := Nat.isDigit_of_mem_toDigits (by decide) (by decide) hmem
  rw [hc] at hdigit
  cases hdigit

/-- A natural number can be read off its text if something else follows. -/
theorem ofNat_append_inj (hc : c.isDigit = false) {s t : List Char} :
    ofNat m ++ c :: s = ofNat n ++ c :: t ↔ m = n ∧ s = t := by
  rw [append_cons_inj (notMem_ofNat hc) (notMem_ofNat hc), ofNat_inj]

/-- A natural number can be read off its text if a word follows that begins with something else. -/
theorem ofNat_word_inj {word : List Char} (hc : c.isDigit = false) {s t : List Char} :
    ofNat m ++ (c :: word ++ s) = ofNat n ++ (c :: word ++ t) ↔ m = n ∧ s = t :=
  (ofNat_append_inj hc).trans (and_congr_right fun _ => List.append_right_inj word)

/-- A text and its sign can be told apart. -/
theorem signed_inj {negative negative' : Bool} {s t : List Char} (hs : '-' ∉ s) (ht : '-' ∉ t) :
    signed negative s = signed negative' t ↔ negative = negative' ∧ s = t := by
  cases negative with
  | false =>
      cases negative' with
      | false => exact (and_iff_right rfl).symm
      | true =>
          refine iff_of_false (fun h => hs ?_) (fun h => by cases h.1)
          have h : s = '-' :: t := h
          rw [h]
          exact List.mem_cons_self
  | true =>
      cases negative' with
      | false =>
          refine iff_of_false (fun h => ht ?_) (fun h => by cases h.1)
          have h : '-' :: s = t := h
          rw [← h]
          exact List.mem_cons_self
      | true => exact (List.cons_inj_right '-').trans (and_iff_right rfl).symm

/-- The sign is the only character that is added. -/
theorem notMem_signed {negative : Bool} {text : List Char} (hsign : c ≠ '-') (hc : c ∉ text) :
    c ∉ signed negative text := by
  unfold signed
  split
  · rw [List.mem_cons]
    exact not_or.mpr ⟨hsign, hc⟩
  · exact hc

/-- An integer can be read off its text. -/
theorem ofInt_inj {z w : Int} : ofInt z = ofInt w ↔ z = w := by
  unfold ofInt
  rw [signed_inj (notMem_ofNat (by decide)) (notMem_ofNat (by decide)), ofNat_inj,
    decide_eq_decide]
  omega

/-- The text of an integer consists of digits and a sign. -/
theorem notMem_ofInt {z : Int} (hc : c.isDigit = false) (hsign : c ≠ '-') : c ∉ ofInt z :=
  notMem_signed hsign (notMem_ofNat hc)

/-- The zeros in front do not change the value. -/
theorem ofDigitChars_padded (width n : Nat) : Nat.ofDigitChars 10 (padded width n) 0 = n := by
  rw [padded, List.leftpad, Nat.ofDigitChars_append, Nat.ofDigitChars_replicate_zero, Nat.mul_zero,
    ofDigitChars_ofNat]

/-- A number of units can be read off its text. -/
theorem ofUnits_inj {places units units' : Nat} :
    ofUnits places units = ofUnits places units' ↔ units = units' := by
  refine ⟨fun h => ?_, fun h => h ▸ rfl⟩
  obtain ⟨hquotient, htext⟩ := (ofNat_append_inj (by decide)).mp h
  have hrest : units % 10 ^ places = units' % 10 ^ places := by
    rw [← ofDigitChars_padded places (units % 10 ^ places), htext, ofDigitChars_padded]
  rw [← Nat.div_add_mod units (10 ^ places), hquotient, hrest, Nat.div_add_mod]

/-- The text of a number of units consists of digits and a point. -/
theorem notMem_ofUnits {places units : Nat} (hc : c.isDigit = false) (hpoint : c ≠ '.') :
    c ∉ ofUnits places units := by
  unfold ofUnits padded List.leftpad
  rw [List.mem_append, List.mem_cons, List.mem_append, List.mem_replicate]
  refine not_or.mpr ⟨notMem_ofNat hc, not_or.mpr ⟨hpoint, not_or.mpr ⟨fun hzero => ?_, ?_⟩⟩⟩
  · rw [hzero.2] at hc
    cases hc
  · exact notMem_ofNat hc

/-- A text that begins with a number and a word. -/
theorem ofNat_word_isPrefix {word : List Char} (hc : c.isDigit = false) {s t : List Char} :
    ofNat m ++ (c :: word ++ s) <+: ofNat n ++ (c :: word ++ t) ↔ m = n ∧ s <+: t := by
  constructor
  · intro h
    obtain ⟨rest, hrest⟩ := h
    rw [List.append_assoc, List.append_assoc] at hrest
    obtain ⟨hmn, hst⟩ := (ofNat_word_inj hc).mp hrest
    exact ⟨hmn, rest, hst⟩
  · intro h
    obtain ⟨rfl, rest, rfl⟩ := h
    exact ⟨rest, by simp only [List.append_assoc]⟩

/-! ## Words -/

/-- Neither word begins with the other. -/
def Apart (v w : List Char) : Prop := ¬ v <+: w ∧ ¬ w <+: v

instance {v w : List Char} : Decidable (Apart v w) := inferInstanceAs (Decidable (_ ∧ _))

/-- A text does not begin with one that begins with another word. -/
theorem Apart.isPrefixOf_eq_false {v w : List Char} (h : Apart v w) (s t : List Char) :
    (v ++ s).isPrefixOf (w ++ t) = false := by
  refine Bool.eq_false_iff.mpr fun hprefix => ?_
  have hv : v <+: w ++ t := (List.prefix_append v s).trans (List.isPrefixOf_iff_prefix.mp hprefix)
  rcases List.prefix_or_prefix_of_prefix hv (List.prefix_append w t) with hvw | hwv
  · exact h.1 hvw
  · exact h.2 hwv

end DecimalText
