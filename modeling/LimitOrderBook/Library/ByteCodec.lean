import Mathlib.Data.Nat.Digits.Defs

/-!
# Fixed-width integers and records as bytes

Little-endian integers of a fixed width, and arrays of records of one size. Reading inverts writing
on values of the width (`ofLeBytes_leBytes`); the records of an array are cut apart again whatever
bytes follow it (`cut_flatMap`).
-/

namespace ByteCodec

/-- The value as `width` bytes, the lowest first. Higher bytes of the value are dropped. -/
def leBytes : Nat → Nat → List UInt8
  | 0, _ => []
  | width + 1, value => UInt8.ofNat value :: leBytes width (value / 256)

/-- The value of a string of bytes, the lowest first. -/
def ofLeBytes (bytes : List UInt8) : Nat :=
  Nat.ofDigits 256 (bytes.map UInt8.toNat)

/-- The first `count` records of `size` bytes each. -/
def cut (size : Nat) : Nat → List UInt8 → List (List UInt8)
  | 0, _ => []
  | count + 1, bytes => bytes.take size :: cut size count (bytes.drop size)

@[simp] theorem length_leBytes (width value : Nat) : (leBytes width value).length = width := by
  induction width generalizing value with
  | zero => rfl
  | succ width ih => simp [leBytes, ih]

/-- The first byte of a string counts once, the others 256 times. -/
theorem ofLeBytes_cons (b : UInt8) (bytes : List UInt8) :
    ofLeBytes (b :: bytes) = b.toNat + 256 * ofLeBytes bytes := rfl

/-- Reading back gives the value reduced to the width. -/
theorem ofLeBytes_leBytes (width value : Nat) :
    ofLeBytes (leBytes width value) = value % 256 ^ width := by
  induction width generalizing value with
  | zero => rw [pow_zero, Nat.mod_one]; rfl
  | succ width ih =>
      have hbyte : (UInt8.ofNat value).toNat = value % 256 := by simp
      rw [leBytes, ofLeBytes_cons, ih, hbyte, pow_succ, Nat.mul_comm (256 ^ width) 256,
        Nat.mod_mul]

/-- A string of `n` bytes has a value below `256 ^ n`. -/
theorem ofLeBytes_lt (bytes : List UInt8) : ofLeBytes bytes < 256 ^ bytes.length := by
  have hbound := Nat.ofDigits_lt_base_pow_length (b := 256) (l := bytes.map UInt8.toNat)
    (by decide) (fun x hx => by
      obtain ⟨b, -, rfl⟩ := List.mem_map.mp hx
      exact b.toNat_lt)
  rwa [List.length_map] at hbound

@[simp] theorem length_cut (size count : Nat) (bytes : List UInt8) :
    (cut size count bytes).length = count := by
  induction count generalizing bytes with
  | zero => rfl
  | succ count ih => rw [cut, List.length_cons, ih]

section Records

variable {α : Type*} {size : Nat} {encode : α → List UInt8}

/-- An array of records takes `size` bytes for each. -/
theorem length_flatMap (hsize : ∀ a, (encode a).length = size) (l : List α) :
    (l.flatMap encode).length = size * l.length := by
  induction l with
  | nil => simp
  | cons a l ih => rw [List.flatMap_cons, List.length_append, hsize, ih, List.length_cons]; ring

/-- Cutting an array apart gives its records, whatever follows it. -/
theorem cut_flatMap (hsize : ∀ a, (encode a).length = size) (l : List α) (tail : List UInt8) :
    cut size l.length (l.flatMap encode ++ tail) = l.map encode := by
  induction l with
  | nil => rfl
  | cons a l ih =>
      rw [List.flatMap_cons, List.append_assoc, List.length_cons, cut, List.map_cons,
        List.take_left' (hsize a), List.drop_left' (hsize a), ih]

end Records

end ByteCodec
