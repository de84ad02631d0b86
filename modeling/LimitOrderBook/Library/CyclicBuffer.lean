import Mathlib.Algebra.Group.Nat.Defs
import Mathlib.Data.List.Basic
import Mathlib.Logic.Function.Basic
import Mathlib.Tactic.Common

/-!
# Queues in a cyclic buffer

Items are numbered as they are put into a queue, and item `i` is kept in slot `i % cap`. Between
the number `r` of items taken out and the number `w` of items put in there are fewer than `cap`
items. `Holds` says that the buffer holds the items from number `r` on; a write to the slot of
item `w` does not touch them (`Holds.write`). The numbers may be kept in 32-bit counters that wrap
(`counter_slot`, `counter_distance`).
-/

namespace CyclicBuffer

section Slots

variable {cap r w : Nat}

/-- Masking with a power of two less one is reduction. -/
theorem and_pred_eq_mod (hcap : cap.isPowerOfTwo) (x : Nat) : x &&& (cap - 1) = x % cap := by
  obtain ⟨k, rfl⟩ := hcap
  exact Nat.and_two_pow_sub_one_eq_mod x k

/-- The numbers from `r` up to `w` have different slots if there are fewer than `cap` of them. -/
theorem mod_ne_mod (hrw : r < w) (hw : w < r + cap) : r % cap ≠ w % cap := by
  intro heq
  have hdvd : cap ∣ w - r := Nat.dvd_of_mod_eq_zero (Nat.sub_mod_eq_zero_of_mod_eq heq.symm)
  have hle := Nat.le_of_dvd (by omega) hdvd
  omega

/-- Numbers less than `cap` apart have the same slot exactly if they are the same. -/
theorem mod_eq_mod_iff (hrw : r ≤ w) (hw : w < r + cap) : r % cap = w % cap ↔ r = w := by
  refine ⟨fun heq => ?_, fun heq => by rw [heq]⟩
  by_contra hne
  exact mod_ne_mod (by omega) hw heq

/-- The queue is full exactly if the slot after the last one is the first one. -/
theorem full_iff (hrw : r ≤ w) (hw : w < r + cap) :
    (w + 1) % cap = r % cap ↔ w + 1 = r + cap := by
  refine ⟨fun heq => ?_, fun heq => by rw [heq, Nat.add_mod_right]⟩
  by_contra hne
  exact mod_ne_mod (show r < w + 1 by omega) (by omega) heq.symm

/-- The number of items is the distance between the slots. -/
theorem distance (hrw : r ≤ w) (hw : w < r + cap) :
    (w % cap + cap - r % cap) % cap = w - r := by
  have hr : r % cap < cap := Nat.mod_lt r (by omega)
  have hsplit : w % cap = (r % cap + (w - r)) % cap := by
    rw [Nat.mod_add_mod, Nat.add_sub_cancel' hrw]
  rcases Nat.lt_or_ge (r % cap + (w - r)) cap with hlt | hge
  · rw [hsplit, Nat.mod_eq_of_lt hlt, show r % cap + (w - r) + cap - r % cap = w - r + cap by omega,
      Nat.add_mod_right, Nat.mod_eq_of_lt (by omega)]
  · rw [hsplit, Nat.mod_eq_sub_mod hge,
      Nat.mod_eq_of_lt (show r % cap + (w - r) - cap < cap by omega),
      show r % cap + (w - r) - cap + cap - r % cap = w - r by omega, Nat.mod_eq_of_lt (by omega)]

end Slots

/-- The buffer holds the items of the list from number `r` on. -/
def Holds {T : Type} (cap : Nat) (buffer : Nat → T) (items : List T) (r : Nat) : Prop :=
  ∀ i x, r ≤ i → items[i]? = some x → buffer (i % cap) = x

/-- The slots of the items from number `r` on, where the first one is in slot `first` and there are
`count` of them. -/
def slotsFrom (cap first count : Nat) : List Nat :=
  (List.range count).map fun i => (first + i) % cap

namespace Holds

variable {T : Type} {cap r : Nat} {buffer : Nat → T} {items : List T}

/-- Writing the slot of the next item does not touch the items. -/
theorem write (h : Holds cap buffer items r) (hroom : items.length < r + cap) (x : T) :
    Holds cap (Function.update buffer (items.length % cap) x) items r := by
  intro i y hi hy
  obtain ⟨hlt, -⟩ := List.getElem?_eq_some_iff.mp hy
  rw [Function.update_of_ne (mod_ne_mod hlt (by omega))]
  exact h i y hi hy

/-- An item that has been written joins. -/
theorem push (h : Holds cap buffer items r) {x : T} (hx : buffer (items.length % cap) = x) :
    Holds cap buffer (items ++ [x]) r := by
  intro i y hi hy
  rcases Nat.lt_or_ge i items.length with hlt | hge
  · rw [List.getElem?_append_left hlt] at hy
    exact h i y hi hy
  · obtain ⟨hlt, hget⟩ := List.getElem?_eq_some_iff.mp hy
    have hlast : i = items.length := by
      rw [List.length_append, List.length_singleton] at hlt
      omega
    subst hlast
    rw [← hget, hx, List.getElem_concat_length rfl]

/-- Fewer items. -/
theorem of_append {more : List T} (h : Holds cap buffer (items ++ more) r) :
    Holds cap buffer items r := by
  intro i x hi hx
  obtain ⟨hlt, -⟩ := List.getElem?_eq_some_iff.mp hx
  exact h i x hi (by rw [List.getElem?_append_left hlt]; exact hx)

/-- Some of the first items leave. -/
theorem mono {r' : Nat} (h : Holds cap buffer items r) (hr : r ≤ r') :
    Holds cap buffer items r' :=
  fun i x hi hx => h i x (Nat.le_trans hr hi) hx

/-- The first item leaves. -/
theorem pop (h : Holds cap buffer items r) : Holds cap buffer items (r + 1) :=
  h.mono (Nat.le_succ r)

/-- The slots from the first item on hold the items. -/
theorem contents (h : Holds cap buffer items r) :
    (slotsFrom cap (r % cap) (items.length - r)).map buffer = items.drop r := by
  refine List.ext_getElem? fun i => ?_
  rw [slotsFrom, List.map_map, List.getElem?_map, List.getElem?_drop]
  rcases Nat.lt_or_ge i (items.length - r) with hlt | hge
  · have hget : items[r + i]? = some (items[r + i]) := List.getElem?_eq_getElem (by omega)
    rw [List.getElem?_range hlt, hget, Option.map_some, Function.comp_apply, Nat.mod_add_mod,
      h (r + i) _ (Nat.le_add_right r i) hget]
  · rw [List.getElem?_eq_none (by rw [List.length_range]; exact hge),
      List.getElem?_eq_none (by omega)]
    rfl

end Holds

/-- The slot of the next item is none of the slots in use. -/
theorem next_notMem_slotsFrom {cap r w : Nat} (hw : w < r + cap) :
    w % cap ∉ slotsFrom cap (r % cap) (w - r) := by
  intro hmem
  obtain ⟨i, hi, heq⟩ := List.mem_map.mp hmem
  rw [Nat.mod_add_mod] at heq
  have hlt := List.mem_range.mp hi
  exact mod_ne_mod (show r + i < w by omega) (by omega) heq

/-! ## Free-running counters -/

section Counters

variable {cap r w : Nat}

/-- A 32-bit counter leads to the slot of the number that it has counted, also once it has
wrapped. -/
theorem counter_slot (hcap : cap.isPowerOfTwo) (hlt : cap < 2 ^ 32) (w : Nat) :
    (UInt32.ofNat w &&& UInt32.ofNat (cap - 1)).toNat = w % cap := by
  have hdvd : cap ∣ 2 ^ 32 := by
    obtain ⟨k, rfl⟩ := hcap
    have hk : k < 32 := (Nat.pow_lt_pow_iff_right (by decide)).mp hlt
    exact Nat.pow_dvd_pow 2 (Nat.le_of_lt hk)
  rw [UInt32.toNat_and, UInt32.toNat_ofNat', UInt32.toNat_ofNat',
    Nat.mod_eq_of_lt (show cap - 1 < 2 ^ 32 by omega), and_pred_eq_mod hcap,
    Nat.mod_mod_of_dvd _ hdvd]

/-- Two counters tell how far apart the numbers are. -/
theorem counter_distance (hrw : r ≤ w) (hlt : w - r < 2 ^ 32) :
    (UInt32.ofNat w - UInt32.ofNat r).toNat = w - r := by
  have hsum : UInt32.ofNat w = UInt32.ofNat (w - r) + UInt32.ofNat r := by
    rw [← UInt32.ofNat_add, Nat.sub_add_cancel hrw]
  rw [hsum, UInt32.add_sub_cancel, UInt32.toNat_ofNat_of_lt' hlt]

end Counters

end CyclicBuffer
