import Mathlib.Combinatorics.Enumerative.DoubleCounting
import Mathlib.Data.Finset.Card
import Mathlib.Data.Finset.Range
import Mathlib.Data.Nat.ModEq
import Mathlib.Logic.Function.Basic
import Mathlib.Order.Interval.Finset.Nat
import Mathlib.Tactic.Common

/-!
# Linear probing on a circular table

A table of `cap` slots in which every key is placed at or after its home slot, going round
the end of the table. `Valid` says that some cut of the circle makes the whole table
linear: in the positions counted from the cut, every entry lies at or after its home with no
empty slot in between. A table with an empty slot can be cut right after it; a full table can
be cut after the slot that was filled last.

The second half follows a deletion that closes the gap by moving later entries back.
`Shifting` is the state of that walk, `Shifting.stay` and `Shifting.move` are its two steps,
and `Shifting.valid_of_gap` and `Shifting.valid_of_last` are its two ends.

The last part compares two tables: the same keys occupy the same slots, in whatever order they
came (`Valid.occupied_of_stored`).
-/

namespace LinearProbing

/-- The slot at position `x` of the circle of `cap` slots, counted from the cut `r`. -/
def rot (cap r x : Nat) : Nat :=
  if r + x < cap then r + x else r + x - cap

/-- The position of slot `i` on the circle of `cap` slots, counted from the cut `r`. -/
def pos (cap r i : Nat) : Nat :=
  if r ≤ i then i - r else i + cap - r

section Circle

variable {cap r i x : Nat}

/-- A position names a slot of the table. -/
theorem rot_lt (hr : r < cap) (hx : x < cap) : rot cap r x < cap := by
  unfold rot; split <;> omega

/-- A slot has a position on the circle. -/
theorem pos_lt (hr : r < cap) (hi : i < cap) : pos cap r i < cap := by
  unfold pos; split <;> omega

/-- The slot at the position of `i` is `i`. -/
theorem rot_pos (hr : r < cap) (hi : i < cap) : rot cap r (pos cap r i) = i := by
  unfold pos rot; split <;> split <;> omega

/-- The position of the slot at `x` is `x`. -/
theorem pos_rot (hr : r < cap) (hx : x < cap) : pos cap r (rot cap r x) = x := by
  unfold rot pos; split <;> split <;> omega

/-- The slot after the last position is the cut itself. -/
theorem pos_succ_last (hr : r < cap) (hi : i < cap) (hlast : pos cap r i + 1 = cap) :
    pos cap r ((i + 1) % cap) = 0 := by
  rcases Nat.lt_or_ge (i + 1) cap with h | h
  · rw [Nat.mod_eq_of_lt h]
    unfold pos at *; split at hlast <;> split <;> omega
  · have hi' : i + 1 = cap := by omega
    rw [hi', Nat.mod_self]
    unfold pos at *; split at hlast <;> split <;> omega

/-- Probing `d` slots on from the home of a key advances its position by `d`. -/
theorem pos_add (hr : r < cap) (hi : i < cap) {d : Nat} (hd : pos cap r i + d < cap) :
    (i + d) % cap = rot cap r (pos cap r i + d) := by
  rcases Nat.lt_or_ge (i + d) cap with h | h
  · rw [Nat.mod_eq_of_lt h]
    unfold pos rot at *; split_ifs at * <;> omega
  · rw [Nat.mod_eq_sub_mod h, Nat.mod_eq_of_lt (by unfold pos at hd; split at hd <;> omega)]
    unfold pos rot at *; split_ifs at * <;> omega

/-- Positions counted from another cut differ by a rotation. -/
theorem pos_rot_cut {r' : Nat} (hr : r < cap) (hr' : r' < cap) (hx : x < cap) :
    pos cap r (rot cap r' x) = rot cap (pos cap r r') x := by
  unfold pos rot; split_ifs <;> omega

/-- The position of a slot counted from one cut, by its position counted from another. -/
theorem pos_cut {r' : Nat} (hr : r < cap) (hr' : r' < cap) (hi : i < cap) :
    pos cap r i = rot cap (pos cap r r') (pos cap r' i) := by
  rw [← pos_rot_cut hr hr' (pos_lt hr' hi), rot_pos hr' hi]

/-- The slot just before the cut has the last position. -/
theorem pos_pred_cut {z : Nat} (hz : z < cap) : pos cap ((z + 1) % cap) z + 1 = cap := by
  rcases Nat.lt_or_ge (z + 1) cap with h | h
  · rw [Nat.mod_eq_of_lt h]; unfold pos; split <;> omega
  · rw [show z + 1 = cap by omega, Nat.mod_self]; unfold pos; split <;> omega

/-- Whether slot `i` lies cyclically in `(hole, j]`, read off the positions: the test compares
absolute slot numbers, the positions are counted from the cut. -/
theorem cyclic_test {hole j : Nat} (hr : r < cap) (hh : hole < cap) (hj : j < cap) (hi : i < cap) :
    (if hole ≤ j then hole < i ∧ i ≤ j else hole < i ∨ i ≤ j) ↔
      (if pos cap r hole ≤ pos cap r j
        then pos cap r hole < pos cap r i ∧ pos cap r i ≤ pos cap r j
        else pos cap r hole < pos cap r i ∨ pos cap r i ≤ pos cap r j) := by
  unfold pos
  split_ifs <;> omega

end Circle

variable {K V : Type*} {cap : Nat} {home : K → Nat} {t : Nat → Option (K × V)}

/-- The key `k` is stored in the table with value `v`. -/
def Holds (cap : Nat) (t : Nat → Option (K × V)) (k : K) (v : V) : Prop :=
  ∃ i < cap, t i = some (k, v)

/-- No key is stored twice. -/
def Distinct (cap : Nat) (t : Nat → Option (K × V)) : Prop :=
  ∀ i < cap, ∀ j < cap, ∀ k v w, t i = some (k, v) → t j = some (k, w) → i = j

/-- The number of occupied slots. -/
def count (cap : Nat) (t : Nat → Option (K × V)) : Nat :=
  ((Finset.range cap).filter fun i => (t i).isSome).card

/-- An entry with home position `g` at position `x` is settled: it lies at or after its home
with no empty slot from its home on. -/
def Settled (cap : Nat) (t : Nat → Option (K × V)) (r g x : Nat) : Prop :=
  g ≤ x ∧ ∀ y, g ≤ y → y ≤ x → t (rot cap r y) ≠ none

/-- A well-formed table, seen from the cut `r`. -/
structure ValidFrom (cap : Nat) (home : K → Nat) (t : Nat → Option (K × V)) (r : Nat) : Prop where
  cut : r < cap
  distinct : Distinct cap t
  settled : ∀ x < cap, ∀ k v, t (rot cap r x) = some (k, v) →
    Settled cap t r (pos cap r (home k)) x

/-- A well-formed table: well formed from some cut. -/
def Valid (cap : Nat) (home : K → Nat) (t : Nat → Option (K × V)) : Prop :=
  ∃ r, ValidFrom cap home t r

/-! ## Occupied slots -/

/-- Filling an empty slot adds one to the count. -/
theorem count_update_some {i : Nat} {e : K × V} (hi : i < cap) (h : t i = none) :
    count cap (Function.update t i (some e)) = count cap t + 1 := by
  unfold count
  rw [← Finset.card_insert_of_notMem (a := i) (by simp [h])]
  congr 1
  ext j
  by_cases hj : j = i
  · subst hj; simp [hi]
  · simp [hj]

/-- Clearing an occupied slot takes one from the count. -/
theorem count_update_none {i : Nat} {e : K × V} (hi : i < cap) (h : t i = some e) :
    count cap (Function.update t i none) + 1 = count cap t := by
  have hback := count_update_some (t := Function.update t i none) (e := e) hi (by simp)
  rw [← hback, Function.update_idem, ← h, Function.update_eq_self]

/-- A table that is not full has an empty slot. -/
theorem exists_none_of_count_lt (h : count cap t < cap) : ∃ i < cap, t i = none := by
  by_contra hall
  push Not at hall
  have hfull : (Finset.range cap).filter (fun i => (t i).isSome) = Finset.range cap := by
    apply Finset.filter_true_of_mem
    intro i hi
    exact Option.isSome_iff_ne_none.mpr (hall i (Finset.mem_range.mp hi))
  unfold count at h
  rw [hfull, Finset.card_range] at h
  exact lt_irrefl _ h

/-- No more slots are occupied than there are. -/
theorem count_le : count cap t ≤ cap := by
  unfold count
  exact (Finset.card_filter_le _ _).trans (Finset.card_range cap).le

/-- A stored key shows in the table, so the table is not empty. -/
theorem count_pos {k : K} {v : V} (h : Holds cap t k v) : 0 < count cap t := by
  obtain ⟨i, hi, he⟩ := h
  exact Finset.card_pos.mpr ⟨i, by simp [hi, he]⟩

/-- Consecutive probes meet different slots, so no more of them are occupied than there are occupied
slots. -/
theorem run_le_count {start d : Nat} (hd : d ≤ cap)
    (hrun : ∀ i < d, t ((start + i) % cap) ≠ none) : d ≤ count cap t := by
  have hinj : Set.InjOn (fun i => (start + i) % cap) (Finset.range d) := by
    intro i hi j hj heq
    have hi : i < d := Finset.mem_range.mp hi
    have hj : j < d := Finset.mem_range.mp hj
    have hmod : i % cap = j % cap := Nat.ModEq.add_left_cancel' start heq
    rwa [Nat.mod_eq_of_lt (by omega), Nat.mod_eq_of_lt (by omega)] at hmod
  have hslot : ∀ i ∈ Finset.range d,
      (start + i) % cap ∈ (Finset.range cap).filter fun i => (t i).isSome := by
    intro i hi
    have hi := Finset.mem_range.mp hi
    rw [Finset.mem_filter, Finset.mem_range]
    exact ⟨Nat.mod_lt _ (by omega), Option.isSome_iff_ne_none.mpr (hrun i hi)⟩
  simpa [count] using Finset.card_le_card_of_injOn _ hslot hinj

/-- If a key is stored that the probes do not meet, one more slot is occupied. -/
theorem run_lt_count {start d : Nat} {k : K} {v : V} (hd : d ≤ cap) (hk : Holds cap t k v)
    (hrun : ∀ i < d, ∃ k' v', t ((start + i) % cap) = some (k', v') ∧ k' ≠ k) :
    d < count cap t := by
  obtain ⟨i, hi, he⟩ := hk
  rw [← count_update_none hi he]
  have hoccupied : ∀ j < d, Function.update t i none ((start + j) % cap) ≠ none := by
    intro j hj
    obtain ⟨k', v', he', hne⟩ := hrun j hj
    have hother : (start + j) % cap ≠ i := by
      intro heq
      rw [heq, he, Option.some_inj, Prod.mk.injEq] at he'
      exact hne he'.1.symm
    rw [Function.update_of_ne hother, he']
    exact Option.some_ne_none _
  exact Nat.lt_succ_of_le (run_le_count hd hoccupied)

/-! ## Lookup -/

/-- A stored key is met by probing from its home: before it come only occupied slots with
other keys. -/
theorem Valid.probe (h : Valid cap home t) (hhome : ∀ k, home k < cap) {k : K} {v : V}
    (hk : Holds cap t k v) :
    ∃ d < cap, t ((home k + d) % cap) = some (k, v) ∧
      ∀ e < d, ∃ k' v', t ((home k + e) % cap) = some (k', v') ∧ k' ≠ k := by
  obtain ⟨r, hv⟩ := h
  obtain ⟨i, hi, he⟩ := hk
  have hx := pos_lt hv.cut hi
  have hslot := rot_pos hv.cut hi
  obtain ⟨hle, hocc⟩ := hv.settled _ hx k v (by rw [hslot]; exact he)
  have hadd : ∀ d, pos cap r (home k) + d ≤ pos cap r i →
      (home k + d) % cap = rot cap r (pos cap r (home k) + d) := fun d hd =>
    pos_add hv.cut (hhome k) (by omega)
  refine ⟨pos cap r i - pos cap r (home k), by omega, ?_, ?_⟩
  · rw [hadd _ (by omega), Nat.add_sub_cancel' hle, hslot]
    exact he
  · intro e hed
    rw [hadd e (by omega)]
    cases hent : t (rot cap r (pos cap r (home k) + e)) with
    | none => exact absurd hent (hocc _ (by omega) (by omega))
    | some entry =>
        obtain ⟨k', v'⟩ := entry
        refine ⟨k', v', rfl, ?_⟩
        rintro rfl
        have hsame := hv.distinct _ (rot_lt hv.cut (by omega)) _ hi _ _ _ hent he
        have hpos := congrArg (pos cap r) hsame
        rw [pos_rot hv.cut (by omega)] at hpos
        omega

/-! ## Insertion -/

/-- The empty table is well formed. -/
theorem valid_empty (hcap : 0 < cap) : Valid cap home (fun _ => (none : Option (K × V))) :=
  ⟨0, hcap, by intro i _ j _ k v w h; simp at h, by intro x _ k v h; simp at h⟩

/-- A well-formed table stays so when it is cut right after an empty slot. -/
theorem ValidFrom.recut {r : Nat} (h : ValidFrom cap home t r) (hhome : ∀ k, home k < cap)
    {z : Nat} (hz : z < cap) (hnone : t z = none) :
    ValidFrom cap home t ((z + 1) % cap) := by
  have hcut : (z + 1) % cap < cap := Nat.mod_lt _ (by omega)
  have hlast := pos_pred_cut hz
  generalize (z + 1) % cap = r' at hcut hlast ⊢
  -- every position counted from the old cut is a rotation by `s` of the new one
  have hs := pos_lt h.cut hcut
  have hold : ∀ i < cap, pos cap r i = rot cap (pos cap r r') (pos cap r' i) :=
    fun i hi => pos_cut h.cut hcut hi
  generalize hsdef : pos cap r r' = s at hs hold
  refine ⟨hcut, h.distinct, ?_⟩
  intro x hx k v he
  have hg := pos_lt hcut (hhome k)
  obtain ⟨hle, hocc⟩ := h.settled _ (pos_lt h.cut (rot_lt hcut hx)) k v
    (by rw [rot_pos h.cut (rot_lt hcut hx)]; exact he)
  rw [pos_rot_cut h.cut hcut hx, hsdef] at hle hocc
  rw [hold _ (hhome k)] at hle hocc
  generalize pos cap r' (home k) = g at hle hocc hg ⊢
  -- the empty slot `z` is not on the way from the home to the entry
  have havoid : ¬(rot cap s g ≤ pos cap r z ∧ pos cap r z ≤ rot cap s x) := by
    rintro ⟨h1, h2⟩
    exact hocc _ h1 h2 (by rw [rot_pos h.cut hz]; exact hnone)
  rw [hold z hz, show pos cap r' z = cap - 1 by omega] at havoid
  refine ⟨?_, ?_⟩
  · unfold rot at hle havoid
    split_ifs at hle havoid <;> omega
  · intro y hy hyx
    have hin : rot cap s g ≤ rot cap s y ∧ rot cap s y ≤ rot cap s x := by
      unfold rot at hle havoid ⊢
      split_ifs at hle havoid ⊢ <;> omega
    have hne := hocc _ hin.1 hin.2
    rwa [← hsdef, ← pos_rot_cut h.cut hcut (by omega), rot_pos h.cut (rot_lt hcut (by omega))]
      at hne

/-- Writing a new key into the first empty slot from its home keeps the table well formed. -/
theorem Valid.insert (h : Valid cap home t) (hhome : ∀ k, home k < cap) {k : K} {v : V} {d : Nat}
    (hd : d < cap) (habsent : ∀ w, ¬ Holds cap t k w)
    (hnone : t ((home k + d) % cap) = none)
    (hocc : ∀ e < d, t ((home k + e) % cap) ≠ none) :
    Valid cap home (Function.update t ((home k + d) % cap) (some (k, v))) := by
  obtain ⟨r₀, h₀⟩ := h
  have hz : (home k + d) % cap < cap := Nat.mod_lt _ (by omega)
  -- cut right after the slot that is about to be filled: it gets the last position
  have hv := h₀.recut hhome hz hnone
  generalize hzdef : (home k + d) % cap = z at *
  generalize hrdef : (z + 1) % cap = r at *
  have hlast : pos cap r z + 1 = cap := by rw [← hrdef]; exact pos_pred_cut hz
  refine ⟨r, hv.cut, ?_, ?_⟩
  · intro i hi j hj k' v' w' hei hej
    by_cases hiz : i = z <;> by_cases hjz : j = z
    · omega
    · subst hiz
      rw [Function.update_self] at hei
      rw [Function.update_of_ne hjz] at hej
      obtain ⟨rfl, rfl⟩ := Prod.mk.inj (Option.some.inj hei)
      exact absurd ⟨j, hj, hej⟩ (habsent _)
    · subst hjz
      rw [Function.update_self] at hej
      rw [Function.update_of_ne hiz] at hei
      obtain ⟨rfl, rfl⟩ := Prod.mk.inj (Option.some.inj hej)
      exact absurd ⟨i, hi, hei⟩ (habsent _)
    · rw [Function.update_of_ne hiz] at hei
      rw [Function.update_of_ne hjz] at hej
      exact hv.distinct i hi j hj k' v' w' hei hej
  · intro x hx k' v' he
    by_cases hxz : rot cap r x = z
    · -- the new entry: every slot from its home on is occupied
      rw [hxz, Function.update_self] at he
      obtain ⟨rfl, rfl⟩ := Prod.mk.inj (Option.some.inj he)
      have hxlast : x = pos cap r z := by rw [← hxz, pos_rot hv.cut hx]
      have hk := pos_lt hv.cut (hhome k)
      refine ⟨by omega, ?_⟩
      intro y hy hyx
      by_cases hyz : rot cap r y = z
      · rw [hyz]; simp
      · rw [Function.update_of_ne hyz]
        have hylt : y < cap := by omega
        have hslot : (home k + (y - pos cap r (home k))) % cap = rot cap r y := by
          rw [pos_add hv.cut (hhome k) (by omega), Nat.add_sub_cancel' hy]
        rw [← hslot]
        apply hocc
        -- the slot at `y` comes before the one at `d`
        by_contra hge
        rcases Nat.lt_or_ge (pos cap r (home k) + d) cap with hlt | hge'
        · have hdz := pos_add hv.cut (hhome k) hlt
          rw [hzdef] at hdz
          have : pos cap r z = pos cap r (home k) + d := by rw [hdz, pos_rot hv.cut hlt]
          apply hyz
          have : y = pos cap r z := by omega
          rw [this, rot_pos hv.cut hz]
        · omega
    · rw [Function.update_of_ne hxz] at he
      obtain ⟨hle, hfree⟩ := hv.settled x hx k' v' he
      refine ⟨hle, fun y hy hyx => ?_⟩
      by_cases hyz : rot cap r y = z
      · rw [hyz]; simp
      · rw [Function.update_of_ne hyz]
        exact hfree y hy hyx

/-- What the table holds after a new key is written into an empty slot. -/
theorem holds_update_some {i : Nat} {k : K} {v : V} (hi : i < cap) (hnone : t i = none)
    (k' : K) (v' : V) :
    Holds cap (Function.update t i (some (k, v))) k' v' ↔
      (k' = k ∧ v' = v) ∨ Holds cap t k' v' := by
  constructor
  · rintro ⟨j, hj, he⟩
    by_cases hji : j = i
    · subst hji
      rw [Function.update_self] at he
      obtain ⟨rfl, rfl⟩ := Prod.mk.inj (Option.some.inj he)
      exact Or.inl ⟨rfl, rfl⟩
    · rw [Function.update_of_ne hji] at he
      exact Or.inr ⟨j, hj, he⟩
  · rintro (⟨rfl, rfl⟩ | ⟨j, hj, he⟩)
    · exact ⟨i, hi, by simp⟩
    · refine ⟨j, hj, ?_⟩
      rw [Function.update_of_ne (by rintro rfl; rw [hnone] at he; cases he)]
      exact he

/-- What the table holds after an entry is cleared. -/
theorem holds_update_none {i : Nat} {k : K} {v : V} (hdist : Distinct cap t) (hi : i < cap)
    (he : t i = some (k, v)) (k' : K) (v' : V) :
    Holds cap (Function.update t i none) k' v' ↔ k' ≠ k ∧ Holds cap t k' v' := by
  constructor
  · rintro ⟨j, hj, hje⟩
    have hji : j ≠ i := by rintro rfl; simp at hje
    rw [Function.update_of_ne hji] at hje
    refine ⟨?_, j, hj, hje⟩
    rintro rfl
    exact hji (hdist _ hj _ hi _ _ _ hje he)
  · rintro ⟨hk, j, hj, hje⟩
    refine ⟨j, hj, ?_⟩
    rw [Function.update_of_ne ?_]
    · exact hje
    · rintro rfl
      rw [he] at hje
      exact hk (Prod.mk.inj (Option.some.inj hje)).1.symm

/-! ## Deletion by moving entries back

The deleted entry leaves a hole. The walk goes on from the hole, and an entry whose home is
not after the hole is moved into it, which moves the hole to where the entry was. The table of
the walk still shows the stale contents of the hole, so every statement is about the table with
the hole cleared. -/

/-- Moving an entry back from slot `j` into the hole at slot `i` keeps what the table holds. -/
theorem holds_move {i j : Nat} {e : K × V} (hi : i < cap) (hj : j < cap) (hij : i ≠ j)
    (he : t j = some e) (hdist : Distinct cap (Function.update t i none)) (k : K) (v : V) :
    Holds cap (Function.update (Function.update t i (some e)) j none) k v ↔
      Holds cap (Function.update t i none) k v := by
  obtain ⟨key, value⟩ := e
  have hje : Function.update t i none j = some (key, value) := by
    rw [Function.update_of_ne hij.symm, he]
  have hshape : Function.update (Function.update t i (some (key, value))) j none =
      Function.update (Function.update (Function.update t i none) j none) i
        (some (key, value)) := by
    rw [Function.update_comm hij.symm, Function.update_idem, Function.update_comm hij]
  rw [hshape, holds_update_some hi (by simp [hij]), holds_update_none hdist hj hje]
  constructor
  · rintro (⟨rfl, rfl⟩ | ⟨_, h⟩)
    · exact ⟨j, hj, hje⟩
    · exact h
  · rintro ⟨l, hl, h⟩
    by_cases hk : k = key
    · subst hk
      have hlj := hdist l hl j hj k v value h hje
      subst hlj
      rw [hje] at h
      exact Or.inl ⟨rfl, (Prod.mk.inj (Option.some.inj h)).2.symm⟩
    · exact Or.inr ⟨hk, l, hl, h⟩

/-- Moving an entry back keeps the keys distinct. -/
theorem distinct_move {i j : Nat} {e : K × V} (hj : j < cap) (hij : i ≠ j)
    (he : t j = some e) (hdist : Distinct cap (Function.update t i none)) :
    Distinct cap (Function.update (Function.update t i (some e)) j none) := by
  have hje : Function.update t i none j = some e := by rw [Function.update_of_ne hij.symm, he]
  -- an entry of the new table is an entry of the old one, at `j` if the new one is at `i`
  have hback : ∀ l k v, Function.update (Function.update t i (some e)) j none l = some (k, v) →
      l ≠ j ∧ Function.update t i none (if l = i then j else l) = some (k, v) := by
    intro l k v h
    have hlj : l ≠ j := by rintro rfl; simp at h
    rw [Function.update_of_ne hlj] at h
    refine ⟨hlj, ?_⟩
    split
    · next hli => subst hli; rw [Function.update_self] at h; rw [hje, h]
    · next hli => rw [Function.update_of_ne hli] at h ⊢; exact h
  intro l hl m hm k v w hlk hmk
  obtain ⟨hlj, hl'⟩ := hback l k v hlk
  obtain ⟨hmj, hm'⟩ := hback m k w hmk
  have hsame := hdist _ (by split <;> assumption) _ (by split <;> assumption) k v w hl' hm'
  split at hsame <;> split at hsame <;> omega

/-- Moving an entry back keeps the number of entries. -/
theorem count_move {i j : Nat} {e : K × V} (hi : i < cap) (hj : j < cap) (hij : i ≠ j)
    (he : t j = some e) :
    count cap (Function.update (Function.update t i (some e)) j none) =
      count cap (Function.update t i none) := by
  have hshape : Function.update (Function.update t i (some e)) j none =
      Function.update (Function.update (Function.update t i none) j none) i (some e) := by
    rw [Function.update_comm hij.symm, Function.update_idem, Function.update_comm hij]
  rw [hshape, count_update_some hi (by simp [hij])]
  exact count_update_none hj (by rw [Function.update_of_ne hij.symm, he])

/-- The walk of a deletion, with the hole at position `a` and the entries up to position `b`
done. Entries that are done are settled without the hole; entries still to come may count the
hole as occupied. -/
structure Shifting (cap : Nat) (home : K → Nat) (t : Nat → Option (K × V)) (r a b : Nat) :
    Prop where
  cut : r < cap
  hole_le : a ≤ b
  done_lt : b < cap
  distinct : Distinct cap (Function.update t (rot cap r a) none)
  done : ∀ x ≤ b, x ≠ a → ∀ k v, t (rot cap r x) = some (k, v) →
    pos cap r (home k) ≤ x ∧
      ∀ y, pos cap r (home k) ≤ y → y ≤ x → y ≠ a ∧ t (rot cap r y) ≠ none
  todo : ∀ x, b < x → x < cap → ∀ k v, t (rot cap r x) = some (k, v) →
    pos cap r (home k) ≤ x ∧
      ∀ y, pos cap r (home k) ≤ y → y ≤ x → y ≠ a → t (rot cap r y) ≠ none

section Shifting

variable {r a b : Nat}

/-- Distinct positions are distinct slots. -/
theorem rot_ne (hr : r < cap) {x y : Nat} (hx : x < cap) (hy : y < cap) (h : x ≠ y) :
    rot cap r x ≠ rot cap r y := by
  intro heq
  apply h
  rw [← pos_rot hr hx, heq, pos_rot hr hy]

/-- Clearing a slot keeps the keys distinct. -/
theorem Distinct.update_none (h : Distinct cap t) (i : Nat) :
    Distinct cap (Function.update t i none) := by
  have hback : ∀ l k v, Function.update t i none l = some (k, v) → t l = some (k, v) := by
    intro l k v hl
    rwa [Function.update_of_ne (by rintro rfl; simp at hl)] at hl
  intro l hl m hm k v w hlk hmk
  exact h l hl m hm k v w (hback l k v hlk) (hback m k w hmk)

/-- The walk starts at the deleted entry. -/
theorem ValidFrom.shifting (h : ValidFrom cap home t r) (ha : a < cap) :
    Shifting cap home t r a a := by
  refine ⟨h.cut, le_rfl, ha, h.distinct.update_none _, ?_, ?_⟩
  · intro x hx hne k v he
    obtain ⟨hle, hocc⟩ := h.settled x (by omega) k v he
    exact ⟨hle, fun y hy hyx => ⟨by omega, hocc y hy hyx⟩⟩
  · intro x _ hx k v he
    obtain ⟨hle, hocc⟩ := h.settled x hx k v he
    exact ⟨hle, fun y hy hyx _ => hocc y hy hyx⟩

/-- The next entry stays if its home lies after the hole. -/
theorem Shifting.stay (h : Shifting cap home t r a b) (hb : b + 1 < cap) {k : K} {v : V}
    (he : t (rot cap r (b + 1)) = some (k, v)) (hstay : a < pos cap r (home k)) :
    Shifting cap home t r a (b + 1) := by
  refine ⟨h.cut, by have := h.hole_le; omega, hb, h.distinct, ?_, ?_⟩
  · intro x hx hne k' v' he'
    rcases Nat.lt_or_ge b x with hlt | hge
    · obtain rfl : x = b + 1 := by omega
      rw [he] at he'
      obtain ⟨rfl, rfl⟩ := Prod.mk.inj (Option.some.inj he')
      obtain ⟨hle, hocc⟩ := h.todo (b + 1) hlt hb k v he
      exact ⟨hle, fun y hy hyx => ⟨by omega, hocc y hy hyx (by omega)⟩⟩
    · exact h.done x hge hne k' v' he'
  · intro x hx hlt k' v' he'
    exact h.todo x (by omega) hlt k' v' he'

/-- The next entry moves into the hole if its home does not lie after the hole. -/
theorem Shifting.move (h : Shifting cap home t r a b) (hb : b + 1 < cap) {k : K} {v : V}
    (he : t (rot cap r (b + 1)) = some (k, v)) (hmove : pos cap r (home k) ≤ a) :
    Shifting cap home (Function.update t (rot cap r a) (some (k, v))) r (b + 1) (b + 1) := by
  have ha : a < cap := by have := h.hole_le; omega
  have hhole : ∀ {y}, y < cap → y ≠ a →
      Function.update t (rot cap r a) (some (k, v)) (rot cap r y) = t (rot cap r y) :=
    fun hy hne => Function.update_of_ne (rot_ne h.cut hy ha hne) _ _
  have hle := h.hole_le
  refine ⟨h.cut, le_rfl, hb,
    distinct_move (rot_lt h.cut hb) (rot_ne h.cut ha hb (by omega)) he h.distinct, ?_, ?_⟩
  · intro x hx hne k' v' he'
    by_cases hxa : x = a
    · -- the moved entry: its way is the first part of its old way
      subst hxa
      rw [Function.update_self] at he'
      obtain ⟨rfl, rfl⟩ := Prod.mk.inj (Option.some.inj he')
      obtain ⟨_, hocc⟩ := h.todo (b + 1) (by omega) hb k v he
      refine ⟨hmove, fun y hy hyx => ⟨by omega, ?_⟩⟩
      by_cases hyx' : y = x
      · subst hyx'; simp
      · rw [hhole (by omega) hyx']
        exact hocc y hy (by omega) hyx'
    · rw [hhole (by omega) hxa] at he'
      obtain ⟨hgx, hocc⟩ := h.done x (by omega) hxa k' v' he'
      refine ⟨hgx, fun y hy hyx => ⟨by omega, ?_⟩⟩
      rw [hhole (by omega) (hocc y hy hyx).1]
      exact (hocc y hy hyx).2
  · intro x hx hlt k' v' he'
    rw [hhole hlt (by omega)] at he'
    obtain ⟨hgx, hocc⟩ := h.todo x (by omega) hlt k' v' he'
    refine ⟨hgx, fun y hy hyx hne => ?_⟩
    by_cases hya : y = a
    · subst hya; simp
    · rw [hhole (by omega) hya]
      exact hocc y hy hyx hya

/-- Clearing the hole leaves a well-formed table as soon as no entry still to come has its way
through the hole. -/
theorem Shifting.valid (h : Shifting cap home t r a b)
    (hfree : ∀ x, b < x → x < cap → ∀ k v, t (rot cap r x) = some (k, v) →
      a < pos cap r (home k)) :
    ValidFrom cap home (Function.update t (rot cap r a) none) r := by
  have ha : a < cap := by have := h.hole_le; have := h.done_lt; omega
  have hhole : ∀ {y}, y < cap → y ≠ a →
      Function.update t (rot cap r a) none (rot cap r y) = t (rot cap r y) :=
    fun hy hne => Function.update_of_ne (rot_ne h.cut hy ha hne) _ _
  refine ⟨h.cut, h.distinct, ?_⟩
  intro x hx k v he
  have hxa : x ≠ a := by rintro rfl; simp at he
  rw [hhole hx hxa] at he
  rcases Nat.lt_or_ge b x with hlt | hge
  · obtain ⟨hgx, hocc⟩ := h.todo x hlt hx k v he
    have hafter := hfree x hlt hx k v he
    refine ⟨hgx, fun y hy hyx => ?_⟩
    rw [hhole (by omega) (by omega)]
    exact hocc y hy hyx (by omega)
  · obtain ⟨hgx, hocc⟩ := h.done x hge hxa k v he
    refine ⟨hgx, fun y hy hyx => ?_⟩
    rw [hhole (by omega) (hocc y hy hyx).1]
    exact (hocc y hy hyx).2

/-- The walk may stop at an empty slot: no later entry has its way through it. -/
theorem Shifting.valid_of_gap (h : Shifting cap home t r a b)
    (hgap : t (rot cap r (b + 1)) = none) :
    ValidFrom cap home (Function.update t (rot cap r a) none) r := by
  have hle := h.hole_le
  apply h.valid
  intro x hx hlt k v he
  by_contra hge
  have hxb : x ≠ b + 1 := by rintro rfl; rw [hgap] at he; cases he
  exact (h.todo x hx hlt k v he).2 (b + 1) (by omega) (by omega) (by omega) hgap

/-- The walk may stop at the last position. -/
theorem Shifting.valid_of_last (h : Shifting cap home t r a b) (hlast : b + 1 = cap) :
    ValidFrom cap home (Function.update t (rot cap r a) none) r :=
  h.valid (fun x hx hlt => by omega)

end Shifting

/-! ## Occupied slots of two tables -/

/-- The key `k` is stored in the table. -/
def Stored (cap : Nat) (t : Nat → Option (K × V)) (k : K) : Prop :=
  ∃ v, Holds cap t k v

/-- Behind an empty slot the positions start again: an entry in the run of occupied slots from
position `lo` on has its home there too. -/
theorem Valid.home_in_run (h : Valid cap home t) (hhome : ∀ k, home k < cap) {r lo y : Nat}
    (hr : r < cap) (hy : y < cap) (hlo : lo ≤ y)
    (hgap : lo ≠ 0 → t (rot cap r (lo - 1)) = none) {k : K} {v : V}
    (he : t (rot cap r y) = some (k, v)) : lo ≤ pos cap r (home k) := by
  by_cases hzero : lo = 0
  · omega
  obtain ⟨r₀, h₀⟩ := h
  have hz : rot cap r (lo - 1) < cap := rot_lt hr (by omega)
  have hv := h₀.recut hhome hz (hgap hzero)
  -- counted from the slot behind the empty one, every position is lower by `lo`
  have hcut : (rot cap r (lo - 1) + 1) % cap = rot cap r lo := by
    have hstep := pos_add hr (d := 1) hz (by rw [pos_rot hr (by omega)]; omega)
    rw [hstep, pos_rot hr (by omega), Nat.sub_add_cancel (by omega)]
  rw [hcut] at hv
  have hlt : lo < cap := by omega
  have hold : ∀ i < cap, pos cap r i = rot cap lo (pos cap (rot cap r lo) i) := by
    intro i hi
    rw [pos_cut hr hv.cut hi, pos_rot hr hlt]
  have hback : ∀ i < cap, lo ≤ pos cap r i ↔ pos cap (rot cap r lo) i + lo < cap := by
    intro i hi
    have hx := pos_lt hv.cut hi
    rw [hold i hi]
    generalize pos cap (rot cap r lo) i = x at hx ⊢
    unfold rot
    split <;> omega
  have hsame : ∀ i < cap, lo ≤ pos cap r i → pos cap (rot cap r lo) i = pos cap r i - lo := by
    intro i hi hle
    have hroom := (hback i hi).mp hle
    rw [hold i hi]
    generalize pos cap (rot cap r lo) i = x at hroom ⊢
    rw [rot, if_pos (by omega), Nat.add_sub_cancel_left]
  have hslot := rot_lt hr hy
  obtain ⟨hle, -⟩ := hv.settled _ (pos_lt hv.cut hslot) k v (by rw [rot_pos hv.cut hslot]; exact he)
  rw [hsame _ hslot (by rw [pos_rot hr hy]; exact hlo), pos_rot hr hy] at hle
  rw [hback _ (hhome k)]
  omega

/-- The run of occupied slots that ends at position `x`: it starts at position `lo`, right after
an empty slot or at the cut. -/
theorem exists_run_start {r x : Nat} (hocc : t (rot cap r x) ≠ none) :
    ∃ lo ≤ x, (∀ y, lo ≤ y → y ≤ x → t (rot cap r y) ≠ none) ∧
      (lo ≠ 0 → t (rot cap r (lo - 1)) = none) := by
  induction x with
  | zero =>
      refine ⟨0, le_refl 0, fun y _ hy => ?_, fun h => absurd rfl h⟩
      rw [Nat.le_zero.mp hy]
      exact hocc
  | succ x ih =>
      by_cases hbefore : t (rot cap r x) = none
      · refine ⟨x + 1, le_refl _, fun y hlo hy => ?_, fun _ => hbefore⟩
        rw [show y = x + 1 by omega]
        exact hocc
      · obtain ⟨lo, hle, hrun, hgap⟩ := ih hbefore
        refine ⟨lo, by omega, fun y hlo hy => ?_, hgap⟩
        rcases Nat.lt_or_ge x y with hlast | hearlier
        · rw [show y = x + 1 by omega]
          exact hocc
        · exact hrun y hlo hearlier

/-- Where a table is occupied depends on its keys only. Were the last slot of a run of `t` empty in
`t'`, the keys of that run, whose homes all lie in it, would share one slot less in `t'`. -/
theorem Valid.occupied_of_stored {V' : Type*} {t' : Nat → Option (K × V')}
    (h : Valid cap home t) (h' : Valid cap home t') (hhome : ∀ k, home k < cap)
    (hkeys : ∀ k, Stored cap t k → Stored cap t' k) {i : Nat} (hi : i < cap) (hocc : t i ≠ none) :
    t' i ≠ none := by
  intro hnone
  obtain ⟨r₀, h₀⟩ := h'
  -- cut both tables after slot `i`, which gets the last position
  have hv' := h₀.recut hhome hi hnone
  have hlast : pos cap ((i + 1) % cap) i + 1 = cap := pos_pred_cut hi
  generalize (i + 1) % cap = r at hv' hlast
  have hr := hv'.cut
  have hslot : rot cap r (cap - 1) = i := by
    rw [show cap - 1 = pos cap r i by omega, rot_pos hr hi]
  obtain ⟨lo, hlo, hrun, hgap⟩ := exists_run_start (t := t) (r := r) (x := cap - 1)
    (by rw [hslot]; exact hocc)
  have hdistinct : Distinct cap t := by
    obtain ⟨_, hv⟩ := h
    exact hv.distinct
  have hcard := Finset.card_le_card_of_forall_subsingleton
    (s := Finset.Ico lo cap) (t := Finset.Ico lo (cap - 1))
    (fun y x => ∃ k v w, t (rot cap r y) = some (k, v) ∧ t' (rot cap r x) = some (k, w)) ?_ ?_
  · rw [Nat.card_Ico, Nat.card_Ico] at hcard
    omega
  · -- every key of the run has a slot from `lo` on in `t'`, before the last
    intro y hy
    obtain ⟨hly, hyc⟩ := Finset.mem_Ico.mp hy
    obtain ⟨⟨k, v⟩, he⟩ := Option.ne_none_iff_exists'.mp (hrun y hly (by omega))
    obtain ⟨w, j, hj, he'⟩ := hkeys k ⟨v, _, rot_lt hr hyc, he⟩
    have hx := pos_lt hr hj
    have hback := rot_pos hr hj
    obtain ⟨hafter, -⟩ := hv'.settled _ hx k w (by rw [hback]; exact he')
    have hbase := h.home_in_run hhome hr hyc hly hgap he
    have hne : pos cap r j ≠ cap - 1 := by
      intro heq
      rw [heq, hslot] at hback
      rw [← hback, hnone] at he'
      cases he'
    exact ⟨pos cap r j, Finset.mem_Ico.mpr ⟨hbase.trans hafter, by omega⟩, k, v, w, he, by
      rw [hback]; exact he'⟩
  · -- two positions of `t` with the key of one slot of `t'` are the same
    rintro x - y ⟨hy, k, v, w, he, hx⟩ y' ⟨hy', k', v', w', he', hx'⟩
    obtain ⟨rfl, rfl⟩ := Prod.mk.inj (Option.some.inj (hx.symm.trans hx'))
    have hyc := (Finset.mem_Ico.mp (Finset.mem_coe.mp hy)).2
    have hyc' := (Finset.mem_Ico.mp (Finset.mem_coe.mp hy')).2
    have hsame := hdistinct _ (rot_lt hr hyc) _ (rot_lt hr hyc') k v v' he he'
    rw [← pos_rot hr hyc, hsame, pos_rot hr hyc']

end LinearProbing
