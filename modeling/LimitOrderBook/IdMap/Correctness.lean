import LimitOrderBook.IdMap.Model
import LimitOrderBook.Library.CyclicBuffer
import LimitOrderBook.Library.LinearProbing
import Mathlib.Data.Nat.Find

/-!
# The order id map is a finite map

`WellFormed` says that the occupied slots form a valid linear-probing table and that `size`
counts them. `find_of_holds` and `find_of_absent` read the map off the table, `insert_spec` and
`erase_spec` say what the two updates do to it, and `run_eq_reference` compares whole runs with
an association list.
-/

namespace LimitOrderBook.OrderIdMap

open LinearProbing

/-- What a slot holds. -/
def entry (s : Slot) : Option (OrderId × Option OrderRef) :=
  if s.occupied then some (s.id, s.ptr) else none

/-- What the slots of a table hold. -/
def entries (slots : Nat → Slot) : Nat → Option (OrderId × Option OrderRef) :=
  fun i => entry (slots i)

/-- Writing a slot writes its entry. -/
theorem entries_update (slots : Nat → Slot) (i : Nat) (s : Slot) :
    entries (Function.update slots i s) = Function.update (entries slots) i (entry s) :=
  Function.comp_update entry slots i s

/-- A slot is occupied exactly when it holds an entry. -/
theorem entry_eq_none {s : Slot} : entry s = none ↔ s.occupied = false := by
  unfold entry; split <;> simp_all

/-- The entry of an occupied slot. -/
theorem entry_eq_some {s : Slot} {id : OrderId} {ptr : Option OrderRef} :
    entry s = some (id, ptr) ↔ s.occupied = true ∧ s.id = id ∧ s.ptr = ptr := by
  unfold entry; split <;> simp_all

variable {capacity : Nat}

/-- The table is a valid linear-probing table and `size` counts its entries. -/
structure WellFormed (m : OrderIdMap capacity) : Prop where
  valid : Valid capacity (indexOf capacity) (entries m.slots)
  size_eq : m.size = count capacity (entries m.slots)

/-- The id is in the map with this pointer. -/
def Present (m : OrderIdMap capacity) (id : OrderId) (ptr : Option OrderRef) : Prop :=
  Holds capacity (entries m.slots) id ptr

/-! ## Slot arithmetic -/

/-- Masking is reduction modulo the capacity. -/
theorem and_mask (hcap : capacity.isPowerOfTwo) (x : Nat) : x &&& mask capacity = x % capacity :=
  CyclicBuffer.and_pred_eq_mod hcap x

/-- The home slot of an id is a slot of the table. -/
theorem index_of_lt (hcap : capacity.isPowerOfTwo) (id : OrderId) :
    indexOf capacity id < capacity := by
  unfold indexOf
  rw [and_mask hcap]
  exact Nat.mod_lt _ (Nat.pos_of_isPowerOfTwo hcap)

/-- The slot after the `d`-th probe is the one of the next probe. -/
theorem next_probe (hcap : capacity.isPowerOfTwo) (idx d : Nat) :
    ((idx + d) % capacity + 1) &&& mask capacity = (idx + (d + 1)) % capacity := by
  rw [and_mask hcap, Nat.mod_add_mod, Nat.add_assoc]

/-! ## The probe loops -/

section Loops

variable {m : OrderIdMap capacity} {id : OrderId} (start : Nat)

/-- `find` returns the pointer of the first slot with the id, if all slots before it are
occupied. -/
theorem find_loop_hit (hcap : capacity.isPowerOfTwo) {ptr : Option OrderRef} {d : Nat}
    (hhit : entries m.slots ((start + d) % capacity) = some (id, ptr))
    (hbefore : ∀ e < d, ∃ id' ptr',
      entries m.slots ((start + e) % capacity) = some (id', ptr') ∧ id' ≠ id)
    (n s : Nat) (hs : s ≤ d) (hn : d < s + n) :
    findLoop m id n ((start + s) % capacity) = ptr := by
  induction n generalizing s with
  | zero => omega
  | succ n ih =>
      rcases Nat.lt_or_ge s d with hlt | hge
      · obtain ⟨id', ptr', he, hne⟩ := hbefore s hlt
        obtain ⟨hocc, hid, _⟩ := entry_eq_some.mp he
        rw [findLoop, if_pos hocc, if_neg (by rw [hid]; exact hne), next_probe hcap]
        exact ih (s + 1) hlt (by omega)
      · obtain rfl : s = d := by omega
        obtain ⟨hocc, hid, hptr⟩ := entry_eq_some.mp hhit
        rw [findLoop, if_pos hocc, if_pos hid, hptr]

/-- `find` returns null if no slot has the id. -/
theorem find_loop_miss (hcap : capacity.isPowerOfTwo)
    (hmiss : ∀ i < capacity, ∀ ptr, entries m.slots i ≠ some (id, ptr))
    (n s : Nat) : findLoop m id n ((start + s) % capacity) = none := by
  induction n generalizing s with
  | zero => rfl
  | succ n ih =>
      rw [findLoop, next_probe hcap, ih (s + 1)]
      split
      · next hocc =>
          rw [if_neg]
          intro hid
          exact hmiss _ (Nat.mod_lt _ (Nat.pos_of_isPowerOfTwo hcap)) _
            (entry_eq_some.mpr ⟨hocc, hid, rfl⟩)
      · rfl

/-- The first loop of `erase` stops at the first slot with the id, if all slots before it are
occupied. -/
theorem erase_locate_hit (hcap : capacity.isPowerOfTwo) {ptr : Option OrderRef} {d : Nat}
    (hhit : entries m.slots ((start + d) % capacity) = some (id, ptr))
    (hbefore : ∀ e < d, ∃ id' ptr',
      entries m.slots ((start + e) % capacity) = some (id', ptr') ∧ id' ≠ id)
    (n s : Nat) (hs : s ≤ d) (hn : d < s + n) :
    eraseLocate m id n ((start + s) % capacity) = some ((start + d) % capacity) := by
  induction n generalizing s with
  | zero => omega
  | succ n ih =>
      rcases Nat.lt_or_ge s d with hlt | hge
      · obtain ⟨id', ptr', he, hne⟩ := hbefore s hlt
        obtain ⟨hocc, hid, _⟩ := entry_eq_some.mp he
        rw [eraseLocate, if_pos hocc, if_neg (by rw [hid]; exact hne), next_probe hcap]
        exact ih (s + 1) hlt (by omega)
      · obtain rfl : s = d := by omega
        obtain ⟨hocc, hid, hptr⟩ := entry_eq_some.mp hhit
        rw [eraseLocate, if_pos hocc, if_pos hid]

/-- The first loop of `erase` fails if no slot has the id. -/
theorem erase_locate_miss (hcap : capacity.isPowerOfTwo)
    (hmiss : ∀ i < capacity, ∀ ptr, entries m.slots i ≠ some (id, ptr))
    (n s : Nat) : eraseLocate m id n ((start + s) % capacity) = none := by
  induction n generalizing s with
  | zero => rfl
  | succ n ih =>
      rw [eraseLocate, next_probe hcap, ih (s + 1)]
      split
      · next hocc =>
          rw [if_neg]
          intro hid
          exact hmiss _ (Nat.mod_lt _ (Nat.pos_of_isPowerOfTwo hcap)) _
            (entry_eq_some.mpr ⟨hocc, hid, rfl⟩)
      · rfl

/-- `insert` writes into the first empty slot. -/
theorem insert_loop_eq (hcap : capacity.isPowerOfTwo) (id : OrderId) (ptr : Option OrderRef)
    {d : Nat}
    (hnone : entries m.slots ((start + d) % capacity) = none)
    (hbefore : ∀ e < d, entries m.slots ((start + e) % capacity) ≠ none)
    (n s : Nat) (hs : s ≤ d) (hn : d < s + n) :
    insertLoop m id ptr n ((start + s) % capacity) =
      .ok { slots := Function.update m.slots ((start + d) % capacity) ⟨id, ptr, true⟩
            size := m.size + 1 } := by
  induction n generalizing s with
  | zero => omega
  | succ n ih =>
      rcases Nat.lt_or_ge s d with hlt | hge
      · have hocc : (m.slots ((start + s) % capacity)).occupied = true := by
          have hne := hbefore s hlt
          rwa [Ne, entries, entry_eq_none, Bool.not_eq_false] at hne
        rw [insertLoop, if_pos hocc, next_probe hcap]
        exact ih (s + 1) hlt (by omega)
      · obtain rfl : s = d := by omega
        have hfree : (m.slots ((start + s) % capacity)).occupied = false := entry_eq_none.mp hnone
        rw [insertLoop, if_neg (by rw [hfree]; decide)]

end Loops

/-! ## Lookup and insertion -/

section Operations

variable {m : OrderIdMap capacity}

/-- `find` returns the pointer of an id in the map. -/
theorem find_of_holds (hcap : capacity.isPowerOfTwo) (hwf : WellFormed m) {id : OrderId}
    {ptr : Option OrderRef} (h : Present m id ptr) : m.find id = ptr := by
  obtain ⟨d, hd, hhit, hbefore⟩ := hwf.valid.probe (index_of_lt hcap) h
  have hfind := find_loop_hit _ hcap hhit hbefore capacity 0 (by omega) (by omega)
  rwa [Nat.add_zero, Nat.mod_eq_of_lt (index_of_lt hcap id)] at hfind

/-- `find` returns null for an id not in the map. -/
theorem find_of_absent (hcap : capacity.isPowerOfTwo) {id : OrderId}
    (h : ∀ ptr, ¬ Present m id ptr) : m.find id = none := by
  have hmiss := find_loop_miss (m := m) (indexOf capacity id) hcap
    (fun i hi ptr he => h ptr ⟨i, hi, he⟩) capacity 0
  rwa [Nat.add_zero, Nat.mod_eq_of_lt (index_of_lt hcap id)] at hmiss

/-- The fresh map is well formed. -/
theorem fresh_well_formed (hcap : capacity.isPowerOfTwo) :
    WellFormed ({} : OrderIdMap capacity) := by
  have hentries : entries ({} : OrderIdMap capacity).slots = fun _ => none := rfl
  refine ⟨?_, ?_⟩
  · rw [hentries]
    exact valid_empty (Nat.pos_of_isPowerOfTwo hcap)
  · rw [hentries]
    simp [count]

/-- Nothing is in the fresh map. -/
theorem fresh_not_present (id : OrderId) (ptr : Option OrderRef) :
    ¬ Present ({} : OrderIdMap capacity) id ptr := by
  rintro ⟨i, _, he⟩
  cases he

/-- `insert` succeeds while the map is not full, and adds just the new id. -/
theorem insert_spec (hcap : capacity.isPowerOfTwo) (hwf : WellFormed m) {id : OrderId}
    (ptr : Option OrderRef) (habsent : ∀ q, ¬ Present m id q) (hroom : m.size < capacity) :
    ∃ m', m.insert id ptr = .ok m' ∧ WellFormed m' ∧ m'.size = m.size + 1 ∧
      ∀ id' q, Present m' id' q ↔ (id' = id ∧ q = ptr) ∨ Present m id' q := by
  have hpos := Nat.pos_of_isPowerOfTwo hcap
  have hhome := index_of_lt hcap
  -- some slot is empty, hence a first one from the home of the id
  have hexists : ∃ d, d < capacity ∧
      entries m.slots ((indexOf capacity id + d) % capacity) = none := by
    obtain ⟨i, hi, hnone⟩ := exists_none_of_count_lt (hwf.size_eq ▸ hroom)
    refine ⟨pos capacity (indexOf capacity id) i, pos_lt (hhome id) hi, ?_⟩
    rw [pos_add (hhome id) (hhome id)]
    · rw [show pos capacity (indexOf capacity id) (indexOf capacity id) = 0 by simp [pos],
        Nat.zero_add, rot_pos (hhome id) hi]
      exact hnone
    · have := pos_lt (hhome id) hi
      simpa [pos] using this
  classical
  obtain ⟨hd, hnone⟩ := Nat.find_spec hexists
  have hbefore : ∀ e < Nat.find hexists,
      entries m.slots ((indexOf capacity id + e) % capacity) ≠ none :=
    fun e he hne => Nat.find_min hexists he ⟨by omega, hne⟩
  generalize Nat.find hexists = d at hd hnone hbefore
  have hz : (indexOf capacity id + d) % capacity < capacity := Nat.mod_lt _ hpos
  have heq := insert_loop_eq _ hcap id ptr hnone hbefore capacity 0 (by omega) (by omega)
  rw [Nat.add_zero, Nat.mod_eq_of_lt (hhome id)] at heq
  refine ⟨_, heq, ⟨?_, ?_⟩, rfl, ?_⟩
  · simp only [entries_update]
    exact hwf.valid.insert hhome hd habsent hnone hbefore
  · simp only [entries_update]
    rw [show entry ⟨id, ptr, true⟩ = some (id, ptr) from rfl, count_update_some hz hnone,
      hwf.size_eq]
  · intro id' q
    unfold Present
    simp only [entries_update]
    exact holds_update_some hz hnone id' q

/-! ## Deletion -/

/-- The move test of `erase`, read off the positions from the cut. -/
theorem stays_iff {r hole home j : Nat} (hr : r < capacity) (hh : hole < capacity)
    (hj : j < capacity) (hhome : home < capacity) :
    stays hole home j = true ↔
      (if pos capacity r hole ≤ pos capacity r j
        then pos capacity r hole < pos capacity r home ∧ pos capacity r home ≤ pos capacity r j
        else pos capacity r hole < pos capacity r home ∨
          pos capacity r home ≤ pos capacity r j) := by
  rw [← cyclic_test hr hh hj hhome]
  unfold stays
  split <;> simp

/-- Past the end of the table the walk of `erase` changes nothing: the entries there have their
home at or before their own slot, hence not after the hole. -/
theorem erase_shift_wrapped (hcap : capacity.isPowerOfTwo) {slots : Nat → Slot} {r a : Nat}
    (hr : r < capacity) (ha : a < capacity)
    (hhome : ∀ x < a, ∀ id ptr, entries slots (rot capacity r x) = some (id, ptr) →
      pos capacity r (indexOf capacity id) ≤ x)
    (n c j : Nat) (hc : c + n ≤ a) (hj : (j + 1) % capacity = rot capacity r c) :
    eraseShift capacity slots n (rot capacity r a) j = (slots, rot capacity r a) := by
  induction n generalizing c j with
  | zero => rfl
  | succ n ih =>
      have hcl : c < capacity := by omega
      rw [eraseShift]
      simp only [and_mask hcap, hj]
      split
      · next hocc =>
          have hle := hhome c (by omega) _ _ (entry_eq_some.mpr ⟨hocc, rfl, rfl⟩)
          rw [if_pos ?_]
          · apply ih (c + 1) _ (by omega)
            have hstep := pos_add hr (rot_lt hr hcl) (d := 1)
              (by rw [pos_rot hr hcl]; omega)
            rwa [pos_rot hr hcl] at hstep
          · rw [stays_iff hr (rot_lt hr ha) (rot_lt hr hcl) (index_of_lt hcap _),
              pos_rot hr ha, pos_rot hr hcl, if_neg (by omega)]
            exact Or.inr hle
      · rfl

/-- The walk of `erase` ends with a hole whose removal leaves a valid table with the same
entries. -/
theorem erase_shift_spec (hcap : capacity.isPowerOfTwo) {slots : Nat → Slot} {r a b : Nat}
    (h : Shifting capacity (indexOf capacity) (entries slots) r a b)
    (n : Nat) (hlo : capacity ≤ n + b + 1) (hhi : n + b + 1 ≤ capacity + a) :
    ∃ slots' hole', hole' < capacity ∧
      eraseShift capacity slots n (rot capacity r a) (rot capacity r b) = (slots', hole') ∧
      ValidFrom capacity (indexOf capacity)
        (Function.update (entries slots') hole' none) r ∧
      (∀ id ptr, Holds capacity (Function.update (entries slots') hole' none) id ptr ↔
        Holds capacity (Function.update (entries slots) (rot capacity r a) none) id ptr) ∧
      count capacity (Function.update (entries slots') hole' none) =
        count capacity (Function.update (entries slots) (rot capacity r a) none) := by
  have hr := h.cut
  have hb := h.done_lt
  induction n generalizing slots a b with
  | zero =>
      exact ⟨slots, _, rot_lt hr (by have := h.hole_le; omega), rfl,
        h.valid_of_last (by omega), fun _ _ => Iff.rfl, rfl⟩
  | succ n ih =>
      have ha : a < capacity := by have := h.hole_le; omega
      have hle := h.hole_le
      rcases Nat.lt_or_ge (b + 1) capacity with hnext | hlast
      · -- the walk has not yet reached the last position
        have hstep : (rot capacity r b + 1) % capacity = rot capacity r (b + 1) := by
          have := pos_add hr (rot_lt hr hb) (d := 1) (by rw [pos_rot hr hb]; exact hnext)
          rwa [pos_rot hr hb] at this
        rw [eraseShift]
        simp only [and_mask hcap, hstep]
        split
        · next hocc =>
            have he : entries slots (rot capacity r (b + 1)) =
                some ((slots (rot capacity r (b + 1))).id, (slots (rot capacity r (b + 1))).ptr) :=
              entry_eq_some.mpr ⟨hocc, rfl, rfl⟩
            have htest := stays_iff hr (rot_lt hr ha) (rot_lt hr hnext)
              (index_of_lt hcap (slots (rot capacity r (b + 1))).id)
            rw [pos_rot hr ha, pos_rot hr hnext, if_pos (by omega)] at htest
            split
            · next hstay =>
                exact ih (h.stay hnext he (htest.mp hstay).1) (by omega) (by omega) hnext
            · next hmove =>
                have hhome : pos capacity r
                    (indexOf capacity (slots (rot capacity r (b + 1))).id) ≤ a := by
                  by_contra hgt
                  have hle' := (h.todo (b + 1) (by omega) hnext _ _ he).1
                  exact hmove (htest.mpr ⟨by omega, hle'⟩)
                have hne := rot_ne hr ha hnext (by omega : a ≠ b + 1)
                have hentry : entry (slots (rot capacity r (b + 1))) = _ := he
                have hshift := h.move hnext he hhome
                rw [← hentry, ← entries_update] at hshift
                obtain ⟨slots', hole', hlt, heq, hvalid, hholds, hcount⟩ :=
                  ih hshift (by omega) (by omega) hnext
                refine ⟨slots', hole', hlt, heq, hvalid, ?_, ?_⟩
                · intro id ptr
                  rw [hholds, entries_update, hentry]
                  exact holds_move (rot_lt hr ha) (rot_lt hr hnext) hne he h.distinct id ptr
                · rw [hcount, entries_update, hentry]
                  exact count_move (rot_lt hr ha) (rot_lt hr hnext) hne he
        · next hocc =>
            exact ⟨slots, _, rot_lt hr ha, rfl,
              h.valid_of_gap (entry_eq_none.mpr (by simpa using hocc)), fun _ _ => Iff.rfl, rfl⟩
      · -- the walk goes round the end of the table
        have hlast' : b + 1 = capacity := by omega
        refine ⟨slots, _, rot_lt hr ha, ?_, h.valid_of_last hlast', fun _ _ => Iff.rfl, rfl⟩
        apply erase_shift_wrapped hcap hr ha ?_ (n + 1) 0 _ (by omega)
        · have hpos := pos_succ_last hr (rot_lt hr hb) (by rw [pos_rot hr hb]; exact hlast')
          have hlt : (rot capacity r b + 1) % capacity < capacity :=
            Nat.mod_lt _ (Nat.pos_of_isPowerOfTwo hcap)
          rw [← rot_pos hr hlt, hpos]
        · intro x hx id ptr he
          exact (h.done x (by omega) (by omega) id ptr he).1

/-- `erase` removes an id in the map and nothing else. -/
theorem erase_spec (hcap : capacity.isPowerOfTwo) (hwf : WellFormed m) {id : OrderId}
    {ptr : Option OrderRef} (h : Present m id ptr) :
    ∃ m', m.erase id = (true, m') ∧ WellFormed m' ∧ m'.size + 1 = m.size ∧
      ∀ id' q, Present m' id' q ↔ id' ≠ id ∧ Present m id' q := by
  obtain ⟨d, hd, hhit, hbefore⟩ := hwf.valid.probe (index_of_lt hcap) h
  have hlocate := erase_locate_hit _ hcap hhit hbefore capacity 0 (by omega) (by omega)
  rw [Nat.add_zero, Nat.mod_eq_of_lt (index_of_lt hcap id)] at hlocate
  have hhole : (indexOf capacity id + d) % capacity < capacity :=
    Nat.mod_lt _ (Nat.pos_of_isPowerOfTwo hcap)
  generalize (indexOf capacity id + d) % capacity = hole at hhit hlocate hhole
  obtain ⟨r, hv⟩ := hwf.valid
  have ha := pos_lt hv.cut hhole
  obtain ⟨slots', hole', hlt, heq, hvalid, hholds, hcount⟩ :=
    erase_shift_spec hcap (hv.shifting ha) (capacity - 1) (by omega) (by omega)
  rw [rot_pos hv.cut hhole] at heq hholds hcount
  have hentry : entry ({} : Slot) = none := rfl
  refine ⟨{ slots := Function.update slots' hole' {}, size := m.size - 1 },
    by rw [erase, hlocate]; simp only [heq], ⟨⟨r, ?_⟩, ?_⟩, ?_, ?_⟩
  · rw [entries_update, hentry]
    exact hvalid
  · have hdrop := count_update_none (t := entries m.slots) hhole hhit
    simp only [entries_update, hentry, hcount, hwf.size_eq]
    omega
  · have hpos := count_pos h
    simp only [hwf.size_eq]
    omega
  · intro id' q
    unfold Present
    rw [entries_update, hentry, hholds]
    exact holds_update_none hv.distinct hhole hhit id' q

/-- `erase` of an id not in the map changes nothing. -/
theorem erase_absent (hcap : capacity.isPowerOfTwo) {id : OrderId}
    (h : ∀ ptr, ¬ Present m id ptr) : m.erase id = (false, m) := by
  have hmiss := erase_locate_miss (m := m) (indexOf capacity id) hcap
    (fun i hi ptr he => h ptr ⟨i, hi, he⟩) capacity 0
  rw [Nat.add_zero, Nat.mod_eq_of_lt (index_of_lt hcap id)] at hmiss
  rw [erase, hmiss]

end Operations

/-! ## Runs -/

/-- A call of the map. -/
inductive Op where
  | insert (id : OrderId) (ptr : Option OrderRef)
  | erase (id : OrderId)
  | find (id : OrderId)
  deriving DecidableEq, Repr

/-- What a call returns. -/
inductive Answer where
  | inserted
  | erased (present : Bool)
  | found (ptr : Option OrderRef)
  deriving DecidableEq, Repr

/-- One call. -/
def step (m : OrderIdMap capacity) : Op → Result (OrderIdMap capacity × Answer)
  | .insert id ptr => do
      let m ← m.insert id ptr
      pure (m, .inserted)
  | .erase id => pure ((m.erase id).2, .erased (m.erase id).1)
  | .find id => pure (m, .found (m.find id))

/-- A sequence of calls, with the answers in order. -/
def run (m : OrderIdMap capacity) : List Op → Result (OrderIdMap capacity × List Answer)
  | [] => pure (m, [])
  | op :: ops => do
      let (m, answer) ← step m op
      let (m, answers) ← run m ops
      pure (m, answer :: answers)

/-- The reference map: the live ids with their pointers. -/
abbrev Reference := List (OrderId × Option OrderRef)

/-- One call of the reference map. -/
def refStep (l : Reference) : Op → Reference × Answer
  | .insert id ptr => ((id, ptr) :: l, .inserted)
  | .erase id => (l.filter fun e => e.1 ≠ id, .erased (l.lookup id).isSome)
  | .find id => (l, .found (l.lookup id).join)

/-- A sequence of calls of the reference map. -/
def refRun (l : Reference) : List Op → Reference × List Answer
  | [] => (l, [])
  | op :: ops =>
      let (l, answer) := refStep l op
      let (l, answers) := refRun l ops
      (l, answer :: answers)

/-- An id is entered only while it is absent and the map is not full. -/
def Op.Admissible (capacity : Nat) (l : Reference) : Op → Prop
  | .insert id _ => l.lookup id = none ∧ l.length < capacity
  | _ => True

/-- Every call of the sequence is admissible when it is made. -/
def Admissible (capacity : Nat) (l : Reference) : List Op → Prop
  | [] => True
  | op :: ops => op.Admissible capacity l ∧ Admissible capacity (refStep l op).1 ops

/-- The pointer of the last insertion of the id that no deletion of it follows, over the calls
in reverse order. -/
def lastInsert (id : OrderId) : List Op → Option (Option OrderRef)
  | [] => none
  | .insert id' ptr :: earlier => if id' = id then some ptr else lastInsert id earlier
  | .erase id' :: earlier => if id' = id then none else lastInsert id earlier
  | .find _ :: earlier => lastInsert id earlier

/-- The map and the reference map hold the same. -/
structure Represents (m : OrderIdMap capacity) (l : Reference) : Prop where
  wellFormed : WellFormed m
  nodup : (l.map Prod.fst).Nodup
  size_eq : m.size = l.length
  present : ∀ id ptr, Present m id ptr ↔ l.lookup id = some ptr

/-- A lookup meets the first entry or goes on to the rest. -/
theorem lookup_cons_ite (e : OrderId × Option OrderRef) (l : Reference) (id : OrderId) :
    (e :: l).lookup id = if e.1 = id then some e.2 else l.lookup id := by
  rw [List.lookup_cons]
  by_cases h : e.1 = id
  · simp [h]
  · rw [if_neg h, beq_eq_false_iff_ne.mpr (Ne.symm h)]

/-- An id is looked up exactly if it is among the ids. -/
theorem lookup_isSome_iff {l : Reference} {id : OrderId} :
    (l.lookup id).isSome ↔ id ∈ l.map Prod.fst := by
  induction l with
  | nil => simp
  | cons e l ih =>
      rw [lookup_cons_ite]
      by_cases h : e.1 = id
      · simp [h]
      · simp [h, Ne.symm h, ih]

/-- Removing an id from the reference map keeps the other lookups. -/
theorem lookup_filter {l : Reference} {id id' : OrderId} :
    (l.filter fun e => e.1 ≠ id).lookup id' = if id' = id then none else l.lookup id' := by
  induction l with
  | nil => simp
  | cons e l ih =>
      by_cases h : e.1 = id
      · rw [List.filter_cons_of_neg (by simp [h]), ih, lookup_cons_ite, h]
        by_cases hid : id' = id
        · simp [hid]
        · simp [hid, Ne.symm hid]
      · rw [List.filter_cons_of_pos (by simpa using h), lookup_cons_ite, lookup_cons_ite, ih]
        by_cases hid : e.1 = id'
        · subst hid; simp [h]
        · simp [hid]

/-- Removing a present id from the reference map removes one entry. -/
theorem length_filter_of_mem {l : Reference} {id : OrderId} (hnodup : (l.map Prod.fst).Nodup)
    (hmem : id ∈ l.map Prod.fst) : (l.filter fun e => e.1 ≠ id).length + 1 = l.length := by
  induction l with
  | nil => simp at hmem
  | cons e l ih =>
      simp only [List.map_cons, List.nodup_cons, List.mem_cons] at hnodup hmem
      by_cases h : e.1 = id
      · have hall : l.filter (fun e => e.1 ≠ id) = l := by
          apply List.filter_eq_self.mpr
          intro e' he'
          have hne : e'.1 ≠ id := fun heq =>
            hnodup.1 (h ▸ heq ▸ List.mem_map_of_mem he')
          simpa using hne
        rw [List.filter_cons_of_neg (by simp [h]), hall]
        rfl
      · rw [List.filter_cons_of_pos (by simpa using h), List.length_cons, List.length_cons,
          ih hnodup.2 (hmem.resolve_left (fun heq => h heq.symm))]

section Reference

variable {m : OrderIdMap capacity} {l : Reference}

/-- The fresh map holds nothing. -/
theorem fresh_represents (hcap : capacity.isPowerOfTwo) :
    Represents ({} : OrderIdMap capacity) [] :=
  ⟨fresh_well_formed hcap, List.nodup_nil, rfl, fun id ptr =>
    iff_of_false (fresh_not_present id ptr) (by simp)⟩

/-- `find` reads the reference map. -/
theorem Represents.find_eq (hcap : capacity.isPowerOfTwo) (h : Represents m l) (id : OrderId) :
    m.find id = (l.lookup id).join := by
  cases hl : l.lookup id with
  | none => exact find_of_absent hcap (fun ptr hp => by
      rw [h.present, hl] at hp
      cases hp)
  | some ptr => exact find_of_holds hcap h.wellFormed ((h.present id ptr).mpr hl)

/-- One admissible call keeps the two maps in step. -/
theorem Represents.step (hcap : capacity.isPowerOfTwo) (h : Represents m l) {op : Op}
    (hadm : op.Admissible capacity l) :
    ∃ m', OrderIdMap.step m op = .ok (m', (refStep l op).2) ∧ Represents m' (refStep l op).1 := by
  cases op with
  | insert id ptr =>
      obtain ⟨habsent, hroom⟩ := hadm
      have hnone : ∀ q, ¬ Present m id q := fun q hq => by
        rw [h.present, habsent] at hq
        cases hq
      obtain ⟨m', hinsert, hwf, hsize, hpresent⟩ :=
        insert_spec hcap h.wellFormed ptr hnone (h.size_eq ▸ hroom)
      refine ⟨m', by simp [OrderIdMap.step, hinsert, refStep], hwf, ?_, ?_, ?_⟩
      · simp only [refStep, List.map_cons, List.nodup_cons]
        refine ⟨fun hmem => ?_, h.nodup⟩
        have hsome := lookup_isSome_iff.mpr hmem
        rw [habsent] at hsome
        cases hsome
      · simp [refStep, hsize, h.size_eq]
      · intro id' q
        rw [hpresent, h.present]
        simp only [refStep, lookup_cons_ite]
        by_cases hid : id' = id
        · subst hid
          simp [habsent, eq_comm]
        · simp [hid, Ne.symm hid]
  | erase id =>
      cases hl : l.lookup id with
      | none =>
          have hnone : ∀ q, ¬ Present m id q := fun q hq => by
            rw [h.present, hl] at hq
            cases hq
          -- nothing is deleted from the list either
          have hall : l.filter (fun e => e.1 ≠ id) = l := by
            apply List.filter_eq_self.mpr
            intro e he
            have hne : e.1 ≠ id := by
              rintro rfl
              have hsome := lookup_isSome_iff.mpr (List.mem_map_of_mem (f := Prod.fst) he)
              rw [hl] at hsome
              cases hsome
            simpa using hne
          refine ⟨m, ?_, ?_⟩
          · simp only [OrderIdMap.step, erase_absent hcap hnone, refStep, hl]
            rfl
          · simp only [refStep, hall]
            exact h
      | some ptr =>
          obtain ⟨m', herase, hwf, hsize, hpresent⟩ :=
            erase_spec hcap h.wellFormed ((h.present id ptr).mpr hl)
          have hmem : id ∈ l.map Prod.fst := lookup_isSome_iff.mp (by rw [hl]; rfl)
          refine ⟨m', ?_, hwf, ?_, ?_, ?_⟩
          · simp only [OrderIdMap.step, herase, refStep, hl]
            rfl
          · exact h.nodup.sublist (List.filter_sublist.map _)
          · have hlen := length_filter_of_mem h.nodup hmem
            rw [h.size_eq] at hsize
            simp only [refStep]
            omega
          · intro id' q
            rw [hpresent, h.present]
            simp only [refStep, lookup_filter]
            by_cases hid : id' = id <;> simp [hid]
  | find id => exact ⟨m, by simp [OrderIdMap.step, refStep, h.find_eq hcap], h⟩

/-- An admissible run keeps the two maps in step and gives the same answers. -/
theorem Represents.run (hcap : capacity.isPowerOfTwo) (ops : List Op) (h : Represents m l)
    (hadm : Admissible capacity l ops) :
    ∃ m', OrderIdMap.run m ops = .ok (m', (refRun l ops).2) ∧ Represents m' (refRun l ops).1 := by
  induction ops generalizing m l with
  | nil => exact ⟨m, rfl, h⟩
  | cons op ops ih =>
      obtain ⟨m₁, hstep, h₁⟩ := h.step hcap hadm.1
      obtain ⟨m₂, hrun, h₂⟩ := ih h₁ hadm.2
      exact ⟨m₂, by simp [OrderIdMap.run, hstep, hrun, refRun], h₂⟩

end Reference

/-- The reference map holds the last insertion of every id. -/
theorem ref_run_lookup (ops earlier : List Op) (l : Reference) (id : OrderId)
    (hl : l.lookup id = lastInsert id earlier) :
    (refRun l ops).1.lookup id = lastInsert id (ops.reverse ++ earlier) := by
  induction ops generalizing l earlier with
  | nil => simpa [refRun] using hl
  | cons op ops ih =>
      have hstep : (refStep l op).1.lookup id = lastInsert id (op :: earlier) := by
        cases op with
        | insert id' ptr =>
            simp only [refStep, lastInsert, lookup_cons_ite, hl]
        | erase id' =>
            simp only [refStep, lastInsert, lookup_filter, hl]
            by_cases h : id = id'
            · simp [h]
            · simp [h, Ne.symm h]
        | find id' => simpa [refStep, lastInsert] using hl
      have hrest := ih (op :: earlier) (refStep l op).1 hstep
      simpa [refRun] using hrest

/-- The order id map is a finite map: over every admissible run from the fresh map, every call
succeeds with the answer of the reference map, `find` returns the pointer of the last insertion
that no deletion follows, `size` counts the live ids, and every live id has exactly one slot. -/
theorem run_eq_reference (hcap : capacity.isPowerOfTwo) (ops : List Op)
    (hadm : Admissible capacity [] ops) :
    ∃ m : OrderIdMap capacity, run {} ops = .ok (m, (refRun [] ops).2) ∧
      m.size = (refRun [] ops).1.length ∧
      ((refRun [] ops).1.map Prod.fst).Nodup ∧
      (∀ id, (refRun [] ops).1.lookup id = lastInsert id ops.reverse) ∧
      (∀ id, m.find id = (lastInsert id ops.reverse).join) ∧
      (∀ id, (m.erase id).1 = (lastInsert id ops.reverse).isSome) ∧
      ∀ id ptr, lastInsert id ops.reverse = some ptr ↔
        ∃! i, i < capacity ∧ m.slots i = ⟨id, ptr, true⟩ := by
  obtain ⟨m, hrun, h⟩ := (fresh_represents hcap).run hcap ops hadm
  have hlookup : ∀ id, (refRun [] ops).1.lookup id = lastInsert id ops.reverse := by
    intro id
    have hlast := ref_run_lookup ops [] [] id rfl
    rwa [List.append_nil] at hlast
  refine ⟨m, hrun, h.size_eq, h.nodup, hlookup, ?_, ?_, ?_⟩
  · intro id
    rw [h.find_eq hcap, hlookup]
  · intro id
    obtain ⟨m', hstep, -⟩ := h.step hcap (show (Op.erase id).Admissible capacity _ from trivial)
    simp only [step, refStep, hlookup] at hstep
    injection hstep with hstep
    injection (Prod.mk.inj hstep).2
  · intro id ptr
    rw [← hlookup, ← h.present]
    constructor
    · rintro ⟨i, hi, he⟩
      obtain ⟨hocc, hid, hptr⟩ := entry_eq_some.mp he
      refine ⟨i, ⟨hi, ?_⟩, ?_⟩
      · cases hs : m.slots i
        simp_all
      · -- no other slot holds the id, by `distinct`
        rintro j ⟨hj, hslot⟩
        obtain ⟨r, hv⟩ := h.wellFormed.valid
        exact hv.distinct j hj i hi id ptr ptr (entry_eq_some.mpr (by simp [hslot])) he
    · rintro ⟨i, ⟨hi, hslot⟩, -⟩
      exact ⟨i, hi, entry_eq_some.mpr (by simp [hslot])⟩

/-- Two ids fill a table of two slots; the one that is left is still found. -/
theorem run_full_table :
    ∃ m : OrderIdMap 2,
      run {} [.insert 1 (some 0), .insert 2 (some 1), .erase 1, .find 2] =
        .ok (m, [.inserted, .inserted, .erased true, .found (some 1)]) ∧ m.size = 1 := by
  obtain ⟨m, hrun, hsize, -⟩ := run_eq_reference (⟨1, rfl⟩ : Nat.isPowerOfTwo 2)
    [.insert 1 (some 0), .insert 2 (some 1), .erase 1, .find 2]
    ⟨⟨rfl, by decide⟩, ⟨rfl, by decide⟩, trivial, trivial, trivial⟩
  exact ⟨m, hrun, hsize⟩

end LimitOrderBook.OrderIdMap
