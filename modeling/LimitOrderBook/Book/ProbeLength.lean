import LimitOrderBook.Book.Runs
import LimitOrderBook.IdMap.Churn

/-!
# The cost of a lookup

A lookup of the order id map inspects occupied slots until it meets the id or an empty slot. The
slots are different, so it inspects at most one more than there are entries, and no more than there
are entries if the id is present. Nothing else counts: not how many ids have come and gone, and not
how the entries have been shifted (`probes_bounded`). The same bound holds for `erase`, which goes
on to the end of the cluster, as long as the table is not full.
-/

namespace LimitOrderBook

namespace OrderIdMap

open LinearProbing

variable {capacity : Nat} {m : OrderIdMap capacity} {id : OrderId}

/-- The slots that the loop of `find` inspects, with `probes` probes left. -/
def findReads (m : OrderIdMap capacity) (id : OrderId) : Nat → Nat → List Nat
  | 0, _ => []
  | probes + 1, idx =>
      idx :: if (m.slots idx).occupied ∧ (m.slots idx).id ≠ id then
        findReads m id probes ((idx + 1) &&& mask capacity)
      else []

/-- The slots that `find` inspects. -/
def inspected (m : OrderIdMap capacity) (id : OrderId) : List Nat :=
  findReads m id capacity (indexOf capacity id)

/-- The slots behind the hole that the second loop of `erase` inspects, with `probes` iterations
left. -/
def shiftReads (capacity : Nat) : (Nat → Slot) → Nat → Nat → Nat → List Nat
  | _, 0, _, _ => []
  | slots, probes + 1, hole, j =>
      let j := (j + 1) &&& mask capacity
      j :: if (slots j).occupied then
        if stays hole (indexOf capacity (slots j).id) j then
          shiftReads capacity slots probes hole j
        else shiftReads capacity (Function.update slots hole (slots j)) probes j j
      else []

/-- The slots that `erase` inspects: those of `find`, and those of the second loop if the id is
present. -/
def eraseInspected (m : OrderIdMap capacity) (id : OrderId) : List Nat :=
  m.inspected id ++
    match eraseLocate m id capacity (indexOf capacity id) with
    | none => []
    | some hole => shiftReads capacity m.slots (capacity - 1) hole hole

/-- The probes that have been made are counted with those still to make. -/
theorem probeLoop_succ (fuel idx probes : Nat) :
    m.probeLoop id fuel idx (probes + 1) = m.probeLoop id fuel idx probes + 1 := by
  induction fuel generalizing idx probes with
  | zero => rfl
  | succ fuel ih =>
      simp only [probeLoop]
      split
      · exact ih _ (probes + 1)
      · rfl

/-- `find` inspects no more slots than `probeLength` counts. -/
theorem length_findReads_le (fuel idx : Nat) :
    (m.findReads id fuel idx).length ≤ m.probeLoop id fuel idx 1 := by
  induction fuel generalizing idx with
  | zero => exact Nat.zero_le _
  | succ fuel ih =>
      simp only [findReads, probeLoop]
      split
      · rw [List.length_cons, probeLoop_succ]
        exact Nat.succ_le_succ (ih _)
      · exact le_refl _

/-- `probeLength` counts the occupied slots with other ids that come first, and one more. -/
theorem probeLoop_eq (hcap : capacity.isPowerOfTwo) (start fuel s probes : Nat) :
    ∃ d ≤ fuel, m.probeLoop id fuel ((start + s) % capacity) probes = probes + d ∧
      ∀ i < d, ∃ id' ptr',
        entries m.slots ((start + s + i) % capacity) = some (id', ptr') ∧ id' ≠ id := by
  induction fuel generalizing s probes with
  | zero => exact ⟨0, le_refl 0, rfl, fun i hi => absurd hi (Nat.not_lt_zero i)⟩
  | succ fuel ih =>
      rw [probeLoop]
      split
      · next hother =>
          obtain ⟨d, hd, heq, hbefore⟩ := ih (s + 1) (probes + 1)
          rw [next_probe hcap, heq]
          refine ⟨d + 1, Nat.succ_le_succ hd, by omega, fun i hi => ?_⟩
          cases i with
          | zero => exact ⟨_, _, entry_eq_some.mpr ⟨hother.1, rfl, rfl⟩, hother.2⟩
          | succ i =>
              rw [show start + s + (i + 1) = start + (s + 1) + i by omega]
              exact hbefore i (by omega)
      · exact ⟨0, Nat.zero_le _, rfl, fun i hi => absurd hi (Nat.not_lt_zero i)⟩

/-- A probe chain from any slot is bounded by the number of entries. -/
theorem WellFormed.probeLoop_le (hcap : capacity.isPowerOfTwo) (hwf : WellFormed m)
    {start : Nat} (hstart : start < capacity) :
    m.probeLoop id capacity start 1 ≤ m.size + 1 ∧
      ((∃ ptr, Present m id ptr) → m.probeLoop id capacity start 1 ≤ m.size) := by
  -- the `d` slots before the last one inspected are occupied by other ids
  obtain ⟨d, hd, heq, hbefore⟩ := @probeLoop_eq capacity m id hcap start capacity 0 1
  rw [Nat.add_zero] at hbefore
  rw [Nat.add_zero, Nat.mod_eq_of_lt hstart] at heq
  rw [heq, hwf.size_eq]
  constructor
  · have hle := run_le_count (t := entries m.slots) hd fun i hi => by
      obtain ⟨id', ptr', he, _⟩ := hbefore i hi
      rw [he]
      exact Option.some_ne_none _
    omega
  · intro hpresent
    obtain ⟨ptr, hptr⟩ := hpresent
    have hlt := run_lt_count hd hptr hbefore
    omega

/-- A probe chain is bounded by the number of entries. -/
theorem WellFormed.probeLength_le (hcap : capacity.isPowerOfTwo) (hwf : WellFormed m)
    (id : OrderId) :
    m.probeLength id ≤ m.size + 1 ∧ ((∃ ptr, Present m id ptr) → m.probeLength id ≤ m.size) :=
  hwf.probeLoop_le hcap (index_of_lt hcap id)

/-! ## Removing an id -/

/-- Up to the slot of the id, all slots are occupied. -/
theorem findReads_of_locate (hcap : capacity.isPowerOfTwo) {hole : Nat} (start fuel s : Nat)
    (h : eraseLocate m id fuel ((start + s) % capacity) = some hole) :
    ∃ d, hole = (start + (s + d)) % capacity ∧
      (m.findReads id fuel ((start + s) % capacity)).length = d + 1 ∧
      ∀ i ≤ d, (m.slots ((start + (s + i)) % capacity)).occupied = true := by
  induction fuel generalizing s with
  | zero => cases h
  | succ fuel ih =>
      rw [eraseLocate, next_probe hcap] at h
      rw [findReads, next_probe hcap]
      split at h
      · next hocc =>
          split at h
          · next hid =>
              refine ⟨0, (Option.some_inj.mp h).symm, ?_, fun i hi => ?_⟩
              · rw [if_neg fun hother => hother.2 hid]
                rfl
              · rw [Nat.le_zero.mp hi]
                exact hocc
          · next hid =>
              obtain ⟨d, heq, hlen, hbefore⟩ := ih (s + 1) h
              refine ⟨d + 1, ?_, ?_, fun i hi => ?_⟩
              · rw [heq, Nat.add_assoc, Nat.add_comm 1]
              · rw [if_pos ⟨hocc, hid⟩, List.length_cons, hlen]
              · cases i with
                | zero => exact hocc
                | succ i =>
                    have hnext := hbefore i (Nat.le_of_succ_le_succ hi)
                    rwa [Nat.add_assoc, Nat.add_comm 1] at hnext
      · cases h

/-- Behind the hole, all slots but the last one that is inspected are occupied. -/
theorem length_shiftReads_le (hcap : capacity.isPowerOfTwo) (start probes : Nat)
    {slots : Nat → Slot} {hole : Nat} (hhole : (slots hole).occupied = true) (s : Nat) :
    ∃ e, (shiftReads capacity slots probes hole ((start + s) % capacity)).length ≤ e + 1 ∧
      ∀ i < e, (slots ((start + (s + 1 + i)) % capacity)).occupied = true := by
  induction probes generalizing slots hole s with
  | zero => exact ⟨0, Nat.zero_le _, fun i hi => absurd hi (Nat.not_lt_zero i)⟩
  | succ probes ih =>
      rw [shiftReads, next_probe hcap]
      generalize hj : (start + (s + 1)) % capacity = j
      split
      · next hocc =>
          have hcons : ∀ e, (∀ i < e, (slots ((start + (s + 1 + 1 + i)) % capacity)).occupied =
              true) → ∀ i < e + 1, (slots ((start + (s + 1 + i)) % capacity)).occupied = true := by
            intro e hrest i hi
            cases i with
            | zero =>
                rw [Nat.add_zero, hj]
                exact hocc
            | succ i =>
                have hnext := hrest i (Nat.lt_of_succ_lt_succ hi)
                rwa [Nat.add_assoc (s + 1), Nat.add_comm 1] at hnext
          split
          · obtain ⟨e, hlen, hrest⟩ := ih hhole (s + 1)
            rw [hj] at hlen
            exact ⟨e + 1, Nat.succ_le_succ hlen, hcons e hrest⟩
          · -- the entry moves into the hole, which was occupied before
            have hmoved : ∀ x, (Function.update slots hole (slots j) x).occupied =
                (slots x).occupied := by
              intro x
              by_cases hx : x = hole
              · rw [hx, Function.update_self, hocc, hhole]
              · rw [Function.update_of_ne hx]
            obtain ⟨e, hlen, hrest⟩ := ih ((hmoved j).trans hocc) (s + 1)
            rw [hj] at hlen
            refine ⟨e + 1, Nat.succ_le_succ hlen, hcons e fun i hi => ?_⟩
            rw [← hmoved]
            exact hrest i hi
      · exact ⟨0, le_refl _, fun i hi => absurd hi (Nat.not_lt_zero i)⟩

/-- `erase` inspects one slot more than there are entries at most, if there is an empty slot. -/
theorem WellFormed.length_eraseInspected_le (hcap : capacity.isPowerOfTwo) (hwf : WellFormed m)
    (hroom : m.size < capacity) (id : OrderId) : (m.eraseInspected id).length ≤ m.size + 1 := by
  have hhome := index_of_lt hcap id
  have hfind : (m.inspected id).length ≤ m.size + 1 :=
    (length_findReads_le _ _).trans (hwf.probeLength_le hcap id).1
  rw [eraseInspected, List.length_append]
  rw [inspected] at hfind ⊢
  generalize indexOf capacity id = home at hhome hfind ⊢
  cases hlocate : eraseLocate m id capacity home with
  | none => rwa [List.length_nil, Nat.add_zero]
  | some hole =>
      have hstart : (home + 0) % capacity = home := by
        rw [Nat.add_zero, Nat.mod_eq_of_lt hhome]
      rw [← hstart] at hlocate
      obtain ⟨d, rfl, hlen, hbefore⟩ := findReads_of_locate hcap _ _ _ hlocate
      obtain ⟨e, hlen', hafter⟩ := length_shiftReads_le hcap home (capacity - 1)
        (hbefore d (le_refl d)) (0 + d)
      rw [hstart] at hlen
      have hrun : ∀ i < d + 1 + e,
          entries m.slots ((home + i) % capacity) ≠ none := by
        intro i hi hnone
        rw [entries, entry_eq_none] at hnone
        rcases Nat.lt_or_ge d i with hlt | hle
        · have hocc := hafter (i - (d + 1)) (by omega)
          rw [show 0 + d + 1 + (i - (d + 1)) = i by omega, hnone] at hocc
          cases hocc
        · have hocc := hbefore i hle
          rw [Nat.zero_add, hnone] at hocc
          cases hocc
      -- not all slots are occupied, so the run ends before it comes back to where it began
      have hshort : d + 1 + e < capacity := by
        by_contra hge
        have hfull := run_le_count (le_refl capacity) fun i hi => hrun i (by omega)
        rw [← hwf.size_eq] at hfull
        omega
      have hcount := run_le_count hshort.le hrun
      rw [← hwf.size_eq] at hcount
      rw [hlen]
      exact (Nat.add_le_add_left hlen' _).trans (by omega)

end OrderIdMap

open OrderIdMap (Live)

/-- A lookup of an order id map inspects at most one slot more than there are entries, after
whatever history, and so does a removal if the table is not full. Lookups and removals of a book
inspect at most one slot more than the book has room for orders. -/
theorem probes_bounded :
    (∀ (capacity : Nat), capacity.isPowerOfTwo → ∀ ops : List OrderIdMap.Op,
      OrderIdMap.Admissible capacity [] ops →
      ∃ m : OrderIdMap capacity, OrderIdMap.run {} ops = .ok (m, (OrderIdMap.refRun [] ops).2) ∧
        ∀ id, m.probeLength id ≤ m.size + 1 ∧ (Live ops id → m.probeLength id ≤ m.size) ∧
          (m.inspected id).length ≤ m.probeLength id ∧
          (m.size < capacity → (m.eraseInspected id).length ≤ m.size + 1)) ∧
    ∀ (poolCapacity windowSize : Nat), ValidWindow windowSize → ∀ cs : List Call,
      (∀ c ∈ cs, c.InRange windowSize) →
      ∃ (history : List Event) (b : OrderBook poolCapacity windowSize),
        OrderBook.run [] {} cs = .ok (history, b) ∧
        ∀ id, b.engine.idMap.probeLength id ≤ poolCapacity + 1 ∧
          (b.engine.idMap.inspected id).length ≤ poolCapacity + 1 ∧
          (b.engine.idMap.eraseInspected id).length ≤ poolCapacity + 1 := by
  constructor
  · intro capacity hcap ops hadm
    obtain ⟨m, hrun, h⟩ := (OrderIdMap.fresh_represents hcap).run hcap ops hadm
    refine ⟨m, hrun, fun id => ?_⟩
    obtain ⟨hle, hpresent⟩ := h.wellFormed.probeLength_le hcap id
    refine ⟨hle, fun hlive => ?_, OrderIdMap.length_findReads_le _ _, fun hroom =>
      h.wellFormed.length_eraseInspected_le hcap hroom id⟩
    rw [OrderIdMap.live_iff_mem_refRun, ← h.stored_iff] at hlive
    exact hpresent hlive
  · intro poolCapacity windowSize hvalid cs hcs
    obtain ⟨history, b, mb, sb, sa, hrun, -, hlock, -, -⟩ :=
      @run_ok poolCapacity windowSize hvalid cs hcs
    have hengine := hlock.map.engine
    have hsize := hengine.size
    have hlen := hlock.length_le
    rw [List.length_append] at hsize
    refine ⟨history, b, hrun, fun id => ?_⟩
    rw [hlock.sim.engine]
    have hcap := idMapCapacity_isPowerOfTwo poolCapacity
    obtain ⟨hle, _⟩ := hengine.wellFormed.probeLength_le hcap id
    have hreads : (mb.engine.idMap.inspected id).length ≤ mb.engine.idMap.probeLength id :=
      OrderIdMap.length_findReads_le _ _
    -- the table has twice as many slots as there is room for orders, and one at least
    have hroom : mb.engine.idMap.size < idMapCapacity poolCapacity := by
      have htwice := two_mul_le_idMapCapacity poolCapacity
      have hpos := Nat.pos_of_isPowerOfTwo hcap
      omega
    have herase := hengine.wellFormed.length_eraseInspected_le hcap hroom id
    omega

/-- Ids with one home slot, of which the second has gone: in a table of four slots, and in a book
with room for three orders, where two of them rest. -/
theorem probes_bounded_colliding :
    (∃ m : OrderIdMap 4, OrderIdMap.run {} [.insert 3 (some 0), .insert 4 (some 1),
        .insert 5 (some 2), .erase 4] = .ok (m, [.inserted, .inserted, .inserted, .erased true]) ∧
      (m.size, m.probeLength 5, m.probeLength 4) = (2, 2, 3) ∧
      ∀ id, m.probeLength id ≤ m.size + 1) ∧
    ∃ (history : List Event) (b : OrderBook 3 64),
      OrderBook.run [] {} [.add 4 .buy 100 5 0, .add 5 .buy 100 2 1, .add 6 .sell 110 3 2,
        .cancel 5] = .ok (history, b) ∧
      (b.engine.idMap.inspected 6, b.engine.idMap.eraseInspected 6) = ([4, 5], [4, 5, 6]) ∧
      ∀ id, b.engine.idMap.probeLength id ≤ 4 ∧
        (b.engine.idMap.eraseInspected id).length ≤ 4 := by
  obtain ⟨hmaps, hbooks⟩ := probes_bounded
  obtain ⟨m, hrun, hprobes⟩ := hmaps 4 ⟨2, rfl⟩ [.insert 3 (some 0), .insert 4 (some 1),
    .insert 5 (some 2), .erase 4]
    ⟨⟨rfl, by decide⟩, ⟨rfl, by decide⟩, ⟨rfl, by decide⟩, trivial, trivial⟩
  obtain ⟨history, b, hrun', hprobes'⟩ := hbooks 3 64 ⟨⟨6, rfl⟩, by decide⟩
    [.add 4 .buy 100 5 0, .add 5 .buy 100 2 1, .add 6 .sell 110 3 2, .cancel 5] (by decide)
  have hchain : (OrderIdMap.run ({} : OrderIdMap 4) [.insert 3 (some 0), .insert 4 (some 1),
      .insert 5 (some 2), .erase 4]).map (fun r =>
        (r.1.size, r.1.probeLength 5, r.1.probeLength 4)) = .ok (2, 2, 3) := by decide +kernel
  have hslots : (OrderBook.run [] ({} : OrderBook 3 64) [.add 4 .buy 100 5 0, .add 5 .buy 100 2 1,
      .add 6 .sell 110 3 2, .cancel 5]).map (fun r =>
        (r.2.engine.idMap.inspected 6, r.2.engine.idMap.eraseInspected 6)) =
      .ok ([4, 5], [4, 5, 6]) := by decide +kernel
  rw [hrun] at hchain
  rw [hrun'] at hslots
  exact ⟨⟨m, hrun, Except.ok.inj hchain, fun id => (hprobes id).1⟩, history, b, hrun',
    Except.ok.inj hslots, fun id => ⟨(hprobes' id).1, (hprobes' id).2.2⟩⟩

end LimitOrderBook
