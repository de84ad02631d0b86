import LimitOrderBook.IdMap.Correctness

/-!
# Churn leaves no trace in the order id map

Deletion by backward shift leaves no tombstones. Entries may sit in different slots after
different histories, but which slots are occupied depends on the live ids only
(`Represents.occupiedSlots_eq`), and a lookup that misses reads nothing else of the table
(`probeLength_congr`).
-/

namespace LimitOrderBook.OrderIdMap

open LinearProbing

variable {capacity : Nat}

/-- The occupied slots. -/
def occupiedSlots (m : OrderIdMap capacity) : List Nat :=
  (List.range capacity).filter fun i => (m.slots i).occupied

/-- The id is entered by the calls and not deleted since. -/
def Live (ops : List Op) (id : OrderId) : Prop :=
  (lastInsert id ops.reverse).isSome

instance (ops : List Op) (id : OrderId) : Decidable (Live ops id) :=
  inferInstanceAs (Decidable (_ = true))

/-- The calls that enter each id once. -/
def enterAll (ptrOf : OrderId → Option OrderRef) (ids : List OrderId) : List Op :=
  ids.map fun id => .insert id (ptrOf id)

section TwoTables

variable {m m' : OrderIdMap capacity} {l l' : Reference}

/-- An occupied slot shows an id, and the other way round. -/
theorem occupied_iff (m : OrderIdMap capacity) (i : Nat) :
    (m.slots i).occupied = true ↔ entries m.slots i ≠ none := by
  rw [entries, Ne, entry_eq_none, Bool.not_eq_false]

/-- The keys of the table are the ids of the reference map. -/
theorem Represents.stored_iff (h : Represents m l) (id : OrderId) :
    Stored capacity (entries m.slots) id ↔ id ∈ l.map Prod.fst := by
  rw [← lookup_isSome_iff, Option.isSome_iff_exists]
  exact exists_congr (h.present id)

/-- Two maps with the same ids have the same occupied slots. -/
theorem Represents.occupied_eq (hcap : capacity.isPowerOfTwo) (h : Represents m l)
    (h' : Represents m' l') (hids : ∀ id, id ∈ l.map Prod.fst ↔ id ∈ l'.map Prod.fst) {i : Nat}
    (hi : i < capacity) : (m.slots i).occupied = (m'.slots i).occupied := by
  rw [Bool.eq_iff_iff, occupied_iff, occupied_iff]
  constructor
  · refine h.wellFormed.valid.occupied_of_stored h'.wellFormed.valid (index_of_lt hcap) ?_ hi
    intro id hid
    rwa [h'.stored_iff, ← hids, ← h.stored_iff]
  · refine h'.wellFormed.valid.occupied_of_stored h.wellFormed.valid (index_of_lt hcap) ?_ hi
    intro id hid
    rwa [h.stored_iff, hids, ← h'.stored_iff]

/-- The occupied slots of two maps with the same ids. -/
theorem Represents.occupiedSlots_eq (hcap : capacity.isPowerOfTwo) (h : Represents m l)
    (h' : Represents m' l') (hids : ∀ id, id ∈ l.map Prod.fst ↔ id ∈ l'.map Prod.fst) :
    m.occupiedSlots = m'.occupiedSlots := by
  refine List.filter_congr fun i hi => ?_
  exact h.occupied_eq hcap h' hids (List.mem_range.mp hi)

/-- The probe loop of an absent id reads only which slots are occupied. -/
theorem probeLoop_congr (hcap : capacity.isPowerOfTwo) {id : OrderId}
    (hocc : ∀ i < capacity, (m.slots i).occupied = (m'.slots i).occupied)
    (habsent : ∀ ptr, ¬ Present m id ptr) (habsent' : ∀ ptr, ¬ Present m' id ptr)
    (fuel idx probes : Nat) (hidx : idx < capacity) :
    m.probeLoop id fuel idx probes = m'.probeLoop id fuel idx probes := by
  have hother : ∀ {m : OrderIdMap capacity}, (∀ ptr, ¬ Present m id ptr) → ∀ i < capacity,
      ((m.slots i).occupied = true ∧ (m.slots i).id ≠ id) ↔ (m.slots i).occupied = true := by
    intro m habsent i hi
    refine and_iff_left_of_imp fun hset heq => ?_
    exact habsent _ ⟨i, hi, entry_eq_some.mpr ⟨hset, heq, rfl⟩⟩
  induction fuel generalizing idx probes with
  | zero => rfl
  | succ fuel ih =>
      have hnext : (idx + 1) &&& mask capacity < capacity := by
        rw [and_mask hcap]
        exact Nat.mod_lt _ (Nat.pos_of_isPowerOfTwo hcap)
      simp only [probeLoop]
      rw [if_congr (hother habsent idx hidx) rfl rfl, if_congr (hother habsent' idx hidx) rfl rfl,
        hocc idx hidx, ih _ (probes + 1) hnext]

/-- A miss costs the same in two maps with the same ids. -/
theorem Represents.probeLength_eq (hcap : capacity.isPowerOfTwo) (h : Represents m l)
    (h' : Represents m' l') (hids : ∀ id, id ∈ l.map Prod.fst ↔ id ∈ l'.map Prod.fst)
    {id : OrderId} (habsent : id ∉ l.map Prod.fst) : m.probeLength id = m'.probeLength id := by
  refine probeLoop_congr hcap (fun i => h.occupied_eq hcap h' hids) ?_ ?_ _ _ _
    (index_of_lt hcap id)
  · exact fun ptr hp => habsent ((h.stored_iff id).mp ⟨ptr, hp⟩)
  · exact fun ptr hp => habsent ((hids id).mpr ((h'.stored_iff id).mp ⟨ptr, hp⟩))

end TwoTables

/-- The live ids are those of the reference map. -/
theorem live_iff_mem_refRun (ops : List Op) (id : OrderId) :
    Live ops id ↔ id ∈ (refRun [] ops).1.map Prod.fst := by
  rw [← lookup_isSome_iff, ref_run_lookup ops [] [] id rfl, List.append_nil]
  rfl

/-- Entering distinct new ids is admissible while they fit, and they are then live. -/
theorem enterAll_spec (ptrOf : OrderId → Option OrderRef) (ids : List OrderId) (l : Reference)
    (hnodup : ids.Nodup) (hnew : ∀ id ∈ ids, id ∉ l.map Prod.fst)
    (hroom : l.length + ids.length ≤ capacity) :
    Admissible capacity l (enterAll ptrOf ids) ∧
      ∀ id, id ∈ (refRun l (enterAll ptrOf ids)).1.map Prod.fst ↔
        id ∈ ids ∨ id ∈ l.map Prod.fst := by
  induction ids generalizing l with
  | nil => exact ⟨trivial, fun id => by simp [enterAll, refRun]⟩
  | cons id ids ih =>
      obtain ⟨hid, hrest⟩ := List.nodup_cons.mp hnodup
      rw [List.length_cons] at hroom
      have hlookup : l.lookup id = none := by
        rw [← Option.not_isSome_iff_eq_none, lookup_isSome_iff]
        exact hnew id (List.mem_cons_self)
      obtain ⟨hadm, hmem⟩ := ih ((id, ptrOf id) :: l) hrest
        (fun x hx => by
          rw [List.map_cons, List.mem_cons, not_or]
          refine ⟨?_, hnew x (List.mem_cons_of_mem _ hx)⟩
          rintro rfl
          exact hid hx)
        (by rw [List.length_cons]; omega)
      refine ⟨⟨⟨hlookup, by omega⟩, hadm⟩, fun x => ?_⟩
      have hx := hmem x
      rw [List.map_cons, List.mem_cons] at hx
      rw [List.mem_cons]
      exact hx.trans (by tauto)

/-- Churn leaves no trace: after any two admissible histories that end with the same live ids the
same slots are occupied and every miss costs the same, and both are as in a map into which only
the live ids were entered, once and in any order. -/
theorem run_churn_leaves_no_trace (hcap : capacity.isPowerOfTwo) (ops ops' : List Op)
    (hadm : Admissible capacity [] ops) (hadm' : Admissible capacity [] ops')
    (hlive : ∀ id, Live ops id ↔ Live ops' id) :
    ∃ m m' : OrderIdMap capacity,
      run {} ops = .ok (m, (refRun [] ops).2) ∧ run {} ops' = .ok (m', (refRun [] ops').2) ∧
      m.occupiedSlots = m'.occupiedSlots ∧
      (∀ id, ¬ Live ops id → m.probeLength id = m'.probeLength id) ∧
      ∀ (ids : List OrderId) (ptrOf : OrderId → Option OrderRef), ids.Nodup →
        (∀ id, id ∈ ids ↔ Live ops id) →
        ∃ (built : OrderIdMap capacity) (answers : List Answer),
          run {} (enterAll ptrOf ids) = .ok (built, answers) ∧
          m.occupiedSlots = built.occupiedSlots ∧
          ∀ id, ¬ Live ops id → m.probeLength id = built.probeLength id := by
  obtain ⟨m, hrun, h⟩ := (fresh_represents hcap).run hcap ops hadm
  obtain ⟨m', hrun', h'⟩ := (fresh_represents hcap).run hcap ops' hadm'
  simp only [live_iff_mem_refRun] at hlive ⊢
  refine ⟨m, m', hrun, hrun', h.occupiedSlots_eq hcap h' hlive,
    fun id habsent => h.probeLength_eq hcap h' hlive habsent, ?_⟩
  intro ids ptrOf hnodup hids
  -- the live ids fit, since they all are in the table
  have hlen : ids.length ≤ capacity := by
    have hperm : ids.Perm ((refRun [] ops).1.map Prod.fst) :=
      (List.perm_ext_iff_of_nodup hnodup h.nodup).mpr hids
    rw [hperm.length_eq, List.length_map, ← h.size_eq, h.wellFormed.size_eq]
    exact count_le
  obtain ⟨hadmOnce, hmem⟩ :=
    @enterAll_spec capacity ptrOf ids [] hnodup (by simp) (by simpa using hlen)
  obtain ⟨built, hbuilt, hrep⟩ := (fresh_represents hcap).run hcap _ hadmOnce
  have hsame : ∀ id, id ∈ (refRun [] ops).1.map Prod.fst ↔
      id ∈ (refRun [] (enterAll ptrOf ids)).1.map Prod.fst := by
    intro id
    rw [hmem, ← hids]
    simp
  exact ⟨built, _, hbuilt, h.occupiedSlots_eq hcap hrep hsame,
    fun id habsent => h.probeLength_eq hcap hrep hsame habsent⟩

/-- Two ids come and go before the third; a miss costs what it costs beside the third alone. -/
theorem run_churn_leaves_no_trace_one_left :
    ∃ m m' : OrderIdMap 4,
      run {} [.insert 1 (some 0), .insert 2 (some 1), .erase 1, .insert 3 (some 0), .erase 2] =
        .ok (m, [.inserted, .inserted, .erased true, .inserted, .erased true]) ∧
      run {} [.insert 3 (some 7)] = .ok (m', [.inserted]) ∧
      m.occupiedSlots = m'.occupiedSlots ∧ ∀ id, id ≠ 3 → m.probeLength id = m'.probeLength id := by
  have hlive : ∀ id,
      Live [.insert 1 (some 0), .insert 2 (some 1), .erase 1, .insert 3 (some 0), .erase 2] id ↔
        id = 3 := by
    intro id
    simp only [Live, List.reverse_cons, List.reverse_nil, List.nil_append, List.cons_append,
      lastInsert]
    grind
  have hlive' : ∀ id, Live [.insert 3 (some 7)] id ↔ id = 3 := by
    intro id
    simp only [Live, List.reverse_cons, List.reverse_nil, List.nil_append, lastInsert]
    grind
  obtain ⟨m, m', hrun, hrun', hslots, hmiss, -⟩ :=
    run_churn_leaves_no_trace (⟨2, rfl⟩ : Nat.isPowerOfTwo 4)
      [.insert 1 (some 0), .insert 2 (some 1), .erase 1, .insert 3 (some 0), .erase 2]
      [.insert 3 (some 7)]
      ⟨⟨rfl, by decide⟩, ⟨rfl, by decide⟩, trivial, ⟨rfl, by decide⟩, trivial, trivial⟩
      ⟨⟨rfl, by decide⟩, trivial⟩ fun id => (hlive id).trans (hlive' id).symm
  exact ⟨m, m', hrun, hrun', hslots, fun id hne => hmiss id fun h => hne ((hlive id).mp h)⟩

end LimitOrderBook.OrderIdMap
