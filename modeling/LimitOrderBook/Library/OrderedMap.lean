import Mathlib.Data.List.Basic
import Mathlib.Data.List.Nodup
import Mathlib.Data.List.TakeWhile
import Mathlib.Tactic.Common

/-!
# Ordered maps

A map as the list of its entries in ascending key order, for an arbitrary strict total order of
the keys. `find`, `touch`, `set` and `erase` are lookup, insertion of a default if the key is
absent, replacement and deletion; the first entry is the one with the least key.
-/

namespace OrderedMap

variable {K V : Type*}

/-- A strict total order, as a test. -/
structure StrictTotal (lt : K → K → Bool) : Prop where
  irrefl : ∀ a, lt a a = false
  trans : ∀ {a b c}, lt a b = true → lt b c = true → lt a c = true
  total : ∀ a b, lt a b = true ∨ a = b ∨ lt b a = true

/-- The entries are in ascending key order. -/
def Sorted (lt : K → K → Bool) (m : List (K × V)) : Prop :=
  m.Pairwise fun a b => lt a.1 b.1 = true

variable {lt : K → K → Bool} {m : List (K × V)}

/-- In a strict order nothing is below what is below it. -/
theorem StrictTotal.asymm (h : StrictTotal lt) {a b : K} (hab : lt a b = true) :
    lt b a = false := by
  by_contra hba
  rw [Bool.not_eq_false] at hba
  have haa := h.trans hab hba
  rw [h.irrefl] at haa
  cases haa

/-- Keys in order are different. -/
theorem StrictTotal.ne (h : StrictTotal lt) {a b : K} (hab : lt a b = true) : a ≠ b := by
  rintro rfl
  rw [h.irrefl] at hab
  cases hab

/-- What is not below and not equal is above. -/
theorem StrictTotal.lt_of_not_lt (h : StrictTotal lt) {a b : K} (hab : lt a b = false)
    (hne : a ≠ b) : lt b a = true := by
  rcases h.total a b with hlt | heq | hgt
  · rw [hab] at hlt; cases hlt
  · exact absurd heq hne
  · exact hgt

/-- The keys of a sorted list are distinct. -/
theorem Sorted.nodup_keys (h : StrictTotal lt) (hm : Sorted lt m) : (m.map Prod.fst).Nodup := by
  rw [List.Nodup, List.pairwise_map]
  exact hm.imp fun hab => h.ne hab

/-- Entries with the same key are the same. -/
theorem Sorted.eq_of_key_eq (h : StrictTotal lt) (hm : Sorted lt m) {a b : K × V}
    (ha : a ∈ m) (hb : b ∈ m) (hab : a.1 = b.1) : a = b :=
  List.inj_on_of_nodup_map (hm.nodup_keys h) ha hb hab

/-- The entries around one have other keys. -/
theorem Sorted.ne_middle (h : StrictTotal lt) {k : K} {v : V} {a b : List (K × V)}
    (hm : Sorted lt (a ++ (k, v) :: b)) {e : K × V} (he : e ∈ a ∨ e ∈ b) : e.1 ≠ k := by
  obtain ⟨-, hb, hab⟩ := List.pairwise_append.mp hm
  rcases he with he | he
  · exact h.ne (hab e he (k, v) (by simp))
  · exact (h.ne ((List.pairwise_cons.mp hb).1 e he)).symm

/-- In a sorted list the entries below a key are the first ones. -/
theorem Sorted.takeWhile_dropWhile (h : StrictTotal lt) (hm : Sorted lt m) (k : K) :
    (∀ e ∈ m.takeWhile (fun e => lt e.1 k), lt e.1 k = true) ∧
      ∀ e ∈ m.dropWhile (fun e => lt e.1 k), lt e.1 k = false := by
  refine ⟨fun e he => List.mem_takeWhile_imp (p := fun e : K × V => lt e.1 k) he, ?_⟩
  induction m with
  | nil => simp
  | cons a m ih =>
      obtain ⟨hhead, htail⟩ := List.pairwise_cons.mp hm
      rw [List.dropWhile_cons]
      split
      · exact ih htail
      · next ha =>
          intro e he
          rcases List.mem_cons.mp he with rfl | he
          · simpa using ha
          · by_contra hlt
            exact ha (h.trans (hhead e he) (by simpa using hlt))

/-- An entry with the least key is the first one. -/
theorem Sorted.eq_cons_of_least (h : StrictTotal lt) (hm : Sorted lt m) {e : K × V} (he : e ∈ m)
    (hleast : ∀ e' ∈ m, e' ≠ e → lt e.1 e'.1 = true) :
    ∃ m', m = e :: m' ∧ Sorted lt m' ∧ ∀ e', e' ∈ m' ↔ e' ∈ m ∧ e' ≠ e := by
  cases m with
  | nil => cases he
  | cons a m =>
      obtain ⟨hhead, htail⟩ := List.pairwise_cons.mp hm
      have hae : a = e := by
        by_contra hne
        rcases List.mem_cons.mp he with rfl | hmem
        · exact hne rfl
        · have hle := hleast a (by simp) hne
          rw [h.asymm (hhead e hmem)] at hle
          cases hle
      subst hae
      refine ⟨m, rfl, htail, fun e' => ⟨fun hmem => ⟨by simp [hmem], ?_⟩, ?_⟩⟩
      · rintro rfl
        exact h.ne (hhead e' hmem) rfl
      · rintro ⟨hmem, hne⟩
        exact (List.mem_cons.mp hmem).resolve_left hne

section Operations

variable [DecidableEq K]

/-- The value at a key. -/
def find (m : List (K × V)) (k : K) : Option V := (m.find? fun e => e.1 = k).map Prod.snd

/-- Insert a default at a key that is absent. -/
def touch (lt : K → K → Bool) (m : List (K × V)) (k : K) (v : V) : List (K × V) :=
  if (find m k).isSome then m
  else m.takeWhile (fun e => lt e.1 k) ++ (k, v) :: m.dropWhile (fun e => lt e.1 k)

/-- Replace the value at a key. -/
def set (m : List (K × V)) (k : K) (v : V) : List (K × V) :=
  m.map fun e => if e.1 = k then (k, v) else e

/-- Delete a key. -/
def erase (m : List (K × V)) (k : K) : List (K × V) := m.filter fun e => e.1 ≠ k

variable {k : K} {v : V}

/-- A key is found exactly with the value it is stored with. -/
theorem Sorted.find_eq_some (h : StrictTotal lt) (hm : Sorted lt m) :
    find m k = some v ↔ (k, v) ∈ m := by
  unfold find
  rw [Option.map_eq_some_iff]
  constructor
  · rintro ⟨⟨k', v'⟩, he, rfl⟩
    have hk : k' = k := by simpa using List.find?_some he
    subst hk
    exact List.mem_of_find?_eq_some he
  · intro hmem
    cases he : m.find? fun e => e.1 = k with
    | none => exact absurd (decide_eq_true rfl) (List.find?_eq_none.mp he (k, v) hmem)
    | some e =>
        have hk : e.1 = k := by simpa using List.find?_some he
        have heq := hm.eq_of_key_eq h (List.mem_of_find?_eq_some he) hmem hk
        exact ⟨e, rfl, by rw [heq]⟩

/-- A key is not found exactly if no entry has it. -/
theorem find_eq_none : find m k = none ↔ ∀ e ∈ m, e.1 ≠ k := by
  unfold find
  rw [Option.map_eq_none_iff, List.find?_eq_none]
  simp

/-- What `touch` leaves in the map. -/
theorem mem_touch {e : K × V} :
    e ∈ touch lt m k v ↔ e ∈ m ∨ (find m k = none ∧ e = (k, v)) := by
  unfold touch
  cases hf : find m k with
  | some w => simp
  | none =>
      simp only [Option.isSome_none, Bool.false_eq_true, if_false, true_and]
      conv_rhs => rw [← List.takeWhile_append_dropWhile (p := fun e => lt e.1 k) (l := m)]
      simp only [List.mem_append, List.mem_cons]
      tauto

/-- `touch` keeps the entries in order. -/
theorem Sorted.touch (h : StrictTotal lt) (hm : Sorted lt m) (k : K) (v : V) :
    Sorted lt (touch lt m k v) := by
  unfold OrderedMap.touch
  split
  · exact hm
  · next hf =>
      have hnone : ∀ e ∈ m, e.1 ≠ k := find_eq_none.mp (by simpa using hf)
      obtain ⟨hbelow, habove⟩ := hm.takeWhile_dropWhile h k
      have hsplit : Sorted lt (m.takeWhile (fun e => lt e.1 k) ++
          m.dropWhile (fun e => lt e.1 k)) := by
        rw [List.takeWhile_append_dropWhile]
        exact hm
      obtain ⟨h1, h2, h3⟩ := List.pairwise_append.mp hsplit
      refine List.pairwise_append.mpr ⟨h1, List.pairwise_cons.mpr ⟨?_, h2⟩, ?_⟩
      · intro e he
        exact h.lt_of_not_lt (habove e he) (hnone e (List.dropWhile_subset _ he))
      · intro a ha b hb
        rcases List.mem_cons.mp hb with rfl | hb
        · exact hbelow a ha
        · exact h3 a ha b hb

/-- `touch` adds an entry for an absent key. -/
theorem length_touch_of_absent (habsent : find m k = none) :
    (touch lt m k v).length = m.length + 1 := by
  unfold touch
  rw [if_neg (by simp [habsent])]
  have hlen := congrArg List.length
    (List.takeWhile_append_dropWhile (p := fun e => lt e.1 k) (l := m))
  rw [List.length_append] at hlen
  rw [List.length_append, List.length_cons]
  omega

/-- `touch` does nothing for a key that is present. -/
theorem touch_of_present {w : V} (hpresent : find m k = some w) : touch lt m k v = m := by
  unfold touch
  rw [if_pos (by simp [hpresent])]

/-- `touch` removes nothing. -/
theorem length_le_touch : m.length ≤ (touch lt m k v).length := by
  cases hf : find m k with
  | none =>
      rw [length_touch_of_absent hf]
      omega
  | some w => rw [touch_of_present hf]

/-- What `set` leaves in the map. -/
theorem mem_set {e : K × V} :
    e ∈ set m k v ↔ (e ∈ m ∧ e.1 ≠ k) ∨ (e = (k, v) ∧ ∃ w, (k, w) ∈ m) := by
  unfold set
  rw [List.mem_map]
  constructor
  · rintro ⟨⟨k', w⟩, ha, rfl⟩
    split
    · next hk => subst hk; exact Or.inr ⟨rfl, w, ha⟩
    · next hk => exact Or.inl ⟨ha, hk⟩
  · rintro (⟨he, hk⟩ | ⟨rfl, w, hw⟩)
    · exact ⟨e, he, if_neg hk⟩
    · exact ⟨(k, w), hw, if_pos rfl⟩

/-- `set` does not change the keys. -/
theorem map_fst_set : (set m k v).map Prod.fst = m.map Prod.fst := by
  unfold set
  rw [List.map_map]
  apply List.map_congr_left
  intro e _
  by_cases hk : e.1 = k <;> simp [hk]

/-- `set` keeps the entries in order. -/
theorem Sorted.set (hm : Sorted lt m) (k : K) (v : V) : Sorted lt (set m k v) := by
  have hkeys : (m.map Prod.fst).Pairwise fun a b => lt a b = true := by
    rw [List.pairwise_map]
    exact hm
  rw [← map_fst_set (k := k) (v := v), List.pairwise_map] at hkeys
  exact hkeys

/-- `set` keeps the number of entries. -/
theorem length_set : (set m k v).length = m.length := by
  simp [set]

/-- What `erase` leaves in the map. -/
theorem mem_erase {e : K × V} : e ∈ erase m k ↔ e ∈ m ∧ e.1 ≠ k := by
  simp [erase]

/-- `erase` keeps the entries in order. -/
theorem Sorted.erase (hm : Sorted lt m) (k : K) : Sorted lt (erase m k) :=
  List.Pairwise.filter _ hm

/-- Deleting a key makes no difference between the values it had. -/
theorem erase_set : erase (set m k v) k = erase m k := by
  unfold erase set
  induction m with
  | nil => rfl
  | cons e m ih =>
      rw [List.map_cons]
      by_cases hk : e.1 = k
      · rw [if_pos hk, List.filter_cons_of_neg (by simp),
          List.filter_cons_of_neg (by simp [hk]), ih]
      · rw [if_neg hk, List.filter_cons_of_pos (by simp [hk]),
          List.filter_cons_of_pos (by simp [hk]),
          ih]

/-! ## An entry in its place -/

section Middle

variable {a b : List (K × V)}

/-- An entry is found at its key. -/
theorem Sorted.find_middle (h : StrictTotal lt) (hm : Sorted lt (a ++ (k, v) :: b)) :
    find (a ++ (k, v) :: b) k = some v :=
  (hm.find_eq_some h).mpr (by simp)

/-- Replacing the value of an entry. -/
theorem Sorted.set_middle (h : StrictTotal lt) (hm : Sorted lt (a ++ (k, v) :: b)) (w : V) :
    OrderedMap.set (a ++ (k, v) :: b) k w = a ++ (k, w) :: b := by
  have hkeep : ∀ l : List (K × V), (∀ e ∈ l, e ∈ a ∨ e ∈ b) →
      l.map (fun e => if e.1 = k then (k, w) else e) = l := by
    intro l hl
    conv_rhs => rw [← List.map_id l]
    refine List.map_congr_left fun e he => ?_
    rw [if_neg (hm.ne_middle h (hl e he)), id]
  unfold OrderedMap.set
  rw [List.map_append, List.map_cons, if_pos rfl, hkeep a fun e he => Or.inl he,
    hkeep b fun e he => Or.inr he]

/-- Deleting an entry. -/
theorem Sorted.erase_middle (h : StrictTotal lt) (hm : Sorted lt (a ++ (k, v) :: b)) :
    OrderedMap.erase (a ++ (k, v) :: b) k = a ++ b := by
  have hkeep : ∀ l : List (K × V), (∀ e ∈ l, e ∈ a ∨ e ∈ b) →
      l.filter (fun e => e.1 ≠ k) = l := by
    intro l hl
    refine List.filter_eq_self.mpr fun e he => ?_
    simpa using hm.ne_middle h (hl e he)
  unfold OrderedMap.erase
  rw [List.filter_append, List.filter_cons_of_neg (by simp), hkeep a fun e he => Or.inl he,
    hkeep b fun e he => Or.inr he]

end Middle

end Operations

end OrderedMap
