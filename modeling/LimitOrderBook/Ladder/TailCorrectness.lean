import LimitOrderBook.Ladder.Tail
import LimitOrderBook.Library.OrderedMap
import Mathlib.Data.List.Sort

/-!
# The tail is a sorted map

The levels of a `LevelTail` are kept strictly sorted, worst first, and each operation acts on them
as on a map from prices to levels: `find` looks a price up, `findOrInsert` adds it if it is
absent, `erase` deletes it, `mergeStaged` forms the union with the staged levels and
`extractRange` splits a price range off.

Segments of the buffer are described by `SortedOn` and `InSegment`, and a sorted segment without
repetition is determined by what is in it.
-/

namespace LimitOrderBook

open OrderedMap (StrictTotal)

/-! ## The order of the prices -/

/-- `worse` is a strict total order. -/
theorem worse_strict (isBid : Bool) : StrictTotal (worse isBid) := by
  refine ⟨fun a => ?_, fun {a b c} hab hbc => ?_, fun a b => ?_⟩
  · cases isBid <;> simp [worse]
  · cases isBid <;> simp only [worse, if_true, Bool.false_eq_true, if_false, decide_eq_true_eq]
      at hab hbc ⊢ <;> lia
  · cases isBid <;> simp only [worse, if_true, Bool.false_eq_true, if_false, decide_eq_true_eq] <;>
      lia

/-- What is better is what the other one is worse than. -/
theorem better_eq (isBid : Bool) (a b : Price) : better isBid a b = worse isBid b a := by
  cases isBid <;> rfl

/-- `better` is a strict total order. -/
theorem better_strict (isBid : Bool) : StrictTotal (better isBid) := by
  have h := worse_strict isBid
  refine ⟨fun a => ?_, fun {a b c} hab hbc => ?_, fun a b => ?_⟩
  · rw [better_eq]
    exact h.irrefl a
  · rw [better_eq] at hab hbc ⊢
    exact h.trans hbc hab
  · rw [better_eq, better_eq]
    rcases h.total b a with hlt | heq | hgt
    · exact Or.inl hlt
    · exact Or.inr (Or.inl heq.symm)
    · exact Or.inr (Or.inr hgt)

/-! ## Segments -/

/-- The levels of the segment are strictly sorted, worst first. -/
def SortedOn (isBid : Bool) (buf : Nat → PriceLevel) (first last : Nat) : Prop :=
  ∀ i j, first ≤ i → i < j → j < last → worse isBid (buf i).price (buf j).price = true

/-- The level stands in the segment. -/
def InSegment (buf : Nat → PriceLevel) (first last : Nat) (level : PriceLevel) : Prop :=
  ∃ k, first ≤ k ∧ k < last ∧ buf k = level

section Segments

variable {isBid : Bool} {buf : Nat → PriceLevel} {first last : Nat}

/-- A segment with the same slots is sorted the same. -/
theorem SortedOn.congr {buf' : Nat → PriceLevel} (h : SortedOn isBid buf first last)
    (heq : ∀ k, first ≤ k → k < last → buf' k = buf k) : SortedOn isBid buf' first last := by
  intro i j hi hij hj
  rw [heq i hi (by omega), heq j (by omega) hj]
  exact h i j hi hij hj

/-- A part of a sorted segment is sorted. -/
theorem SortedOn.mono {first' last' : Nat} (h : SortedOn isBid buf first last)
    (hfirst : first ≤ first') (hlast : last' ≤ last) : SortedOn isBid buf first' last' :=
  fun i j hi hij hj => h i j (by omega) hij (by omega)

/-- A segment with the same slots holds the same. -/
theorem inSegment_congr {buf' : Nat → PriceLevel} {level : PriceLevel}
    (heq : ∀ k, first ≤ k → k < last → buf' k = buf k) :
    InSegment buf' first last level ↔ InSegment buf first last level := by
  constructor
  · rintro ⟨k, hk, hk', rfl⟩
    exact ⟨k, hk, hk', (heq k hk hk').symm⟩
  · rintro ⟨k, hk, hk', rfl⟩
    exact ⟨k, hk, hk', heq k hk hk'⟩

/-- Equal prices in a sorted segment stand in the same slot. -/
theorem SortedOn.slot_eq (h : SortedOn isBid buf first last) {i j : Nat} (hi : first ≤ i)
    (hi' : i < last) (hj : first ≤ j) (hj' : j < last)
    (heq : (buf i).price = (buf j).price) : i = j := by
  rcases Nat.lt_trichotomy i j with hlt | rfl | hgt
  · exact absurd heq ((worse_strict isBid).ne (h i j hi hlt hj'))
  · rfl
  · exact absurd heq.symm ((worse_strict isBid).ne (h j i hj hgt hi'))

/-- A segment one longer holds one more level. -/
theorem inSegment_succ {level : PriceLevel} (hle : first ≤ last) :
    InSegment buf first (last + 1) level ↔ InSegment buf first last level ∨ buf last = level := by
  constructor
  · rintro ⟨k, hk, hk', rfl⟩
    rcases Nat.lt_or_ge k last with hlt | hge
    · exact Or.inl ⟨k, hk, hlt, rfl⟩
    · obtain rfl : k = last := by omega
      exact Or.inr rfl
  · rintro (⟨k, hk, hk', rfl⟩ | rfl)
    · exact ⟨k, hk, by omega, rfl⟩
    · exact ⟨last, hle, by omega, rfl⟩

/-- A level above a whole sorted segment extends it. -/
theorem SortedOn.succ (h : SortedOn isBid buf first last)
    (habove : ∀ level, InSegment buf first last level →
      worse isBid level.price (buf last).price = true) :
    SortedOn isBid buf first (last + 1) := by
  intro i j hi hij hj
  rcases Nat.lt_or_ge j last with hlt | hge
  · exact h i j hi hij hlt
  · obtain rfl : j = last := by omega
    exact habove _ ⟨i, hi, hij, rfl⟩

end Segments

namespace LevelTail

variable {isBid : Bool} {capacity scratchSize : Nat}

/-- The tail is sorted, within its capacity, and has nothing staged. -/
structure WellFormed (t : LevelTail isBid capacity scratchSize) : Prop where
  sorted : SortedOn isBid t.buf 0 t.n
  size_le : t.n ≤ capacity
  staged_eq : t.staged = 0

/-- The tail is sorted and within its capacity, whatever is staged. -/
structure Ordered (t : LevelTail isBid capacity scratchSize) : Prop where
  sorted : SortedOn isBid t.buf 0 t.n
  size_le : t.n ≤ capacity

/-- The same levels are staged in both tails. -/
structure SameStage (t t' : LevelTail isBid capacity scratchSize) : Prop where
  staged : t'.staged = t.staged
  slots : ∀ k, capacity ≤ k → t'.buf k = t.buf k

/-- A well-formed tail is ordered. -/
theorem WellFormed.ordered {t : LevelTail isBid capacity scratchSize} (hwf : WellFormed t) :
    Ordered t :=
  ⟨hwf.sorted, hwf.size_le⟩

/-- An operation that leaves the stage alone leaves it empty. -/
theorem Ordered.wellFormed {t t' : LevelTail isBid capacity scratchSize} (h : Ordered t')
    (hstage : SameStage t t') (hwf : WellFormed t) : WellFormed t' :=
  ⟨h.sorted, h.size_le, hstage.staged.trans hwf.staged_eq⟩

/-- The level is one of the tail's. -/
def Holds (t : LevelTail isBid capacity scratchSize) (level : PriceLevel) : Prop :=
  InSegment t.buf 0 t.n level

variable {t : LevelTail isBid capacity scratchSize}

/-- The walk visits the levels of the tail. -/
theorem mem_forEach {level : PriceLevel} : level ∈ t.forEach ↔ t.Holds level := by
  simp [forEach, Holds, InSegment]

/-! ## Lookup -/

/-- `lower` splits the sorted levels into those worse than the price and the others. -/
theorem lower_spec (hsorted : SortedOn isBid t.buf 0 t.n) (price : Price) :
    t.lower price ≤ t.n ∧ (∀ i < t.lower price, worse isBid (t.buf i).price price = true) ∧
      ∀ i, t.lower price ≤ i → i < t.n → worse isBid (t.buf i).price price = false := by
  unfold lower
  cases hfind : (List.range t.n).find? fun i => !worse isBid (t.buf i).price price with
  | none =>
      rw [List.find?_eq_none] at hfind
      refine ⟨le_refl _, fun i hi => ?_, fun i hi hi' => absurd hi' (by simpa using hi)⟩
      simpa using hfind i (List.mem_range.mpr hi)
  | some k =>
      rw [List.find?_range_eq_some] at hfind
      obtain ⟨hk, hmem, hbefore⟩ := hfind
      rw [List.mem_range] at hmem
      rw [Option.getD_some]
      refine ⟨by omega, fun i hi => by simpa using hbefore i hi, fun i hi hi' => ?_⟩
      rw [Bool.not_eq_true'] at hk
      rcases Nat.lt_or_ge k i with hlt | hge
      · by_contra hworse
        have htrans := (worse_strict isBid).trans (hsorted k i (by omega) hlt hi')
          (by simpa using hworse)
        rw [hk] at htrans
        cases htrans
      · obtain rfl : i = k := by omega
        exact hk

/-- The only slot that can hold a price is the one `lower` names. -/
theorem lower_eq_of_price (hsorted : SortedOn isBid t.buf 0 t.n) {i : Nat} (hi : i < t.n) :
    t.lower (t.buf i).price = i := by
  obtain ⟨hle, hbelow, habove⟩ := lower_spec hsorted (t.buf i).price
  have hnot : ¬ i < t.lower (t.buf i).price := fun hlt => by
    have hirr := hbelow i hlt
    rw [(worse_strict isBid).irrefl] at hirr
    cases hirr
  by_contra hne
  have hlt : t.lower (t.buf i).price < i := by omega
  have hcontra := habove _ (le_refl _) (by omega)
  rw [hsorted _ i (by omega) hlt hi] at hcontra
  cases hcontra

/-- The test after `lower` holds exactly if the tail has a level at the price. -/
theorem hit_iff (hsorted : SortedOn isBid t.buf 0 t.n) (price : Price) :
    (t.lower price < t.n ∧ (t.buf (t.lower price)).price = price) ↔
      ∃ level, t.Holds level ∧ level.price = price := by
  constructor
  · rintro ⟨hlt, heq⟩
    exact ⟨_, ⟨_, Nat.zero_le _, hlt, rfl⟩, heq⟩
  · rintro ⟨_, ⟨i, _, hi, rfl⟩, rfl⟩
    rw [lower_eq_of_price hsorted hi]
    exact ⟨hi, rfl⟩

/-- `find` returns the slot of the level at the price, if there is one. -/
theorem find_eq_some (hsorted : SortedOn isBid t.buf 0 t.n) {price : Price} {i : Nat} :
    t.find price = some i ↔ i < t.n ∧ (t.buf i).price = price := by
  show (if _ then some (t.lower price) else none) = some i ↔ _
  split
  · next hhit =>
      rw [Option.some.injEq]
      constructor
      · rintro rfl
        exact hhit
      · rintro ⟨hi, rfl⟩
        exact lower_eq_of_price hsorted hi
  · next hmiss =>
      refine iff_of_false (by simp) fun ⟨hi, heq⟩ => hmiss ?_
      exact (hit_iff hsorted price).mpr ⟨_, ⟨i, Nat.zero_le _, hi, rfl⟩, heq⟩

/-- `find` returns null exactly if no level has the price. -/
theorem find_eq_none (hsorted : SortedOn isBid t.buf 0 t.n) {price : Price} :
    t.find price = none ↔ ∀ level, t.Holds level → level.price ≠ price := by
  show (if _ then some (t.lower price) else none) = none ↔ _
  split
  · next hhit =>
      obtain ⟨level, hlevel, heq⟩ := (hit_iff hsorted price).mp hhit
      exact iff_of_false (by simp) fun h => h level hlevel heq
  · next hmiss =>
      refine iff_of_true rfl fun level hlevel heq => hmiss ?_
      exact (hit_iff hsorted price).mpr ⟨level, hlevel, heq⟩

/-! ## Insertion and deletion -/

/-- The buffer after a level has been put into slot `i` of `n`. -/
theorem moveBackward_insert (buf : Nat → PriceLevel) {i n : Nat} (hi : i ≤ n) (level : PriceLevel)
    (k : Nat) (hk : k < n + 1) : Function.update (moveBackward buf i n (n + 1)) i level k =
      if k < i then buf k else if k = i then level else buf (k - 1) := by
  by_cases hki : k = i
  · subst hki
    simp
  · rw [Function.update_of_ne hki]
    unfold moveBackward
    split_ifs <;> first | rfl | omega | (congr 1; omega)

/-- The buffer after slot `i` of `n` has been closed. -/
theorem moveForward_erase (buf : Nat → PriceLevel) {i n : Nat} (hi : i < n) (k : Nat)
    (hk : k < n - 1) : moveForward buf (i + 1) n i k = if k < i then buf k else buf (k + 1) := by
  unfold moveForward
  split_ifs <;> first | rfl | omega | (congr 1; omega)

section Slots

variable {buf buf' : Nat → PriceLevel} {i n : Nat}

/-- A level put where it belongs keeps the levels sorted. -/
theorem sortedOn_insert {level : PriceLevel} (hi : i ≤ n) (hsorted : SortedOn isBid buf 0 n)
    (hbelow : ∀ k < i, worse isBid (buf k).price level.price = true)
    (habove : ∀ k, i ≤ k → k < n → worse isBid level.price (buf k).price = true)
    (hbuf : ∀ k < n + 1, buf' k = if k < i then buf k else if k = i then level else buf (k - 1)) :
    SortedOn isBid buf' 0 (n + 1) := by
  intro a b _ hab hb
  rw [hbuf a (by omega), hbuf b hb]
  split_ifs <;> first
    | omega
    | exact hsorted _ _ (by omega) (by omega) (by omega)
    | exact hbelow _ (by omega)
    | exact habove _ (by omega) (by omega)

/-- Putting a level into a slot adds that level. -/
theorem inSegment_insert {level : PriceLevel} (hi : i ≤ n)
    (hbuf : ∀ k < n + 1, buf' k = if k < i then buf k else if k = i then level else buf (k - 1))
    (other : PriceLevel) :
    InSegment buf' 0 (n + 1) other ↔ InSegment buf 0 n other ∨ other = level := by
  constructor
  · rintro ⟨k, _, hk, rfl⟩
    rw [hbuf k hk]
    split_ifs
    · exact Or.inl ⟨k, by omega, by omega, rfl⟩
    · exact Or.inr rfl
    · exact Or.inl ⟨k - 1, by omega, by omega, rfl⟩
  · rintro (⟨k, _, hk, rfl⟩ | rfl)
    · rcases Nat.lt_or_ge k i with hlt | hge
      · exact ⟨k, by omega, by omega, by rw [hbuf k (by omega), if_pos hlt]⟩
      · exact ⟨k + 1, by omega, by omega, by
          rw [hbuf _ (by omega), if_neg (by omega), if_neg (by omega), Nat.add_sub_cancel]⟩
    · exact ⟨i, by omega, by omega, by rw [hbuf i (by omega), if_neg (by omega), if_pos rfl]⟩

/-- Closing a slot keeps the levels sorted. -/
theorem sortedOn_close (hsorted : SortedOn isBid buf 0 n)
    (hbuf : ∀ k < n - 1, buf' k = if k < i then buf k else buf (k + 1)) :
    SortedOn isBid buf' 0 (n - 1) := by
  intro a b _ hab hb
  rw [hbuf a (by omega), hbuf b hb]
  split_ifs <;> exact hsorted _ _ (by omega) (by omega) (by omega)

/-- Closing a slot of sorted levels takes out the level that stood there. -/
theorem inSegment_close (hsorted : SortedOn isBid buf 0 n) (hi : i < n)
    (hbuf : ∀ k < n - 1, buf' k = if k < i then buf k else buf (k + 1)) (other : PriceLevel) :
    InSegment buf' 0 (n - 1) other ↔
      InSegment buf 0 n other ∧ other.price ≠ (buf i).price := by
  have hne : ∀ k < n, k ≠ i → (buf k).price ≠ (buf i).price := fun k hk hki hp =>
    hki (hsorted.slot_eq (by omega) hk (by omega) hi hp)
  constructor
  · rintro ⟨k, _, hk, rfl⟩
    rw [hbuf k hk]
    split_ifs
    · exact ⟨⟨k, by omega, by omega, rfl⟩, hne k (by omega) (by omega)⟩
    · exact ⟨⟨k + 1, by omega, by omega, rfl⟩, hne _ (by omega) (by omega)⟩
  · rintro ⟨⟨k, _, hk, rfl⟩, hother⟩
    have hki : k ≠ i := fun heq => hother (by rw [heq])
    rcases Nat.lt_or_ge k i with hlt | hge
    · exact ⟨k, by omega, by omega, by rw [hbuf k (by omega), if_pos hlt]⟩
    · exact ⟨k - 1, by omega, by omega, by
        rw [hbuf _ (by omega), if_neg (by omega), Nat.sub_add_cancel (by omega)]⟩

end Slots

/-- `findOrInsert` finds the level at the price. -/
theorem findOrInsert_hit (hsorted : SortedOn isBid t.buf 0 t.n) {i : Nat} (hi : i < t.n)
    {price : Price} (heq : (t.buf i).price = price) : t.findOrInsert price = .ok (t, i) := by
  subst heq
  simp only [findOrInsert, lower_eq_of_price hsorted hi, hi, and_self, if_true]

/-- `findOrInsert` adds an empty level at a price that no level has, while there is room. -/
theorem findOrInsert_miss (hsorted : SortedOn isBid t.buf 0 t.n) {price : Price}
    (hnone : ∀ level, t.Holds level → level.price ≠ price) (hroom : t.n < capacity) :
    ∃ t' i, t.findOrInsert price = .ok (t', i) ∧ Ordered t' ∧ SameStage t t' ∧ t'.n = t.n + 1 ∧
      i < t'.n ∧ t'.buf i = ⟨price, 0, none, none⟩ ∧
      ∀ level, t'.Holds level ↔ t.Holds level ∨ level = ⟨price, 0, none, none⟩ := by
  obtain ⟨hle, hbelow, habove⟩ := lower_spec hsorted price
  have hmiss : ¬ (t.lower price < t.n ∧ (t.buf (t.lower price)).price = price) := fun hhit => by
    obtain ⟨level, hlevel, heq⟩ := (hit_iff hsorted price).mp hhit
    exact hnone level hlevel heq
  have hfar : ∀ j, t.lower price ≤ j → j < t.n → worse isBid price (t.buf j).price = true :=
    fun j hj hj' => (worse_strict isBid).lt_of_not_lt (habove j hj hj')
      (hnone _ ⟨j, Nat.zero_le _, hj', rfl⟩)
  have hbuf := moveBackward_insert t.buf hle ⟨price, 0, none, none⟩
  refine ⟨{ t with
      buf := Function.update (moveBackward t.buf (t.lower price) t.n (t.n + 1)) (t.lower price)
        ⟨price, 0, none, none⟩
      n := t.n + 1 }, t.lower price,
    by simp only [findOrInsert, if_neg hmiss, if_pos hroom],
    ⟨sortedOn_insert hle hsorted hbelow hfar hbuf, hroom⟩, ⟨rfl, fun k hk => ?_⟩, rfl, ?_, ?_, ?_⟩
  · have hne : k ≠ t.lower price := by omega
    exact (Function.update_of_ne hne _ _).trans (if_neg (by omega))
  · exact Nat.lt_succ_of_le hle
  · exact Function.update_self _ _ _
  · exact inSegment_insert hle hbuf

/-- `erase` deletes the level at the price. -/
theorem erase_hit (h : Ordered t) {level : PriceLevel} (hlevel : t.Holds level) :
    Ordered (t.erase level.price) ∧ SameStage t (t.erase level.price) ∧
      (t.erase level.price).n + 1 = t.n ∧
      ∀ other, (t.erase level.price).Holds other ↔
        t.Holds other ∧ other.price ≠ level.price := by
  obtain ⟨i, _, hi, rfl⟩ := hlevel
  have heq : t.erase (t.buf i).price =
      { t with buf := moveForward t.buf (i + 1) t.n i, n := t.n - 1 } := by
    simp only [erase, lower_eq_of_price h.sorted hi, hi, and_self, if_true]
  have hbuf := moveForward_erase t.buf hi
  have hsize := h.size_le
  rw [heq]
  refine ⟨⟨sortedOn_close h.sorted hbuf, ?_⟩, ⟨rfl, fun k hk => ?_⟩, ?_, ?_⟩
  · show t.n - 1 ≤ capacity
    omega
  · show moveForward t.buf (i + 1) t.n i k = t.buf k
    rw [moveForward, if_neg (by omega)]
  · show t.n - 1 + 1 = t.n
    omega
  · exact inSegment_close h.sorted hi hbuf

/-! ## Bulk insertion -/

/-- `r` has the first `i` levels and the first `j` staged levels of `buf` in order below `out`,
and agrees with `buf` from there on. -/
structure Merged (isBid : Bool) (capacity : Nat) (buf r : Nat → PriceLevel) (out i j : Nat) :
    Prop where
  keep : ∀ k, out ≤ k → r k = buf k
  sorted : SortedOn isBid r 0 out
  mem : ∀ level, InSegment r 0 out level ↔
    InSegment buf 0 i level ∨ InSegment buf capacity (capacity + j) level

section Merge

variable {buf r : Nat → PriceLevel} {out i j : Nat}

/-- With nothing staged the levels are merged as they stand. -/
theorem merged_of_no_staged (hlevels : SortedOn isBid buf 0 i) :
    Merged isBid capacity buf buf i i 0 := by
  refine ⟨fun _ _ => rfl, hlevels, fun level => ⟨Or.inl, ?_⟩⟩
  rintro (h | ⟨k, hk, hk', _⟩)
  · exact h
  · omega

/-- A level written to slot `out` is not in the way of what is still to be placed below it. -/
theorem Merged.place {level : PriceLevel}
    (h : Merged isBid capacity (Function.update buf out level) r out i j) (hi : i ≤ out)
    (hcap : out < capacity)
    (habove : ∀ other, InSegment buf 0 i other ∨ InSegment buf capacity (capacity + j) other →
      worse isBid other.price level.price = true) :
    (∀ k, out + 1 ≤ k → r k = buf k) ∧ SortedOn isBid r 0 (out + 1) ∧
      ∀ other, InSegment r 0 (out + 1) other ↔
        (InSegment buf 0 i other ∨ InSegment buf capacity (capacity + j) other) ∨
          level = other := by
  have hsame : ∀ k, k ≠ out → Function.update buf out level k = buf k :=
    fun k hk => Function.update_of_ne hk _ _
  have hlast : r out = level := by
    rw [h.keep out (le_refl _), Function.update_self]
  have hmem : ∀ other, InSegment r 0 out other ↔
      InSegment buf 0 i other ∨ InSegment buf capacity (capacity + j) other := by
    intro other
    rw [h.mem, inSegment_congr fun k _ hk => hsame k (by omega),
      inSegment_congr fun k hk _ => hsame k (by omega)]
  refine ⟨fun k hk => ?_, h.sorted.succ fun other hother => ?_, fun other => ?_⟩
  · rw [h.keep k (by omega), hsame k (by omega)]
  · rw [hlast]
    exact habove other ((hmem other).mp hother)
  · rw [inSegment_succ (Nat.zero_le _), hmem, hlast]

/-- The last level of a sorted segment is above the others. -/
theorem SortedOn.le_last {first last : Nat} {limit : Price}
    (h : SortedOn isBid buf first (last + 1))
    (hlimit : worse isBid (buf last).price limit = true) {other : PriceLevel}
    (hother : InSegment buf first (last + 1) other) : worse isBid other.price limit = true := by
  obtain ⟨k, hk, hk', rfl⟩ := hother
  rcases Nat.lt_or_ge k last with hlt | hge
  · exact (worse_strict isBid).trans (h k last hk hlt (by omega)) hlimit
  · obtain rfl : k = last := by omega
    exact hlimit

/-- The backward merge of sorted levels and sorted staged levels of different prices. The
induction is on `out`; the level placed last is above everything that is still to be placed. -/
theorem mergeLoop_spec (buf : Nat → PriceLevel) (out i j : Nat) (hout : out = i + j)
    (hcap : out ≤ capacity) (hlevels : SortedOn isBid buf 0 i)
    (hstaged : SortedOn isBid buf capacity (capacity + j))
    (hdiff : ∀ a b, InSegment buf 0 i a → InSegment buf capacity (capacity + j) b →
      a.price ≠ b.price) :
    Merged isBid capacity buf (mergeLoop isBid capacity buf out i j) out i j := by
  induction out generalizing buf i j with
  | zero =>
      obtain rfl : i = 0 := by omega
      obtain rfl : j = 0 := by omega
      exact merged_of_no_staged hlevels
  | succ out ih =>
      -- writing slot `out` disturbs neither the levels nor the staged ones
      have hsame : ∀ level k, k ≠ out → Function.update buf out level k = buf k :=
        fun level k hk => Function.update_of_ne hk _ _
      rw [mergeLoop]
      split
      · next hj =>
          subst hj
          obtain rfl : i = out + 1 := by omega
          exact merged_of_no_staged hlevels
      · next hj =>
          obtain ⟨j, rfl⟩ : ∃ j', j = j' + 1 := ⟨j - 1, by omega⟩
          rw [Nat.add_sub_cancel]
          split
          · -- the best level left is one of the sorted ones
            next hmove =>
              obtain ⟨hi, hworse⟩ := hmove
              obtain ⟨i, rfl⟩ : ∃ i', i = i' + 1 := ⟨i - 1, by omega⟩
              rw [Nat.add_sub_cancel] at hworse ⊢
              have hrest := ih (Function.update buf out (buf i)) i (j + 1) (by omega) (by omega)
                ((hlevels.mono (le_refl _) (by omega)).congr fun k _ hk => hsame _ k (by omega))
                (hstaged.congr fun k hk _ => hsame _ k (by omega))
                (fun a b ha hb => by
                  rw [inSegment_congr fun k _ hk => hsame _ k (by omega)] at ha
                  rw [inSegment_congr fun k hk _ => hsame _ k (by omega)] at hb
                  exact hdiff a b ((inSegment_succ (Nat.zero_le _)).mpr (Or.inl ha)) hb)
              obtain ⟨hkeep, hsort, hmem⟩ := hrest.place (by omega) (by omega) fun other h => by
                rcases h with ⟨k, hk, hk', rfl⟩ | h
                · exact hlevels k i hk hk' (by omega)
                · exact SortedOn.le_last hstaged hworse h
              refine ⟨hkeep, hsort, fun level => ?_⟩
              rw [hmem, inSegment_succ (Nat.zero_le i)]
              tauto
          · -- the best level left is a staged one
            next hmove =>
              have hrest := ih (Function.update buf out (buf (capacity + j))) i j (by omega)
                (by omega) (hlevels.congr fun k _ hk => hsame _ k (by omega))
                ((hstaged.mono (le_refl _) (by omega)).congr fun k hk _ => hsame _ k (by omega))
                (fun a b ha hb => by
                  rw [inSegment_congr fun k _ hk => hsame _ k (by omega)] at ha
                  rw [inSegment_congr fun k hk _ => hsame _ k (by omega)] at hb
                  exact hdiff a b ha ((inSegment_succ (Nat.le_add_right _ _)).mpr (Or.inl hb)))
              obtain ⟨hkeep, hsort, hmem⟩ := hrest.place (by omega) (by omega) fun other h => by
                rcases h with h | ⟨k, hk, hk', rfl⟩
                · cases i with
                  | zero =>
                      obtain ⟨k, _, hk, _⟩ := h
                      omega
                  | succ i =>
                      refine SortedOn.le_last hlevels ((worse_strict isBid).lt_of_not_lt ?_ ?_) h
                      · by_contra hcon
                        exact hmove ⟨by omega, by simpa using hcon⟩
                      · exact (hdiff _ _ ⟨i, by omega, by omega, rfl⟩
                          ⟨capacity + j, by omega, by omega, rfl⟩).symm
                · exact hstaged k _ hk hk' (by omega)
              refine ⟨hkeep, hsort, fun level => ?_⟩
              rw [hmem, ← Nat.add_assoc, inSegment_succ (Nat.le_add_right _ _)]
              tauto

end Merge

/-- The segment lists the same levels as its slots. -/
theorem inSegment_iff_mem {buf : Nat → PriceLevel} {first count : Nat} {level : PriceLevel} :
    InSegment buf first (first + count) level ↔
      level ∈ (List.range count).map fun k => buf (first + k) := by
  rw [List.mem_map]
  constructor
  · rintro ⟨k, hk, hk', rfl⟩
    exact ⟨k - first, List.mem_range.mpr (by omega), by rw [Nat.add_sub_cancel' hk]⟩
  · rintro ⟨k, hk, rfl⟩
    exact ⟨first + k, by omega, by rw [List.mem_range] at hk; omega, rfl⟩

/-- Sorting levels of different prices makes them strictly sorted. -/
theorem pairwise_worse_mergeSort (isBid : Bool) {source : List PriceLevel}
    (hprices : source.Pairwise fun a b => a.price ≠ b.price) :
    (source.mergeSort fun a b => !worse isBid b.price a.price).Pairwise
      fun a b => worse isBid a.price b.price = true := by
  have hst := worse_strict isBid
  have hle : (source.mergeSort fun a b => !worse isBid b.price a.price).Pairwise
      fun a b => (!worse isBid b.price a.price) = true := by
    apply List.pairwise_mergeSort
    · intro a b c hab hbc
      rw [Bool.not_eq_true'] at hab hbc ⊢
      by_contra hca
      rw [Bool.not_eq_false] at hca
      rcases hst.total b.price a.price with h | h | h
      · rw [h] at hab
        cases hab
      · rw [h, hca] at hbc
        cases hbc
      · rw [hst.trans hca h] at hbc
        cases hbc
    · intro a b
      rcases hst.total a.price b.price with h | h | h
      · simp [hst.asymm h]
      · simp [h, hst.irrefl]
      · simp [hst.asymm h]
  have hne := ((List.mergeSort_perm source fun a b => !worse isBid b.price a.price).pairwise_iff
    fun {a b} h => Ne.symm h).mpr hprices
  refine (hle.and hne).imp fun {a b} h => ?_
  exact hst.lt_of_not_lt (by simpa using h.1) (Ne.symm h.2)

/-- `sortWorstFirst` sorts levels of different prices and touches nothing else. -/
theorem sortWorstFirst_spec (isBid : Bool) {buf : Nat → PriceLevel} {first count : Nat}
    (hdiff : ∀ i j, first ≤ i → i < j → j < first + count → (buf i).price ≠ (buf j).price) :
    SortedOn isBid (sortWorstFirst isBid buf first count) first (first + count) ∧
      (∀ k, k < first → sortWorstFirst isBid buf first count k = buf k) ∧
      ∀ level, InSegment (sortWorstFirst isBid buf first count) first (first + count) level ↔
        InSegment buf first (first + count) level := by
  set source := (List.range count).map fun k => buf (first + k) with hsource
  set sorted := source.mergeSort fun a b => !worse isBid b.price a.price with hsorted
  have hperm : sorted.Perm source := List.mergeSort_perm _ _
  have hlength : sorted.length = count := by rw [hperm.length_eq, hsource]; simp
  -- different prices make the sorted order strict
  have hpair : sorted.Pairwise fun a b => worse isBid a.price b.price = true := by
    apply pairwise_worse_mergeSort
    rw [hsource, List.pairwise_map]
    refine List.pairwise_lt_range.imp_of_mem fun {i j} _ hj hij => ?_
    rw [List.mem_range] at hj
    exact hdiff _ _ (by omega) (by omega) (by omega)
  have hslot : ∀ k (hk : k < count),
      sortWorstFirst isBid buf first count (first + k) = sorted[k] := by
    intro k hk
    show (if _ then sorted.getD (first + k - first) {} else _) = _
    rw [if_pos (by omega), Nat.add_sub_cancel_left, List.getD_eq_getElem?_getD,
      List.getElem?_eq_getElem (by omega), Option.getD_some]
  refine ⟨fun i j hi hij hj => ?_, fun k hk => if_neg (by omega), fun level => ?_⟩
  · obtain ⟨i, rfl⟩ := Nat.exists_eq_add_of_le hi
    obtain ⟨j, rfl⟩ := Nat.exists_eq_add_of_le (show first ≤ j by omega)
    rw [hslot i (by omega), hslot j (by omega)]
    exact List.pairwise_iff_getElem.mp hpair i j (by omega) (by omega) (by omega)
  · have heq : ((List.range count).map fun k =>
        sortWorstFirst isBid buf first count (first + k)) = sorted := by
      apply List.ext_getElem
      · simp [hlength]
      · intro k hk hk'
        rw [List.getElem_map, List.getElem_range]
        exact hslot k (by omega)
    rw [inSegment_iff_mem, inSegment_iff_mem, ← hsource, ← hperm.mem_iff, heq]

/-- `mergeStaged` forms the union of the levels and the staged levels, if their prices are
different and there is room for them, and leaves nothing staged. -/
theorem mergeStaged_spec (hsorted : SortedOn isBid t.buf 0 t.n)
    (hroom : t.n + t.staged ≤ capacity)
    (hstaged : ∀ i j, capacity ≤ i → i < j → j < capacity + t.staged →
      (t.buf i).price ≠ (t.buf j).price)
    (hdiff : ∀ a b, t.Holds a → InSegment t.buf capacity (capacity + t.staged) b →
      a.price ≠ b.price) :
    ∃ t', t.mergeStaged = .ok t' ∧ WellFormed t' ∧ t'.n = t.n + t.staged ∧
      ∀ level, t'.Holds level ↔
        t.Holds level ∨ InSegment t.buf capacity (capacity + t.staged) level := by
  unfold mergeStaged
  split
  · next hzero =>
      refine ⟨t, rfl, ⟨hsorted, by omega, hzero⟩, by omega, fun level => ⟨Or.inl, ?_⟩⟩
      rintro (h | ⟨k, hk, hk', _⟩)
      · exact h
      · omega
  · obtain ⟨hs, hkeep, hmem⟩ := sortWorstFirst_spec isBid hstaged
    have hholds : ∀ level, InSegment (sortWorstFirst isBid t.buf capacity t.staged) 0 t.n level ↔
        t.Holds level := fun level => inSegment_congr fun k _ hk => hkeep k (by omega)
    have hmerged := mergeLoop_spec (sortWorstFirst isBid t.buf capacity t.staged)
      (t.n + t.staged) t.n t.staged rfl hroom
      (hsorted.congr fun k _ hk => hkeep k (by omega)) hs
      (fun a b ha hb => hdiff a b ((hholds a).mp ha) ((hmem b).mp hb))
    refine ⟨_, rfl, ⟨hmerged.sorted, hroom, rfl⟩, rfl, fun level => ?_⟩
    show InSegment _ 0 (t.n + t.staged) level ↔ _
    rw [hmerged.mem, hholds, hmem]

/-! ## Range extraction -/

/-- The loop of `extractRange` runs over the levels up to the first one out of range. -/
theorem extractLoop_spec {σ : Type} (lo hi : Price) (f : σ → PriceLevel → σ) (fuel last : Nat)
    (s : σ) : ∃ stop, last ≤ stop ∧ stop ≤ last + fuel ∧
      t.extractLoop lo hi f fuel last s =
        (stop, ((List.range' last (stop - last)).map t.buf).foldl f s) ∧
      (∀ k, last ≤ k → k < stop → lo ≤ (t.buf k).price ∧ (t.buf k).price ≤ hi) ∧
      (stop < last + fuel → ¬ (lo ≤ (t.buf stop).price ∧ (t.buf stop).price ≤ hi)) := by
  induction fuel generalizing last s with
  | zero => exact ⟨last, le_refl _, le_refl _, by simp [extractLoop], by omega, by omega⟩
  | succ fuel ih =>
      rw [extractLoop]
      split
      · next hin =>
          obtain ⟨stop, hle, hle', heq, hall, hstop⟩ := ih (last + 1) (f s (t.buf last))
          refine ⟨stop, by omega, by omega, ?_, fun k hk hk' => ?_, fun h => hstop (by omega)⟩
          · rw [heq, show stop - last = (stop - (last + 1)) + 1 by omega, List.range'_succ]
            rfl
          · rcases Nat.lt_or_ge last k with hlt | hge
            · exact hall k (by omega) hk'
            · obtain rfl : k = last := by omega
              exact hin
      · next hout =>
          exact ⟨last, le_refl _, by omega, by simp, by omega, fun _ => hout⟩

/-- In a sorted tail the levels of a price range stand together, from `lower` of the range's worse
end on. -/
theorem range_contiguous (hsorted : SortedOn isBid t.buf 0 t.n) {lo hi : Price} {stop : Nat}
    (hfirst : t.lower (if isBid then lo else hi) ≤ stop)
    (hall : ∀ k, t.lower (if isBid then lo else hi) ≤ k → k < stop →
      lo ≤ (t.buf k).price ∧ (t.buf k).price ≤ hi)
    (hstop : stop < t.n → ¬ (lo ≤ (t.buf stop).price ∧ (t.buf stop).price ≤ hi))
    {k : Nat} (hk : k < t.n) :
    (lo ≤ (t.buf k).price ∧ (t.buf k).price ≤ hi) ↔
      t.lower (if isBid then lo else hi) ≤ k ∧ k < stop := by
  obtain ⟨_, hbelow, habove⟩ := lower_spec hsorted (if isBid then lo else hi)
  constructor
  · intro hin
    constructor
    · by_contra hlt
      have hworse := hbelow k (by omega)
      cases isBid <;> simp [worse] at hworse <;> lia
    · by_contra hge
      have hfar := habove stop hfirst (by omega)
      have hout := hstop (by omega)
      rcases Nat.lt_or_ge stop k with hlt | hge'
      · have hworse := hsorted stop k (by omega) hlt hk
        cases isBid <;> simp [worse] at hworse hfar <;> lia
      · obtain rfl : k = stop := by omega
        exact hout hin
  · rintro ⟨hle, hlt⟩
    exact hall k hle hlt

/-- `extractRange` runs `f` once on each level of the price range and leaves the others. -/
theorem extractRange_spec {σ : Type} (hordered : Ordered t) (lo hi : Price)
    (f : σ → PriceLevel → σ) (s : σ) :
    ∃ (t' : LevelTail isBid capacity scratchSize) (taken : List PriceLevel),
      t.extractRange lo hi f s = (t', taken.foldl f s) ∧ Ordered t' ∧ SameStage t t' ∧
      t'.n + taken.length = t.n ∧ taken.Pairwise (fun a b => worse isBid a.price b.price = true) ∧
      (∀ level, level ∈ taken ↔ t.Holds level ∧ lo ≤ level.price ∧ level.price ≤ hi) ∧
      ∀ level, t'.Holds level ↔ t.Holds level ∧ ¬ (lo ≤ level.price ∧ level.price ≤ hi) := by
  obtain ⟨hle, _, _⟩ := lower_spec hordered.sorted (if isBid then lo else hi)
  obtain ⟨stop, hfirst, hstop, heq, hall, hout⟩ :=
    extractLoop_spec (t := t) lo hi f (t.n - t.lower (if isBid then lo else hi))
      (t.lower (if isBid then lo else hi)) s
  -- the prices of the range stand in consecutive slots, `first` up to `stop`
  have hiff : ∀ k < t.n, _ := fun k hk =>
    range_contiguous hordered.sorted hfirst hall (fun h => hout (by omega)) hk
  set first := t.lower (if isBid then lo else hi) with hfirst_eq
  have hsize := hordered.size_le
  -- the slots after `stop` close the gap
  have hmove : ∀ k < t.n - (stop - first), moveForward t.buf stop t.n first k =
      if k < first then t.buf k else t.buf (k + (stop - first)) := by
    intro k hk
    unfold moveForward
    split_ifs <;> first | rfl | omega | (congr 1; omega)
  refine ⟨{ t with buf := moveForward t.buf stop t.n first, n := t.n - (stop - first) },
    (List.range' first (stop - first)).map t.buf, ?_, ⟨?_, ?_⟩, ⟨rfl, fun k hk => ?_⟩, ?_, ?_, ?_,
    ?_⟩
  · simp only [extractRange, ← hfirst_eq, heq]
  · intro a b _ hab hb
    have hb : b < t.n - (stop - first) := hb
    simp only [hmove a (by omega), hmove b hb]
    split_ifs <;> exact hordered.sorted _ _ (by omega) (by omega) (by omega)
  · show t.n - (stop - first) ≤ capacity
    omega
  · show moveForward t.buf stop t.n first k = t.buf k
    rw [moveForward, if_neg (by omega)]
  · simp only [List.length_map, List.length_range']
    omega
  · rw [List.pairwise_map]
    refine (List.pairwise_lt_range' 1).imp_of_mem fun {i j} _ hj hij => ?_
    rw [List.mem_range'_1] at hj
    exact hordered.sorted i j (by omega) hij (by omega)
  · intro level
    simp only [List.mem_map, List.mem_range'_1]
    constructor
    · rintro ⟨k, hk, rfl⟩
      exact ⟨⟨k, by omega, by omega, rfl⟩, hall k hk.1 (by omega)⟩
    · rintro ⟨⟨k, _, hk, rfl⟩, hin⟩
      have hk' := (hiff k hk).mp hin
      exact ⟨k, by omega, rfl⟩
  · intro level
    constructor
    · rintro ⟨k, _, hk, rfl⟩
      have hk : k < t.n - (stop - first) := hk
      simp only [hmove k hk]
      split_ifs
      · refine ⟨⟨k, by omega, by omega, rfl⟩, fun hin => ?_⟩
        have := (hiff k (by omega)).mp hin
        omega
      · exact ⟨⟨_, by omega, by omega, rfl⟩,
          fun hin => by have := (hiff _ (by omega)).mp hin; omega⟩
    · rintro ⟨⟨k, _, hk, rfl⟩, hnot⟩
      rw [hiff k hk] at hnot
      rcases Nat.lt_or_ge k first with hlt | hge
      · refine ⟨k, by omega, show k < t.n - (stop - first) by omega, ?_⟩
        show moveForward t.buf stop t.n first k = t.buf k
        rw [hmove k (by omega), if_pos hlt]
      · refine ⟨k - (stop - first), by omega, show _ < t.n - (stop - first) by omega, ?_⟩
        show moveForward t.buf stop t.n first _ = t.buf k
        rw [hmove _ (by omega), if_neg (by omega), Nat.sub_add_cancel (by omega)]

end LevelTail

end LimitOrderBook
