import LimitOrderBook.Ladder.Recenter
import LimitOrderBook.Level.Queue

/-!
# The ladder is an ordered map

`Represents l m` says that the ladder `l` holds the levels of the ordered map `m` from prices to
levels, best price first. Every operation of the ladder is the corresponding operation of the map,
and the walks visit the map's entries. `run_represents` puts this together for whole runs.
-/

namespace LimitOrderBook

open OrderedMap (Sorted)

namespace LevelLadder

variable {isBid : Bool} {windowSize tailCapacity : Nat}

variable {l : LevelLadder isBid windowSize tailCapacity}

/-- An insert at the price moves the window. -/
def Moves (l : LevelLadder isBid windowSize tailCapacity) (p : Price) : Prop :=
  l.inWindow p = false ∧ (l.windowCount = 0 ∨ l.beyondBetterEdge p = true)

/-- A window that moves is centred on the price, and the levels are the same. -/
theorem followTop_moves (hwf : WellFormed l) (hvalid : ValidWindow windowSize) {p : Price}
    (hp : PriceInRange windowSize p) (hsize : l.size ≤ tailCapacity) (hmoves : l.Moves p) :
    ∃ l', l.followTop p = .ok l' ∧ WellFormed l' ∧ l'.anchored = true ∧
      l'.base = p - (windowSize / 2 : Nat) ∧ l'.inWindow p = true ∧ l'.size = l.size ∧
      ∀ level, l'.Live level ↔ l.Live level := by
  have hhalf := hvalid.half
  obtain ⟨hplo, hphi⟩ := hp
  have hbase : wrap64 (p - (windowSize / 2 : Nat)) = p - (windowSize / 2 : Nat) :=
    wrap64_eq (by lia) (by lia)
  obtain ⟨l', hrun, hwf', hbase', hanch', h⟩ := recenter_spec hwf hvalid hsize
    (show int64Min ≤ p - (windowSize / 2 : Nat) by lia) (by lia)
  refine ⟨l', ?_, hwf', hanch', hbase', ?_, h⟩
  · rw [followTop, if_pos (by simpa [Moves] using hmoves), hbase, hrun]
  · rw [inWindow_iff hwf', hbase']
    exact ⟨hanch', by lia, by have := hvalid.2; lia⟩

/-- Otherwise nothing happens. -/
theorem followTop_stays {p : Price} (hstays : ¬ l.Moves p) : l.followTop p = .ok l := by
  rw [followTop, if_neg (by simpa [Moves] using hstays), pure_eq_ok]

/-- The window is anchored after `followTop`, and the levels are the same. The price is in the
window, or the window is not empty. -/
theorem followTop_spec (hwf : WellFormed l) (hvalid : ValidWindow windowSize) {p : Price}
    (hp : PriceInRange windowSize p) (hsize : l.size ≤ tailCapacity) :
    ∃ l', l.followTop p = .ok l' ∧ WellFormed l' ∧ l'.anchored = true ∧ l'.size = l.size ∧
      (∀ level, l'.Live level ↔ l.Live level) ∧ (l'.inWindow p = false → l'.windowCount ≠ 0) := by
  by_cases hmoves : l.Moves p
  · obtain ⟨l', hrun, hwf', hanch', _, hin, hsize', hlive⟩ :=
      followTop_moves hwf hvalid hp hsize hmoves
    refine ⟨l', hrun, hwf', hanch', hsize', hlive, fun hout => ?_⟩
    rw [hin] at hout
    cases hout
  · refine ⟨l, followTop_stays hmoves, hwf, ?_, rfl, fun _ => Iff.rfl,
      fun hout hzero => hmoves ⟨hout, Or.inl hzero⟩⟩
    by_contra hanch
    rw [Bool.not_eq_true] at hanch
    exact hmoves ⟨by simp [inWindow, hanch], Or.inl (windowCount_eq_zero hwf hanch)⟩

/-- `levelAt` makes sure that there is a level at the price, while there is room. -/
theorem levelAt_spec (hwf : WellFormed l) (hvalid : ValidWindow windowSize)
    (hanch : l.anchored = true) {p : Price}
    (hroom : l.inWindow p = false → l.tail.n < tailCapacity) :
    ∃ l' r, l.levelAt p = .ok (l', r) ∧ WellFormed l' ∧ l'.Points r ∧ (l'.get r).price = p ∧
      ∀ level, l'.Live level ↔ l.Live level ∨
        ((∀ a, l.Live a → a.price ≠ p) ∧ level = ⟨p, 0, none, none⟩) := by
  unfold levelAt
  split
  · next hin =>
      obtain ⟨l', r, heq, hwf', hr, hprice, _, hlive⟩ := openSlot_spec hwf hvalid hin
      exact ⟨l', r, by rw [heq, pure_eq_ok], hwf', hr, hprice, hlive⟩
  · next hout =>
      rw [Bool.not_eq_true] at hout
      by_cases hhit : ∃ i, i < l.tail.n ∧ (l.tail.buf i).price = p
      · -- the tail has a level at the price
        obtain ⟨i, hi, hprice⟩ := hhit
        rw [LevelTail.findOrInsert_hit hwf.tail.sorted hi hprice, ok_bind]
        refine ⟨l, .tail i, rfl, hwf, hi, hprice, fun level => ⟨Or.inl, ?_⟩⟩
        rintro (h | ⟨h, _⟩)
        · exact h
        · exact absurd hprice (h _ ⟨.tail i, hi, rfl⟩)
      · -- the tail gets a new level
        have hnone : ∀ level, l.tail.Holds level → level.price ≠ p := by
          rintro level ⟨i, _, hi, rfl⟩ hprice
          exact hhit ⟨i, hi, hprice⟩
        have habsent : ∀ level, l.Live level → level.price ≠ p := by
          rintro level hlevel rfl
          exact hnone level ((live_outside hwf hout).mp hlevel) rfl
        obtain ⟨tail', i, heq, hordered, hstage, hn', hi, hbuf, hholds⟩ :=
          LevelTail.findOrInsert_miss hwf.tail.sorted hnone (hroom hout)
        have htail' := hordered.wellFormed hstage hwf.tail
        rw [heq, ok_bind]
        refine ⟨{ l with tail := tail' }, .tail i, rfl, ⟨htail', ?_, hwf.range, hwf.home, ?_,
          hwf.count, hwf.best⟩, hi, ?_, fun level => ?_⟩
        · intro h
          rw [show l.anchored = false from h] at hanch
          cases hanch
        · intro level hlevel hin
          rcases (hholds level).mp hlevel with h | rfl
          · exact hwf.outside level h hin
          · rw [(inWindow_iff hwf p).mpr ⟨hanch, hin⟩] at hout
            cases hout
        · show (tail'.buf i).price = p
          rw [hbuf]
        · rw [live_iff, live_iff]
          show (∃ j < windowSize, l.testBit j = true ∧ l.levels j = level) ∨
            tail'.Holds level ↔ _
          rw [hholds, ← or_assoc]
          exact or_congr_right ⟨fun h => ⟨habsent, h⟩, fun h => h.2⟩

/-- `levelForInsert` makes sure that there is a level at the price. The tail has room: it gets a
level only if the window has one. -/
theorem levelForInsert_spec (hwf : WellFormed l) (hvalid : ValidWindow windowSize) {p : Price}
    (hp : PriceInRange windowSize p) (hsize : l.size ≤ tailCapacity) :
    ∃ l' r, l.levelForInsert p = .ok (l', r) ∧ WellFormed l' ∧ l'.Points r ∧
      (l'.get r).price = p ∧
      ∀ level, l'.Live level ↔ l.Live level ∨
        ((∀ a, l.Live a → a.price ≠ p) ∧ level = ⟨p, 0, none, none⟩) := by
  obtain ⟨l₁, htop, hwf₁, hanch₁, hsize₁, hlive₁, hcount₁⟩ := followTop_spec hwf hvalid hp hsize
  simp only [fun level => (hlive₁ level).symm]
  obtain ⟨l', r, hat, h⟩ := levelAt_spec hwf₁ hvalid hanch₁ fun hout => by
    have hpos := hcount₁ hout
    unfold size at *
    omega
  exact ⟨l', r, by rw [levelForInsert, htop, ok_bind, hat], h⟩

/-! ## The walk over all levels -/

/-- The walk visits the levels of the ladder. -/
theorem mem_forEachLevel (hvalid : ValidWindow windowSize) {level : PriceLevel} :
    level ∈ l.forEachLevel ↔ l.Live level := by
  unfold forEachLevel
  rw [live_iff, List.mem_append, LevelTail.mem_forEach, Bitmap.indices_eq, hvalid.words,
    List.mem_map]
  refine or_congr_left ⟨?_, ?_⟩
  · rintro ⟨i, hi, rfl⟩
    rw [List.mem_filter, List.mem_range] at hi
    exact ⟨i, hi.1, hi.2, rfl⟩
  · rintro ⟨i, hi, hset, rfl⟩
    exact ⟨i, List.mem_filter.mpr ⟨List.mem_range.mpr hi, hset⟩, rfl⟩

/-- The walk visits no level twice. -/
theorem nodup_forEachLevel (hwf : WellFormed l) (hvalid : ValidWindow windowSize) :
    l.forEachLevel.Nodup := by
  unfold forEachLevel
  rw [Bitmap.indices_eq, hvalid.words]
  have hmem : ∀ i, i ∈ (List.range windowSize).filter (Bitmap.test l.bits) →
      l.Points (.window i) := by
    intro i hi
    rw [List.mem_filter, List.mem_range] at hi
    exact hi
  refine List.Nodup.append ?_ ?_ ?_
  · refine (List.nodup_range.filter _).map_on fun i hi j hj heq => ?_
    have h := (hmem i hi).eq_of_price hwf (hmem j hj) (congrArg PriceLevel.price heq)
    injection h
  · refine List.nodup_range.map_on fun i hi j hj heq => ?_
    rw [List.mem_range] at hi hj
    have h := Points.eq_of_price hwf (r := .tail i) (s := .tail j) hi hj
      (congrArg PriceLevel.price heq)
    injection h
  · intro level hwin htail
    obtain ⟨i, hi, rfl⟩ := List.mem_map.mp hwin
    obtain ⟨j, _, hj, heq⟩ := LevelTail.mem_forEach.mp htail
    have h := Points.eq_of_price hwf (s := .tail j) (hmem i hi) hj
      (congrArg PriceLevel.price heq.symm)
    cases h

/-- The walk visits as many levels as there are. -/
theorem length_forEachLevel (hwf : WellFormed l) (hvalid : ValidWindow windowSize) :
    l.forEachLevel.length = l.size := by
  unfold forEachLevel size
  rw [List.length_append, List.length_map, LevelTail.forEach, List.length_map, List.length_range,
    Bitmap.indices_eq, hvalid.words, hwf.count]
  congr 1
  rw [← List.toFinset_card_of_nodup (List.nodup_range.filter _)]
  congr 1
  ext i
  simp

/-! ## The ordered map -/

/-- The ladder holds the levels of the map. -/
structure Represents (l : LevelLadder isBid windowSize tailCapacity)
    (m : List (Price × PriceLevel)) : Prop where
  wellFormed : WellFormed l
  sorted : Sorted (better isBid) m
  mem : ∀ p level, (p, level) ∈ m ↔ l.Live level ∧ level.price = p

variable {m : List (Price × PriceLevel)}

/-- A fresh ladder is the empty map. -/
theorem fresh_represents : Represents ({} : LevelLadder isBid windowSize tailCapacity) [] :=
  ⟨fresh_well_formed, List.Pairwise.nil, fun p level =>
    iff_of_false (by simp) fun h => fresh_not_live level h.1⟩

namespace Represents

/-- An entry is a level at its price. -/
theorem price_eq (h : Represents l m) {e : Price × PriceLevel} (he : e ∈ m) : e.2.price = e.1 :=
  ((h.mem e.1 e.2).mp he).2

/-- The level behind a pointer is an entry of the map. -/
theorem entry (h : Represents l m) {r : LevelRef} (hr : l.Points r) :
    ((l.get r).price, l.get r) ∈ m :=
  (h.mem _ _).mpr ⟨⟨r, hr, rfl⟩, rfl⟩

/-- The walk over all levels visits the entries of the map, in some order. -/
theorem perm (hvalid : ValidWindow windowSize) (h : Represents l m) :
    (m.map Prod.snd).Perm l.forEachLevel := by
  rw [List.perm_ext_iff_of_nodup ?_ (nodup_forEachLevel h.wellFormed hvalid)]
  · intro level
    rw [mem_forEachLevel hvalid, List.mem_map]
    constructor
    · rintro ⟨⟨p, level'⟩, he, rfl⟩
      exact ((h.mem _ _).mp he).1
    · exact fun hlive => ⟨(level.price, level), (h.mem _ _).mpr ⟨hlive, rfl⟩, rfl⟩
  · have hprices := h.sorted.nodup_keys (better_strict isBid)
    have heq : m.map Prod.fst = (m.map Prod.snd).map PriceLevel.price := by
      rw [List.map_map]
      exact List.map_congr_left fun e he => (h.price_eq he).symm
    rw [heq] at hprices
    exact hprices.of_map _

/-- The ladder has as many levels as the map has entries. -/
theorem size_eq (hvalid : ValidWindow windowSize) (h : Represents l m) : l.size = m.length := by
  rw [← length_forEachLevel h.wellFormed hvalid, ← (h.perm hvalid).length_eq, List.length_map]

/-- A price without an entry has no level. -/
theorem absent_iff (h : Represents l m) {p : Price} :
    OrderedMap.find m p = none ↔ ∀ level, l.Live level → level.price ≠ p := by
  rw [OrderedMap.find_eq_none]
  constructor
  · exact fun hnone level hlive heq => hnone (p, level) ((h.mem _ _).mpr ⟨hlive, heq⟩) rfl
  · rintro hnone ⟨p', level⟩ he rfl
    obtain ⟨hlive, heq⟩ := (h.mem _ _).mp he
    exact hnone level hlive heq

/-- `find` is lookup. -/
theorem find (hvalid : ValidWindow windowSize) (h : Represents l m) (p : Price) :
    (l.find p = none ∧ OrderedMap.find m p = none) ∨
      ∃ r, l.find p = some r ∧ l.Points r ∧ (l.get r).price = p ∧
        OrderedMap.find m p = some (l.get r) := by
  cases hf : l.find p with
  | none => exact Or.inl ⟨rfl, h.absent_iff.mpr ((find_none h.wellFormed hvalid).mp hf)⟩
  | some r =>
      obtain ⟨hr, rfl⟩ := find_some h.wellFormed hvalid hf
      exact Or.inr ⟨r, rfl, hr, rfl, (h.sorted.find_eq_some (better_strict isBid)).mpr (h.entry hr)⟩

/-- `best` is the first entry. -/
theorem best (h : Represents l m) :
    (l.best = none ∧ m = []) ∨
      ∃ r rest, l.best = some r ∧ l.Points r ∧ m = ((l.get r).price, l.get r) :: rest := by
  rcases best_spec h.wellFormed with ⟨hnone, hempty⟩ | ⟨r, hsome, hr, hbest⟩
  · refine Or.inl ⟨hnone, List.eq_nil_iff_forall_not_mem.mpr fun e he => ?_⟩
    exact hempty e.2 ((h.mem e.1 e.2).mp he).1
  · obtain ⟨rest, hm, -⟩ := h.sorted.eq_cons_of_least (better_strict isBid) (h.entry hr)
      (fun e he hne => by
        obtain ⟨hlive, hprice⟩ := (h.mem e.1 e.2).mp he
        rw [← hprice]
        refine hbest e.2 hlive fun heq => hne ?_
        rw [← heq, hprice])
    exact Or.inr ⟨r, rest, hsome, hr, hm⟩

/-- The ladder is empty exactly if the map is. -/
theorem empty_iff (hvalid : ValidWindow windowSize) (h : Represents l m) :
    l.empty = true ↔ m = [] := by
  rw [← List.length_eq_zero_iff, ← h.size_eq hvalid]
  simp [empty, size, LevelTail.empty]

/-- `levelForInsert` inserts an empty level at a price that has none. -/
theorem levelForInsert (hvalid : ValidWindow windowSize) (h : Represents l m) {p : Price}
    (hp : PriceInRange windowSize p)
    (hroom : (OrderedMap.touch (better isBid) m p ⟨p, 0, none, none⟩).length ≤ tailCapacity) :
    ∃ l' r, l.levelForInsert p = .ok (l', r) ∧ l'.Points r ∧ (l'.get r).price = p ∧
      Represents l' (OrderedMap.touch (better isBid) m p ⟨p, 0, none, none⟩) := by
  have hsize := h.size_eq hvalid
  have hlen : m.length ≤ (OrderedMap.touch (better isBid) m p ⟨p, 0, none, none⟩).length :=
    OrderedMap.length_le_touch
  obtain ⟨l', r, hrun, hwf', hr, hprice, hlive⟩ :=
    levelForInsert_spec h.wellFormed hvalid hp (by omega)
  refine ⟨l', r, hrun, hr, hprice, hwf', h.sorted.touch (better_strict isBid) _ _,
    fun q level => ?_⟩
  rw [OrderedMap.mem_touch, hlive, h.mem, h.absent_iff, Prod.mk.injEq]
  constructor
  · rintro (⟨hlevel, heq⟩ | ⟨habsent, rfl, rfl⟩)
    · exact ⟨Or.inl hlevel, heq⟩
    · exact ⟨Or.inr ⟨habsent, rfl⟩, rfl⟩
  · rintro ⟨hlevel | ⟨habsent, rfl⟩, heq⟩
    · exact Or.inl ⟨hlevel, heq⟩
    · exact Or.inr ⟨habsent, heq.symm, rfl⟩

/-- Writing a level is replacement. -/
theorem put (h : Represents l m) {r : LevelRef} (hr : l.Points r) {level : PriceLevel}
    (hprice : level.price = (l.get r).price) :
    Represents (l.put r level) (OrderedMap.set m level.price level) := by
  refine ⟨h.wellFormed.put hr hprice, h.sorted.set _ _, fun q other => ?_⟩
  rw [OrderedMap.mem_set, live_put h.wellFormed hr hprice, h.mem, Prod.mk.injEq]
  constructor
  · rintro (⟨⟨hlive, rfl⟩, hne⟩ | ⟨⟨rfl, rfl⟩, _⟩)
    · exact ⟨Or.inl ⟨hlive, hne⟩, rfl⟩
    · exact ⟨Or.inr rfl, rfl⟩
  · rintro ⟨⟨hlive, hne⟩ | rfl, rfl⟩
    · exact Or.inl ⟨⟨hlive, rfl⟩, hne⟩
    · exact Or.inr ⟨⟨rfl, rfl⟩, l.get r, by rw [hprice]; exact h.entry hr⟩

/-- `eraseLevel` is deletion. -/
theorem eraseLevel (hvalid : ValidWindow windowSize) (h : Represents l m) {r : LevelRef}
    (hr : l.Points r) :
    Represents (l.eraseLevel r) (OrderedMap.erase m (l.get r).price) := by
  obtain ⟨hwf', _, hlive⟩ := eraseLevel_spec h.wellFormed hvalid hr
  refine ⟨hwf', h.sorted.erase _, fun q level => ?_⟩
  rw [OrderedMap.mem_erase, hlive, h.mem]
  constructor
  · rintro ⟨⟨hl, rfl⟩, hne⟩
    exact ⟨⟨hl, hne⟩, rfl⟩
  · rintro ⟨⟨hl, hne⟩, rfl⟩
    exact ⟨⟨hl, rfl⟩, hne⟩

end Represents

/-! ## The best-first walk -/

/-- One step of the merging walk. -/
theorem walkMerge_succ (n : Nat) (idx : Int) (t : Nat) :
    l.walkMerge (n + 1) idx t =
      if ¬ idx ≥ 0 ∧ ¬ t < l.tail.n then []
      else if idx ≥ 0 ∧ (¬ t < l.tail.n ∨
          better isBid (l.levels idx.toNat).price (l.tail.nthBest t).price = true) then
        l.levels idx.toNat :: l.walkMerge n (l.nextWorse idx) t
      else l.tail.nthBest t :: l.walkMerge n idx (t + 1) := rfl

/-- With an empty tail the merging walk is the bitmap walk. -/
theorem walkMerge_of_empty (hempty : l.tail.n = 0) (n : Nat) (idx : Int) (t : Nat) :
    l.walkMerge n idx t = l.walkWindow n idx := by
  induction n generalizing idx with
  | zero => rfl
  | succ n ih =>
      rw [walkMerge_succ, walkWindow]
      simp only [hempty, Nat.not_lt_zero, not_false_eq_true, and_true, true_or]
      by_cases hidx : idx ≥ 0
      · rw [if_neg (by simpa using hidx), if_pos hidx, if_pos hidx, ih]
      · rw [if_pos hidx, if_neg hidx]

/-- Index `i` is still ahead of a walk that stands at `idx`. -/
def Ahead (l : LevelLadder isBid windowSize tailCapacity) (idx : Int) (i : Nat) : Prop :=
  i < windowSize ∧ l.testBit i = true ∧
    ∃ k : Nat, idx = k ∧ (i = k ∨ betterIdx isBid k i = true)

/-- At the best index every level of the window is ahead. -/
theorem IsBest.ahead {idx : Int} (h : IsBest isBid l.testBit windowSize idx) (i : Nat) :
    l.Ahead idx i ↔ l.Points (.window i) := by
  refine ⟨fun h => ⟨h.1, h.2.1⟩, fun ⟨hi, hset⟩ => ⟨hi, hset, ?_⟩⟩
  rcases h with ⟨_, hnone⟩ | ⟨k, _, heq, _, hbest⟩
  · rw [hnone i hi] at hset
    cases hset
  · refine ⟨k, heq, ?_⟩
    by_cases hik : i = k
    · exact Or.inl hik
    · exact Or.inr (hbest i hi hset hik)

/-- A walk stands at a set index or has left the window. -/
def AtIndex (l : LevelLadder isBid windowSize tailCapacity) (idx : Int) : Prop :=
  idx = -1 ∨ ∃ k < windowSize, idx = (k : Int) ∧ l.testBit k = true

/-- A walk may start at the best index. -/
theorem IsBest.atIndex {idx : Int} (h : IsBest isBid l.testBit windowSize idx) :
    l.AtIndex idx := by
  rcases h with ⟨hneg, _⟩ | ⟨k, hk, heq, hset, _⟩
  · exact Or.inl hneg
  · exact Or.inr ⟨k, hk, heq, hset⟩

/-- The step of the walk leaves the index behind and nothing else. -/
theorem ahead_nextWorse (hwords : kWords windowSize * 64 = windowSize) {k : Nat}
    (hk : k < windowSize) :
    l.AtIndex (l.nextWorse k) ∧
      ∀ i, l.Ahead (l.nextWorse k) i ↔ l.Ahead k i ∧ i ≠ k := by
  have hst := betterIdx_strict isBid
  -- what is ahead of `k`, without `k`, is what is worse than `k`
  have hahead : ∀ i, l.Ahead k i ∧ i ≠ k ↔
      i < windowSize ∧ l.testBit i = true ∧ betterIdx isBid k i = true := by
    intro i
    constructor
    · rintro ⟨⟨hi, hset, k', heq, hor⟩, hne⟩
      obtain rfl : k = k' := by omega
      exact ⟨hi, hset, hor.resolve_left hne⟩
    · rintro ⟨hi, hset, hbetter⟩
      exact ⟨⟨hi, hset, k, rfl, Or.inr hbetter⟩, fun heq => by
        rw [heq, hst.irrefl] at hbetter
        cases hbetter⟩
  rcases nextWorse_spec hwords l hk with ⟨hneg, hnone⟩ | ⟨k', hk', heq, hset', hbest⟩
  · refine ⟨Or.inl hneg, fun i => ?_⟩
    rw [hahead]
    refine iff_of_false (fun ⟨_, _, j, hj, _⟩ => by omega) fun ⟨hi, hset, hbetter⟩ => ?_
    have h : (l.testBit i && betterIdx isBid k i) = false := hnone i hi
    rw [hset, hbetter] at h
    cases h
  · rw [Bool.and_eq_true] at hset'
    refine ⟨Or.inr ⟨k', hk', heq, hset'.1⟩, fun i => ?_⟩
    rw [hahead, heq]
    constructor
    · rintro ⟨hi, hset, j, hj, hor⟩
      obtain rfl : k' = j := by omega
      refine ⟨hi, hset, ?_⟩
      rcases hor with rfl | hbetter
      · exact hset'.2
      · exact hst.trans hset'.2 hbetter
    · rintro ⟨hi, hset, hbetter⟩
      refine ⟨hi, hset, k', rfl, ?_⟩
      by_cases hik : i = k'
      · exact Or.inl hik
      · refine Or.inr (hbest i hi ?_ hik)
        show (l.testBit i && betterIdx isBid k i) = true
        rw [hset, hbetter]
        rfl

/-- The levels still ahead of a walk that stands at `idx` in the window and at `t` in the tail. -/
def AheadRef (l : LevelLadder isBid windowSize tailCapacity) (idx : Int) (t : Nat) :
    LevelRef → Prop
  | .window i => l.Ahead idx i
  | .tail j => j < l.tail.n ∧ t ≤ l.tail.n - 1 - j

/-- What is ahead is a level of the ladder. -/
theorem AheadRef.points {idx : Int} {t : Nat} {r : LevelRef} (h : l.AheadRef idx t r) :
    l.Points r := by
  cases r with
  | window i => exact ⟨h.1, h.2.1⟩
  | tail j => exact h.1

/-- At the start of the walk all levels are ahead. -/
theorem aheadRef_start (hwf : WellFormed l) {r : LevelRef} :
    l.AheadRef l.bestIdx 0 r ↔ l.Points r := by
  cases r with
  | window i => exact hwf.best.ahead i
  | tail j => exact and_iff_left (Nat.zero_le _)

/-- The map lists the levels behind some of the pointers of the ladder. -/
structure Lists (l : LevelLadder isBid windowSize tailCapacity) (A : LevelRef → Prop)
    (m : List (Price × PriceLevel)) : Prop where
  sorted : Sorted (better isBid) m
  mem : ∀ e, e ∈ m ↔ ∃ r, A r ∧ ((l.get r).price, l.get r) = e

/-- The best one of the listed levels is the first entry, and the rest lists the others. -/
theorem Lists.split_best (hwf : WellFormed l) {A : LevelRef → Prop} (h : l.Lists A m)
    (hA : ∀ r, A r → l.Points r) (r₀ : LevelRef) (A' : LevelRef → Prop) (h₀ : A r₀)
    (hbest : ∀ r, A r → r ≠ r₀ → better isBid (l.get r₀).price (l.get r).price = true)
    (hA' : ∀ r, A' r ↔ A r ∧ r ≠ r₀) :
    ∃ rest, m = ((l.get r₀).price, l.get r₀) :: rest ∧ l.Lists A' rest := by
  obtain ⟨rest, hcons, hsorted, hrest⟩ := h.sorted.eq_cons_of_least (better_strict isBid)
    ((h.mem _).mpr ⟨r₀, h₀, rfl⟩) (fun e he hne => by
      obtain ⟨r, hr, rfl⟩ := (h.mem e).mp he
      exact hbest r hr fun heq => hne (by rw [heq]))
  refine ⟨rest, hcons, hsorted, fun e => ?_⟩
  rw [hrest, h.mem]
  constructor
  · rintro ⟨⟨r, hr, rfl⟩, hne⟩
    exact ⟨r, (hA' r).mpr ⟨hr, fun heq => hne (by rw [heq])⟩, rfl⟩
  · rintro ⟨r, hr, rfl⟩
    obtain ⟨hr, hne⟩ := (hA' r).mp hr
    exact ⟨⟨r, hr, rfl⟩, fun heq =>
      hne (Points.eq_of_price hwf (hA r hr) (hA r₀ h₀) (Prod.mk.inj heq).1)⟩

/-- The tail is walked from better to worse. -/
theorem better_nthBest (hwf : WellFormed l) {t j : Nat} (hj : j < l.tail.n)
    (hlt : t < l.tail.n - 1 - j) :
    better isBid (l.tail.nthBest t).price (l.tail.buf j).price = true := by
  rw [better_eq]
  exact hwf.tail.sorted _ _ (Nat.zero_le _) (by omega) (by omega)

/-- The window is walked from better to worse. -/
theorem better_ahead (hwf : WellFormed l) {k i : Nat} (hk : k < windowSize)
    (hset : l.testBit k = true) (hi : l.Ahead k i) (hne : i ≠ k) :
    better isBid (l.levels k).price (l.levels i).price = true := by
  obtain ⟨hlt, hseti, j, hj, hor⟩ := hi
  obtain rfl : k = j := by omega
  rw [hwf.home k hk hset, hwf.home i hlt hseti, ← betterIdx_iff]
  exact hor.resolve_left hne

/-- If the level of the window is better than that of the tail, it is the best one ahead. -/
theorem best_ahead_window (hwf : WellFormed l) {k t : Nat} (hk : k < windowSize)
    (hset : l.testBit k = true) (hbetter : ¬ t < l.tail.n ∨
      better isBid (l.levels k).price (l.tail.nthBest t).price = true) {r : LevelRef}
    (hr : l.AheadRef k t r) (hne : r ≠ .window k) :
    better isBid (l.levels k).price (l.get r).price = true := by
  cases r with
  | window i => exact better_ahead hwf hk hset hr fun heq => hne (by rw [heq])
  | tail j =>
      obtain ⟨hj, htj⟩ := hr
      have ht := hbetter.resolve_left (by omega)
      rcases Nat.lt_or_eq_of_le htj with hlt | heq
      · exact (better_strict isBid).trans ht (better_nthBest hwf hj hlt)
      · rw [LevelTail.nthBest, heq, show l.tail.n - 1 - (l.tail.n - 1 - j) = j by omega] at ht
        exact ht

/-- If the level of the window is not better than that of the tail, that one is the best one
ahead. -/
theorem best_ahead_tail (hwf : WellFormed l) {idx : Int} {t : Nat} (hidx : l.AtIndex idx)
    (ht : t < l.tail.n) (hworse : ¬ (idx ≥ 0 ∧ (¬ t < l.tail.n ∨
      better isBid (l.levels idx.toNat).price (l.tail.nthBest t).price = true))) {r : LevelRef}
    (hr : l.AheadRef idx t r) (hne : r ≠ .tail (l.tail.n - 1 - t)) :
    better isBid (l.tail.nthBest t).price (l.get r).price = true := by
  have hst := better_strict isBid
  cases r with
  | window i =>
      obtain ⟨hi, hseti, k, rfl, -⟩ := id hr
      obtain ⟨hk, hset⟩ : k < windowSize ∧ l.testBit k = true := by
        rcases hidx with hneg | ⟨k', hk', heq, hset'⟩
        · omega
        · obtain rfl : k = k' := by omega
          exact ⟨hk', hset'⟩
      -- the two levels have different prices, so the one that is not worse is better
      have htk : better isBid (l.tail.nthBest t).price (l.levels k).price = true := by
        apply hst.lt_of_not_lt
        · by_contra hcon
          exact hworse ⟨by omega, Or.inr (by simpa using hcon)⟩
        · intro hprices
          have h := Points.eq_of_price hwf (r := .window k) (s := .tail (l.tail.n - 1 - t))
            ⟨hk, hset⟩ (show _ < l.tail.n by omega) hprices
          cases h
      by_cases hik : i = k
      · rw [hik]
        exact htk
      · exact hst.trans htk (better_ahead hwf hk hset hr hik)
  | tail j =>
      obtain ⟨hj, htj⟩ := hr
      refine better_nthBest hwf hj (lt_of_le_of_ne htj fun heq => hne ?_)
      rw [heq, show l.tail.n - 1 - (l.tail.n - 1 - j) = j by omega]

/-- The merging walk visits what is ahead of it, best price first. The induction is on the number
of levels still wanted. -/
theorem walkMerge_eq (hwf : WellFormed l) (hvalid : ValidWindow windowSize) (n : Nat) (idx : Int)
    (t : Nat) (m : List (Price × PriceLevel)) (hidx : l.AtIndex idx)
    (hlists : l.Lists (l.AheadRef idx t) m) :
    l.walkMerge n idx t = (m.map Prod.snd).take n := by
  induction n generalizing idx t m with
  | zero => simp [walkMerge]
  | succ n ih =>
      rw [walkMerge_succ]
      by_cases hdone : ¬ idx ≥ 0 ∧ ¬ t < l.tail.n
      · -- both are exhausted
        have hnil : m = [] := by
          refine List.eq_nil_iff_forall_not_mem.mpr fun e he => ?_
          obtain ⟨r, hr, -⟩ := (hlists.mem e).mp he
          cases r with
          | window i =>
              obtain ⟨-, -, k, hk, -⟩ := hr
              omega
          | tail j =>
              obtain ⟨hj, htj⟩ := hr
              omega
        rw [if_pos hdone, hnil]
        rfl
      rw [if_neg hdone]
      by_cases hcase : idx ≥ 0 ∧ (¬ t < l.tail.n ∨
          better isBid (l.levels idx.toNat).price (l.tail.nthBest t).price = true)
      · -- the window has the better level
        rw [if_pos hcase]
        obtain ⟨hge, hbetter⟩ := hcase
        obtain ⟨k, hk, rfl, hset⟩ : ∃ k < windowSize, idx = (k : Int) ∧ l.testBit k = true := by
          rcases hidx with hneg | h
          · omega
          · exact h
        rw [Int.toNat_natCast] at hbetter ⊢
        obtain ⟨hnext, hahead⟩ := ahead_nextWorse (l := l) hvalid.words hk
        have hleft : ∀ r, l.AheadRef (l.nextWorse k) t r ↔ l.AheadRef k t r ∧ r ≠ .window k := by
          intro r
          cases r with
          | window i => simpa [AheadRef] using hahead i
          | tail j => simp [AheadRef]
        obtain ⟨rest, rfl, hrest⟩ := hlists.split_best hwf (fun r hr => hr.points) (.window k) _
          ⟨hk, hset, k, rfl, Or.inl rfl⟩
          (fun r hr hne => best_ahead_window hwf hk hset hbetter hr hne) hleft
        rw [List.map_cons, List.take_succ_cons, ih _ t rest hnext hrest]
        rfl
      · -- the tail has the better level
        rw [if_neg hcase]
        have ht : t < l.tail.n := by
          by_contra hge
          exact hcase ⟨by omega, Or.inl hge⟩
        have hleft : ∀ r, l.AheadRef idx (t + 1) r ↔
            l.AheadRef idx t r ∧ r ≠ .tail (l.tail.n - 1 - t) := by
          intro r
          cases r with
          | window i => simp [AheadRef]
          | tail j =>
              simp only [AheadRef, ne_eq, LevelRef.tail.injEq]
              omega
        obtain ⟨rest, rfl, hrest⟩ := hlists.split_best hwf (fun r hr => hr.points)
          (.tail (l.tail.n - 1 - t)) _ ⟨by omega, by omega⟩
          (fun r hr hne => best_ahead_tail hwf hidx ht hcase hr hne) hleft
        rw [List.map_cons, List.take_succ_cons, ih idx (t + 1) rest hidx hrest]
        rfl

/-- `forEachBest` visits the first entries of the map, best price first. -/
theorem Represents.forEachBest (hvalid : ValidWindow windowSize) (h : Represents l m) (n : Nat) :
    l.forEachBest n = (m.map Prod.snd).take n := by
  have hwf := h.wellFormed
  have hmerge : l.forEachBest n = l.walkMerge n l.bestIdx 0 := by
    unfold LevelLadder.forEachBest
    split
    · next hempty => rw [walkMerge_of_empty (by simpa [LevelTail.empty] using hempty)]
    · rfl
  rw [hmerge]
  refine walkMerge_eq hwf hvalid n l.bestIdx 0 m hwf.best.atIndex ⟨h.sorted, fun e => ?_⟩
  simp only [aheadRef_start hwf]
  rw [h.mem e.1 e.2]
  constructor
  · rintro ⟨⟨r, hr, hget⟩, hprice⟩
    exact ⟨r, hr, Prod.ext (by rw [hget, hprice]) hget⟩
  · rintro ⟨r, hr, rfl⟩
    exact ⟨⟨r, hr, rfl⟩, rfl⟩

/-! ## Runs -/

/-- A use of a ladder by its owner. -/
inductive Op where
  /-- `level_for_insert(p)`, and an order is pushed to the level. -/
  | insert (p : Price) (o : OrderRef)
  /-- An order is removed from the level at `p`, which is erased if that empties it. -/
  | remove (p : Price) (o : OrderRef)

/-- One use of the ladder. -/
def step (h : Heap) (l : LevelLadder isBid windowSize tailCapacity) :
    Op → Result (Heap × LevelLadder isBid windowSize tailCapacity)
  | .insert p o => do
      let (l, r) ← l.levelForInsert p
      let (h, level) := (l.get r).pushBack h o
      pure (h, l.put r level)
  | .remove p o =>
      match l.find p with
      | none => .error .nullPointer
      | some r =>
          let (h, level) := (l.get r).remove h o
          let l := l.put r level
          pure (h, if level.empty then l.eraseLevel r else l)

/-- A sequence of uses. -/
def run (h : Heap) (l : LevelLadder isBid windowSize tailCapacity) :
    List Op → Result (Heap × LevelLadder isBid windowSize tailCapacity)
  | [] => pure (h, l)
  | op :: ops => do
      let (h, l) ← step h l op
      run h l ops

/-- The live levels after one use: a price is live from its first insertion until its level is
emptied. -/
def refStep (isBid : Bool) (h : Heap) (m : List (Price × PriceLevel)) :
    Op → Heap × List (Price × PriceLevel)
  | .insert p o =>
      let m := OrderedMap.touch (better isBid) m p ⟨p, 0, none, none⟩
      let (h, level) := ((OrderedMap.find m p).getD {}).pushBack h o
      (h, OrderedMap.set m p level)
  | .remove p o =>
      let (h, level) := ((OrderedMap.find m p).getD {}).remove h o
      (h, if level.empty then OrderedMap.erase m p else OrderedMap.set m p level)

/-- The live levels after a sequence of uses. -/
def refRun (isBid : Bool) (h : Heap) (m : List (Price × PriceLevel)) :
    List Op → Heap × List (Price × PriceLevel)
  | [] => (h, m)
  | op :: ops =>
      let (h, m) := refStep isBid h m op
      refRun isBid h m ops

/-- An insertion keeps away from the 64-bit limits and leaves at most `tailCapacity` live levels;
an order is removed from a live level. -/
def Op.Admissible (windowSize tailCapacity : Nat) (m m' : List (Price × PriceLevel)) : Op → Prop
  | .insert p _ => PriceInRange windowSize p ∧ m'.length ≤ tailCapacity
  | .remove p _ => (OrderedMap.find m p).isSome

/-- Every use of the sequence is admissible when it is made. -/
def Admissible (isBid : Bool) (windowSize tailCapacity : Nat) (h : Heap)
    (m : List (Price × PriceLevel)) : List Op → Prop
  | [] => True
  | op :: ops =>
      op.Admissible windowSize tailCapacity m (refStep isBid h m op).2 ∧
        Admissible isBid windowSize tailCapacity (refStep isBid h m op).1
          (refStep isBid h m op).2 ops

/-- One use of the ladder is one use of the map. -/
theorem Represents.step (hvalid : ValidWindow windowSize) (hrep : Represents l m) (h : Heap)
    {op : Op} (hadm : op.Admissible windowSize tailCapacity m (refStep isBid h m op).2) :
    ∃ l', l.step h op = .ok ((refStep isBid h m op).1, l') ∧
      Represents l' (refStep isBid h m op).2 := by
  have hst := better_strict isBid
  cases op with
  | insert p o =>
      obtain ⟨hp, hlen⟩ := hadm
      simp only [refStep, OrderedMap.length_set] at hlen
      obtain ⟨l₁, r, hrun, hr, hprice, h₁⟩ := hrep.levelForInsert hvalid hp hlen
      have hfind := (h₁.sorted.find_eq_some hst).mpr (h₁.entry hr)
      rw [hprice] at hfind
      have hkeep := PriceLevel.price_pushBack h (l₁.get r) o
      have h₂ := h₁.put hr hkeep
      rw [hkeep, hprice] at h₂
      refine ⟨l₁.put r ((l₁.get r).pushBack h o).2, ?_, ?_⟩
      · simp only [LevelLadder.step, hrun, ok_bind, refStep, hfind, Option.getD_some, pure_eq_ok]
      · simp only [refStep, hfind, Option.getD_some]
        exact h₂
  | remove p o =>
      rcases hrep.find hvalid p with ⟨_, hnone⟩ | ⟨r, hfound, hr, hprice, hfind⟩
      · simp [Op.Admissible, hnone] at hadm
      · have hkeep := PriceLevel.price_remove h (l.get r) o
        have h₁ := hrep.put hr hkeep
        rw [hkeep, hprice] at h₁
        refine ⟨_, by simp only [LevelLadder.step, hfound, refStep, hfind, Option.getD_some,
          pure_eq_ok]; rfl, ?_⟩
        simp only [refStep, hfind, Option.getD_some]
        -- a level without orders is erased, and the entry with it
        cases hempty : ((l.get r).remove h o).2.empty with
        | false => simpa using h₁
        | true =>
            have h₂ := h₁.eraseLevel hvalid (r := r) (points_put.mpr hr)
            rw [get_put, if_pos rfl, hkeep, hprice, OrderedMap.erase_set] at h₂
            simpa using h₂

/-- A sequence of uses of the ladder is the same sequence of uses of the map. -/
theorem Represents.run (hvalid : ValidWindow windowSize) (hrep : Represents l m) (h : Heap)
    (ops : List Op) (hadm : Admissible isBid windowSize tailCapacity h m ops) :
    ∃ l', l.run h ops = .ok ((refRun isBid h m ops).1, l') ∧
      Represents l' (refRun isBid h m ops).2 := by
  induction ops generalizing h l m with
  | nil => exact ⟨l, rfl, hrep⟩
  | cons op ops ih =>
      obtain ⟨l₁, hstep, h₁⟩ := hrep.step hvalid h hadm.1
      obtain ⟨l', hrun, h'⟩ := ih h₁ _ hadm.2
      exact ⟨l', by rw [LevelLadder.run, hstep, ok_bind]; exact hrun, h'⟩

/-- The invariant of a ladder with respect to its live levels, as the source's comments state it:
each live price is in one place, and the caches agree with the places. -/
structure OneHome (l : LevelLadder isBid windowSize tailCapacity)
    (m : List (Price × PriceLevel)) : Prop where
  /-- A live price has its level in the window exactly if it lies in the window's range. -/
  window : ∀ p level, OrderedMap.find m p = some level →
    ((∃ i < windowSize, p = l.base + (i : Int) ∧ l.testBit i = true ∧ l.levels i = level ∧
      (l.levels i).price = p) ↔ l.base ≤ p ∧ p < l.base + windowSize)
  /-- Any other live price has its level in the tail, once. -/
  tail : ∀ p level, OrderedMap.find m p = some level →
    ¬ (l.base ≤ p ∧ p < l.base + windowSize) →
    ∃ i < l.tail.n, l.tail.buf i = level ∧ ∀ j < l.tail.n, (l.tail.buf j).price = p → j = i
  /-- The ladder holds live levels only. -/
  held : ∀ r, l.Points r → OrderedMap.find m (l.get r).price = some (l.get r)
  outside : ∀ i < l.tail.n,
    ¬ (l.base ≤ (l.tail.buf i).price ∧ (l.tail.buf i).price < l.base + windowSize)
  sorted : ∀ i j, i < j → j < l.tail.n →
    worse isBid (l.tail.buf i).price (l.tail.buf j).price = true
  count : l.windowCount = ((Finset.range windowSize).filter fun i => l.testBit i = true).card
  bestIdx : (l.bestIdx = -1 ∧ ∀ i < windowSize, l.testBit i = false) ∨
    ∃ k < windowSize, l.bestIdx = k ∧ l.testBit k = true ∧
      ∀ i < windowSize, l.testBit i = true → i ≠ k → betterIdx isBid k i = true
  /-- `find` returns exactly the live level at a price. -/
  find : ∀ p, (l.find p).map l.get = OrderedMap.find m p
  /-- `best` returns the live level with the best price, or null exactly if there is none. -/
  best : ∀ r, l.best = some r → OrderedMap.find m (l.get r).price = some (l.get r) ∧
    ∀ p level, OrderedMap.find m p = some level → p ≠ (l.get r).price →
      better isBid (l.get r).price p = true
  best_null : l.best = none ↔ l.empty = true
  empty : l.empty = true ↔ m = []

/-- A ladder that represents a map has one home for each of the map's prices. -/
theorem Represents.oneHome (hvalid : ValidWindow windowSize) (h : Represents l m) :
    OneHome l m := by
  have hwf := h.wellFormed
  have hst := better_strict isBid
  -- an entry of the map is a live level
  have hlive : ∀ p level, OrderedMap.find m p = some level ↔ l.Live level ∧ level.price = p :=
    fun p level => (h.sorted.find_eq_some hst).trans (h.mem p level)
  refine ⟨fun p level hfind => ⟨?_, fun hin => ?_⟩, fun p level hfind hout => ?_, fun r hr => ?_,
    fun i hi => hwf.outside _ ⟨i, Nat.zero_le _, hi, rfl⟩,
    fun i j hij hj => hwf.tail.sorted i j (Nat.zero_le _) hij hj, hwf.count, hwf.best, fun p => ?_,
    fun r hbest => ?_, ?_, h.empty_iff hvalid⟩
  · rintro ⟨i, hi, rfl, _⟩
    exact ⟨by lia, by lia⟩
  · obtain ⟨hlevel, rfl⟩ := (hlive p level).mp hfind
    rcases live_iff.mp hlevel with ⟨i, hi, hset, rfl⟩ | htail
    · exact ⟨i, hi, hwf.home i hi hset, hset, rfl, rfl⟩
    · exact absurd hin (hwf.outside level htail)
  · obtain ⟨hlevel, rfl⟩ := (hlive p level).mp hfind
    rcases live_iff.mp hlevel with ⟨i, hi, hset, rfl⟩ | ⟨i, _, hi, rfl⟩
    · rw [hwf.home i hi hset] at hout
      exact absurd ⟨by lia, by lia⟩ hout
    · exact ⟨i, hi, rfl, fun j hj heq =>
        hwf.tail.sorted.slot_eq (Nat.zero_le _) hj (Nat.zero_le _) hi heq⟩
  · exact (hlive _ _).mpr ⟨⟨r, hr, rfl⟩, rfl⟩
  · rcases h.find hvalid p with ⟨hnull, hnone⟩ | ⟨r, hsome, _, _, hfind⟩
    · rw [hnull, hnone]
      rfl
    · rw [hsome, hfind]
      rfl
  · rcases h.best with ⟨hnull, _⟩ | ⟨r', rest, hsome, hr, hm⟩
    · rw [hnull] at hbest
      cases hbest
    · rw [hsome] at hbest
      cases hbest
      refine ⟨(hlive _ _).mpr ⟨⟨r, hr, rfl⟩, rfl⟩, fun p level hfind hne => ?_⟩
      have hmem := (h.sorted.find_eq_some hst).mp hfind
      rw [hm] at hmem
      have hsorted := h.sorted
      rw [hm] at hsorted
      rcases List.mem_cons.mp hmem with heq | hmem
      · exact absurd (Prod.mk.inj heq).1 hne
      · exact (List.pairwise_cons.mp hsorted).1 _ hmem
  · rw [h.empty_iff hvalid]
    rcases h.best with ⟨hnull, hm⟩ | ⟨r, rest, hsome, _, hm⟩
    · exact iff_of_true hnull hm
    · exact iff_of_false (by rw [hsome]; simp) (by rw [hm]; simp)

/-- Whatever sequence of insertions and removals a fresh ladder has gone through, no operation has
faulted, and each live level is in one place. -/
theorem run_one_home (hvalid : ValidWindow windowSize) (h : Heap) (ops : List Op)
    (hadm : Admissible isBid windowSize tailCapacity h [] ops) :
    ∃ l : LevelLadder isBid windowSize tailCapacity,
      run h {} ops = .ok ((refRun isBid h [] ops).1, l) ∧
      OneHome l (refRun isBid h [] ops).2 := by
  obtain ⟨l, hrun, hrep⟩ := fresh_represents.run hvalid h ops hadm
  exact ⟨l, hrun, hrep.oneHome hvalid⟩

/-- Two bids 200 ticks apart move a window of 64 ticks, and the first one is removed from the
tail. -/
theorem run_one_home_evicted :
    ∃ l : LevelLadder true 64 4,
      run (fun _ => default) {} [.insert 100 0, .insert 300 1, .remove 100 0] = .ok
        ((refRun true (fun _ => default) [] [.insert 100 0, .insert 300 1, .remove 100 0]).1, l) ∧
      OneHome l [(300, ⟨300, 0, some 1, some 1⟩)] := by
  have hlive : (OrderedMap.find (refRun true (fun _ => default) []
      [.insert 100 0, .insert 300 1]).2 100).isSome = true := rfl
  exact run_one_home ⟨⟨6, rfl⟩, by decide⟩ (fun _ => default)
    [.insert 100 0, .insert 300 1, .remove 100 0]
    ⟨⟨by decide, by decide⟩, ⟨by decide, by decide⟩, hlive, trivial⟩

end LevelLadder

end LimitOrderBook
