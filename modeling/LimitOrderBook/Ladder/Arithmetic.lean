import LimitOrderBook.Ladder.TopOfBook

/-!
# Price arithmetic of the ladder

What the source computes on prices and quantities with 64-bit additions, subtractions and
negations. The function `fArith` beside a function `f` of the model lists the exact results of
these operations in the order in which a call of `f` performs them. A test that is not reached
computes nothing. On signed 64-bit integers an operation yields its exact result if that is a
64-bit integer, and overflows if it is not.

Prices keep at least `windowSize` ticks away from the 64-bit limits. Then one operation of the
ladder can overflow: the distance by which `recenter` moves the window is taken between prices
that can lie almost `2 ^ 64` apart (`levelForInsertArith_exact_iff`).
-/

namespace LimitOrderBook

/-- What an operation computes. A distance of prices counts as a price. -/
inductive Kind where
  | price
  | qty
  deriving DecidableEq, Repr

/-- The exact result of an operation on 64-bit integers. -/
structure Computed where
  kind : Kind
  value : Int
  deriving DecidableEq, Repr

/-- The operations of a kind yield their exact results. -/
def Exact (kind : Kind) (t : List Computed) : Prop :=
  ∀ c ∈ t, c.kind = kind → wrap64 c.value = c.value

instance {kind : Kind} {t : List Computed} : Decidable (Exact kind t) :=
  inferInstanceAs (Decidable (∀ c ∈ t, _))

/-- What is computed after an operation that may fault. -/
def onOk {α : Type} (r : Result α) (f : α → List Computed) : List Computed :=
  match r with
  | .ok a => f a
  | .error _ => []

@[simp] theorem onOk_ok {α : Type} (a : α) (f : α → List Computed) :
    onOk (.ok a : Result α) f = f a := rfl

/-- What is computed after an operation is computed after its success. -/
theorem forall_mem_onOk {α : Type} {r : Result α} {f : α → List Computed} {P : Computed → Prop}
    (h : ∀ a, ∀ c ∈ f a, P c) : ∀ c ∈ onOk r f, P c := by
  cases r with
  | error fault => exact fun c hc => by cases hc
  | ok a => exact h a

section Exact

variable {kind kind' : Kind} {s t : List Computed} {c : Computed}

@[simp] theorem exact_nil : Exact kind [] := fun _ hc => by cases hc

@[simp] theorem exact_cons :
    Exact kind (c :: t) ↔ (c.kind = kind → wrap64 c.value = c.value) ∧ Exact kind t :=
  List.forall_mem_cons

@[simp] theorem exact_append : Exact kind (s ++ t) ↔ Exact kind s ∧ Exact kind t :=
  List.forall_mem_append

@[simp] theorem exact_flatMap {α : Type} {xs : List α} {f : α → List Computed} :
    Exact kind (xs.flatMap f) ↔ ∀ x ∈ xs, Exact kind (f x) := by
  simp only [Exact, List.mem_flatMap]
  exact ⟨fun h x hx c hc => h c ⟨x, hx, hc⟩, fun h c ⟨x, hx, hc⟩ => h x hx c hc⟩

/-- What is computed after an operation is computed after its success. -/
theorem exact_onOk {α : Type} {r : Result α} {f : α → List Computed}
    (h : ∀ a, r = .ok a → Exact kind (f a)) : Exact kind (onOk r f) := by
  cases r with
  | error fault => exact exact_nil
  | ok a => exact h a rfl

/-- Operations of another kind do not matter. -/
theorem exact_of_kind (hne : kind' ≠ kind) (hkind : ∀ c ∈ t, c.kind = kind') : Exact kind t :=
  fun c hc heq => absurd ((hkind c hc).symm.trans heq) hne

end Exact

namespace LevelLadder

variable {isBid : Bool} {windowSize tailCapacity : Nat}

section Computed

variable (l : LevelLadder isBid windowSize tailCapacity)

/-- `in_window` computes the end of the window for a price that does not lie below it. -/
def inWindowArith (p : Price) : List Computed :=
  if l.anchored ∧ l.base ≤ p then [⟨.price, l.base + windowSize⟩] else []

/-- `beyond_better_edge`. -/
def beyondBetterEdgeArith : List Computed :=
  if isBid then [⟨.price, l.base + windowSize⟩] else []

/-- `index_of`. -/
def indexOfArith (p : Price) : List Computed := [⟨.price, p - l.base⟩]

/-- `in_window`, and `index_of` if the price is in the window. -/
def slotArith (p : Price) : List Computed :=
  l.inWindowArith p ++ if l.inWindow p then l.indexOfArith p else []

/-- `find`. -/
def findArith (price : Price) : List Computed := l.slotArith price

/-- `erase_level`. -/
def eraseLevelArith (r : LevelRef) : List Computed := l.slotArith (l.get r).price

/-- Step 2 of `recenter` computes `-delta` for each level that it moves up. -/
def shiftArith (delta : Int) : LevelLadder isBid windowSize tailCapacity → List Nat → List Computed
  | _, [] => []
  | l, idx :: idxs =>
      (if l.testBit idx then [⟨.price, -delta⟩] else []) ++
        shiftArith delta (shiftOne delta l idx) idxs

/-- `recenter`. -/
def recenterArith (newBase : Price) : List Computed :=
  if !l.anchored then []
  else
    let newEnd := wrap64 (newBase + windowSize)
    let delta := wrap64 (newBase - l.base)
    [⟨.price, newBase + windowSize⟩, ⟨.price, newBase - l.base⟩] ++
      onOk (Bitmap.forEachSet LevelLadder.bits (evictOne newBase newEnd) (kWords windowSize) l)
        fun l => onOk l.tail.mergeStaged fun tail =>
          let l := { l with tail := tail }
          let shifted := { shiftSurvivors delta l with base := newBase }
          (if delta < 0 then shiftArith delta l (List.range windowSize).reverse else []) ++
            [⟨.price, newEnd - 1⟩] ++
            (shifted.tail.extractRange newBase (wrap64 (newEnd - 1))
              (fun t level => t ++ shifted.indexOfArith level.price) []).2

/-- The first part of `level_for_insert`. -/
def followTopArith (price : Price) : List Computed :=
  l.inWindowArith price ++
    if l.inWindow price then []
    else
      (if l.windowCount = 0 then [] else l.beyondBetterEdgeArith) ++
        if l.windowCount = 0 ∨ l.beyondBetterEdge price then
          ⟨.price, price - (windowSize / 2 : Nat)⟩ ::
            l.recenterArith (wrap64 (price - (windowSize / 2 : Nat)))
        else []

/-- `level_for_insert`. -/
def levelForInsertArith (price : Price) : List Computed :=
  l.followTopArith price ++ onOk (l.followTop price) fun l => l.slotArith price

/-! ## When the distance fits -/

/-- The window, if it is anchored, was last centred on a price that keeps away from the limits. -/
def Centred : Prop := l.anchored = true → PriceInRange windowSize l.centre

/-- If an insert at the price moves an anchored window, the price lies at a 64-bit distance from the
one that the window was last centred on. -/
def WithinReach (price : Price) : Prop :=
  l.anchored = true → l.inWindow price = false →
    (l.windowCount = 0 ∨ l.beyondBetterEdge price = true) → FitsInt64 (price - l.centre)

instance {price : Price} : Decidable (l.WithinReach price) :=
  inferInstanceAs (Decidable (_ → _ → _ → _))

end Computed

/-! ## What the ladder computes is exact, up to the distance -/

section Exact

variable {l : LevelLadder isBid windowSize tailCapacity}

/-- A fresh ladder is not anchored. -/
theorem fresh_centred : Centred ({} : LevelLadder isBid windowSize tailCapacity) :=
  fun h => by cases h

/-- A window that was centred on a price in range. -/
theorem Centred.bounds (hcentred : l.Centred) (hvalid : ValidWindow windowSize)
    (hanch : l.anchored = true) :
    int64Min + (windowSize / 2 : Nat) ≤ l.base ∧ l.base + windowSize ≤ int64Max ∧
      (windowSize : Int) ≤ int64Max := by
  obtain ⟨hlo, hhi⟩ := hcentred hanch
  have hhalf := hvalid.half
  unfold centre at hlo hhi
  unfold int64Min int64Max at *
  lia

/-- The end of the window fits. -/
theorem Centred.wrap64_end (hcentred : l.Centred) (hvalid : ValidWindow windowSize)
    (hanch : l.anchored = true) : wrap64 (l.base + windowSize) = l.base + windowSize := by
  obtain ⟨hlo, hhi, -⟩ := hcentred.bounds hvalid hanch
  exact wrap64_eq (by lia) hhi

/-- Looking up a slot is exact for any price. -/
theorem slotArith_exact (hcentred : l.Centred) (hvalid : ValidWindow windowSize) (p : Price) :
    Exact .price (l.slotArith p) := by
  unfold slotArith inWindowArith indexOfArith
  rw [exact_append]
  constructor
  · split
    · next h => simpa using hcentred.wrap64_end hvalid h.1
    · exact exact_nil
  · split
    · next hin =>
        unfold inWindow at hin
        simp only [Bool.and_eq_true, decide_eq_true_eq] at hin
        obtain ⟨⟨hanch, hle⟩, hlt⟩ := hin
        rw [hcentred.wrap64_end hvalid hanch] at hlt
        obtain ⟨-, -, hsize⟩ := hcentred.bounds hvalid hanch
        simpa using wrap64_eq (x := p - l.base) (by unfold int64Min; lia) (by lia)
    · exact exact_nil

/-- Moving levels up is exact if the opposite of the distance fits whenever there is a level to
move. -/
theorem shiftArith_exact {delta : Int} (idxs : List Nat)
    (l : LevelLadder isBid windowSize tailCapacity)
    (hfits : (∃ i ∈ idxs, l.testBit i = true) → wrap64 (-delta) = -delta) :
    Exact .price (shiftArith delta l idxs) := by
  induction idxs generalizing l with
  | nil => exact exact_nil
  | cons i idxs ih =>
      rw [shiftArith, exact_append]
      by_cases hbit : l.testBit i = true
      · have hneg := hfits ⟨i, by simp, hbit⟩
        rw [if_pos hbit]
        exact ⟨by simpa using hneg, ih _ fun _ => hneg⟩
      · rw [if_neg hbit, show shiftOne delta l i = l by simp only [shiftOne, if_neg hbit]]
        refine ⟨exact_nil, ih l ?_⟩
        rintro ⟨j, hj, hset⟩
        exact hfits ⟨j, by simp [hj], hset⟩

/-- Pulling levels from the tail into the window computes their indices. -/
theorem pullArith_eq (lo hi : Price) :
    ∃ taken : List PriceLevel,
      (l.tail.extractRange lo hi (fun t level => t ++ l.indexOfArith level.price) []).2 =
        taken.flatMap (fun level => l.indexOfArith level.price) ∧
      ∀ level ∈ taken, lo ≤ level.price ∧ level.price ≤ hi := by
  obtain ⟨stop, -, -, heq, hall, -⟩ := LevelTail.extractLoop_spec (t := l.tail) lo hi
    (fun t level => t ++ l.indexOfArith level.price)
    (l.tail.n - l.tail.lower (if isBid then lo else hi))
    (l.tail.lower (if isBid then lo else hi)) []
  simp only [LevelTail.extractRange, heq]
  refine ⟨_, (List.flatMap_eq_foldl ..).symm, fun level hlevel => ?_⟩
  obtain ⟨k, hk, rfl⟩ := List.mem_map.mp hlevel
  rw [List.mem_range'_1] at hk
  exact hall k hk.1 (by omega)

/-- Pulling levels of the range of the window is exact. -/
theorem pullArith_exact (hsize : windowSize ≤ 2 ^ 63) :
    Exact .price (l.tail.extractRange l.base (l.base + windowSize - 1)
      (fun t level => t ++ l.indexOfArith level.price) []).2 := by
  obtain ⟨taken, heq, hin⟩ := pullArith_eq (l := l) l.base (l.base + windowSize - 1)
  rw [heq, exact_flatMap]
  intro level hlevel
  obtain ⟨hge, hle⟩ := hin level hlevel
  have hidx : wrap64 (level.price - l.base) = level.price - l.base :=
    wrap64_eq (by unfold int64Min; lia) (by unfold int64Max; lia)
  simpa [indexOfArith] using hidx

/-- A level that stays in the window shows that it moves by less than its size. -/
theorem distance_of_survivor {newBase : Price} (hwf : WellFormed l) {i : Nat} (hi : i < windowSize)
    (hset : l.testBit i = true)
    (hstays : ¬ Leaves newBase (newBase + windowSize) (l.levels i)) :
    -(windowSize : Int) < newBase - l.base ∧ newBase - l.base < windowSize := by
  unfold Leaves at hstays
  rw [hwf.home i hi hset] at hstays
  lia

/-- `recenter` of an anchored window is exact if and only if the distance is. -/
theorem recenterArith_exact_iff (hwf : WellFormed l) (hvalid : ValidWindow windowSize)
    (hsize : l.size ≤ tailCapacity) (hanch : l.anchored = true) {newBase : Price}
    (hlo : int64Min ≤ newBase) (hhi : newBase + windowSize ≤ int64Max) :
    Exact .price (l.recenterArith newBase) ↔ FitsInt64 (newBase - l.base) := by
  have hfits := hvalid.le_of_fits hlo hhi
  have hend : wrap64 (newBase + windowSize) = newBase + windowSize := wrap64_eq (by lia) hhi
  have hlast : wrap64 (newBase + windowSize - 1) = newBase + windowSize - 1 :=
    wrap64_eq (by have := hvalid.2; lia) (by lia)
  obtain ⟨l₁, tail, hevict, hmerge, -, -, -, htest, -⟩ :=
    evict_merge hwf hvalid hsize newBase (newBase + windowSize)
  unfold recenterArith
  simp only [hanch, Bool.not_true, Bool.false_eq_true, if_false, hend, hlast, hevict, hmerge,
    onOk_ok, exact_append, exact_cons, exact_nil, true_implies, and_true, true_and]
  rw [wrap64_eq_iff]
  refine ⟨fun h => h.1, fun hdelta => ⟨hdelta, ?_, ?_⟩⟩
  · split
    · refine shiftArith_exact _ _ ?_
      rintro ⟨i, hi, hset⟩
      have hi : i < windowSize := by simpa using hi
      obtain ⟨hset, hstays⟩ := (htest i hi).mp hset
      obtain ⟨hgt, hlt⟩ := distance_of_survivor hwf hi hset hstays
      rw [wrap64_eq_iff.mpr hdelta, wrap64_eq_iff]
      unfold FitsInt64 int64Min int64Max at *
      lia
    · exact exact_nil
  · exact pullArith_exact (l := { shiftSurvivors (wrap64 (newBase - l.base))
      { l₁ with tail := tail } with base := newBase }) hfits

/-- `followTop` leaves the window where it is or centres it on the price. -/
theorem followTop_centred (hwf : WellFormed l) (hvalid : ValidWindow windowSize)
    (hsize : l.size ≤ tailCapacity) (hcentred : l.Centred) {p : Price}
    (hp : PriceInRange windowSize p) {l' : LevelLadder isBid windowSize tailCapacity}
    (hrun : l.followTop p = .ok l') : l'.Centred := by
  by_cases hmoves : l.Moves p
  · obtain ⟨l₁, hrun₁, -, -, hbase₁, -⟩ := followTop_moves hwf hvalid hp hsize hmoves
    obtain rfl : l₁ = l' := Except.ok.inj (hrun₁.symm.trans hrun)
    have hcentre : l₁.centre = p := by
      unfold centre
      lia
    exact fun _ => hcentre ▸ hp
  · obtain rfl : l = l' := Except.ok.inj ((followTop_stays hmoves).symm.trans hrun)
    exact hcentred

/-- Every operation of `level_for_insert` on prices is exact if and only if the price is within
reach of the window, in case it moves. -/
theorem levelForInsertArith_exact_iff (hwf : WellFormed l) (hvalid : ValidWindow windowSize)
    (hsize : l.size ≤ tailCapacity) (hcentred : l.Centred) {p : Price}
    (hp : PriceInRange windowSize p) :
    Exact .price (l.levelForInsertArith p) ↔ l.WithinReach p := by
  have hhalf := hvalid.half
  obtain ⟨l', hfollow, -⟩ := followTop_spec hwf hvalid hp hsize
  have hslot := slotArith_exact (followTop_centred hwf hvalid hsize hcentred hp hfollow) hvalid p
  have hin := (exact_append.mp (slotArith_exact hcentred hvalid p)).1
  obtain ⟨hplo, hphi⟩ := hp
  have hbase : wrap64 (p - (windowSize / 2 : Nat)) = p - (windowSize / 2 : Nat) :=
    wrap64_eq (by lia) (by lia)
  rw [levelForInsertArith, hfollow, onOk_ok, exact_append, and_iff_left hslot, followTopArith,
    exact_append, and_iff_right hin, WithinReach]
  cases hanch : l.anchored with
  | false =>
      have hcount := windowCount_eq_zero hwf hanch
      simp [-Int.natCast_ediv, inWindow, hanch, hcount, recenterArith, hbase]
  | true =>
      have hend := hcentred.wrap64_end hvalid hanch
      have hedge : Exact .price l.beyondBetterEdgeArith := by
        unfold beyondBetterEdgeArith
        split
        · simpa using hend
        · exact exact_nil
      have hcheck : Exact .price (if l.windowCount = 0 then [] else l.beyondBetterEdgeArith) := by
        split
        · exact exact_nil
        · exact hedge
      -- only `delta` of a move can be out of range
      have hmove : Exact .price (l.recenterArith (p - (windowSize / 2 : Nat))) ↔
          FitsInt64 (p - l.centre) := by
        rw [recenterArith_exact_iff hwf hvalid hsize hanch (by lia) (by lia), centre]
        rw [show p - (windowSize / 2 : Nat) - l.base = p - (l.base + (windowSize / 2 : Nat)) by lia]
      by_cases hwindow : l.inWindow p = true
      · simp [hwindow]
      by_cases hleaves : l.windowCount = 0 ∨ l.beyondBetterEdge p = true
      · rw [if_neg hwindow, if_pos hleaves, exact_append, and_iff_right hcheck, exact_cons, hbase,
          hmove]
        simp [hwindow, hleaves]
      · rw [if_neg hwindow, if_neg hleaves, exact_append]
        simp [hcheck, hleaves]

/-! ## The ladder computes prices only -/

/-- Looking up a slot computes prices. -/
theorem slotArith_kind (p : Price) : ∀ c ∈ l.slotArith p, c.kind = .price := by
  unfold slotArith inWindowArith indexOfArith
  simp only [List.forall_mem_append]
  constructor <;> split <;> simp

/-- Moving levels up computes prices. -/
theorem shiftArith_kind (delta : Int) (idxs : List Nat)
    (l : LevelLadder isBid windowSize tailCapacity) :
    ∀ c ∈ shiftArith delta l idxs, c.kind = .price := by
  induction idxs generalizing l with
  | nil => exact fun c hc => by cases hc
  | cons i idxs ih =>
      rw [shiftArith, List.forall_mem_append]
      refine ⟨?_, ih _⟩
      split <;> simp

/-- Pulling levels from the tail into the window computes prices. -/
theorem pullArith_kind (lo hi : Price) :
    ∀ c ∈ (l.tail.extractRange lo hi (fun t level => t ++ l.indexOfArith level.price) []).2,
      c.kind = .price := by
  obtain ⟨taken, heq, -⟩ := pullArith_eq (l := l) lo hi
  rw [heq]
  intro c hc
  obtain ⟨level, -, hc⟩ := List.mem_flatMap.mp hc
  rw [List.mem_singleton.mp hc]

/-- `recenter` computes prices. -/
theorem recenterArith_kind (newBase : Price) : ∀ c ∈ l.recenterArith newBase, c.kind = .price := by
  unfold recenterArith
  split
  · simp
  simp only [List.forall_mem_append]
  refine ⟨by simp, forall_mem_onOk fun l₁ => forall_mem_onOk fun tail => ?_⟩
  simp only [List.forall_mem_append]
  refine ⟨⟨?_, by simp⟩, ?_⟩
  · split
    · exact shiftArith_kind _ _ _
    · simp
  · exact pullArith_kind (l := { shiftSurvivors (wrap64 (newBase - l.base))
      { l₁ with tail := tail } with base := newBase }) _ _

/-- `level_for_insert` computes prices. -/
theorem levelForInsertArith_kind (p : Price) :
    ∀ c ∈ l.levelForInsertArith p, c.kind = .price := by
  have hin := (List.forall_mem_append.mp (slotArith_kind (l := l) p)).1
  have hedge : ∀ c ∈ l.beyondBetterEdgeArith, c.kind = .price := by
    unfold beyondBetterEdgeArith
    split <;> simp
  unfold levelForInsertArith followTopArith
  simp only [List.forall_mem_append]
  refine ⟨⟨hin, ?_⟩, forall_mem_onOk fun l => slotArith_kind p⟩
  split
  · simp
  rw [List.forall_mem_append]
  constructor
  · split
    · simp
    · exact hedge
  · split
    · exact List.forall_mem_cons.mpr ⟨rfl, recenterArith_kind _⟩
    · simp

/-! ## Where the window is -/

/-- The window, if there is one, was centred on a price that keeps away from the limits. -/
theorem centred_iff : l.Centred ↔ ∀ q, l.centre? = some q → PriceInRange windowSize q := by
  unfold Centred centre?
  cases l.anchored with
  | false => simp
  | true => simp

/-- A window that has not moved. -/
theorem Centred.congr {l' : LevelLadder isBid windowSize tailCapacity} (hcentred : l.Centred)
    (h : l'.centre? = l.centre?) : l'.Centred := by
  rw [centred_iff, h, ← centred_iff]
  exact hcentred

/-- What decides about the reach of a window is the price that it was last centred on. -/
theorem withinReach_iff {p : Price} :
    l.WithinReach p ↔ ∀ q, l.centre? = some q → l.Moves p → FitsInt64 (p - q) := by
  unfold WithinReach Moves centre?
  cases l.anchored with
  | false => simp
  | true => simp

end Exact

end LevelLadder

end LimitOrderBook
