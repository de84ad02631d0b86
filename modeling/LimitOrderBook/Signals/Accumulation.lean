import LimitOrderBook.Signals.Model
import Mathlib.Data.List.Basic

/-!
# The accumulation loop

The loop of `compute_signals` over the levels of both sides, for any list of depths that the source
accepts: it writes each entry of the output once, in order, with the quantities of the levels up to
the depth of the entry, and indexes nothing beyond its end.

The cumulative quantities wrap to 64 bits, so no bound on them is needed here.
-/

namespace LimitOrderBook

/-- The quantity of the first `n` levels. -/
def cumQty (levels : List LevelQty) (n : Nat) : Quantity := ((levels.take n).map LevelQty.qty).sum

/-- What the source asserts of the depths: there is one, they are positive and strictly
ascending. -/
structure AscendingDepths (depths : List Nat) : Prop where
  nonempty : depths ≠ []
  ascending : depths.Pairwise (· < ·)
  positive : ∀ k ∈ depths, 0 < k

/-- The deepest one. -/
def maxDepth (depths : List Nat) : Nat := depths.getD (depths.length - 1) 0

/-- The imbalance of the first `k` levels of both sides. -/
def imbalanceAt (bids asks : List LevelQty) (k : Nat) : Int :=
  imbalanceScaled (wrap64 (cumQty bids k)) (wrap64 (cumQty asks k))

/-- One more level. -/
theorem cumQty_succ {levels : List LevelQty} {level : Nat} :
    cumQty levels (level + 1) =
      cumQty levels level + (levels[level]?.map LevelQty.qty).getD 0 := by
  unfold cumQty
  rw [List.take_add_one, List.map_append, List.sum_append]
  cases levels[level]? <;> simp

/-- A sum of 64-bit values wraps once. -/
theorem wrap64_add_left (x y : Int) : wrap64 (wrap64 x + y) = wrap64 (x + y) := by
  unfold wrap64
  rw [Int.bmod_add_bmod]

namespace Accumulator

/-- The entries of the output that the loop writes, in order: an entry is written when the index of
the depths moves on. -/
def written (depths : List Nat) (bids asks : List LevelQty) :
    (left level : Nat) → Accumulator → List Nat
  | 0, _, _ => []
  | left + 1, level, a =>
      match a.step depths bids asks level with
      | .error _ => []
      | .ok a' =>
          (if a'.d = a.d then [] else [a.d]) ++ written depths bids asks left (level + 1) a'

section Loop

variable {bids asks : List LevelQty}

/-- The cumulative quantity of a side after one more level. -/
theorem cumulate_eq (levels : List LevelQty) (level : Nat) :
    cumulate levels level (wrap64 (cumQty levels level)) = wrap64 (cumQty levels (level + 1)) := by
  rw [cumQty_succ]
  unfold cumulate
  cases levels[level]? with
  | none => simp
  | some x => exact wrap64_add_left _ _

/-- The situation before an iteration: the depths in `done` are reached and their entries written,
those in `rest` are not. -/
structure Reached (bids asks : List LevelQty) (level : Nat) (done rest : List Nat)
    (a : Accumulator) : Prop where
  cumBid : a.cumBid = wrap64 (cumQty bids level)
  cumAsk : a.cumAsk = wrap64 (cumQty asks level)
  d : a.d = done.length
  output : ∃ old, old.length = rest.length ∧ a.imbalance = done.map (imbalanceAt bids asks) ++ old
  ahead : ∀ k ∈ rest, level < k

/-- The loop starts with no depth reached. -/
theorem Reached.start {depths : List Nat} (hdepths : AscendingDepths depths)
    {imbalance : List Int} (hlen : imbalance.length = depths.length) :
    Reached bids asks 0 [] depths { imbalance := imbalance } :=
  ⟨rfl, rfl, rfl, ⟨imbalance, hlen, rfl⟩, hdepths.positive⟩

/-- The depth that the loop looks at is the next one. -/
theorem Reached.next {level k : Nat} {done rest : List Nat} {a : Accumulator}
    (h : Reached bids asks level done (k :: rest) a) : (done ++ k :: rest)[a.d]? = some k := by
  rw [h.d, List.getElem?_append_right le_rfl, Nat.sub_self, List.getElem?_cons_zero]

/-- An iteration that reaches no depth. -/
theorem Reached.pass {level k : Nat} {done rest : List Nat} {a : Accumulator}
    (h : Reached bids asks level done (k :: rest) a) (hsorted : ∀ j ∈ rest, k < j)
    (hne : level + 1 ≠ k) :
    ∃ a', a.step (done ++ k :: rest) bids asks level = .ok a' ∧ a'.d = a.d ∧
      Reached bids asks (level + 1) done (k :: rest) a' := by
  have hlt := h.ahead k (by simp)
  refine ⟨⟨wrap64 (cumQty bids (level + 1)), wrap64 (cumQty asks (level + 1)), a.d, a.imbalance⟩,
    ?_, rfl, rfl, rfl, h.d, h.output, fun j hj => ?_⟩
  · simp only [step, h.next, h.cumBid, h.cumAsk, cumulate_eq, if_neg hne, pure_eq_ok]
  · rcases List.mem_cons.mp hj with rfl | hj
    · omega
    · have := hsorted j hj
      omega

/-- An iteration that reaches a depth writes its entry. -/
theorem Reached.reach {level : Nat} {done rest : List Nat} {a : Accumulator}
    (h : Reached bids asks level done ((level + 1) :: rest) a)
    (hsorted : ∀ j ∈ rest, level + 1 < j) :
    ∃ a', a.step (done ++ (level + 1) :: rest) bids asks level = .ok a' ∧ a'.d = a.d + 1 ∧
      Reached bids asks (level + 1) (done ++ [level + 1]) rest a' := by
  obtain ⟨old, hlen, himb⟩ := h.output
  obtain ⟨x, old, rfl⟩ := List.exists_of_length_succ old hlen
  have hroom : a.d < a.imbalance.length := by
    rw [h.d, himb, List.length_append, List.length_map, List.length_cons]
    omega
  refine ⟨⟨wrap64 (cumQty bids (level + 1)), wrap64 (cumQty asks (level + 1)), a.d + 1,
    a.imbalance.set a.d (imbalanceAt bids asks (level + 1))⟩, ?_, rfl, rfl, rfl, ?_, ⟨old, ?_, ?_⟩,
    hsorted⟩
  · simp only [step, h.next, h.cumBid, h.cumAsk, cumulate_eq, if_pos hroom, if_true, pure_eq_ok,
      imbalanceAt]
  · rw [h.d, List.length_append, List.length_singleton]
  · rw [List.length_cons, List.length_cons] at hlen
    omega
  · rw [himb, h.d, List.map_append, List.append_assoc, List.set_append_right _ _ (by simp)]
    simp

/-- The loop from any iteration on: it writes the entries of all depths ahead. -/
theorem Reached.loop {left level : Nat} {done rest : List Nat} {a : Accumulator}
    (h : Reached bids asks level done rest a) (hsorted : rest.Pairwise (· < ·))
    (hle : ∀ k ∈ rest, k ≤ level + left) (hlast : 0 < left → level + left ∈ rest) :
    ∃ a', Accumulator.loop (done ++ rest) bids asks left level a = .ok a' ∧
      Reached bids asks (level + left) (done ++ rest) [] a' ∧
      written (done ++ rest) bids asks left level a = List.range' a.d rest.length := by
  induction left generalizing level done rest a with
  | zero =>
      cases rest with
      | nil =>
          rw [List.append_nil]
          exact ⟨a, rfl, h, rfl⟩
      | cons k rest =>
          have hlt := h.ahead k (by simp)
          have hk := hle k (by simp)
          omega
  | succ left ih =>
      cases rest with
      | nil => exact absurd (hlast (by omega)) (by simp)
      | cons k rest =>
          obtain ⟨hk, hrest⟩ := List.pairwise_cons.mp hsorted
          have hmem := hlast (by omega)
          rw [show level + (left + 1) = level + 1 + left by omega] at hmem hle ⊢
          -- this level ends the depth `k`, or it only adds to the sums
          by_cases hreach : level + 1 = k
          · subst hreach
            obtain ⟨a₁, hstep, hd, h₁⟩ := h.reach hk
            obtain ⟨a', hloop, h', hwritten⟩ := ih h₁ hrest (fun j hj => hle j (by simp [hj]))
              fun hpos => (List.mem_cons.mp hmem).resolve_left (by omega)
            rw [List.append_assoc, List.singleton_append] at hloop h' hwritten
            refine ⟨a', ?_, h', ?_⟩
            · rw [Accumulator.loop, hstep, ok_bind, hloop]
            · rw [written, hstep]
              simp only
              rw [hd, if_neg (by omega), hwritten, hd, List.length_cons, List.range'_succ,
                List.singleton_append]
          · obtain ⟨a₁, hstep, hd, h₁⟩ := h.pass hk hreach
            have hpos : 0 < left := by
              have hlt := h.ahead k (by simp)
              have := hle k (by simp)
              omega
            obtain ⟨a', hloop, h', hwritten⟩ := ih h₁ hsorted hle fun _ => hmem
            refine ⟨a', ?_, h', ?_⟩
            · rw [Accumulator.loop, hstep, ok_bind, hloop]
            · rw [written, hstep]
              simp only
              rw [hd, if_pos rfl, hwritten, hd, List.nil_append]

end Loop

/-- The deepest depth is the largest one. -/
theorem maxDepth_spec {depths : List Nat} (hdepths : AscendingDepths depths) :
    maxDepth depths ∈ depths ∧ ∀ k ∈ depths, k ≤ maxDepth depths := by
  obtain ⟨front, last, rfl⟩ := (List.eq_nil_or_concat depths).resolve_left hdepths.nonempty
  rw [List.concat_eq_append] at hdepths ⊢
  have hmax : maxDepth (front ++ [last]) = last := by simp [maxDepth]
  rw [hmax]
  refine ⟨by simp, fun k hk => ?_⟩
  rcases List.mem_append.mp hk with hk | hk
  · have := (List.pairwise_append.mp hdepths.ascending).2.2 k hk last (by simp)
    omega
  · exact Nat.le_of_eq (List.mem_singleton.mp hk)

/-- What the loop computes. -/
theorem loop_spec {depths : List Nat} (hdepths : AscendingDepths depths)
    (bids asks : List LevelQty) {imbalance : List Int} (hlen : imbalance.length = depths.length) :
    ∃ a, loop depths bids asks (maxDepth depths) 0 { imbalance := imbalance } = .ok a ∧
      a.imbalance = depths.map (imbalanceAt bids asks) ∧
      written depths bids asks (maxDepth depths) 0 { imbalance := imbalance } =
        List.range depths.length := by
  obtain ⟨hmem, hle⟩ := maxDepth_spec hdepths
  obtain ⟨a, hloop, hend, hwritten⟩ := (Reached.start hdepths hlen).loop hdepths.ascending
    (by simpa using hle) fun _ => by simpa using hmem
  obtain ⟨old, hold, himb⟩ := hend.output
  rw [List.nil_append] at hloop himb hwritten
  refine ⟨a, hloop, ?_, ?_⟩
  · rw [himb, List.eq_nil_of_length_eq_zero hold, List.append_nil]
  · rw [hwritten, List.range_eq_range']

end Accumulator

/-- The depths of the source. -/
theorem kImbalanceDepths_ascending : AscendingDepths kImbalanceDepths := by
  refine ⟨by decide, by decide, by decide⟩

/-- `computeSignals` writes every field. -/
theorem computeSignals_eq (topLevels : Side → Nat → List LevelQty) {out : BookSignals}
    (hlen : out.imbalance.length = kNumImbalanceDepths) :
    computeSignals topLevels out = .ok
      { setMicroprice (topLevels .buy kMaxSignalDepth) (topLevels .sell kMaxSignalDepth)
          (setQuotes (topLevels .buy kMaxSignalDepth) (topLevels .sell kMaxSignalDepth) {}) with
        imbalance := kImbalanceDepths.map
          (imbalanceAt (topLevels .buy kMaxSignalDepth) (topLevels .sell kMaxSignalDepth)) } := by
  obtain ⟨a, hloop, himb, -⟩ := Accumulator.loop_spec kImbalanceDepths_ascending
    (topLevels .buy kMaxSignalDepth) (topLevels .sell kMaxSignalDepth) hlen
  have hdepth : maxDepth kImbalanceDepths = kMaxSignalDepth := rfl
  rw [hdepth] at hloop
  unfold computeSignals
  show (Accumulator.loop kImbalanceDepths _ _ kMaxSignalDepth 0 { imbalance := out.imbalance } >>=
    _) = _
  rw [hloop, ok_bind, himb]
  rfl

end LimitOrderBook
