import Mathlib.Data.List.Basic
import Mathlib.Logic.Function.Basic
import Mathlib.Tactic.Common

/-!
# Doubly linked lists in a store

Nodes are natural numbers and the two links are functions from nodes to nodes or null.
`Linked prev next p q n` says that the nodes of `q` are linked in order, that the first one
points back to `p` and the last one on to `n`. Splitting a list splits its links
(`linked_append`), and the lemmas after it say what a change of one link does.
-/

namespace LinkedQueue

/-- The nodes of `q` are linked in order, back to `p` at the front and on to `n` at the end. -/
def Linked (prev next : Nat → Option Nat) : Option Nat → List Nat → Option Nat → Prop
  | _, [], _ => True
  | p, a :: q, n => prev a = p ∧ next a = q.head?.or n ∧ Linked prev next (some a) q n

variable {prev next prev' next' : Nat → Option Nat} {p n : Option Nat}

/-- Links of other nodes do not matter. -/
theorem Linked.congr {q : List Nat} (h : Linked prev next p q n)
    (hp : ∀ a ∈ q, prev' a = prev a) (hn : ∀ a ∈ q, next' a = next a) :
    Linked prev' next' p q n := by
  induction q generalizing p with
  | nil => trivial
  | cons a q ih =>
      obtain ⟨h1, h2, h3⟩ := h
      exact ⟨(hp a (by simp)).trans h1, (hn a (by simp)).trans h2,
        ih h3 (fun b hb => hp b (by simp [hb])) (fun b hb => hn b (by simp [hb]))⟩

/-- A list is linked exactly if its two parts are, each on to the other. -/
theorem linked_append {l r : List Nat} :
    Linked prev next p (l ++ r) n ↔
      Linked prev next p l (r.head?.or n) ∧ Linked prev next (l.getLast?.or p) r n := by
  induction l generalizing p with
  | nil => simp [Linked]
  | cons a l ih =>
      have hhead : (l ++ r).head?.or n = l.head?.or (r.head?.or n) := by
        cases l <;> simp
      have hlast : ((a :: l).getLast?).or p = (l.getLast?).or (some a) := by
        cases l with
        | nil => rfl
        | cons b l =>
            rw [List.getLast?_cons_cons, List.getLast?_eq_some_getLast (by simp)]
            rfl
      simp only [List.cons_append, Linked, ih, hhead, hlast, and_assoc]

/-- Forward links stay in the list or leave it at its end. -/
theorem Linked.next_mem {q : List Nat} {a b : Nat} (h : Linked prev next p q n) (ha : a ∈ q)
    (hb : next a = some b) : b ∈ q ∨ n = some b := by
  induction q generalizing p with
  | nil => cases ha
  | cons c q ih =>
      obtain ⟨_, hnext, hrest⟩ := h
      rcases List.mem_cons.mp ha with rfl | ha
      · rw [hb] at hnext
        cases q with
        | nil => exact Or.inr hnext.symm
        | cons d q =>
            obtain rfl : b = d := Option.some.inj hnext
            exact Or.inl (by simp)
      · exact (ih hrest ha).imp_left (List.mem_cons_of_mem c)

/-- Backward links stay in the list or leave it at its front. -/
theorem Linked.prev_mem {q : List Nat} {a b : Nat} (h : Linked prev next p q n) (ha : a ∈ q)
    (hb : prev a = some b) : b ∈ q ∨ p = some b := by
  induction q generalizing p with
  | nil => cases ha
  | cons c q ih =>
      obtain ⟨hprev, _, hrest⟩ := h
      rcases List.mem_cons.mp ha with rfl | ha
      · exact Or.inr (hprev.symm.trans hb)
      · rcases ih hrest ha with hmem | heq
        · exact Or.inl (List.mem_cons_of_mem c hmem)
        · obtain rfl : c = b := Option.some.inj heq
          exact Or.inl (by simp)

/-- Setting the forward link of the last node changes where the list goes on to. -/
theorem Linked.relink_next {l : List Nat} {a : Nat} (h : Linked prev next p (l ++ [a]) n)
    (ha : a ∉ l) (n' : Option Nat) :
    Linked prev (Function.update next a n') p (l ++ [a]) n' := by
  rw [linked_append] at h ⊢
  refine ⟨h.1.congr (fun _ _ => rfl) (fun b hb => ?_), h.2.1, by simp, trivial⟩
  exact Function.update_of_ne (by rintro rfl; exact ha hb) _ _

/-- Setting the backward link of the first node changes where the list comes from. -/
theorem Linked.relink_prev {r : List Nat} {a : Nat} (h : Linked prev next p (a :: r) n)
    (ha : a ∉ r) (p' : Option Nat) :
    Linked (Function.update prev a p') next p' (a :: r) n := by
  refine ⟨by simp, h.2.1, h.2.2.congr (fun b hb => ?_) (fun _ _ => rfl)⟩
  exact Function.update_of_ne (by rintro rfl; exact ha hb) _ _

end LinkedQueue
