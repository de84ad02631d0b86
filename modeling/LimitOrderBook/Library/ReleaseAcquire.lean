import Mathlib.Data.Fintype.Pi
import Mathlib.Order.Lattice
import Mathlib.Tactic.Common

/-!
# Release and acquire

A memory in which threads communicate by release stores to and acquire loads from atomic locations,
and keep their data in plain cells. The stores to a location form its history. A thread may load any
store of the history that is not older than one it knows of, so an acquire load may be out of date;
what it does learn is everything that the storing thread knew (`View`).

A plain access is a data race if an access of another thread to the same cell, one of the two being
a write, is not known to the thread. Each plain access has a number in its thread's clock, and a
cell keeps for each thread the number of its last write and of its last read, so the test is a
comparison of clocks.

Each location has one thread that stores to it, its owner. `WellFormed` is what holds then in every
reachable memory: later stores of a location carry larger views, and whoever has seen a store knows
its view.
-/

namespace ReleaseAcquire

/-- What a thread knows: for each location the number of the newest store that it has seen, and for
each thread the number of the last plain access of which it has learnt. -/
structure View (Tid Loc : Type) where
  seen : Loc → Nat
  clock : Tid → Nat

namespace View

variable {Tid Loc : Type}

instance : Preorder (View Tid Loc) := Preorder.lift fun v => (v.seen, v.clock)

/-- Nothing is known beyond the start. -/
def start : View Tid Loc := ⟨fun _ => 0, fun _ => 0⟩

/-- What is known to one of the two. -/
def join (v w : View Tid Loc) : View Tid Loc := ⟨v.seen ⊔ w.seen, v.clock ⊔ w.clock⟩

/-- A view after the next plain access of the thread. -/
def tick [DecidableEq Tid] (v : View Tid Loc) (t : Tid) : View Tid Loc :=
  { v with clock := Function.update v.clock t (v.clock t + 1) }

/-- A view in which store `i` of the location is the newest one seen. -/
def see [DecidableEq Loc] (v : View Tid Loc) (l : Loc) (i : Nat) : View Tid Loc :=
  { v with seen := Function.update v.seen l i }

variable {v w x : View Tid Loc}

theorem le_of (hseen : ∀ l, v.seen l ≤ w.seen l) (hclock : ∀ t, v.clock t ≤ w.clock t) : v ≤ w :=
  ⟨hseen, hclock⟩

theorem seen_le (h : v ≤ w) (l : Loc) : v.seen l ≤ w.seen l := h.1 l

theorem clock_le (h : v ≤ w) (t : Tid) : v.clock t ≤ w.clock t := h.2 t

theorem start_le (v : View Tid Loc) : start ≤ v :=
  le_of (fun l => Nat.zero_le (v.seen l)) (fun t => Nat.zero_le (v.clock t))

theorem le_join_left (v w : View Tid Loc) : v ≤ v.join w :=
  le_of (fun l => Nat.le_max_left (v.seen l) (w.seen l))
    (fun t => Nat.le_max_left (v.clock t) (w.clock t))

theorem le_join_right (v w : View Tid Loc) : w ≤ v.join w :=
  le_of (fun l => Nat.le_max_right (v.seen l) (w.seen l))
    (fun t => Nat.le_max_right (v.clock t) (w.clock t))

theorem le_tick [DecidableEq Tid] (v : View Tid Loc) (t : Tid) : v ≤ v.tick t := by
  refine le_of (fun l => Nat.le_refl (v.seen l)) (fun u => ?_)
  by_cases hut : u = t
  · subst hut
    simp [tick]
  · simp [tick, hut]

theorem tick_clock_self [DecidableEq Tid] (v : View Tid Loc) (t : Tid) :
    (v.tick t).clock t = v.clock t + 1 :=
  Function.update_self ..

theorem le_see [DecidableEq Loc] {l : Loc} {i : Nat} (hle : v.seen l ≤ i) : v ≤ v.see l i := by
  refine le_of (fun j => ?_) (fun t => Nat.le_refl (v.clock t))
  by_cases hjl : j = l
  · subst hjl
    simpa [see] using hle
  · simp [see, hjl]

theorem see_self [DecidableEq Loc] (v : View Tid Loc) (l : Loc) : v.see l (v.seen l) = v := by
  simp [see]

end View

/-- A store of the history of a location, with what the storing thread knew. -/
structure Message (Tid Loc A : Type) where
  value : A
  view : View Tid Loc

/-- A plain cell, with the numbers of the last write and the last read of each thread. -/
structure CellState (Tid V : Type) where
  value : V
  writes : Tid → Nat
  reads : Tid → Nat

/-- The cell after a read of the thread, which is its access number `n`. -/
def CellState.markRead {Tid V : Type} [DecidableEq Tid] (cell : CellState Tid V)
    (t : Tid) (n : Nat) : CellState Tid V :=
  { cell with reads := Function.update cell.reads t n }

/-- The cell after a write of the thread, which is its access number `n`. -/
def CellState.markWrite {Tid V : Type} [DecidableEq Tid] (cell : CellState Tid V)
    (t : Tid) (n : Nat) (v : V) : CellState Tid V :=
  { cell with value := v, writes := Function.update cell.writes t n }

/-- The histories, the cells and what each thread knows. -/
structure Memory (Tid Loc A Cell V : Type) where
  history : Loc → List (Message Tid Loc A)
  cells : Cell → CellState Tid V
  views : Tid → View Tid Loc

/-- A plain access that is not ordered with an earlier one. -/
inductive DataRace where
  | dataRace
  deriving DecidableEq, Repr

namespace Memory

variable {Tid Loc A Cell V : Type}

/-- The memory before any thread has done anything. What is there at first is known to all. -/
def fresh (values : Loc → A) (contents : Cell → V) : Memory Tid Loc A Cell V where
  history := fun l => [⟨values l, .start⟩]
  cells := fun c => ⟨contents c, fun _ => 0, fun _ => 0⟩
  views := fun _ => .start

section Operations

variable [DecidableEq Tid] [DecidableEq Loc] [DecidableEq Cell]

/-- Replace what a thread knows. -/
def setView (m : Memory Tid Loc A Cell V) (t : Tid) (v : View Tid Loc) :
    Memory Tid Loc A Cell V :=
  { m with views := Function.update m.views t v }

/-- Replace the state of a cell. -/
def setCell (m : Memory Tid Loc A Cell V) (c : Cell) (cell : CellState Tid V) :
    Memory Tid Loc A Cell V :=
  { m with cells := Function.update m.cells c cell }

/-- Add a store to the history of a location. -/
def addStore (m : Memory Tid Loc A Cell V) (l : Loc) (msg : Message Tid Loc A) :
    Memory Tid Loc A Cell V :=
  { m with history := Function.update m.history l (m.history l ++ [msg]) }

/-- An acquire load that reads store `i` of the location. There is no such load if the store does
not exist or is older than one that the thread has seen. -/
def load (m : Memory Tid Loc A Cell V) (t : Tid) (l : Loc) (i : Nat) :
    Option (A × Memory Tid Loc A Cell V) :=
  match (m.history l)[i]? with
  | some msg =>
      if (m.views t).seen l ≤ i then some (msg.value, m.setView t ((m.views t).join msg.view))
      else none
  | none => none

/-- A relaxed load that reads store `i` of the location. Nothing else is learnt from it. -/
def loadRelaxed (m : Memory Tid Loc A Cell V) (t : Tid) (l : Loc) (i : Nat) :
    Option (A × Memory Tid Loc A Cell V) :=
  match (m.history l)[i]? with
  | some msg =>
      if (m.views t).seen l ≤ i then some (msg.value, m.setView t ((m.views t).see l i))
      else none
  | none => none

/-- A release store. What it carries includes the store itself. -/
def store (m : Memory Tid Loc A Cell V) (t : Tid) (l : Loc) (a : A) : Memory Tid Loc A Cell V :=
  let view := (m.views t).see l (m.history l).length
  (m.setView t view).addStore l ⟨a, view⟩

/-- The memory after a plain read. -/
def afterRead (m : Memory Tid Loc A Cell V) (t : Tid) (c : Cell) : Memory Tid Loc A Cell V :=
  let view := (m.views t).tick t
  (m.setView t view).setCell c ((m.cells c).markRead t (view.clock t))

/-- The memory after a plain write. -/
def afterWrite (m : Memory Tid Loc A Cell V) (t : Tid) (c : Cell) (v : V) :
    Memory Tid Loc A Cell V :=
  let view := (m.views t).tick t
  (m.setView t view).setCell c ((m.cells c).markWrite t (view.clock t) v)

variable [Fintype Tid]

/-- A plain read. The writes have to be known to the thread. -/
def read (m : Memory Tid Loc A Cell V) (t : Tid) (c : Cell) :
    Except DataRace (V × Memory Tid Loc A Cell V) :=
  if ∀ u, (m.cells c).writes u ≤ (m.views t).clock u then
    .ok ((m.cells c).value, m.afterRead t c)
  else .error .dataRace

/-- A plain write. The writes and the reads have to be known to the thread. -/
def write (m : Memory Tid Loc A Cell V) (t : Tid) (c : Cell) (v : V) :
    Except DataRace (Memory Tid Loc A Cell V) :=
  if ∀ u, (m.cells c).writes u ≤ (m.views t).clock u ∧ (m.cells c).reads u ≤ (m.views t).clock u
  then .ok (m.afterWrite t c v)
  else .error .dataRace

end Operations

/-! ## Histories with one writer -/

/-- Whoever has this view knows the view of the newest store that it has seen, of each location. -/
def Closed (m : Memory Tid Loc A Cell V) (v : View Tid Loc) : Prop :=
  ∀ l, ∃ msg, (m.history l)[v.seen l]? = some msg ∧ msg.view ≤ v

/-- What holds in every reachable memory if only the owner of a location stores to it. -/
structure WellFormed (owner : Loc → Tid) (m : Memory Tid Loc A Cell V) : Prop where
  /-- Later stores know more. -/
  sorted : ∀ l, (m.history l).Pairwise fun a b => a.view ≤ b.view
  /-- What a store carries includes the store itself. -/
  numbered : ∀ l i (msg : Message Tid Loc A), (m.history l)[i]? = some msg → msg.view.seen l = i
  /-- The owner knows what its stores carry. -/
  known : ∀ l, ∀ msg ∈ m.history l, msg.view ≤ m.views (owner l)
  /-- The owner has seen its last store. -/
  latest : ∀ l, (m.views (owner l)).seen l + 1 = (m.history l).length
  closed : ∀ t, m.Closed (m.views t)
  closedStores : ∀ l, ∀ msg ∈ m.history l, m.Closed msg.view

/-- At first each location has one store. -/
theorem fresh_getElem? {values : Loc → A} {contents : Cell → V} {l : Loc} {i : Nat}
    {msg : Message Tid Loc A}
    (hget : ((fresh values contents : Memory Tid Loc A Cell V).history l)[i]? = some msg) :
    i = 0 ∧ msg = ⟨values l, .start⟩ := by
  cases i with
  | zero => exact ⟨rfl, (Option.some.inj hget).symm⟩
  | succ i => cases hget

theorem fresh_wellFormed (owner : Loc → Tid) (values : Loc → A) (contents : Cell → V) :
    (fresh values contents : Memory Tid Loc A Cell V).WellFormed owner where
  sorted := fun l => List.pairwise_singleton _ _
  numbered := fun l i msg hmsg => by
    obtain ⟨rfl, rfl⟩ := fresh_getElem? hmsg
    rfl
  known := fun l msg hmsg => by
    rw [List.mem_singleton.mp hmsg]
    exact View.start_le _
  latest := fun l => rfl
  closed := fun t l => ⟨_, rfl, le_rfl⟩
  closedStores := fun l msg hmsg => by
    rw [List.mem_singleton.mp hmsg]
    exact fun l' => ⟨_, rfl, le_rfl⟩

variable {m : Memory Tid Loc A Cell V} {owner : Loc → Tid} {t : Tid} {l : Loc} {i : Nat}

/-- What is known to one of two is known to somebody who knows both. -/
theorem Closed.join {v w : View Tid Loc} (hv : m.Closed v) (hw : m.Closed w) :
    m.Closed (v.join w) := by
  intro l
  rcases Nat.le_total (v.seen l) (w.seen l) with hle | hle
  · obtain ⟨msg, hmsg, hview⟩ := hw l
    refine ⟨msg, ?_, hview.trans (View.le_join_right v w)⟩
    rw [← hmsg]
    exact congrArg _ (Nat.max_eq_right hle)
  · obtain ⟨msg, hmsg, hview⟩ := hv l
    refine ⟨msg, ?_, hview.trans (View.le_join_left v w)⟩
    rw [← hmsg]
    exact congrArg _ (Nat.max_eq_left hle)

/-- Learning of plain accesses alone leaves a view closed. -/
theorem Closed.mono {v w : View Tid Loc} (hv : m.Closed v) (hseen : w.seen = v.seen)
    (hle : v ≤ w) : m.Closed w := by
  intro l
  obtain ⟨msg, hmsg, hview⟩ := hv l
  exact ⟨msg, by rw [hseen]; exact hmsg, hview.trans hle⟩

/-- A store that has been seen exists. -/
theorem Closed.seen_lt {v : View Tid Loc} (hv : m.Closed v) (l : Loc) :
    v.seen l < (m.history l).length := by
  obtain ⟨msg, hmsg, -⟩ := hv l
  exact (List.getElem?_eq_some_iff.mp hmsg).1

section Views

variable [DecidableEq Tid] {v : View Tid Loc} {u : Tid}

theorem setView_views_self : (m.setView t v).views t = v := Function.update_self ..

theorem setView_views_of_ne (hne : u ≠ t) : (m.setView t v).views u = m.views u :=
  Function.update_of_ne hne ..

/-- If a thread learns more, no thread knows less. -/
theorem le_setView (hle : m.views t ≤ v) (u : Tid) : m.views u ≤ (m.setView t v).views u := by
  by_cases hut : u = t
  · subst hut
    rw [setView_views_self]
    exact hle
  · rw [setView_views_of_ne hut]

/-- The number of a plain access is in the clock of its thread. -/
theorem tick_clock : ((m.setView t ((m.views t).tick t)).views t).clock t =
    (m.views t).clock t + 1 := by
  rw [setView_views_self, View.tick_clock_self]

end Views

section Histories

variable [DecidableEq Loc] {msg old : Message Tid Loc A} {j : Loc}

theorem addStore_history_self : (m.addStore l msg).history l = m.history l ++ [msg] :=
  Function.update_self ..

theorem addStore_history_of_ne (hne : j ≠ l) : (m.addStore l msg).history j = m.history j :=
  Function.update_of_ne hne ..

theorem addStore_getElem?_last :
    ((m.addStore l msg).history l)[(m.history l).length]? = some msg := by
  rw [addStore_history_self, List.getElem?_append_right le_rfl, Nat.sub_self]
  rfl

/-- A store that was there stays where it was. -/
theorem addStore_getElem? (hget : (m.history j)[i]? = some old) :
    ((m.addStore l msg).history j)[i]? = some old := by
  by_cases hjl : j = l
  · subst hjl
    rw [addStore_history_self, List.getElem?_append_left (List.getElem?_eq_some_iff.mp hget).1]
    exact hget
  · rw [addStore_history_of_ne hjl]
    exact hget

/-- A store is one that was there or the one that is added. -/
theorem addStore_getElem?_cases (hget : ((m.addStore l msg).history j)[i]? = some old) :
    (m.history j)[i]? = some old ∨ j = l ∧ i = (m.history l).length ∧ old = msg := by
  by_cases hjl : j = l
  · subst hjl
    rw [addStore_history_self] at hget
    rcases Nat.lt_or_ge i (m.history j).length with hlt | hge
    · rw [List.getElem?_append_left hlt] at hget
      exact Or.inl hget
    · obtain ⟨hlt, heq⟩ := List.getElem?_eq_some_iff.mp hget
      have hi : i = (m.history j).length := by
        rw [List.length_append, List.length_singleton] at hlt
        omega
      subst hi
      rw [List.getElem_concat_length rfl] at heq
      exact Or.inr ⟨rfl, rfl, heq.symm⟩
  · rw [addStore_history_of_ne hjl] at hget
    exact Or.inl hget

theorem mem_addStore (hin : old ∈ (m.addStore l msg).history j) :
    old ∈ m.history j ∨ j = l ∧ old = msg := by
  obtain ⟨i, hget⟩ := List.mem_iff_getElem?.mp hin
  rcases addStore_getElem?_cases hget with hget | ⟨hjl, -, hmsg⟩
  · exact Or.inl (List.mem_of_getElem? hget)
  · exact Or.inr ⟨hjl, hmsg⟩

/-- What is known stays known. -/
theorem Closed.addStore {v : View Tid Loc} (hv : m.Closed v) : (m.addStore l msg).Closed v := by
  intro j
  obtain ⟨old, hget, hle⟩ := hv j
  exact ⟨old, addStore_getElem? hget, hle⟩

end Histories

namespace WellFormed

/-- A thread has seen the store that it loads. -/
theorem seen_join (hwf : m.WellFormed owner) {msg : Message Tid Loc A}
    (hmsg : (m.history l)[i]? = some msg) (hle : (m.views t).seen l ≤ i) :
    ((m.views t).join msg.view).seen l = i := by
  show max ((m.views t).seen l) (msg.view.seen l) = i
  rw [hwf.numbered l i msg hmsg, Nat.max_eq_right hle]

/-- A thread learns more. -/
theorem setView [DecidableEq Tid] (hwf : m.WellFormed owner) {v : View Tid Loc}
    (hle : m.views t ≤ v) (hv : m.Closed v) : (m.setView t v).WellFormed owner := by
  have hviews := le_setView hle
  have hclosed : ∀ u, m.Closed ((m.setView t v).views u) := by
    intro u
    by_cases hut : u = t
    · subst hut
      simpa [Memory.setView] using hv
    · simpa [Memory.setView, hut] using hwf.closed u
  refine ⟨hwf.sorted, hwf.numbered, fun l msg hmsg => (hwf.known l msg hmsg).trans (hviews _),
    fun l => ?_, hclosed, hwf.closedStores⟩
  -- there is no newer store than the one the owner has seen
  have hseen := View.seen_le (hviews (owner l)) l
  have hlt := (hclosed (owner l)).seen_lt l
  have hlatest := hwf.latest l
  show ((m.setView t v).views (owner l)).seen l + 1 = (m.history l).length
  omega

/-- The cells do not matter. -/
theorem setCell [DecidableEq Cell] (hwf : m.WellFormed owner) (c : Cell)
    (cell : CellState Tid V) : (m.setCell c cell).WellFormed owner :=
  ⟨hwf.sorted, hwf.numbered, hwf.known, hwf.latest, hwf.closed, hwf.closedStores⟩

/-- A plain read. -/
theorem afterRead [DecidableEq Tid] [DecidableEq Cell] (hwf : m.WellFormed owner) (t : Tid)
    (c : Cell) : (m.afterRead t c).WellFormed owner :=
  (hwf.setView (View.le_tick _ t) ((hwf.closed t).mono rfl (View.le_tick _ t))).setCell c _

/-- A plain write. -/
theorem afterWrite [DecidableEq Tid] [DecidableEq Cell] (hwf : m.WellFormed owner) (t : Tid)
    (c : Cell) (v : V) : (m.afterWrite t c v).WellFormed owner :=
  (hwf.setView (View.le_tick _ t) ((hwf.closed t).mono rfl (View.le_tick _ t))).setCell c _

/-- A store that the owner adds with a view that knows more than it did before, of this store
too. -/
theorem addStore [DecidableEq Tid] [DecidableEq Loc] (hwf : m.WellFormed owner)
    {msg : Message Tid Loc A} (hle : m.views (owner l) ≤ msg.view)
    (hseen : msg.view.seen = Function.update (m.views (owner l)).seen l (m.history l).length) :
    ((m.setView (owner l) msg.view).addStore l msg).WellFormed owner := by
  have hviews : ∀ u, m.views u ≤ Function.update m.views (owner l) msg.view u := by
    intro u
    rw [Function.update_apply]
    split
    · next hu =>
        subst hu
        exact hle
    · exact le_rfl
  have hclosed : (m.addStore l msg).Closed msg.view := by
    intro j
    rw [hseen, Function.update_apply]
    split
    · next hjl =>
        subst hjl
        exact ⟨msg, addStore_getElem?_last, le_rfl⟩
    · obtain ⟨old, hget, hview⟩ := hwf.closed (owner l) j
      exact ⟨old, addStore_getElem? hget, hview.trans hle⟩
  refine ⟨fun j => ?_, fun j i old hget => ?_, fun j old hin => ?_, fun j => ?_, fun u => ?_,
    fun j old hin => ?_⟩
  · show ((m.addStore l msg).history j).Pairwise _
    by_cases hjl : j = l
    · subst hjl
      rw [addStore_history_self]
      refine List.pairwise_append.mpr ⟨hwf.sorted j, List.pairwise_singleton _ _, ?_⟩
      intro b hb c hc
      rw [List.mem_singleton.mp hc]
      exact (hwf.known j b hb).trans hle
    · rw [addStore_history_of_ne hjl]
      exact hwf.sorted j
  · rcases addStore_getElem?_cases hget with hget | ⟨rfl, rfl, rfl⟩
    · exact hwf.numbered j i old hget
    · rw [hseen, Function.update_self]
      rfl
  · rcases mem_addStore hin with hin | ⟨rfl, rfl⟩
    · exact (hwf.known j old hin).trans (hviews _)
    · show old.view ≤ Function.update m.views (owner j) old.view (owner j)
      rw [Function.update_self]
  · show (Function.update m.views (owner l) msg.view (owner j)).seen j + 1 =
      ((m.addStore l msg).history j).length
    by_cases hjl : j = l
    · subst hjl
      rw [Function.update_self, addStore_history_self, hseen, Function.update_self,
        List.length_append]
      rfl
    · rw [addStore_history_of_ne hjl, Function.update_apply]
      split
      · next howner =>
          rw [hseen, Function.update_of_ne hjl, ← howner]
          exact hwf.latest j
      · exact hwf.latest j
  · show (m.addStore l msg).Closed (Function.update m.views (owner l) msg.view u)
    rw [Function.update_apply]
    split
    · exact hclosed
    · exact (hwf.closed u).addStore
  · rcases mem_addStore hin with hin | ⟨rfl, rfl⟩
    · exact (hwf.closedStores j old hin).addStore
    · exact hclosed

/-- A release store of the owner. -/
theorem store [DecidableEq Tid] [DecidableEq Loc] (hwf : m.WellFormed owner) (l : Loc) (a : A) :
    (m.store (owner l) l a).WellFormed owner := by
  have hlatest := hwf.latest l
  exact @addStore _ _ _ _ _ _ _ _ _ _ hwf ⟨a, (m.views (owner l)).see l (m.history l).length⟩
    (View.le_see (by omega)) rfl

end WellFormed

/-! ## Operations -/

section Specifications

variable [DecidableEq Tid]

/-- What an acquire load does: it reads a store that is not older than what the thread has seen,
and learns what that store carries. -/
theorem load_eq_some {a : A} {m' : Memory Tid Loc A Cell V} (hload : m.load t l i = some (a, m')) :
    ∃ msg, (m.history l)[i]? = some msg ∧ (m.views t).seen l ≤ i ∧ a = msg.value ∧
      m' = m.setView t ((m.views t).join msg.view) := by
  rw [load] at hload
  split at hload
  · next msg hmsg =>
      split at hload
      · next hle =>
          obtain ⟨rfl, rfl⟩ := Prod.mk.inj (Option.some.inj hload)
          exact ⟨msg, hmsg, hle, rfl, rfl⟩
      · cases hload
  · cases hload

/-- The owner of a location reads its own last store, and learns nothing from it. -/
theorem WellFormed.loadRelaxed [DecidableEq Loc] (hwf : m.WellFormed owner) {a : A}
    {m' : Memory Tid Loc A Cell V} (hload : m.loadRelaxed (owner l) l i = some (a, m')) :
    (∃ msg, (m.history l)[i]? = some msg ∧ a = msg.value) ∧
      i = (m.views (owner l)).seen l ∧ m' = m := by
  rw [Memory.loadRelaxed] at hload
  split at hload
  · next msg hmsg =>
      split at hload
      · next hle =>
          obtain ⟨rfl, rfl⟩ := Prod.mk.inj (Option.some.inj hload)
          have hlt := (List.getElem?_eq_some_iff.mp hmsg).1
          have hlatest := hwf.latest l
          have hi : i = (m.views (owner l)).seen l := by omega
          refine ⟨⟨msg, hmsg, rfl⟩, hi, ?_⟩
          rw [hi, View.see_self, Memory.setView, Function.update_eq_self]
      · cases hload
  · cases hload

/-- Any thread may read the newest store of a location. -/
theorem WellFormed.load_newest (hwf : m.WellFormed owner) {n : Nat}
    (hlen : (m.history l).length = n + 1) (t : Tid) :
    ∃ msg, (m.history l)[n]? = some msg ∧
      m.load t l n = some (msg.value, m.setView t ((m.views t).join msg.view)) := by
  have hmsg := List.getElem?_eq_getElem (show n < (m.history l).length by omega)
  have hseen := (hwf.closed t).seen_lt l
  refine ⟨_, hmsg, ?_⟩
  rw [load, hmsg]
  exact if_pos (by omega)

/-- The owner of a location may read its own last store. -/
theorem WellFormed.loadRelaxed_newest [DecidableEq Loc] (hwf : m.WellFormed owner) {n : Nat}
    (hlen : (m.history l).length = n + 1) :
    ∃ msg, (m.history l)[n]? = some msg ∧
      m.loadRelaxed (owner l) l n = some (msg.value, m) := by
  obtain ⟨msg, hmsg⟩ : ∃ msg, (m.history l)[n]? = some msg :=
    ⟨_, List.getElem?_eq_getElem (show n < (m.history l).length by omega)⟩
  have hlatest := hwf.latest l
  have hseen : (m.views (owner l)).seen l = n := by omega
  refine ⟨msg, hmsg, ?_⟩
  rw [Memory.loadRelaxed, hmsg]
  refine (if_pos hseen.le).trans ?_
  rw [← hseen, View.see_self, Memory.setView, Function.update_eq_self]

end Specifications

section Cells

variable [DecidableEq Tid] [DecidableEq Cell] {c d : Cell} {u : Tid} {v : V}

theorem afterRead_value : ((m.afterRead t c).cells d).value = (m.cells d).value := by
  by_cases hdc : d = c
  · subst hdc
    simp [afterRead, setCell, CellState.markRead]
  · simp [afterRead, setCell, setView, hdc]

theorem afterRead_writes : ((m.afterRead t c).cells d).writes = (m.cells d).writes := by
  by_cases hdc : d = c
  · subst hdc
    simp [afterRead, setCell, CellState.markRead]
  · simp [afterRead, setCell, setView, hdc]

theorem afterRead_reads_self : ((m.afterRead t c).cells c).reads t = (m.views t).clock t + 1 := by
  simp [afterRead, setCell, CellState.markRead, View.tick_clock_self]

theorem afterRead_reads_of_ne (hne : d ≠ c ∨ u ≠ t) :
    ((m.afterRead t c).cells d).reads u = (m.cells d).reads u := by
  by_cases hdc : d = c
  · subst hdc
    have hut : u ≠ t := hne.resolve_left (not_not_intro rfl)
    simp [afterRead, setCell, CellState.markRead, hut]
  · simp [afterRead, setCell, setView, hdc]

theorem le_afterRead (u : Tid) : m.views u ≤ (m.afterRead t c).views u :=
  le_setView (View.le_tick _ _) u

theorem afterWrite_value_self : ((m.afterWrite t c v).cells c).value = v := by
  simp [afterWrite, setCell, CellState.markWrite]

theorem afterWrite_value_of_ne (hne : d ≠ c) :
    ((m.afterWrite t c v).cells d).value = (m.cells d).value := by
  simp [afterWrite, setCell, setView, hne]

theorem afterWrite_reads : ((m.afterWrite t c v).cells d).reads = (m.cells d).reads := by
  by_cases hdc : d = c
  · subst hdc
    simp [afterWrite, setCell, CellState.markWrite]
  · simp [afterWrite, setCell, setView, hdc]

theorem afterWrite_writes_self :
    ((m.afterWrite t c v).cells c).writes t = (m.views t).clock t + 1 := by
  simp [afterWrite, setCell, CellState.markWrite, View.tick_clock_self]

theorem afterWrite_writes_of_ne (hne : d ≠ c ∨ u ≠ t) :
    ((m.afterWrite t c v).cells d).writes u = (m.cells d).writes u := by
  by_cases hdc : d = c
  · subst hdc
    have hut : u ≠ t := hne.resolve_left (not_not_intro rfl)
    simp [afterWrite, setCell, CellState.markWrite, hut]
  · simp [afterWrite, setCell, setView, hdc]

theorem le_afterWrite (u : Tid) : m.views u ≤ (m.afterWrite t c v).views u :=
  le_setView (View.le_tick _ _) u

end Cells

end Memory

end ReleaseAcquire
