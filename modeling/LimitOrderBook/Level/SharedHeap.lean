import LimitOrderBook.Level.MemoryPool
import LimitOrderBook.Level.Queue

/-!
# Many levels in one heap

The queues of all levels run through the same order slots. `Queues h levels queues` says that the
links of every level spell out its queue and that the queues are disjoint, for any family of
levels. `shared_heap` describes `push_back`, `remove` and `reduce_head` on one level by what they do
to its queue and by the few fields they touch, and says that a removed slot is free for reuse: its
links are null, no level leads to it, and after `release` and `allocate` it may be pushed to any
level.
-/

namespace LimitOrderBook

namespace PriceLevel

/-! ## Disjoint queues -/

/-- Every level has its queue in the heap, and no slot is in two of them. -/
structure Queues {ι : Type*} (h : Heap) (levels : ι → PriceLevel) (queues : ι → List OrderRef) :
    Prop where
  queued : ∀ i, Queued h (levels i) (queues i)
  disjoint : ∀ i j, i ≠ j → List.Disjoint (queues i) (queues j)

/-- A pointer of a level, or of an order in its queue, leads to the slot. -/
def Referenced {ι : Type*} (h : Heap) (levels : ι → PriceLevel) (queues : ι → List OrderRef)
    (o : OrderRef) : Prop :=
  ∃ i, (levels i).head = some o ∨ (levels i).tail = some o ∨
    ∃ s ∈ queues i, (h s).prev = some o ∨ (h s).next = some o

variable {ι : Type*} {h : Heap} {levels : ι → PriceLevel} {queues : ι → List OrderRef}

/-- The queue of a level, in another form. -/
theorem Queues.queued_eq (hq : Queues h levels queues) {i : ι} {q : List OrderRef}
    (heq : queues i = q) : Queued h (levels i) q :=
  heq ▸ hq.queued i

/-- The pointers of a level and of its orders lead to its orders. -/
theorem Queues.not_referenced (hq : Queues h levels queues) {o : OrderRef}
    (ho : ∀ j, o ∉ queues j) : ¬ Referenced h levels queues o := by
  intro ⟨i, hpointer⟩
  have hqi := hq.queued i
  apply ho i
  rcases hpointer with hhead | htail | ⟨s, hs, hprev | hnext⟩
  · exact List.mem_of_mem_head? (hqi.head_eq.symm.trans hhead)
  · exact List.mem_of_getLast? (hqi.tail_eq.symm.trans htail)
  · exact (hqi.linked.prev_mem hs hprev).resolve_right (by simp)
  · exact (hqi.linked.next_mem hs hnext).resolve_right (by simp)

/-- A slot in no queue may be overwritten. -/
theorem Queues.overwrite (hq : Queues h levels queues) {o : OrderRef} (ho : ∀ j, o ∉ queues j)
    (value : Order) : Queues (Function.update h o value) levels queues := by
  refine ⟨fun i => (hq.queued i).frame fun s hs => ?_, hq.disjoint⟩
  exact Function.update_of_ne (ne_of_mem_of_not_mem hs (ho i)) _ _

section Update

variable [DecidableEq ι]

/-- A change of one level that touches no order of the others keeps the queues apart. -/
theorem Queues.update (hq : Queues h levels queues) (i : ι) {h' : Heap} {level' : PriceLevel}
    {q' : List OrderRef} (hi : Queued h' level' q')
    (hframe : ∀ j ≠ i, ∀ s ∈ queues j, h' s = h s) (hnew : ∀ j ≠ i, List.Disjoint q' (queues j)) :
    Queues h' (Function.update levels i level') (Function.update queues i q') := by
  constructor
  · intro j
    by_cases hj : j = i
    · subst hj
      simpa using hi
    · rw [Function.update_of_ne hj, Function.update_of_ne hj]
      exact (hq.queued j).frame (hframe j hj)
  · intro j k hjk
    by_cases hj : j = i
    · subst hj
      rw [Function.update_self, Function.update_of_ne hjk.symm]
      exact hnew k hjk.symm
    · rw [Function.update_of_ne hj]
      by_cases hk : k = i
      · subst hk
        rw [Function.update_self]
        exact List.disjoint_symm (hnew j hj)
      · rw [Function.update_of_ne hk]
        exact hq.disjoint j k hjk

/-- `push_back` of a slot in no queue appends it. -/
theorem Queues.pushBack (hq : Queues h levels queues) (i : ι) {o : OrderRef}
    (ho : ∀ j, o ∉ queues j) :
    Queues ((levels i).pushBack h o).1 (Function.update levels i ((levels i).pushBack h o).2)
      (Function.update queues i (queues i ++ [o])) := by
  obtain ⟨hqueued, _, _, hframe⟩ := pushBack_spec (hq.queued i) (ho i)
  refine hq.update i hqueued (fun j hj s hs => ?_) (fun j hj => ?_)
  · exact hframe s (hq.disjoint j i hj hs) (ne_of_mem_of_not_mem hs (ho j))
  · intro s hs hsj
    rcases List.mem_append.mp hs with hs | hs
    · exact hq.disjoint j i hj hsj hs
    · exact ho j (List.mem_singleton.mp hs ▸ hsj)

/-- `remove` of a member deletes it. -/
theorem Queues.remove (hq : Queues h levels queues) {i : ι} {l r : List OrderRef} {o : OrderRef}
    (heq : queues i = l ++ o :: r) :
    Queues ((levels i).remove h o).1 (Function.update levels i ((levels i).remove h o).2)
      (Function.update queues i (l ++ r)) := by
  have hqi := hq.queued_eq heq
  obtain ⟨hqueued, _, _, _, _, hframe⟩ := remove_spec hqi
  refine hq.update i hqueued (fun j hj s hs => ?_) (fun j hj => ?_)
  · exact hframe s (heq ▸ hq.disjoint j i hj hs)
  · intro s hs hsj
    apply hq.disjoint j i hj hsj
    rw [heq]
    rw [List.mem_append] at hs ⊢
    exact hs.imp_right (List.mem_cons_of_mem o)

/-- After `remove` the order is in no queue. -/
theorem Queues.notMem_remove (hq : Queues h levels queues) {i : ι} {l r : List OrderRef}
    {o : OrderRef} (heq : queues i = l ++ o :: r) (j : ι) :
    o ∉ Function.update queues i (l ++ r) j := by
  have ho : o ∈ queues i := by simp [heq]
  by_cases hj : j = i
  · subst hj
    have hnodup := (hq.queued j).nodup
    rw [heq, List.nodup_middle] at hnodup
    rw [Function.update_self]
    exact (List.nodup_cons.mp hnodup).1
  · rw [Function.update_of_ne hj]
    exact hq.disjoint i j (Ne.symm hj) ho

/-- `reduce_head` keeps every queue. -/
theorem Queues.reduceHead (hq : Queues h levels queues) {i : ι} {r : List OrderRef}
    {o : OrderRef} (heq : queues i = o :: r) (filled : Quantity) :
    Queues (Function.update h o { h o with quantity := (h o).quantity - filled })
      (Function.update levels i
        { levels i with totalQty := (levels i).totalQty - filled }) queues := by
  have hqi := hq.queued_eq heq
  have ho : o ∈ queues i := by simp [heq]
  have h' := hq.update i (reduceHead_spec hqi filled).2 (fun j hj s hs => ?_) (fun j hj => ?_)
  · rwa [← heq, Function.update_eq_self] at h'
  · exact Function.update_of_ne
      (ne_of_mem_of_not_mem hs (hq.disjoint i j (Ne.symm hj) ho)) _ _
  · rw [← heq]
    exact hq.disjoint i j (Ne.symm hj)

/-! ## Slots that come back -/

/-- The slot can be given back to the pool, is handed out again for any order, and may then be
pushed to any level. -/
def Recyclable (h : Heap) (levels : ι → PriceLevel) (queues : ι → List OrderRef) (o : OrderRef) :
    Prop :=
  ∀ (capacity : Nat) (pool : MemoryPool Order capacity), pool.storage = h →
    pool.freeList.length < capacity →
    ∃ released, pool.release o = .ok released ∧ ∀ value, ∃ reused,
      released.allocate value = some (o, reused) ∧ reused.storage = Function.update h o value ∧
      Queues reused.storage levels queues ∧
      ∀ j, Queues ((levels j).pushBack reused.storage o).1
        (Function.update levels j ((levels j).pushBack reused.storage o).2)
        (Function.update queues j (queues j ++ [o]))

/-- A slot in no queue can be recycled. -/
theorem Queues.recyclable (hq : Queues h levels queues) {o : OrderRef} (ho : ∀ j, o ∉ queues j) :
    Recyclable h levels queues o := by
  intro capacity pool hstorage hroom
  subst hstorage
  obtain ⟨released, hrelease, hallocate⟩ := pool.release_allocate o hroom
  refine ⟨released, hrelease, fun value => ⟨_, hallocate value, rfl, ?_, fun j => ?_⟩⟩
  · exact hq.overwrite ho value
  · exact (hq.overwrite ho value).pushBack j ho

/-- What the operations of one level do to a heap of many levels. `push_back` of a slot in no
queue appends it; `remove` of a member deletes it, wherever it stands, and leaves its slot free for
reuse; `reduce_head` takes a quantity from the first order and the total. All levels keep their
queues, and apart from the links of the order and of its neighbours no order changes. -/
theorem shared_heap (hq : Queues h levels queues) (i : ι) :
    (∀ o, (∀ j, o ∉ queues j) →
      Queues ((levels i).pushBack h o).1 (Function.update levels i ((levels i).pushBack h o).2)
        (Function.update queues i (queues i ++ [o])) ∧
      ((levels i).pushBack h o).2.price = (levels i).price ∧
      Relinked h ((levels i).pushBack h o).1 o (queues i).getLast? none) ∧
    (∀ l o r, queues i = l ++ o :: r →
      let h' := ((levels i).remove h o).1
      let levels' := Function.update levels i ((levels i).remove h o).2
      let queues' := Function.update queues i (l ++ r)
      Queues h' levels' queues' ∧
      ((levels i).remove h o).2.price = (levels i).price ∧
      Relinked h h' o l.getLast? r.head? ∧
      (h' o).prev = none ∧ (h' o).next = none ∧
      ¬ Referenced h' levels' queues' o ∧ Recyclable h' levels' queues' o) ∧
    (∀ o r filled, queues i = o :: r → filled ≤ (h o).quantity →
      ∃ h' level', (levels i).reduceHead h filled = .ok (h', level') ∧
        h' = Function.update h o { h o with quantity := (h o).quantity - filled } ∧
        level' = { levels i with totalQty := (levels i).totalQty - filled } ∧
        0 ≤ (h' o).quantity ∧
        Queues h' (Function.update levels i level') queues) := by
  refine ⟨fun o ho => ?_, fun l o r heq => ?_, fun o r filled heq hle => ?_⟩
  · -- the neighbour of an appended order is the former last one
    refine ⟨hq.pushBack i ho, price_pushBack h (levels i) o, ?_⟩
    rw [← (hq.queued i).tail_eq]
    exact pushBack_relinked h (levels i) o
  · have hqi := hq.queued_eq heq
    obtain ⟨_, hprev, hnext, _⟩ := hqi.member
    obtain ⟨_, hprice, _, hprev', hnext', _⟩ := remove_spec hqi
    -- once the order is in no queue, no pointer leads to it and its slot can be written
    have hout := hq.notMem_remove heq
    have hrelinked := remove_relinked h (levels i) o
    rw [hprev, hnext] at hrelinked
    exact ⟨hq.remove heq, hprice, hrelinked, hprev', hnext', (hq.remove heq).not_referenced hout,
      (hq.remove heq).recyclable hout⟩
  · have hqi := hq.queued_eq heq
    refine ⟨_, _, (reduceHead_spec hqi filled).1, rfl, rfl, ?_, hq.reduceHead heq filled⟩
    rw [Function.update_self]
    exact sub_nonneg.mpr hle

end Update

/-- Four orders of one level in the slots 0 to 3, and an empty level: slot 1 is removed from the
middle and can be reused for the other level. -/
theorem shared_heap_reuse :
    let h : Heap := fun s =>
      { id := 10, side := Side.buy, price := 100, quantity := 5, timestamp := 1
        prev := if s = 0 then none else some (s - 1)
        next := if s = 3 then none else some (s + 1) }
    let levels : Bool → PriceLevel := fun b =>
      if b then ⟨100, 20, some 0, some 3⟩ else ⟨90, 0, none, none⟩
    let queues : Bool → List OrderRef := fun b => if b then [0, 1, 2, 3] else []
    Queues h levels queues ∧ ((levels true).remove h 1).2 = ⟨100, 15, some 0, some 3⟩ ∧
      Queues ((levels true).remove h 1).1 (Function.update levels true ⟨100, 15, some 0, some 3⟩)
        (Function.update queues true [0, 2, 3]) ∧
      Recyclable ((levels true).remove h 1).1
        (Function.update levels true ⟨100, 15, some 0, some 3⟩)
        (Function.update queues true [0, 2, 3]) 1 := by
  intro h levels queues
  have hq : Queues h levels queues := by
    constructor
    · intro b
      cases b with
      | false => exact queued_nil
      | true =>
          refine ⟨rfl, rfl, ?_, by decide, by decide⟩
          simp [LinkedQueue.Linked, prevOf, nextOf, h, queues]
    · intro b c hne
      cases b <;> cases c <;> simp [queues] at hne ⊢
  have hlevel : ((levels true).remove h 1).2 = ⟨100, 15, some 0, some 3⟩ := by decide
  obtain ⟨hqueues, _, _, _, _, _, hrecyclable⟩ := (shared_heap hq true).2.1 [0] 1 [2, 3] rfl
  rw [hlevel] at hqueues hrecyclable
  exact ⟨hq, hlevel, hqueues, hrecyclable⟩

end PriceLevel

end LimitOrderBook
