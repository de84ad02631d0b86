import LimitOrderBook.Listen.WeakModel
import LimitOrderBook.Publisher.Correctness

/-!
# The two threads do not race

`WeakInv` is kept by every step, and no step is a data race (`step_ok`). The full and the empty test
may use an old value of the other thread's index, but an old value only makes the producer drop and
the consumer wait. What a thread has learnt together with the index orders its accesses to the slot
after those of the other thread (`Ordered`). `weak_run_loses_nothing` adds the flag: whoever has
seen it set has seen the last `head_`.
-/

namespace LimitOrderBook

open ReleaseAcquire (Memory Message View DataRace)
open CyclicBuffer (Holds)
open PublishSystem (ProducerOk ConsumerOk)

namespace WeakListener

variable {Word : Type} {words capacity : Nat}

theorem buffer_afterWrite (m : RingMemory Word words) (t : Party) (slot : Nat) (k : Fin words)
    (v : Word) : buffer (m.afterWrite t (slot, k) v) =
      PublishSystem.writeWord (buffer m) slot k v := by
  funext slot' k'
  rw [PublishSystem.writeWord]
  by_cases hslot : slot' = slot
  · subst hslot
    rw [Function.update_self]
    by_cases hk : k' = k
    · subst hk
      rw [Function.update_self]
      exact Memory.afterWrite_value_self
    · rw [Function.update_of_ne hk]
      exact Memory.afterWrite_value_of_ne fun hc => hk (Prod.mk.inj hc).2
  · rw [Function.update_of_ne hslot]
    exact Memory.afterWrite_value_of_ne fun hc => hslot (Prod.mk.inj hc).1

theorem buffer_afterRead (m : RingMemory Word words) (t : Party) (c : Nat × Fin words) :
    buffer (m.afterRead t c) = buffer m :=
  funext fun _ => funext fun _ => Memory.afterRead_value

/-! ## The order of the accesses to the slots -/

/-- The accesses to the slots when `w` items have been put in and `r` have been taken out. The
producer alone writes and the consumer alone reads; a store of `head_` that counts an item in
carries the writes of its words, and a store of `tail_` that counts an item out carries the
reads. -/
structure Ordered (capacity w r : Nat) (m : RingMemory Word words) : Prop where
  consumerWrites : ∀ c, (m.cells c).writes .consumer = 0
  producerReads : ∀ c, (m.cells c).reads .producer = 0
  writes : ∀ c, (m.cells c).writes .producer ≤ (m.views .producer).clock .producer
  reads : ∀ c, (m.cells c).reads .consumer ≤ (m.views .consumer).clock .consumer
  putIn : ∀ j msg, (m.history .head)[j]? = some msg → ∀ i k, r ≤ i → i < j →
    (m.cells (i % capacity, k)).writes .producer ≤ msg.view.clock .producer
  takenOut : ∀ j msg, (m.history .tail)[j]? = some msg → ∀ i k, w ≤ i → i < j + capacity →
    (m.cells (i % capacity, k)).reads .consumer ≤ msg.view.clock .consumer

namespace Ordered

variable {m : RingMemory Word words} {w r : Nat}

/-- A thread learns more. -/
theorem setView (h : Ordered capacity w r m) {t : Party} {v : View Party Location}
    (hle : m.views t ≤ v) : Ordered capacity w r (m.setView t v) where
  consumerWrites := h.consumerWrites
  producerReads := h.producerReads
  writes := fun c => (h.writes c).trans (View.clock_le (Memory.le_setView hle _) _)
  reads := fun c => (h.reads c).trans (View.clock_le (Memory.le_setView hle _) _)
  putIn := h.putIn
  takenOut := h.takenOut

/-- The producer may write the slot of the next item if it knows of enough items taken out. -/
theorem write_known (h : Ordered capacity w r m) (hwf : m.WellFormed Location.owner)
    (hroom : w < (m.views .producer).seen .tail + capacity) (k : Fin words) :
    (∀ t, (m.cells (w % capacity, k)).writes t ≤ (m.views .producer).clock t) ∧
      ∀ t, (m.cells (w % capacity, k)).reads t ≤ (m.views .producer).clock t := by
  obtain ⟨msg, hmsg, hview⟩ := hwf.closed .producer .tail
  refine ⟨fun t => ?_, fun t => ?_⟩
  · cases t with
    | producer => exact h.writes _
    | consumer => exact h.consumerWrites _ ▸ Nat.zero_le _
  · cases t with
    | producer => exact h.producerReads _ ▸ Nat.zero_le _
    | consumer => exact (h.takenOut _ msg hmsg w k le_rfl hroom).trans (View.clock_le hview _)

/-- The consumer may read the slot of the next item if it knows that the item has been put in. -/
theorem read_known (h : Ordered capacity w r m) (hwf : m.WellFormed Location.owner)
    (havail : r < (m.views .consumer).seen .head) (k : Fin words) :
    ∀ t, (m.cells (r % capacity, k)).writes t ≤ (m.views .consumer).clock t := by
  obtain ⟨msg, hmsg, hview⟩ := hwf.closed .consumer .head
  intro t
  cases t with
  | producer => exact (h.putIn _ msg hmsg r k le_rfl havail).trans (View.clock_le hview _)
  | consumer => exact h.consumerWrites _ ▸ Nat.zero_le _

/-- The producer writes a word of the slot of the next item. The items that are waiting have other
slots. -/
theorem write (h : Ordered capacity w r m) (hcount : (m.history .head).length = w + 1)
    (hroom : w < r + capacity) (k : Fin words) (v : Word) :
    Ordered capacity w r (m.afterWrite .producer (w % capacity, k) v) where
  consumerWrites := fun c => by
    rw [Memory.afterWrite_writes_of_ne (Or.inr (by decide))]
    exact h.consumerWrites c
  producerReads := fun c => by
    rw [Memory.afterWrite_reads]
    exact h.producerReads c
  writes := fun c => by
    by_cases hc : c = (w % capacity, k)
    · subst hc
      rw [Memory.afterWrite_writes_self]
      exact Memory.tick_clock.ge
    · rw [Memory.afterWrite_writes_of_ne (Or.inl hc)]
      exact (h.writes c).trans (View.clock_le (Memory.le_afterWrite _) _)
  reads := fun c => by
    rw [Memory.afterWrite_reads]
    exact (h.reads c).trans (View.clock_le (Memory.le_afterWrite _) _)
  putIn := fun j msg hmsg i k' hri hij => by
    have hj : j < w + 1 := hcount ▸ (List.getElem?_eq_some_iff.mp hmsg).1
    have hne : i % capacity ≠ w % capacity := CyclicBuffer.mod_ne_mod (by omega) (by omega)
    rw [Memory.afterWrite_writes_of_ne (Or.inl fun hc => hne (Prod.mk.inj hc).1)]
    exact h.putIn j msg hmsg i k' hri hij
  takenOut := fun j msg hmsg i k' hwi hij => by
    rw [Memory.afterWrite_reads]
    exact h.takenOut j msg hmsg i k' hwi hij

/-- The consumer reads a word of the slot of the next item. The slots that the producer may write
next are other ones. -/
theorem read (h : Ordered capacity w r m) (hcount : (m.history .tail).length = r + 1)
    (havail : r < w) (k : Fin words) :
    Ordered capacity w r (m.afterRead .consumer (r % capacity, k)) where
  consumerWrites := fun c => by
    rw [Memory.afterRead_writes]
    exact h.consumerWrites c
  producerReads := fun c => by
    rw [Memory.afterRead_reads_of_ne (Or.inr (by decide))]
    exact h.producerReads c
  writes := fun c => by
    rw [Memory.afterRead_writes]
    exact (h.writes c).trans (View.clock_le (Memory.le_afterRead _) _)
  reads := fun c => by
    by_cases hc : c = (r % capacity, k)
    · subst hc
      rw [Memory.afterRead_reads_self]
      exact Memory.tick_clock.ge
    · rw [Memory.afterRead_reads_of_ne (Or.inl hc)]
      exact (h.reads c).trans (View.clock_le (Memory.le_afterRead _) _)
  putIn := fun j msg hmsg i k' hri hij => by
    rw [Memory.afterRead_writes]
    exact h.putIn j msg hmsg i k' hri hij
  takenOut := fun j msg hmsg i k' hwi hij => by
    have hj : j < r + 1 := hcount ▸ (List.getElem?_eq_some_iff.mp hmsg).1
    have hne : r % capacity ≠ i % capacity := CyclicBuffer.mod_ne_mod (by omega) (by omega)
    rw [Memory.afterRead_reads_of_ne (Or.inl fun hc => hne (Prod.mk.inj hc).1.symm)]
    exact h.takenOut j msg hmsg i k' hwi hij

/-- A thread stores to one of its variables, and `w'` and `r'` items are then counted. -/
theorem store (h : Ordered capacity w r m) {l : Location} {a w' r' : Nat}
    (hle : m.views l.owner ≤ (m.views l.owner).see l (m.history l).length)
    (hw : w ≤ w') (hr : r ≤ r') : Ordered capacity w' r' (m.store l.owner l a) where
  consumerWrites := h.consumerWrites
  producerReads := h.producerReads
  writes := (h.setView hle).writes
  reads := (h.setView hle).reads
  putIn := fun j msg hmsg i k hri hij => by
    rcases Memory.addStore_getElem?_cases hmsg with hold | ⟨hl, -, hnew⟩
    · exact h.putIn j msg hold i k (hr.trans hri) hij
    · subst hl hnew
      exact h.writes _
  takenOut := fun j msg hmsg i k hwi hij => by
    rcases Memory.addStore_getElem?_cases hmsg with hold | ⟨hl, -, hnew⟩
    · exact h.takenOut j msg hold i k (hw.trans hwi) hij
    · subst hl hnew
      exact h.reads _

end Ordered

/-! ## The memory -/

/-- The memory when the items `items` have been put in and the items `out` taken out. -/
structure MemoryInv (capacity : Nat) (items out : List (Item Word words))
    (m : RingMemory Word words) : Prop where
  wf : m.WellFormed Location.owner
  fifo : out <+: items
  heads : ∀ i msg, (m.history .head)[i]? = some msg → msg.value = i % capacity
  headCount : (m.history .head).length = items.length + 1
  tails : ∀ i msg, (m.history .tail)[i]? = some msg → msg.value = i % capacity
  tailCount : (m.history .tail).length = out.length + 1
  /-- The producer has seen enough items leave for those that it has put in. -/
  room : items.length < (m.views .producer).seen .tail + capacity
  /-- The consumer has seen those items come in that it has taken out. -/
  avail : out.length ≤ (m.views .consumer).seen .head
  holds : Holds capacity (buffer m) items out.length
  ordered : Ordered capacity items.length out.length m

namespace MemoryInv

variable {m : RingMemory Word words} {items out : List (Item Word words)} {item : Item Word words}

/-- What the producer has seen of the consumer. -/
theorem seenTail_le (h : MemoryInv capacity items out m) :
    (m.views .producer).seen .tail ≤ out.length := by
  have hlt := (h.wf.closed .producer).seen_lt .tail
  rw [h.tailCount] at hlt
  omega

/-- What the consumer has seen of the producer. -/
theorem seenHead_le (h : MemoryInv capacity items out m) :
    (m.views .consumer).seen .head ≤ items.length := by
  have hlt := (h.wf.closed .consumer).seen_lt .head
  rw [h.headCount] at hlt
  omega

/-- There are never more items than slots. -/
theorem bounded (h : MemoryInv capacity items out m) : items.length < out.length + capacity :=
  h.room.trans_le (Nat.add_le_add_right h.seenTail_le capacity)

/-- A thread learns more. -/
theorem setView (h : MemoryInv capacity items out m) {t : Party} {v : View Party Location}
    (hle : m.views t ≤ v) (hv : m.Closed v) : MemoryInv capacity items out (m.setView t v) :=
  { h with
    wf := h.wf.setView hle hv
    room := h.room.trans_le
      (Nat.add_le_add_right (View.seen_le (Memory.le_setView hle _) _) capacity)
    avail := h.avail.trans (View.seen_le (Memory.le_setView hle _) _)
    ordered := h.ordered.setView hle }

/-- A thread loads a variable of the other. -/
theorem load (h : MemoryInv capacity items out m) {t : Party} {l : Location} {i : Nat}
    {msg : Message Party Location Nat} (hmsg : (m.history l)[i]? = some msg) :
    MemoryInv capacity items out (m.setView t ((m.views t).join msg.view)) :=
  h.setView (View.le_join_left _ _)
    ((h.wf.closed t).join (h.wf.closedStores l msg (List.mem_of_getElem? hmsg)))

/-- The producer writes a word of the slot of the next item. -/
theorem write (h : MemoryInv capacity items out m) (k : Fin words) (v : Word) :
    MemoryInv capacity items out (m.afterWrite .producer (items.length % capacity, k) v) :=
  { h with
    wf := h.wf.afterWrite _ _ _
    room := h.room.trans_le
      (Nat.add_le_add_right (View.seen_le (Memory.le_afterWrite _) _) capacity)
    avail := h.avail.trans (View.seen_le (Memory.le_afterWrite _) _)
    holds := by
      rw [buffer_afterWrite]
      exact h.holds.write h.bounded _
    ordered := h.ordered.write h.headCount h.bounded k v }

/-- The consumer reads a word of the slot of the next item. -/
theorem read (h : MemoryInv capacity items out m) (havail : out.length < items.length)
    (k : Fin words) :
    MemoryInv capacity items out (m.afterRead .consumer (out.length % capacity, k)) :=
  { h with
    wf := h.wf.afterRead _ _
    room := h.room.trans_le
      (Nat.add_le_add_right (View.seen_le (Memory.le_afterRead _) _) capacity)
    avail := h.avail.trans (View.seen_le (Memory.le_afterRead _) _)
    holds := by
      rw [buffer_afterRead]
      exact h.holds
    ordered := h.ordered.read h.tailCount havail k }

/-- The producer loads its own index. -/
theorem loadHead_own (h : MemoryInv capacity items out m) {i head : Nat}
    {m' : RingMemory Word words} (hload : m.loadRelaxed .producer .head i = some (head, m')) :
    head = items.length % capacity ∧ m' = m := by
  obtain ⟨⟨msg, hmsg, rfl⟩, rfl, hsame⟩ := h.wf.loadRelaxed hload
  have hlatest := h.wf.latest .head
  rw [h.headCount] at hlatest
  rw [← Nat.succ.inj hlatest]
  exact ⟨h.heads _ msg hmsg, hsame⟩

/-- The consumer loads its own index. -/
theorem loadTail_own (h : MemoryInv capacity items out m) {i tail : Nat}
    {m' : RingMemory Word words} (hload : m.loadRelaxed .consumer .tail i = some (tail, m')) :
    tail = out.length % capacity ∧ m' = m := by
  obtain ⟨⟨msg, hmsg, rfl⟩, rfl, hsame⟩ := h.wf.loadRelaxed hload
  have hlatest := h.wf.latest .tail
  rw [h.tailCount] at hlatest
  rw [← Nat.succ.inj hlatest]
  exact ⟨h.tails _ msg hmsg, hsame⟩

/-- A thread knows more after it has stored to its variable. -/
theorem le_see (h : MemoryInv capacity items out m) (l : Location) :
    m.views l.owner ≤ (m.views l.owner).see l (m.history l).length :=
  View.le_see (by have := h.wf.latest l; omega)

/-- The producer counts in an item that is in its slot. -/
theorem push (h : MemoryInv capacity items out m)
    (hslot : buffer m (items.length % capacity) = item)
    (hroom : items.length + 1 < (m.views .producer).seen .tail + capacity) :
    MemoryInv capacity (items ++ [item]) out
      (m.store .producer .head ((items.length + 1) % capacity)) := by
  have hlen : (items ++ [item]).length = items.length + 1 := List.length_append
  refine ⟨h.wf.store .head _, h.fifo.trans (List.prefix_append _ _), fun i msg hmsg => ?_, ?_,
    h.tails, h.tailCount, ?_, h.avail, h.holds.push hslot, ?_⟩
  · rcases Memory.addStore_getElem?_cases hmsg with hold | ⟨-, hi, hnew⟩
    · exact h.heads i msg hold
    · rw [hnew, hi]
      exact congrArg (· % capacity) h.headCount.symm
  · show ((m.addStore .head _).history .head).length = _
    rw [Memory.addStore_history_self, List.length_append, h.headCount, hlen]
    rfl
  · rw [hlen]
    exact hroom
  · rw [hlen]
    exact h.ordered.store (h.le_see .head) (Nat.le_succ _) le_rfl

/-- The consumer counts out the item in its slot. -/
theorem pop (h : MemoryInv capacity items out m)
    (havail : out.length < (m.views .consumer).seen .head)
    (hslot : buffer m (out.length % capacity) = item) :
    MemoryInv capacity items (out ++ [item])
      (m.store .consumer .tail ((out.length + 1) % capacity)) := by
  have hlen : (out ++ [item]).length = out.length + 1 := List.length_append
  have hlt : out.length < items.length := havail.trans_le h.seenHead_le
  refine ⟨h.wf.store .tail _, ?_, h.heads, h.headCount, fun i msg hmsg => ?_, ?_, h.room, ?_, ?_,
    ?_⟩
  · -- the item in the slot is the next one of those put in
    have hnext := h.holds out.length items[out.length] le_rfl (List.getElem?_eq_getElem hlt)
    obtain ⟨rest, hrest⟩ := h.fifo
    refine ⟨rest.tail, ?_⟩
    cases rest with
    | nil =>
        rw [← hrest, List.append_nil] at hlt
        exact absurd hlt (lt_irrefl _)
    | cons x rest =>
        have hx : items[out.length] = x := by simp [← hrest]
        rw [← hrest, ← hslot, hnext, hx, List.append_assoc]
        rfl
  · rcases Memory.addStore_getElem?_cases hmsg with hold | ⟨-, hi, hnew⟩
    · exact h.tails i msg hold
    · rw [hnew, hi]
      exact congrArg (· % capacity) h.tailCount.symm
  · show ((m.addStore .tail _).history .tail).length = _
    rw [Memory.addStore_history_self, List.length_append, h.tailCount, hlen]
    rfl
  · rw [hlen]
    exact havail
  · rw [hlen]
    exact h.holds.pop
  · rw [hlen]
    exact h.ordered.store (h.le_see .tail) le_rfl (Nat.le_succ _)

/-- The producer stores to the flag. -/
theorem storeStop (h : MemoryInv capacity items out m) (a : Nat) :
    MemoryInv capacity items out (m.store .producer .stop a) :=
  { h with
    wf := h.wf.store .stop a
    ordered := h.ordered.store (h.le_see .stop) le_rfl le_rfl }

end MemoryInv

/-! ## The threads -/

/-- The invariant when the items `items` have been accepted, the items `out` polled, and `calls`
calls of `publish` completed. -/
structure WeakInvAt (capacity : Nat) (items out : List (Item Word words)) (calls : Nat)
    (s : WeakListener Word words capacity) : Prop where
  memory : MemoryInv capacity items out s.memory
  producer : ProducerOk capacity (buffer s.memory) items.length
    ((s.memory.views .producer).seen .tail) s.producer
  consumer : ConsumerOk capacity (buffer s.memory) ((s.memory.views .consumer).seen .head)
    out.length s.consumer
  published : s.published = UInt64.ofNat items.length
  counted : s.published + s.dropped = UInt64.ofNat calls
  received : s.mdReceived = UInt64.ofNat out.length
  /-- A store that sets the flag carries all items. -/
  flagged : ∀ (i : Nat) (msg : Message Party Location Nat),
    (s.memory.history .stop)[i]? = some msg → msg.value ≠ 0 →
      s.stopped = true ∧ items.length ≤ msg.view.seen .head
  quiet : s.stopped = true → s.producer = .idle
  between : s.mdConsumer = .foundNone ∨ s.mdConsumer = .returned → s.consumer = .idle
  /-- Whoever drains has seen all items. -/
  draining : s.mdConsumer = .draining →
    s.stopped = true ∧ items.length ≤ (s.memory.views .consumer).seen .head
  returned : s.mdConsumer = .returned → s.stopped = true ∧ out = items

/-- The invariant. -/
def WeakInv (log : List (Returned Word words)) (s : WeakListener Word words capacity) : Prop :=
  WeakInvAt capacity (accepted log) (polled log) (completed log) s

/-- The threads before their first step. -/
theorem fresh_weakInv (hcap : 0 < capacity) (contents : Nat → Item Word words) :
    WeakInv [] (fresh contents : WeakListener Word words capacity) where
  memory :=
    { wf := Memory.fresh_wellFormed _ _ _
      fifo := List.nil_prefix
      heads := fun i msg hmsg => by
        obtain ⟨rfl, rfl⟩ := Memory.fresh_getElem? hmsg
        exact (Nat.zero_mod capacity).symm
      headCount := rfl
      tails := fun i msg hmsg => by
        obtain ⟨rfl, rfl⟩ := Memory.fresh_getElem? hmsg
        exact (Nat.zero_mod capacity).symm
      tailCount := rfl
      room := by simpa [accepted, fresh] using Nat.lt_add_left _ hcap
      avail := Nat.zero_le _
      holds := fun i x _ hx => by cases hx
      ordered :=
        { consumerWrites := fun _ => rfl
          producerReads := fun _ => rfl
          writes := fun _ => Nat.zero_le _
          reads := fun _ => Nat.zero_le _
          putIn := fun _ _ _ _ _ _ _ => Nat.zero_le _
          takenOut := fun _ _ _ _ _ _ _ => Nat.zero_le _ } }
  producer := trivial
  consumer := trivial
  published := rfl
  counted := rfl
  received := rfl
  flagged := fun i msg hmsg hset => by
    obtain ⟨rfl, rfl⟩ := Memory.fresh_getElem? hmsg
    exact absurd rfl hset
  quiet := fun _ => rfl
  between := fun _ => rfl
  draining := fun hat => by cases hat
  returned := fun hat => by cases hat

/-! ## What a step of one thread does to the other -/

section Frames

variable {b : Nat → Item Word words} {w w' r r' : Nat}

/-- The producer knows of more items that have left. -/
theorem producerOk_mono {p : Producer Word words} (h : ProducerOk capacity b w r p) (hle : r ≤ r') :
    ProducerOk capacity b w r' p := by
  cases p with
  | idle => exact trivial
  | loadedHead item head => exact h
  | copying item head next done =>
      obtain ⟨hhead, hnext, hroom, hdone⟩ := h
      exact ⟨hhead, hnext, by omega, hdone⟩

/-- The consumer knows of more items that have come in. -/
theorem consumerOk_mono {c : Consumer Word words} (h : ConsumerOk capacity b w r c) (hle : w ≤ w') :
    ConsumerOk capacity b w' r c := by
  cases c with
  | idle => exact trivial
  | loadedTail out tail => exact h
  | copying out tail done => exact ⟨h.1, h.2.1.trans_le hle, h.2.2⟩

/-- The consumer does not see a word in another slot. -/
theorem consumerOk_write {c : Consumer Word words} {slot : Nat} (h : ConsumerOk capacity b w r c)
    (hne : w ≠ r → r % capacity ≠ slot) (k : Fin words) (v : Word) :
    ConsumerOk capacity (PublishSystem.writeWord b slot k v) w r c := by
  cases c with
  | idle => exact trivial
  | loadedTail out tail => exact h
  | copying out tail done =>
      obtain ⟨rfl, hlt, hdone⟩ := h
      refine ⟨rfl, hlt, fun j hj => ?_⟩
      rw [PublishSystem.writeWord, Function.update_of_ne (hne (Nat.ne_of_gt hlt))]
      exact hdone j hj

end Frames

variable {items out : List (Item Word words)} {calls : Nat} {s : WeakListener Word words capacity}

namespace WeakInvAt

/-! ## Steps of the producer -/

section Producer

variable {item : Item Word words} {head next tail : Nat} {done : List (Fin words)}
  {msg : Message Party Location Nat}

/-- The producer loads its own index. -/
theorem publish (h : WeakInvAt capacity items out calls s) (hrun : s.stopped = false)
    (hhead : head = items.length % capacity) :
    WeakInvAt capacity items out calls { s with producer := .loadedHead item head } :=
  { h with
    producer := hhead
    quiet := fun hstop => by rw [hrun] at hstop; cases hstop }

/-- The producer loads the other index. -/
theorem loadTail (h : WeakInvAt capacity items out calls s) {l : Location} {i : Nat}
    (hmsg : (s.memory.history l)[i]? = some msg) :
    WeakInvAt capacity items out calls { s with
      memory := s.memory.setView .producer ((s.memory.views .producer).join msg.view) } :=
  { h with
    memory := h.memory.load hmsg
    producer := producerOk_mono h.producer
      (View.seen_le (Memory.le_setView (View.le_join_left _ _) _) _) }

/-- The producer finds the ring full, counts and returns. -/
theorem drop (h : WeakInvAt capacity items out calls s) :
    WeakInvAt capacity items out (calls + 1)
      { s with dropped := s.dropped + 1, producer := .idle } :=
  { h with
    producer := trivial
    quiet := fun _ => rfl
    counted := by
      show s.published + (s.dropped + 1) = _
      rw [← UInt64.add_assoc, h.counted, UInt64.ofNat_add]
      rfl }

/-- The producer finds room. What it knows of the consumer may be out of date, but the consumer can
only have made more. -/
theorem findRoom (hcap : capacity.isPowerOfTwo) (h : WeakInvAt capacity items out calls s)
    (hat : s.producer = .loadedHead item head)
    (hmsg : (s.memory.history .tail)[(s.memory.views .producer).seen .tail]? = some msg)
    (hroom : (head + 1) &&& SpscRingBuffer.mask capacity ≠ msg.value) :
    WeakInvAt capacity items out calls { s with
      producer := .copying item head ((head + 1) &&& SpscRingBuffer.mask capacity) [] } := by
  have hhead := h.producer
  rw [hat] at hhead
  have hnext : (head + 1) &&& SpscRingBuffer.mask capacity = (items.length + 1) % capacity := by
    rw [hhead, SpscRingBuffer.mask, CyclicBuffer.and_pred_eq_mod hcap, Nat.mod_add_mod]
  have hlt := h.memory.room
  have hle := h.memory.seenTail_le.trans h.memory.fifo.length_le
  rw [hnext, h.memory.tails _ _ hmsg, Ne, CyclicBuffer.full_iff hle hlt] at hroom
  have hnotFull : items.length + 1 < (s.memory.views .producer).seen .tail + capacity := by omega
  exact { h with
    producer := ⟨hhead, hnext, hnotFull, fun k hk => by cases hk⟩
    quiet := fun hstop => by
      rw [h.quiet hstop] at hat
      cases hat }

/-- The producer copies a word. No access of the consumer to the slot is unknown to it. -/
theorem copyIn (h : WeakInvAt capacity items out calls s)
    (hat : s.producer = .copying item head next done) (k : Fin words) :
    ∃ m, s.memory.write .producer (head, k) (item k) = .ok m ∧
      WeakInvAt capacity items out calls { s with
        memory := m, producer := .copying item head next (k :: done) } := by
  have hproducer := h.producer
  rw [hat] at hproducer
  obtain ⟨rfl, hnext, hroom, hdone⟩ := hproducer
  obtain ⟨hwrites, hreads⟩ := h.memory.ordered.write_known h.memory.wf h.memory.room k
  refine ⟨s.memory.afterWrite .producer (items.length % capacity, k) (item k),
    if_pos fun t => ⟨hwrites t, hreads t⟩, ?_⟩
  refine { h with
    memory := h.memory.write k (item k)
    producer := ⟨rfl, hnext, ?_, fun j hj => ?_⟩
    consumer := ?_
    quiet := fun hstop => by
      rw [h.quiet hstop] at hat
      cases hat
    draining := fun hdrain => ?_ }
  · exact hroom.trans_le (Nat.add_le_add_right (View.seen_le (Memory.le_afterWrite _) _) capacity)
  · show buffer (s.memory.afterWrite .producer _ _) _ j = item j
    rw [buffer_afterWrite, PublishSystem.writeWord, Function.update_self]
    by_cases hjk : j = k
    · rw [hjk, Function.update_self]
    · rw [Function.update_of_ne hjk]
      exact hdone j ((List.mem_cons.mp hj).resolve_left hjk)
  · show ConsumerOk capacity (buffer (s.memory.afterWrite .producer _ _)) _ _ s.consumer
    rw [buffer_afterWrite]
    have hle := h.memory.seenHead_le
    have hbound := h.memory.bounded
    have havail := h.memory.avail
    exact consumerOk_write h.consumer
      (fun hne => CyclicBuffer.mod_ne_mod (by omega) (by omega)) k (item k)
  · exact h.draining hdrain

/-- The producer stores its index, counts and returns. -/
theorem storeHead (h : WeakInvAt capacity items out calls s)
    (hat : s.producer = .copying item head next done) (hall : ∀ k, k ∈ done) :
    WeakInvAt capacity (items ++ [item]) out (calls + 1) { s with
      memory := s.memory.store .producer .head next, published := s.published + 1,
      producer := .idle } := by
  have hproducer := h.producer
  rw [hat] at hproducer
  obtain ⟨rfl, rfl, hroom, hdone⟩ := hproducer
  have hlen : (items ++ [item]).length = items.length + 1 := List.length_append
  have hrunning : s.stopped = false := by
    by_contra hstop
    rw [h.quiet (eq_true_of_ne_false hstop)] at hat
    cases hat
  have hslot : buffer s.memory (items.length % capacity) = item := funext fun k => hdone k (hall k)
  refine ⟨h.memory.push hslot hroom, trivial, h.consumer, ?_, ?_, h.received,
    fun i msg hmsg hset => ?_, fun _ => rfl, h.between, fun hdrain => ?_, fun hret => ?_⟩
  · rw [hlen, UInt64.ofNat_add, ← h.published]
    rfl
  · show s.published + 1 + s.dropped = _
    rw [UInt64.add_assoc, UInt64.add_comm 1, ← UInt64.add_assoc, h.counted, UInt64.ofNat_add]
    rfl
  -- nothing has been stopped yet
  · rw [(h.flagged i msg hmsg hset).1] at hrunning
    cases hrunning
  · rw [(h.draining hdrain).1] at hrunning
    cases hrunning
  · rw [(h.returned hret).1] at hrunning
    cases hrunning

/-- The producer stores the flag. -/
theorem stop (h : WeakInvAt capacity items out calls s) (hidle : s.producer = .idle) :
    WeakInvAt capacity items out calls { s with
      memory := s.memory.store .producer .stop 1, stopped := true } := by
  refine { h with
    memory := h.memory.storeStop 1
    producer := ?_
    flagged := fun i msg hmsg hset => ⟨rfl, ?_⟩
    quiet := fun _ => hidle
    draining := fun hdrain => ⟨rfl, (h.draining hdrain).2⟩
    returned := fun hret => ⟨rfl, (h.returned hret).2⟩ }
  · show ProducerOk _ _ _ _ s.producer
    rw [hidle]
    exact trivial
  · rcases Memory.addStore_getElem?_cases hmsg with hold | ⟨-, -, hnew⟩
    · exact (h.flagged i msg hold hset).2
    · -- the producer has seen its own last item
      have hlatest := h.memory.wf.latest .head
      rw [h.memory.headCount] at hlatest
      rw [hnew]
      exact (Nat.succ.inj hlatest).ge

end Producer

/-! ## Steps of the consumer -/

section Consumer

variable {into : Item Word words} {tail : Nat} {done : List (Fin words)}
  {msg : Message Party Location Nat}

/-- The consumer loads its own index. -/
theorem poll (h : WeakInvAt capacity items out calls s)
    (hin : s.mdConsumer = .polling ∨ s.mdConsumer = .draining)
    (htail : tail = out.length % capacity) :
    WeakInvAt capacity items out calls { s with consumer := .loadedTail into tail } :=
  { h with
    consumer := htail
    between := fun hbetween => by
      rcases hin with hin | hin
      · simp [hin] at hbetween
      · simp [hin] at hbetween }

/-- The consumer loads a variable of the producer. -/
theorem loadOther (h : WeakInvAt capacity items out calls s) {l : Location} {i : Nat}
    (hmsg : (s.memory.history l)[i]? = some msg) :
    WeakInvAt capacity items out calls { s with
      memory := s.memory.setView .consumer ((s.memory.views .consumer).join msg.view) } := by
  have hseen : (s.memory.views .consumer).seen .head ≤
      ((s.memory.setView .consumer ((s.memory.views .consumer).join msg.view)).views
        .consumer).seen .head :=
    View.seen_le (Memory.le_setView (View.le_join_left _ _) _) _
  exact { h with
    memory := h.memory.load hmsg
    consumer := consumerOk_mono h.consumer hseen
    draining := fun hdrain => ⟨(h.draining hdrain).1, (h.draining hdrain).2.trans hseen⟩ }

/-- The consumer finds the ring empty. If it drains, it has taken everything out. -/
theorem findNone (h : WeakInvAt capacity items out calls s)
    (hat : s.consumer = .loadedTail into tail)
    (hmsg : (s.memory.history .head)[(s.memory.views .consumer).seen .head]? = some msg)
    (hempty : tail = msg.value) :
    WeakInvAt capacity items out calls ({ s with consumer := .idle }.afterPoll none) := by
  have htail := h.consumer
  rw [hat] at htail
  have hle := h.memory.seenHead_le
  have hbound := h.memory.bounded
  have hsame : out.length % capacity = (s.memory.views .consumer).seen .head % capacity :=
    htail.symm.trans (hempty.trans (h.memory.heads _ _ hmsg))
  have hcaught : out.length = (s.memory.views .consumer).seen .head :=
    (CyclicBuffer.mod_eq_mod_iff h.memory.avail (by omega)).mp hsame
  have hbase : WeakInvAt capacity items out calls { s with consumer := .idle } :=
    { h with consumer := trivial, between := fun _ => rfl }
  rw [afterPoll]
  split
  · next hdrain =>
      have hall := h.draining hdrain
      have hout : out = items := h.memory.fifo.eq_of_length (by omega)
      exact { hbase with
        between := fun _ => rfl
        draining := fun hat => by cases hat
        returned := fun _ => ⟨hall.1, hout⟩ }
  · next =>
      exact { hbase with
        between := fun _ => rfl
        draining := fun hat => by cases hat
        returned := fun hat => by cases hat }

/-- The consumer finds an item. What it knows of the producer may be out of date, but the producer
can only have added more. -/
theorem findItem (h : WeakInvAt capacity items out calls s)
    (hat : s.consumer = .loadedTail into tail)
    (hmsg : (s.memory.history .head)[(s.memory.views .consumer).seen .head]? = some msg)
    (hne : tail ≠ msg.value) :
    WeakInvAt capacity items out calls { s with consumer := .copying into tail [] } := by
  have htail := h.consumer
  rw [hat] at htail
  have havail := h.memory.avail
  have hlt : out.length < (s.memory.views .consumer).seen .head := by
    refine Nat.lt_of_le_of_ne havail fun heq => hne ?_
    rw [htail, h.memory.heads _ _ hmsg, heq]
  exact { h with
    consumer := ⟨htail, hlt, fun k hk => by cases hk⟩
    between := fun hbetween => by
      rw [h.between hbetween] at hat
      cases hat }

/-- The consumer copies a word. No write of the producer to the slot is unknown to it. -/
theorem copyOut (h : WeakInvAt capacity items out calls s)
    (hat : s.consumer = .copying into tail done) (k : Fin words) :
    ∃ value m, s.memory.read .consumer (tail, k) = .ok (value, m) ∧
      WeakInvAt capacity items out calls { s with
        memory := m
        consumer := .copying (Function.update into k value) tail (k :: done) } := by
  have hconsumer := h.consumer
  rw [hat] at hconsumer
  obtain ⟨rfl, hlt, hdone⟩ := hconsumer
  refine ⟨buffer s.memory (out.length % capacity) k,
    s.memory.afterRead .consumer (out.length % capacity, k),
    if_pos (h.memory.ordered.read_known h.memory.wf hlt k), ?_⟩
  have hseen : (s.memory.views .consumer).seen .head ≤
      ((s.memory.afterRead .consumer (out.length % capacity, k)).views .consumer).seen .head :=
    View.seen_le (Memory.le_afterRead _) _
  refine { h with
    memory := h.memory.read (hlt.trans_le h.memory.seenHead_le) k
    producer := ?_
    consumer := ⟨rfl, hlt.trans_le hseen, fun j hj => ?_⟩
    between := fun hbetween => by
      rw [h.between hbetween] at hat
      cases hat
    draining := fun hdrain => ⟨(h.draining hdrain).1, (h.draining hdrain).2.trans hseen⟩ }
  · show ProducerOk capacity (buffer (s.memory.afterRead .consumer _)) _ _ s.producer
    rw [buffer_afterRead]
    exact h.producer
  · show _ = buffer (s.memory.afterRead .consumer _) _ j
    rw [buffer_afterRead]
    by_cases hjk : j = k
    · rw [hjk, Function.update_self]
    · rw [Function.update_of_ne hjk]
      exact hdone j ((List.mem_cons.mp hj).resolve_left hjk)

/-- The consumer stores its index, returns the item and counts it. -/
theorem storeTail (hcap : capacity.isPowerOfTwo) (h : WeakInvAt capacity items out calls s)
    (hat : s.consumer = .copying into tail done) (hall : ∀ k, k ∈ done) :
    WeakInvAt capacity items (out ++ [into]) calls ({ s with
      memory := s.memory.store .consumer .tail ((tail + 1) &&& SpscRingBuffer.mask capacity)
      consumer := .idle }.afterPoll (some into)) := by
  have hconsumer := h.consumer
  rw [hat] at hconsumer
  obtain ⟨rfl, hlt, hdone⟩ := hconsumer
  have hlen : (out ++ [into]).length = out.length + 1 := List.length_append
  have hnext : (out.length % capacity + 1) &&& SpscRingBuffer.mask capacity =
      (out.length + 1) % capacity := by
    rw [SpscRingBuffer.mask, CyclicBuffer.and_pred_eq_mod hcap, Nat.mod_add_mod]
  have hslot : buffer s.memory (out.length % capacity) = into :=
    funext fun k => (hdone k (hall k)).symm
  rw [hnext]
  refine ⟨h.memory.pop hlt hslot, h.producer, trivial, h.published, h.counted, ?_, h.flagged,
    h.quiet, fun _ => rfl, h.draining, fun hret => ?_⟩
  · rw [hlen, UInt64.ofNat_add, ← h.received]
    rfl
  · rw [h.between (Or.inr hret)] at hat
    cases hat

/-- The consumer has loaded the flag. If it is set, the consumer has seen all items. -/
theorem loadStop (h : WeakInvAt capacity items out calls s) (hnone : s.mdConsumer = .foundNone)
    {i : Nat} (hmsg : (s.memory.history .stop)[i]? = some msg)
    (hknown : msg.view ≤ s.memory.views .consumer) :
    WeakInvAt capacity items out calls { s with
      mdConsumer := if msg.value ≠ 0 then .draining else .polling } := by
  have hidle := h.between (Or.inl hnone)
  split
  · next hset =>
      obtain ⟨hstop, hhead⟩ := h.flagged i msg hmsg hset
      exact { h with
        between := fun _ => hidle
        draining := fun _ => ⟨hstop, hhead.trans (View.seen_le hknown _)⟩
        returned := fun hat => by cases hat }
  · exact { h with
      between := fun _ => hidle
      draining := fun hat => by cases hat
      returned := fun hat => by cases hat }

end Consumer

end WeakInvAt

/-! ## Runs -/

section Runs

variable {log returned : List (Returned Word words)} {s' : WeakListener Word words capacity}
  {a : WeakStep Word words}
  {outcome : Except DataRace (WeakListener Word words capacity × List (Returned Word words))}

/-- Every step is free of data races and keeps the invariant. -/
theorem step_ok (hcap : capacity.isPowerOfTwo) (hinv : WeakInv log s)
    (hstep : s.step a = some outcome) :
    ∃ s' returned, outcome = .ok (s', returned) ∧ WeakInv (log ++ returned) s' := by
  unfold WeakInv at hinv ⊢
  simp only [accepted_append, polled_append, completed_append]
  -- a step that is not possible here returns nothing; every other one has its lemma above
  cases a with
  | publish item i =>
      simp only [step] at hstep
      split at hstep
      · next hrun hidle =>
          obtain ⟨⟨head, m⟩, hload, hsome⟩ := Option.bind_eq_some_iff.mp hstep
          obtain ⟨hhead, rfl⟩ := hinv.memory.loadHead_own hload
          cases hsome
          exact ⟨_, _, rfl, by simpa [accepted, polled, completed] using hinv.publish hrun hhead⟩
      · cases hstep
  | loadTail i =>
      simp only [step] at hstep
      split at hstep
      · next item head hat =>
          obtain ⟨⟨tail, m⟩, hload, hsome⟩ := Option.bind_eq_some_iff.mp hstep
          obtain ⟨msg, hmsg, hle, rfl, rfl⟩ := Memory.load_eq_some hload
          have hnow := hinv.loadTail hmsg
          split at hsome
          · cases hsome
            exact ⟨_, _, rfl, by simpa [accepted, polled, completed] using hnow.drop⟩
          · next hroom =>
              cases hsome
              have hlast : (s.memory.history .tail)[((s.memory.setView .producer
                  ((s.memory.views .producer).join msg.view)).views .producer).seen .tail]? =
                    some msg := by
                rw [Memory.setView_views_self, hinv.memory.wf.seen_join hmsg hle]
                exact hmsg
              exact ⟨_, _, rfl, by
                simpa [accepted, polled, completed] using hnow.findRoom hcap hat hlast hroom⟩
      · cases hstep
  | copyIn k =>
      simp only [step] at hstep
      split at hstep
      · next item head next done hat =>
          obtain ⟨m, hwrite, hnow⟩ := hinv.copyIn hat k
          rw [hwrite] at hstep
          cases hstep
          exact ⟨_, _, rfl, by simpa [accepted, polled, completed] using hnow⟩
      · cases hstep
  | storeHead =>
      simp only [step] at hstep
      split at hstep
      · next item head next done hat =>
          split at hstep
          · next hall =>
              cases hstep
              exact ⟨_, _, rfl, by
                simpa [accepted, polled, completed] using hinv.storeHead hat hall⟩
          · cases hstep
      · cases hstep
  | stop =>
      simp only [step] at hstep
      split at hstep
      · next hrun hidle =>
          cases hstep
          exact ⟨_, _, rfl, by simpa [accepted, polled, completed] using hinv.stop hidle⟩
      · cases hstep
  | poll into i =>
      simp only [step] at hstep
      split at hstep
      · next hin =>
          split at hstep
          · next hidle =>
              obtain ⟨⟨tail, m⟩, hload, hsome⟩ := Option.bind_eq_some_iff.mp hstep
              obtain ⟨htail, rfl⟩ := hinv.memory.loadTail_own hload
              cases hsome
              exact ⟨_, _, rfl, by simpa [accepted, polled, completed] using hinv.poll hin htail⟩
          · cases hstep
      · cases hstep
  | loadHead i =>
      simp only [step] at hstep
      split at hstep
      · next into tail hat =>
          obtain ⟨⟨head, m⟩, hload, hsome⟩ := Option.bind_eq_some_iff.mp hstep
          obtain ⟨msg, hmsg, hle, rfl, rfl⟩ := Memory.load_eq_some hload
          have hnow := hinv.loadOther hmsg
          have hlast : (s.memory.history .head)[((s.memory.setView .consumer
              ((s.memory.views .consumer).join msg.view)).views .consumer).seen .head]? =
                some msg := by
            rw [Memory.setView_views_self, hinv.memory.wf.seen_join hmsg hle]
            exact hmsg
          split at hsome
          · next hempty =>
              cases hsome
              exact ⟨_, _, rfl, by
                simpa [accepted, polled, completed] using hnow.findNone hat hlast hempty⟩
          · next hne =>
              cases hsome
              exact ⟨_, _, rfl, by
                simpa [accepted, polled, completed] using hnow.findItem hat hlast hne⟩
      · cases hstep
  | copyOut k =>
      simp only [step] at hstep
      split at hstep
      · next into tail done hat =>
          obtain ⟨value, m, hread, hnow⟩ := hinv.copyOut hat k
          rw [hread] at hstep
          cases hstep
          exact ⟨_, _, rfl, by simpa [accepted, polled, completed] using hnow⟩
      · cases hstep
  | storeTail =>
      simp only [step] at hstep
      split at hstep
      · next into tail done hat =>
          split at hstep
          · next hall =>
              cases hstep
              exact ⟨_, _, rfl, by
                simpa [accepted, polled, completed] using hinv.storeTail hcap hat hall⟩
          · cases hstep
      · cases hstep
  | loadStop i =>
      simp only [step] at hstep
      split at hstep
      · next hnone =>
          obtain ⟨⟨value, m⟩, hload, hsome⟩ := Option.bind_eq_some_iff.mp hstep
          obtain ⟨msg, hmsg, hle, rfl, rfl⟩ := Memory.load_eq_some hload
          cases hsome
          have hknown : msg.view ≤ (s.memory.setView .consumer
              ((s.memory.views .consumer).join msg.view)).views .consumer := by
            rw [Memory.setView_views_self]
            exact View.le_join_right _ _
          exact ⟨_, _, rfl, by
            simpa [accepted, polled, completed] using
              (hinv.loadOther hmsg).loadStop hnone hmsg hknown⟩
      · cases hstep

/-- Every interleaving is free of data races and keeps the invariant. -/
theorem run_ok (hcap : capacity.isPowerOfTwo) {steps : List (WeakStep Word words)}
    (hinv : WeakInv log s) (hrun : s.run steps = some outcome) :
    ∃ s' returned, outcome = .ok (s', returned) ∧ WeakInv (log ++ returned) s' := by
  induction steps generalizing s log outcome with
  | nil =>
      cases hrun
      exact ⟨s, [], rfl, by rwa [List.append_nil]⟩
  | cons a steps ih =>
      rw [run] at hrun
      cases hstep : s.step a with
      | none => simp [hstep] at hrun
      | some first =>
          obtain ⟨s₁, returned₁, rfl, hinv₁⟩ := step_ok hcap hinv hstep
          simp only [hstep] at hrun
          obtain ⟨rest, hrest, rfl⟩ := Option.map_eq_some_iff.mp hrun
          obtain ⟨s₂, returned₂, rfl, hinv₂⟩ := ih hinv₁ hrest
          exact ⟨s₂, returned₁ ++ returned₂, rfl, by rwa [← List.append_assoc]⟩

end Runs

/-- However the steps of the two threads interleave and whichever stores their loads read, no access
is a data race, and what has been polled is the beginning of what has been accepted. -/
theorem weak_run_delivers (hcap : capacity.isPowerOfTwo) (contents : Nat → Item Word words)
    (steps : List (WeakStep Word words))
    (outcome : Except DataRace (WeakListener Word words capacity × List (Returned Word words)))
    (hrun : run (fresh contents) steps = some outcome) :
    ∃ s log, outcome = .ok (s, log) ∧ polled log <+: accepted log ∧
      (accepted log).length ≤ (polled log).length + MdPublisher.usableSlots capacity ∧
      s.published = UInt64.ofNat (accepted log).length ∧
      s.published + s.dropped = UInt64.ofNat (completed log) ∧
      s.mdReceived = UInt64.ofNat (polled log).length := by
  have hpos := Nat.pos_of_isPowerOfTwo hcap
  obtain ⟨s, log, rfl, hinv⟩ := run_ok hcap (fresh_weakInv hpos contents) hrun
  rw [List.nil_append] at hinv
  have hbound := hinv.memory.bounded
  refine ⟨s, log, rfl, hinv.memory.fifo, ?_, hinv.published, hinv.counted, hinv.received⟩
  rw [MdPublisher.usableSlots]
  omega

/-- An item is published; the consumer first reads the old `head_` and finds nothing, then reads the
new one. -/
theorem weak_run_delivers_stale_load :
    ∃ (s : WeakListener Nat 1 2) (log : List (Returned Nat 1)),
      run (fresh fun _ _ => 0) [.publish (fun _ => 7) 0, .loadTail 0, .copyIn 0, .storeHead,
        .poll (fun _ => 0) 0, .loadHead 0, .loadStop 0, .poll (fun _ => 0) 0, .loadHead 1,
        .copyOut 0, .storeTail] = some (.ok (s, log)) ∧
      (accepted log).map List.ofFn = [[7]] ∧ (polled log).map List.ofFn = [[7]] ∧
      log.length = 3 ∧ polled log <+: accepted log := by
  have hlog : (run (fresh fun _ _ => 0 : WeakListener Nat 1 2) [.publish (fun _ => 7) 0,
      .loadTail 0, .copyIn 0, .storeHead, .poll (fun _ => 0) 0, .loadHead 0, .loadStop 0,
      .poll (fun _ => 0) 0, .loadHead 1, .copyOut 0, .storeTail]).map (fun outcome =>
        outcome.map fun r =>
          ((accepted r.2).map List.ofFn, (polled r.2).map List.ofFn, r.2.length)) =
      some (.ok ([[7]], [[7]], 3)) := by rfl
  obtain ⟨outcome, hrun, hitems⟩ := Option.map_eq_some_iff.mp hlog
  obtain ⟨s, log, rfl, hfifo, -⟩ := weak_run_delivers ⟨1, rfl⟩ _ _ outcome hrun
  simp only [Except.map, Except.ok.injEq, Prod.mk.injEq] at hitems
  exact ⟨s, log, hrun, hitems.1, hitems.2.1, hitems.2.2, hfifo⟩

/-- A consumer that has returned has polled every snapshot that was accepted, although every load of
`head_` and of `md_stop` may have been out of date. -/
theorem weak_run_loses_nothing (hcap : capacity.isPowerOfTwo) (contents : Nat → Item Word words)
    (steps : List (WeakStep Word words)) (s : WeakListener Word words capacity)
    (log : List (Returned Word words))
    (hrun : run (fresh contents) steps = some (.ok (s, log))) (hret : s.mdConsumer = .returned) :
    polled log = accepted log ∧ s.mdReceived = s.published ∧ s.stopped = true := by
  have hpos := Nat.pos_of_isPowerOfTwo hcap
  obtain ⟨s', log', hsame, hinv⟩ := run_ok hcap (fresh_weakInv hpos contents) hrun
  obtain ⟨rfl, rfl⟩ := Prod.mk.inj (Except.ok.inj hsame)
  rw [List.nil_append] at hinv
  obtain ⟨hstop, hall⟩ := hinv.returned hret
  exact ⟨hall, by rw [hinv.received, hinv.published, hall], hstop⟩

/-- The consumer misses the item at first, then sees the flag, and finds the item while it
drains. -/
theorem weak_run_loses_nothing_stale_head :
    ∃ (s : WeakListener Nat 1 2) (log : List (Returned Nat 1)),
      run (fresh fun _ _ => 0) [.publish (fun _ => 7) 0, .loadTail 0, .copyIn 0, .storeHead, .stop,
        .poll (fun _ => 0) 0, .loadHead 0, .loadStop 1, .poll (fun _ => 0) 0, .loadHead 1,
        .copyOut 0, .storeTail, .poll (fun _ => 0) 1, .loadHead 1] = some (.ok (s, log)) ∧
      s.mdConsumer = .returned ∧ (polled log).map List.ofFn = [[7]] ∧
      polled log = accepted log := by
  have hlog : (run (fresh fun _ _ => 0 : WeakListener Nat 1 2) [.publish (fun _ => 7) 0,
      .loadTail 0, .copyIn 0, .storeHead, .stop, .poll (fun _ => 0) 0, .loadHead 0, .loadStop 1,
      .poll (fun _ => 0) 0, .loadHead 1, .copyOut 0, .storeTail, .poll (fun _ => 0) 1,
      .loadHead 1]).map (fun outcome =>
        outcome.map fun r => ((polled r.2).map List.ofFn, r.1.mdConsumer)) =
      some (.ok ([[7]], .returned)) := by rfl
  obtain ⟨outcome, hrun, hitems⟩ := Option.map_eq_some_iff.mp hlog
  cases outcome with
  | error race => cases hitems
  | ok r =>
      obtain ⟨s, log⟩ := r
      simp only [Except.map, Except.ok.injEq, Prod.mk.injEq] at hitems
      have hall := weak_run_loses_nothing ⟨1, rfl⟩ _ _ s log hrun hitems.2
      exact ⟨s, log, hrun, hitems.2, hitems.1, hall.1⟩

end WeakListener

end LimitOrderBook
