import LimitOrderBook.Library.CyclicBuffer
import LimitOrderBook.Publisher.Model
import Mathlib.Data.Fin.VecNotation

/-!
# The publish ring delivers

`Inv` relates the shared object and the two threads to the calls that have returned: the indices
are the numbers of items accepted and polled, reduced to slots, and each thread relies on a copy of
the other's index that is out of date only in the direction that does no harm. Every step keeps it
(`step_inv`), and `run_delivers` reads off what it means for the calls.
-/

namespace LimitOrderBook

open CyclicBuffer (Holds slotsFrom)

/-! ## Calls -/

section Calls

variable {Word : Type} {words : Nat}

/-- The items whose `publish` returned true. -/
def accepted (log : List (Returned Word words)) : List (Item Word words) :=
  log.filterMap fun
    | .publish item true => some item
    | _ => none

/-- The items that successful calls of `poll` returned. -/
def polled (log : List (Returned Word words)) : List (Item Word words) :=
  log.filterMap fun
    | .poll item => item
    | _ => none

/-- The number of completed calls of `publish`. -/
def completed (log : List (Returned Word words)) : Nat :=
  log.countP fun
    | .publish _ _ => true
    | _ => false

variable {log log' : List (Returned Word words)}

@[simp] theorem accepted_append : accepted (log ++ log') = accepted log ++ accepted log' :=
  List.filterMap_append

@[simp] theorem polled_append : polled (log ++ log') = polled log ++ polled log' :=
  List.filterMap_append

@[simp] theorem completed_append : completed (log ++ log') = completed log + completed log' :=
  List.countP_append

end Calls

namespace PublishSystem

variable {Word : Type} {words capacity : Nat}

/-! ## Views -/

/-- The number of unread items, as the indices tell it. -/
def unread (s : PublishSystem Word words capacity) : Nat :=
  (s.pub.ring.head + capacity - s.pub.ring.tail) % capacity

/-- The slots of the unread items. -/
def unreadSlots (s : PublishSystem Word words capacity) : List Nat :=
  slotsFrom capacity s.pub.ring.tail s.unread

/-- The producer is copying into the slot. -/
def Writes (s : PublishSystem Word words capacity) (slot : Nat) : Prop :=
  ∃ item next done, s.producer = .copying item slot next done

/-- The consumer is copying out of the slot. -/
def Reads (s : PublishSystem Word words capacity) (slot : Nat) : Prop :=
  ∃ out done, s.consumer = .copying out slot done

/-- What the calls and the threads can rely on. -/
structure Delivers (log : List (Returned Word words)) (s : PublishSystem Word words capacity) :
    Prop where
  /-- What has been polled is the beginning of what has been accepted. -/
  fifo : polled log <+: accepted log
  /-- The rest is in the unread slots, whole. -/
  waiting : accepted log = polled log ++ s.unreadSlots.map s.pub.ring.buffer
  /-- The producer writes neither a slot that the consumer is copying nor one with an unread
  item. -/
  untorn : ∀ slot, s.Writes slot → ¬ s.Reads slot ∧ slot ∉ s.unreadSlots
  /-- One slot is kept empty. -/
  bounded : s.unread ≤ MdPublisher.usableSlots capacity
  /-- Every completed call is counted. -/
  counted : s.pub.published + s.pub.dropped = UInt64.ofNat (completed log)
  /-- If no call is under way, what has been published and not polled is unread. -/
  balanced : s.producer = .idle → s.consumer = .idle →
    s.pub.published - UInt64.ofNat (polled log).length = UInt64.ofNat s.unread

/-! ## The invariant -/

/-- Where the producer can be when `w` items have been accepted and `r` polled. -/
def ProducerOk (capacity : Nat) (buffer : Nat → Item Word words) (w r : Nat) :
    Producer Word words → Prop
  | .idle => True
  | .loadedHead _ head => head = w % capacity
  | .copying item head next done =>
      head = w % capacity ∧ next = (w + 1) % capacity ∧ w + 1 < r + capacity ∧
        ∀ k ∈ done, buffer head k = item k

/-- Where the consumer can be when `w` items have been accepted and `r` polled. -/
def ConsumerOk (capacity : Nat) (buffer : Nat → Item Word words) (w r : Nat) :
    Consumer Word words → Prop
  | .idle => True
  | .loadedTail _ tail => tail = r % capacity
  | .copying out tail done => tail = r % capacity ∧ r < w ∧ ∀ k ∈ done, out k = buffer tail k

/-- The invariant when the items `items` have been accepted, the items `out` polled, and `calls`
calls of `publish` completed. -/
structure InvAt (items out : List (Item Word words)) (calls : Nat)
    (s : PublishSystem Word words capacity) : Prop where
  fifo : out <+: items
  room : items.length < out.length + capacity
  head : s.pub.ring.head = items.length % capacity
  tail : s.pub.ring.tail = out.length % capacity
  holds : Holds capacity s.pub.ring.buffer items out.length
  producer : ProducerOk capacity s.pub.ring.buffer items.length out.length s.producer
  consumer : ConsumerOk capacity s.pub.ring.buffer items.length out.length s.consumer
  published : s.pub.published = UInt64.ofNat items.length
  counted : s.pub.published + s.pub.dropped = UInt64.ofNat calls

/-- The invariant. -/
def Inv (log : List (Returned Word words)) (s : PublishSystem Word words capacity) : Prop :=
  InvAt (accepted log) (polled log) (completed log) s

/-- The fresh object. -/
theorem fresh_inv (hcap : capacity.isPowerOfTwo) (buffer : Nat → Item Word words) :
    Inv [] (fresh buffer : PublishSystem Word words capacity) where
  fifo := List.nil_prefix
  room := by
    have hpos := Nat.pos_of_isPowerOfTwo hcap
    simpa [accepted, polled] using hpos
  head := (Nat.zero_mod capacity).symm
  tail := (Nat.zero_mod capacity).symm
  holds := fun i x _ hx => by cases hx
  producer := trivial
  consumer := trivial
  published := rfl
  counted := rfl

variable {items out : List (Item Word words)} {calls : Nat}
  {s : PublishSystem Word words capacity}

/-- The unread items are those that have been accepted and not polled. -/
theorem InvAt.unread_eq (hinv : InvAt items out calls s) :
    s.unread = items.length - out.length := by
  rw [unread, hinv.head, hinv.tail]
  exact CyclicBuffer.distance hinv.fifo.length_le hinv.room

/-- What the invariant means for the calls. -/
theorem Inv.delivers {log : List (Returned Word words)} (hinv : Inv log s) : Delivers log s := by
  have hle := hinv.fifo.length_le
  have hroom := hinv.room
  have hslots : s.unreadSlots = slotsFrom capacity ((polled log).length % capacity)
      ((accepted log).length - (polled log).length) := by
    rw [unreadSlots, hinv.unread_eq, hinv.tail]
  refine ⟨hinv.fifo, ?_, ?_, ?_, hinv.counted, fun _ _ => ?_⟩
  · rw [hslots, hinv.holds.contents]
    obtain ⟨rest, hrest⟩ := hinv.fifo
    rw [← hrest, List.drop_left]
  · rintro slot ⟨item, next, done, hwrites⟩
    have hproducer := hinv.producer
    rw [hwrites] at hproducer
    obtain ⟨rfl, -, -, -⟩ := hproducer
    refine ⟨?_, ?_⟩
    · rintro ⟨out, done, hreads⟩
      have hconsumer := hinv.consumer
      rw [hreads] at hconsumer
      exact CyclicBuffer.mod_ne_mod hconsumer.2.1 hroom hconsumer.1.symm
    · rw [hslots]
      exact CyclicBuffer.next_notMem_slotsFrom hroom
  · rw [hinv.unread_eq, MdPublisher.usableSlots]
    omega
  · rw [hinv.published, hinv.unread_eq]
    have hsum : UInt64.ofNat (accepted log).length =
        UInt64.ofNat ((accepted log).length - (polled log).length) +
          UInt64.ofNat (polled log).length := by
      rw [← UInt64.ofNat_add, Nat.sub_add_cancel hle]
    rw [hsum, UInt64.add_sub_cancel]

/-! ## What a step of one thread does to the other -/

section Frames

variable {buffer : Nat → Item Word words} {w r : Nat}

/-- The consumer does not see a word in the slot of the next item. -/
theorem ConsumerOk.write {c : Consumer Word words} (h : ConsumerOk capacity buffer w r c)
    (hroom : w < r + capacity) (k : Fin words) (value : Word) :
    ConsumerOk capacity (writeWord buffer (w % capacity) k value) w r c := by
  cases c with
  | idle => exact trivial
  | loadedTail out tail => exact h
  | copying out tail done =>
      obtain ⟨rfl, hlt, hdone⟩ := h
      refine ⟨rfl, hlt, fun j hj => ?_⟩
      rw [writeWord, Function.update_of_ne (CyclicBuffer.mod_ne_mod hlt hroom)]
      exact hdone j hj

/-- The consumer is not disturbed by a further item. -/
theorem ConsumerOk.push {c : Consumer Word words} (h : ConsumerOk capacity buffer w r c) :
    ConsumerOk capacity buffer (w + 1) r c := by
  cases c with
  | idle => exact trivial
  | loadedTail out tail => exact h
  | copying out tail done => exact ⟨h.1, Nat.lt_succ_of_lt h.2.1, h.2.2⟩

/-- The producer is not disturbed by an item less. -/
theorem ProducerOk.pop {p : Producer Word words} (h : ProducerOk capacity buffer w r p) :
    ProducerOk capacity buffer w (r + 1) p := by
  cases p with
  | idle => exact trivial
  | loadedHead item head => exact h
  | copying item head next done =>
      obtain ⟨hhead, hnext, hroom, hdone⟩ := h
      exact ⟨hhead, hnext, by omega, hdone⟩

end Frames

/-! ## Steps of the producer -/

section Producer

variable {item : Item Word words} {head next : Nat} {done : List (Fin words)}

/-- The producer loads its own index. -/
theorem InvAt.publish (hinv : InvAt items out calls s) (item : Item Word words) :
    InvAt items out calls { s with producer := .loadedHead item s.pub.ring.head } :=
  { hinv with producer := hinv.head }

/-- The producer finds the ring full, counts and returns. -/
theorem InvAt.drop (hinv : InvAt items out calls s) :
    InvAt items out (calls + 1) { s with pub := s.pub.countDropped, producer := .idle } where
  fifo := hinv.fifo
  room := hinv.room
  head := hinv.head
  tail := hinv.tail
  holds := hinv.holds
  producer := trivial
  consumer := hinv.consumer
  published := hinv.published
  counted := by
    show s.pub.published + (s.pub.dropped + 1) = _
    rw [← UInt64.add_assoc, hinv.counted, UInt64.ofNat_add]
    rfl

/-- The producer finds room. The consumer can only make more. -/
theorem InvAt.findRoom (hcap : capacity.isPowerOfTwo) (hinv : InvAt items out calls s)
    (hat : s.producer = .loadedHead item head)
    (hroom : (head + 1) &&& SpscRingBuffer.mask capacity ≠ s.pub.ring.tail) :
    InvAt items out calls { s with
      producer := .copying item head ((head + 1) &&& SpscRingBuffer.mask capacity) [] } := by
  have hproducer := hinv.producer
  rw [hat] at hproducer
  have hhead : head = items.length % capacity := hproducer
  have hnext : (head + 1) &&& SpscRingBuffer.mask capacity = (items.length + 1) % capacity := by
    rw [hhead, SpscRingBuffer.mask, CyclicBuffer.and_pred_eq_mod hcap, Nat.mod_add_mod]
  rw [hnext, hinv.tail, Ne, CyclicBuffer.full_iff hinv.fifo.length_le hinv.room] at hroom
  have hlt := hinv.room
  exact { hinv with
    producer := ⟨hhead, hnext, by omega, fun k hk => by cases hk⟩ }

/-- The producer copies a word. -/
theorem InvAt.copyIn (hinv : InvAt items out calls s)
    (hat : s.producer = .copying item head next done) (k : Fin words) :
    InvAt items out calls
      { s.setBuffer (writeWord s.pub.ring.buffer head k (item k)) with
        producer := .copying item head next (k :: done) } := by
  have hproducer := hinv.producer
  rw [hat] at hproducer
  obtain ⟨rfl, hnext, hroom, hdone⟩ := hproducer
  refine { hinv with
    holds := hinv.holds.write hinv.room _
    producer := ⟨rfl, hnext, hroom, fun j hj => ?_⟩
    consumer := hinv.consumer.write hinv.room k (item k) }
  show writeWord s.pub.ring.buffer _ k (item k) _ j = item j
  rw [writeWord, Function.update_self]
  by_cases hjk : j = k
  · rw [hjk, Function.update_self]
  · rw [Function.update_of_ne hjk]
    exact hdone j ((List.mem_cons.mp hj).resolve_left hjk)

/-- The producer stores its index, counts and returns. -/
theorem InvAt.storeHead (hinv : InvAt items out calls s)
    (hat : s.producer = .copying item head next done) (hall : ∀ k, k ∈ done) :
    InvAt (items ++ [item]) out (calls + 1)
      { s.setHead next with pub := (s.setHead next).pub.countPublished, producer := .idle } := by
  have hproducer := hinv.producer
  rw [hat] at hproducer
  obtain ⟨rfl, hnext, hroom, hdone⟩ := hproducer
  have hlen : (items ++ [item]).length = items.length + 1 := List.length_append
  have hslot : s.pub.ring.buffer (items.length % capacity) = item :=
    funext fun k => hdone k (hall k)
  refine ⟨hinv.fifo.trans (List.prefix_append _ _), ?_, ?_, hinv.tail, hinv.holds.push hslot,
    trivial, ?_, ?_, ?_⟩
  · rw [hlen]
    exact hroom
  · rw [hlen]
    exact hnext
  · rw [hlen]
    exact hinv.consumer.push
  · rw [hlen, UInt64.ofNat_add, ← hinv.published]
    rfl
  · show s.pub.published + 1 + s.pub.dropped = _
    rw [UInt64.add_assoc, UInt64.add_comm 1, ← UInt64.add_assoc, hinv.counted, UInt64.ofNat_add]
    rfl

end Producer

/-! ## Steps of the consumer -/

section Consumer

variable {into : Item Word words} {tail : Nat} {done : List (Fin words)}

/-- The consumer loads its own index. -/
theorem InvAt.poll (hinv : InvAt items out calls s) (into : Item Word words) :
    InvAt items out calls { s with consumer := .loadedTail into s.pub.ring.tail } :=
  { hinv with consumer := hinv.tail }

/-- The consumer finds the ring empty and returns. -/
theorem InvAt.findNone (hinv : InvAt items out calls s) :
    InvAt items out calls { s with consumer := .idle } :=
  { hinv with consumer := trivial }

/-- The consumer finds an item. The producer can only add more. -/
theorem InvAt.findItem (hinv : InvAt items out calls s)
    (hat : s.consumer = .loadedTail into tail) (hne : tail ≠ s.pub.ring.head) :
    InvAt items out calls { s with consumer := .copying into tail [] } := by
  have hconsumer := hinv.consumer
  rw [hat] at hconsumer
  have htail : tail = out.length % capacity := hconsumer
  have hle := hinv.fifo.length_le
  rw [htail, hinv.head, Ne, CyclicBuffer.mod_eq_mod_iff hle hinv.room] at hne
  exact { hinv with consumer := ⟨htail, by omega, fun k hk => by cases hk⟩ }

/-- The consumer copies a word. -/
theorem InvAt.copyOut (hinv : InvAt items out calls s)
    (hat : s.consumer = .copying into tail done) (k : Fin words) :
    InvAt items out calls { s with
      consumer := .copying (Function.update into k (s.pub.ring.buffer tail k)) tail
        (k :: done) } := by
  have hconsumer := hinv.consumer
  rw [hat] at hconsumer
  obtain ⟨htail, hlt, hdone⟩ := hconsumer
  refine { hinv with consumer := ⟨htail, hlt, fun j hj => ?_⟩ }
  by_cases hjk : j = k
  · rw [hjk, Function.update_self]
  · rw [Function.update_of_ne hjk]
    exact hdone j ((List.mem_cons.mp hj).resolve_left hjk)

/-- The consumer stores its index and returns the item. -/
theorem InvAt.storeTail (hcap : capacity.isPowerOfTwo) (hinv : InvAt items out calls s)
    (hat : s.consumer = .copying into tail done) (hall : ∀ k, k ∈ done) :
    InvAt items (out ++ [into]) calls
      { s.setTail ((tail + 1) &&& SpscRingBuffer.mask capacity) with consumer := .idle } := by
  have hconsumer := hinv.consumer
  rw [hat] at hconsumer
  obtain ⟨rfl, hlt, hdone⟩ := hconsumer
  have hlen : (out ++ [into]).length = out.length + 1 := List.length_append
  obtain ⟨rest, hrest⟩ := hinv.fifo
  -- the item in the slot is the next one of those accepted
  have hinto : s.pub.ring.buffer (out.length % capacity) = into :=
    funext fun k => (hdone k (hall k)).symm
  cases rest with
  | nil =>
      rw [← hrest, List.append_nil] at hlt
      exact absurd hlt (lt_irrefl _)
  | cons x rest =>
      have hx : items[out.length]? = some x := by
        rw [← hrest, List.getElem?_append_right le_rfl, Nat.sub_self]
        rfl
      have hfirst : x = into := (hinv.holds out.length x le_rfl hx).symm.trans hinto
      refine ⟨⟨rest, ?_⟩, ?_, hinv.head, ?_, ?_, ?_, trivial, hinv.published, hinv.counted⟩
      · rw [← hrest, hfirst, List.append_assoc]
        rfl
      · have hroom := hinv.room
        rw [hlen]
        omega
      · show (out.length % capacity + 1) &&& SpscRingBuffer.mask capacity = _
        rw [SpscRingBuffer.mask, CyclicBuffer.and_pred_eq_mod hcap, Nat.mod_add_mod, hlen]
      · rw [hlen]
        exact hinv.holds.pop
      · rw [hlen]
        exact hinv.producer.pop

end Consumer

/-! ## Runs -/

section Runs

variable {log : List (Returned Word words)} {s' : PublishSystem Word words capacity}
  {returned : List (Returned Word words)}

/-- Every step keeps the invariant. -/
theorem step_inv (hcap : capacity.isPowerOfTwo) (hinv : Inv log s) {a : ThreadStep Word words}
    (hstep : s.step a = some (s', returned)) : Inv (log ++ returned) s' := by
  unfold Inv at hinv ⊢
  rw [accepted_append, polled_append, completed_append]
  -- a step that is not possible here returns nothing; every other one has its lemma above
  cases a with
  | publish item =>
      simp only [step] at hstep
      split at hstep
      · cases hstep
        simpa [accepted, polled, completed] using hinv.publish item
      · cases hstep
  | loadTail =>
      simp only [step] at hstep
      split at hstep
      · next item head hat =>
          split at hstep
          · cases hstep
            simpa [accepted, polled, completed] using hinv.drop
          · next hroom =>
              cases hstep
              simpa [accepted, polled, completed] using hinv.findRoom hcap hat hroom
      · cases hstep
  | copyIn k =>
      simp only [step] at hstep
      split at hstep
      · next item head next done hat =>
          cases hstep
          simpa [accepted, polled, completed] using hinv.copyIn hat k
      · cases hstep
  | storeHead =>
      simp only [step] at hstep
      split at hstep
      · next item head next done hat =>
          split at hstep
          · next hall =>
              cases hstep
              simpa [accepted, polled, completed] using hinv.storeHead hat hall
          · cases hstep
      · cases hstep
  | poll into =>
      simp only [step] at hstep
      split at hstep
      · cases hstep
        simpa [accepted, polled, completed] using hinv.poll into
      · cases hstep
  | loadHead =>
      simp only [step] at hstep
      split at hstep
      · next into tail hat =>
          split at hstep
          · cases hstep
            simpa [accepted, polled, completed] using hinv.findNone
          · next hne =>
              cases hstep
              simpa [accepted, polled, completed] using hinv.findItem hat hne
      · cases hstep
  | copyOut k =>
      simp only [step] at hstep
      split at hstep
      · next into tail done hat =>
          cases hstep
          simpa [accepted, polled, completed] using hinv.copyOut hat k
      · cases hstep
  | storeTail =>
      simp only [step] at hstep
      split at hstep
      · next into tail done hat =>
          split at hstep
          · next hall =>
              cases hstep
              simpa [accepted, polled, completed] using hinv.storeTail hcap hat hall
          · cases hstep
      · cases hstep

/-- Every interleaving keeps the invariant. -/
theorem run_inv (hcap : capacity.isPowerOfTwo) (hinv : Inv log s)
    {steps : List (ThreadStep Word words)} (hrun : s.run steps = some (s', returned)) :
    Inv (log ++ returned) s' := by
  induction steps generalizing s log returned with
  | nil =>
      cases hrun
      rw [List.append_nil]
      exact hinv
  | cons a steps ih =>
      obtain ⟨⟨s₁, returned₁⟩, hstep, hrest⟩ := Option.bind_eq_some_iff.mp hrun
      obtain ⟨⟨s₂, returned₂⟩, hrun₂, hlast⟩ := Option.bind_eq_some_iff.mp hrest
      cases hlast
      rw [← List.append_assoc]
      exact ih (step_inv hcap hinv hstep) hrun₂

end Runs

/-- In every interleaving of the steps of the two threads, the ring delivers. -/
theorem run_delivers (hcap : capacity.isPowerOfTwo) (buffer : Nat → Item Word words)
    (steps : List (ThreadStep Word words)) (s : PublishSystem Word words capacity)
    (log : List (Returned Word words)) (hrun : run (fresh buffer) steps = some (s, log)) :
    Delivers log s := by
  have hinv := run_inv hcap (fresh_inv hcap buffer) hrun
  rw [List.nil_append] at hinv
  exact hinv.delivers

/-- An item of two words is polled while the next one is published: the words are copied in turns,
and in either order. -/
theorem run_delivers_two_items :
    ∃ (s : PublishSystem Nat 2 4) (log : List (Returned Nat 2)),
      run (fresh fun _ _ => 0) [.publish ![1, 2], .loadTail, .copyIn 1, .copyIn 0, .storeHead,
        .publish ![3, 4], .poll ![0, 0], .loadTail, .loadHead, .copyIn 0, .copyOut 1, .copyIn 1,
        .copyOut 0, .storeHead, .storeTail] = some (s, log) ∧
      (accepted log).map List.ofFn = [[1, 2], [3, 4]] ∧ (polled log).map List.ofFn = [[1, 2]] ∧
      Delivers log s := by
  have hlog : (run (fresh fun _ _ => 0 : PublishSystem Nat 2 4) [.publish ![1, 2], .loadTail,
      .copyIn 1, .copyIn 0, .storeHead, .publish ![3, 4], .poll ![0, 0], .loadTail, .loadHead,
      .copyIn 0, .copyOut 1, .copyIn 1, .copyOut 0, .storeHead, .storeTail]).map
        (fun r => ((accepted r.2).map List.ofFn, (polled r.2).map List.ofFn)) =
      some ([[1, 2], [3, 4]], [[1, 2]]) := by decide +kernel
  obtain ⟨⟨s, log⟩, hrun, hitems⟩ := Option.map_eq_some_iff.mp hlog
  have hitems := Prod.mk.inj hitems
  exact ⟨s, log, hrun, hitems.1, hitems.2, run_delivers ⟨2, rfl⟩ _ _ s log hrun⟩

end PublishSystem

end LimitOrderBook
