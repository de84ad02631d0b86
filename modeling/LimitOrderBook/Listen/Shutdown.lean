import LimitOrderBook.Listen.Model
import LimitOrderBook.Publisher.Correctness
import LimitOrderBook.Signals.Accumulation

/-!
# No snapshot is lost at shutdown

`ListenInv` follows both threads: the snapshots that were accepted are those of longer and longer
prefixes of the messages, the consumer has counted and kept what it has polled, and it is in its
second loop only after `md_stop` was set, when nothing more is published. The consumer that finds
the ring empty there has therefore polled everything (`polled_eq_accepted`).
-/

namespace LimitOrderBook

open PublishSystem (Inv step_inv)

/-! ## What the ring does for one thread -/

section Ring

variable {capacity : Nat} {r r' : PublishSystem Int 8 capacity} {returned : List (Returned Int 8)}
  {log : List (Returned Int 8)} {sig : BookSignals}

/-- The producer publishes this snapshot, if any. -/
def Publishes (sig : BookSignals) : Producer Int 8 → Prop
  | .idle => True
  | .loadedHead item _ => item = sig.words
  | .copying item _ _ _ => item = sig.words

/-- A step of `publish` leaves the consumer alone; when it returns, the call is over. -/
theorem publish_step {a : PublishStep} (hsig : Publishes sig r.producer)
    (hstep : r.step (a.on sig) = some (r', returned)) :
    r'.consumer = r.consumer ∧ Publishes sig r'.producer ∧
      (returned = [] ∨ ∃ ok, returned = [.publish sig.words ok] ∧ r'.producer = .idle) := by
  -- the item of every step is `sig.words`, by `hsig`
  cases a with
  | call =>
      simp only [PublishStep.on, PublishSystem.step] at hstep
      split at hstep
      · cases hstep
        exact ⟨rfl, rfl, Or.inl rfl⟩
      · cases hstep
  | loadTail =>
      simp only [PublishStep.on, PublishSystem.step] at hstep
      split at hstep
      · next item head hat =>
          rw [hat] at hsig
          obtain rfl : item = sig.words := hsig
          split at hstep
          · cases hstep
            exact ⟨rfl, trivial, Or.inr ⟨false, rfl, rfl⟩⟩
          · cases hstep
            exact ⟨rfl, rfl, Or.inl rfl⟩
      · cases hstep
  | copyIn k =>
      simp only [PublishStep.on, PublishSystem.step] at hstep
      split at hstep
      · next item head next done hat =>
          rw [hat] at hsig
          cases hstep
          exact ⟨rfl, hsig, Or.inl rfl⟩
      · cases hstep
  | storeHead =>
      simp only [PublishStep.on, PublishSystem.step] at hstep
      split at hstep
      · next item head next done hat =>
          rw [hat] at hsig
          obtain rfl : item = sig.words := hsig
          split at hstep
          · cases hstep
            exact ⟨rfl, trivial, Or.inr ⟨true, rfl, rfl⟩⟩
          · cases hstep
      · cases hstep

/-- A step of `poll` leaves the producer alone; when it returns, the call is over, and it finds
nothing only if the indices are equal. -/
theorem poll_step {a : PollStep} {s : BookSignals}
    (hstep : r.step (a.on s) = some (r', returned)) :
    r'.producer = r.producer ∧
      (returned = [] ∨ (∃ item, returned = [.poll (some item)] ∧ r'.consumer = .idle) ∨
        (returned = [.poll none] ∧ r'.consumer = .idle ∧
          ∃ out, r.consumer = .loadedTail out r.pub.ring.head)) := by
  cases a with
  | call =>
      simp only [PollStep.on, PublishSystem.step] at hstep
      split at hstep
      · cases hstep
        exact ⟨rfl, Or.inl rfl⟩
      · cases hstep
  | loadHead =>
      simp only [PollStep.on, PublishSystem.step] at hstep
      split at hstep
      · next out tail hat =>
          split at hstep
          · -- only here `poll` returns nothing: the head that it loads is the tail that it has
            next hempty =>
              cases hstep
              exact ⟨rfl, Or.inr (Or.inr ⟨rfl, rfl, out, hempty ▸ hat⟩)⟩
          · cases hstep
            exact ⟨rfl, Or.inl rfl⟩
      · cases hstep
  | copyOut k =>
      simp only [PollStep.on, PublishSystem.step] at hstep
      split at hstep
      · cases hstep
        exact ⟨rfl, Or.inl rfl⟩
      · cases hstep
  | storeTail =>
      simp only [PollStep.on, PublishSystem.step] at hstep
      split at hstep
      · next out tail done hat =>
          split at hstep
          · cases hstep
            exact ⟨rfl, Or.inr (Or.inl ⟨out, rfl, rfl⟩)⟩
          · cases hstep
      · cases hstep

/-- When the consumer finds the indices equal, everything that was accepted has been polled. -/
theorem polled_eq_accepted (hinv : Inv log r) {out : Item Int 8}
    (hat : r.consumer = .loadedTail out r.pub.ring.head) : polled log = accepted log := by
  have htail := hinv.consumer
  rw [hat] at htail
  have hsame : (accepted log).length % capacity = (polled log).length % capacity :=
    hinv.head.symm.trans htail
  have hle := hinv.fifo.length_le
  have hlen := (CyclicBuffer.mod_eq_mod_iff hle hinv.room).mp hsame.symm
  exact hinv.fifo.eq_of_length hlen

end Ring

/-! ## Messages and snapshots -/

section Snapshots

variable {poolCapacity windowSize : Nat}

/-- The signals of the book after the messages. -/
def snapshotAfter (poolCapacity windowSize : Nat) (msgs : List FeedMessage) :
    Result BookSignals := do
  let b ← ({} : OrderBook poolCapacity windowSize).applyMessages msgs
  computeSignals b.topLevels {}

/-- The answer of the last completed call of `publish`. -/
def lastPublish (log : List (Returned Int 8)) : Option Bool :=
  (log.filterMap fun
    | .publish _ ok => some ok
    | _ => none).getLast?

/-- The items are snapshots of longer and longer prefixes of the messages, of at most `bound`
messages. -/
def SnapshotsOf (poolCapacity windowSize : Nat) (msgs : List FeedMessage) (bound : Nat)
    (items : List (Item Int 8)) : Prop :=
  ∃ ns : List Nat, ns.Pairwise (· < ·) ∧ (∀ n ∈ ns, n ≤ bound) ∧
    List.Forall₂ (fun n item =>
      snapshotAfter poolCapacity windowSize (msgs.take n) = .ok (.ofWords item)) ns items

/-- Messages one after the other. -/
theorem applyMessages_append (b : OrderBook poolCapacity windowSize)
    (msgs : List FeedMessage) (msg : FeedMessage) :
    b.applyMessages (msgs ++ [msg]) = b.applyMessages msgs >>= fun b => b.applyMessage msg := by
  induction msgs generalizing b with
  | nil =>
      show (b.applyMessage msg >>= fun b => pure b) = b.applyMessage msg
      cases b.applyMessage msg <;> rfl
  | cons m msgs ih =>
      show (b.applyMessage m >>= fun b => b.applyMessages (msgs ++ [msg])) =
        ((b.applyMessage m >>= fun b => b.applyMessages msgs) >>= fun b => b.applyMessage msg)
      cases b.applyMessage m with
      | error fault => rfl
      | ok b => exact ih b

/-- More messages leave the prefixes that there are. -/
theorem SnapshotsOf.mono {msgs more : List FeedMessage} {bound bound' : Nat}
    {items : List (Item Int 8)} (h : SnapshotsOf poolCapacity windowSize msgs bound items)
    (hlen : bound ≤ msgs.length) (hle : bound ≤ bound') :
    SnapshotsOf poolCapacity windowSize (msgs ++ more) bound' items := by
  obtain ⟨ns, hsorted, hbound, hsnap⟩ := h
  refine ⟨ns, hsorted, fun n hn => (hbound n hn).trans hle, ?_⟩
  clear hsorted
  induction hsnap with
  | nil => exact .nil
  | @cons n item ns items hitem _ ih =>
      have hn := hbound n (List.mem_cons_self)
      refine .cons ?_ (ih fun n hn => hbound n (List.mem_cons_of_mem _ hn))
      rwa [List.take_append_of_le_length (hn.trans hlen)]

/-- The snapshot after all the messages joins. -/
theorem SnapshotsOf.push {msgs : List FeedMessage} {bound : Nat} {items : List (Item Int 8)}
    (h : SnapshotsOf poolCapacity windowSize msgs bound items) (hlt : bound < msgs.length)
    {item : Item Int 8}
    (hitem : snapshotAfter poolCapacity windowSize msgs = .ok (.ofWords item)) :
    SnapshotsOf poolCapacity windowSize msgs msgs.length (items ++ [item]) := by
  obtain ⟨ns, hsorted, hbound, hsnap⟩ := h
  refine ⟨ns ++ [msgs.length], ?_, ?_, ?_⟩
  · refine List.pairwise_append.mpr ⟨hsorted, List.pairwise_singleton _ _, fun n hn m hm => ?_⟩
    rw [List.mem_singleton.mp hm]
    exact lt_of_le_of_lt (hbound n hn) hlt
  · intro n hn
    rcases List.mem_append.mp hn with hn | hn
    · exact (hbound n hn).trans hlt.le
    · exact (List.mem_singleton.mp hn).le
  · refine List.rel_append hsnap (.cons ?_ .nil)
    rwa [List.take_length]

/-- A prefix of the items. -/
theorem SnapshotsOf.of_isPrefix {msgs : List FeedMessage} {bound : Nat}
    {items front : List (Item Int 8)}
    (h : SnapshotsOf poolCapacity windowSize msgs bound items) (hfront : front <+: items) :
    SnapshotsOf poolCapacity windowSize msgs bound front := by
  obtain ⟨ns, hsorted, hbound, hsnap⟩ := h
  obtain ⟨back, rfl⟩ := hfront
  refine ⟨ns.take front.length, hsorted.sublist (List.take_sublist _ _),
    fun n hn => hbound n (List.mem_of_mem_take hn), ?_⟩
  have htake := List.forall₂_take front.length hsnap
  rwa [List.take_left] at htake

end Snapshots

/-! ## The invariant -/

namespace Listener

variable {poolCapacity windowSize capacity : Nat}

/-- Where the book thread can be after the messages. -/
structure BookOk (msgs : List FeedMessage) (log : List (Returned Int 8))
    (l : Listener poolCapacity windowSize capacity) : Prop where
  book : ({} : OrderBook poolCapacity windowSize).applyMessages msgs = .ok l.book
  sigLength : l.sig.imbalance.length = kNumImbalanceDepths
  stop : l.mdStop = true ↔ l.bookThread = .stopped
  /-- Between two calls of `publish` the last snapshot is that of the book, unless it was
  dropped. -/
  between : l.bookThread ≠ .publishing → l.ring.producer = .idle ∧
    SnapshotsOf poolCapacity windowSize msgs msgs.length (accepted log) ∧
    (lastPublish log = some true → ∃ item, (accepted log).getLast? = some item ∧
      snapshotAfter poolCapacity windowSize msgs = .ok (.ofWords item))
  /-- During a call the snapshot of the book is still to be accepted. -/
  during : l.bookThread = .publishing → Publishes l.sig l.ring.producer ∧
    snapshotAfter poolCapacity windowSize msgs = .ok l.sig ∧
    ∃ bound < msgs.length, SnapshotsOf poolCapacity windowSize msgs bound (accepted log)

/-- Where the consumer can be. -/
structure ConsumerOk (log : List (Returned Int 8))
    (l : Listener poolCapacity windowSize capacity) : Prop where
  received : l.mdReceived = UInt64.ofNat (polled log).length
  last : l.mdLast = ((polled log).getLast?.map BookSignals.ofWords).getD {}
  draining : l.mdConsumer = .draining → l.mdStop = true
  returned : l.mdConsumer = .returned → l.mdStop = true ∧ polled log = accepted log

/-- The invariant. -/
structure ListenInv (msgs : List FeedMessage) (log : List (Returned Int 8))
    (l : Listener poolCapacity windowSize capacity) : Prop where
  ring : PublishSystem.Inv log l.ring
  book : BookOk msgs log l
  consumer : ConsumerOk log l

/-- The threads before their first step. -/
theorem fresh_listenInv (hcap : capacity.isPowerOfTwo) (buffer : Nat → Item Int 8) :
    ListenInv [] [] (fresh buffer : Listener poolCapacity windowSize capacity) where
  ring := PublishSystem.fresh_inv hcap buffer
  book :=
    { book := rfl
      sigLength := rfl
      stop := by simp [fresh]
      between := fun _ => ⟨rfl, ⟨[], .nil, by simp, .nil⟩, fun h => by cases h⟩
      during := fun h => by cases h }
  consumer := ⟨rfl, rfl, (fun h => by cases h), (fun h => by cases h)⟩

variable {msgs : List FeedMessage} {log : List (Returned Int 8)}
  {l l' : Listener poolCapacity windowSize capacity} {returned : List (Returned Int 8)}

/-- The signals of the book are those of the messages. -/
theorem snapshotAfter_eq {b : OrderBook poolCapacity windowSize} {sig sig' : BookSignals}
    (hbook : ({} : OrderBook poolCapacity windowSize).applyMessages msgs = .ok b)
    (hlen : sig.imbalance.length = kNumImbalanceDepths)
    (hsig : computeSignals b.topLevels sig = .ok sig') :
    snapshotAfter poolCapacity windowSize msgs = .ok sig' ∧
      sig'.imbalance.length = kNumImbalanceDepths := by
  rw [computeSignals_eq _ hlen] at hsig
  obtain rfl := Except.ok.inj hsig
  refine ⟨?_, by rw [List.length_map]; rfl⟩
  rw [snapshotAfter, hbook, ok_bind, computeSignals_eq _ rfl]

/-- The book thread handles a message. -/
theorem ListenInv.handle (h : ListenInv msgs log l) {msg : FeedMessage}
    (hstep : l.step (.handle msg) = some (l', returned)) :
    ListenInv (msgs ++ [msg]) (log ++ returned) l' := by
  simp only [step] at hstep
  split at hstep
  · next book sig hwaiting hhandle =>
      cases hstep
      rw [List.append_nil]
      obtain ⟨hidle, hsnap, -⟩ := h.book.between (by rw [hwaiting]; decide)
      have hmsg : l.book.applyMessage msg = .ok book ∧
          computeSignals book.topLevels l.sig = .ok sig := by
        obtain ⟨b, hb, hrest⟩ := bind_eq_ok.mp hhandle
        obtain ⟨sig', hs, heq⟩ := bind_eq_ok.mp hrest
        cases heq
        exact ⟨hb, hs⟩
      obtain ⟨hb, hs⟩ := hmsg
      have hbook : ({} : OrderBook poolCapacity windowSize).applyMessages (msgs ++ [msg]) =
          .ok book := by
        rw [applyMessages_append, h.book.book, ok_bind, hb]
      obtain ⟨hsig, hlen⟩ := snapshotAfter_eq hbook h.book.sigLength hs
      refine ⟨h.ring, ⟨hbook, hlen, ?_, fun hne => absurd rfl hne, fun _ => ?_⟩, ?_⟩
      · have hstop := h.book.stop
        rw [hwaiting] at hstop
        simpa using hstop
      · refine ⟨?_, hsig, msgs.length, by simp, hsnap.mono le_rfl le_rfl⟩
        change Publishes _ l.ring.producer
        rw [hidle]
        trivial
      · exact ⟨h.consumer.received, h.consumer.last, h.consumer.draining, h.consumer.returned⟩
  · cases hstep

/-- The book thread takes a step of `publish`. -/
theorem ListenInv.publish (hcap : capacity.isPowerOfTwo) (h : ListenInv msgs log l)
    {a : PublishStep} (hstep : l.step (.publish a) = some (l', returned)) :
    ListenInv msgs (log ++ returned) l' := by
  simp only [step] at hstep
  split at hstep
  · next ring _ hpublishing hring =>
      cases hstep
      obtain ⟨hpublishes, hsig, bound, hlt, hsnap⟩ := h.book.during hpublishing
      obtain ⟨-, hpublishes', hreturned⟩ := publish_step hpublishes hring
      have hnotStopped : l.mdStop = false := by
        rw [← Bool.not_eq_true, h.book.stop, hpublishing]
        decide
      have hpolled : polled (log ++ returned) = polled log := by
        rcases hreturned with rfl | ⟨ok, rfl, -⟩ <;> simp [polled]
      refine ⟨step_inv hcap h.ring hring, ⟨h.book.book, h.book.sigLength, ?_, ?_, ?_⟩, ?_⟩
      · change l.mdStop = true ↔ (if returned = [] then BookThread.publishing else .waiting) = _
        rw [hnotStopped]
        split <;> simp
      · intro hwaiting
        -- the call has returned: its snapshot was accepted or dropped
        rcases hreturned with rfl | ⟨ok, rfl, hidle⟩
        · exact absurd rfl hwaiting
        refine ⟨hidle, ?_⟩
        cases ok with
        | true =>
            have hsnapshot : snapshotAfter poolCapacity windowSize msgs =
                .ok (.ofWords l.sig.words) := by
              rw [hsig, BookSignals.ofWords_words h.book.sigLength]
            have haccepted : accepted (log ++ [.publish l.sig.words true]) =
                accepted log ++ [l.sig.words] := by simp [accepted]
            rw [haccepted]
            refine ⟨hsnap.push hlt hsnapshot, fun _ => ⟨l.sig.words, ?_, hsnapshot⟩⟩
            rw [List.getLast?_concat]
        | false =>
            have haccepted : accepted (log ++ [.publish l.sig.words false]) = accepted log := by
              simp [accepted]
            rw [haccepted]
            have hall : SnapshotsOf poolCapacity windowSize (msgs ++ []) msgs.length
                (accepted log) := hsnap.mono hlt.le hlt.le
            rw [List.append_nil] at hall
            refine ⟨hall, fun hlast => ?_⟩
            simp [lastPublish] at hlast
      · intro hstill
        rcases hreturned with rfl | ⟨ok, rfl, -⟩
        · rw [List.append_nil]
          exact ⟨hpublishes', hsig, bound, hlt, hsnap⟩
        · exact absurd hstill (by simp)
      · refine ⟨?_, ?_, h.consumer.draining, fun hret => ?_⟩
        · rw [hpolled]
          exact h.consumer.received
        · rw [hpolled]
          exact h.consumer.last
        · have hstop := (h.consumer.returned hret).1
          rw [hnotStopped] at hstop
          cases hstop
  · cases hstep

/-- The book thread stops. -/
theorem ListenInv.stop (h : ListenInv msgs log l) (hstep : l.step .stop = some (l', returned)) :
    ListenInv msgs (log ++ returned) l' := by
  simp only [step] at hstep
  split at hstep
  · next hwaiting =>
      cases hstep
      rw [List.append_nil]
      have hbetween := h.book.between (by rw [hwaiting]; decide)
      refine ⟨h.ring, ⟨h.book.book, h.book.sigLength, by simp, fun _ => hbetween,
        (fun h => by cases h)⟩, ?_⟩
      exact ⟨h.consumer.received, h.consumer.last, fun _ => rfl,
        fun hret => ⟨rfl, (h.consumer.returned hret).2⟩⟩
  · cases hstep

/-- The consumer reads the flag. -/
theorem ListenInv.loadStop (h : ListenInv msgs log l)
    (hstep : l.step .loadStop = some (l', returned)) :
    ListenInv msgs (log ++ returned) l' := by
  simp only [step] at hstep
  split at hstep
  · next hfound =>
      cases hstep
      rw [List.append_nil]
      refine ⟨h.ring, ⟨h.book.book, h.book.sigLength, h.book.stop, h.book.between, h.book.during⟩,
        ⟨h.consumer.received, h.consumer.last, fun hdraining => ?_, fun hret => ?_⟩⟩
      · change (if l.mdStop then MdConsumer.draining else .polling) = _ at hdraining
        by_contra hstop
        rw [if_neg hstop] at hdraining
        cases hdraining
      · change (if l.mdStop then MdConsumer.draining else .polling) = _ at hret
        split at hret <;> cases hret
  · cases hstep

/-- The book thread does not see a step of the consumer. -/
theorem BookOk.of_poll (h : BookOk msgs log l) (hbook : l'.book = l.book) (hsig : l'.sig = l.sig)
    (hthread : l'.bookThread = l.bookThread) (hstop : l'.mdStop = l.mdStop)
    (hproducer : l'.ring.producer = l.ring.producer)
    (hreturned : returned = [] ∨ ∃ item, returned = [.poll item]) :
    BookOk msgs (log ++ returned) l' := by
  have haccepted : accepted (log ++ returned) = accepted log := by
    rcases hreturned with rfl | ⟨item, rfl⟩ <;> simp [accepted]
  have hlast : lastPublish (log ++ returned) = lastPublish log := by
    rcases hreturned with rfl | ⟨item, rfl⟩ <;> simp [lastPublish]
  refine ⟨?_, ?_, ?_, fun hthread' => ?_, fun hthread' => ?_⟩
  · rw [hbook]
    exact h.book
  · rw [hsig]
    exact h.sigLength
  · rw [hstop, hthread]
    exact h.stop
  · rw [hproducer, haccepted, hlast]
    exact h.between (hthread ▸ hthread')
  · rw [hproducer, haccepted, hsig]
    exact h.during (hthread ▸ hthread')

/-- The consumer takes a step of `poll`. -/
theorem ListenInv.poll (hcap : capacity.isPowerOfTwo) (h : ListenInv msgs log l) {a : PollStep}
    (hstep : l.step (.poll a) = some (l', returned)) :
    ListenInv msgs (log ++ returned) l' := by
  simp only [step] at hstep
  split at hstep
  · next hphase =>
      have hnotReturned : l.mdConsumer ≠ .returned := by
        rcases hphase with hphase | hphase <;> rw [hphase] <;> decide
      cases hring : l.ring.step (a.on l.s) with
      | none =>
          rw [hring] at hstep
          cases hstep
      | some next =>
          obtain ⟨ring, calls⟩ := next
          rw [hring] at hstep
          have hinv := step_inv hcap h.ring hring
          obtain ⟨hproducer, rfl | ⟨item, rfl, -⟩ | ⟨rfl, -, out, hat⟩⟩ := poll_step hring
          · cases hstep
            refine ⟨hinv, h.book.of_poll rfl rfl rfl rfl hproducer (Or.inl rfl), ?_⟩
            rw [List.append_nil]
            exact ⟨h.consumer.received, h.consumer.last, h.consumer.draining,
              h.consumer.returned⟩
          · cases hstep
            refine ⟨hinv, h.book.of_poll rfl rfl rfl rfl hproducer (Or.inr ⟨_, rfl⟩), ?_⟩
            have hpolled : polled (log ++ [.poll (some item)]) = polled log ++ [item] := by
              simp [polled]
            refine ⟨?_, ?_, h.consumer.draining, fun hret => absurd hret hnotReturned⟩
            · rw [hpolled, List.length_append, List.length_singleton, UInt64.ofNat_add,
                ← h.consumer.received]
              rfl
            · rw [hpolled, List.getLast?_concat]
              rfl
          · cases hstep
            have hpolled : polled (log ++ [.poll none]) = polled log := by simp [polled]
            have haccepted : accepted (log ++ [.poll none]) = accepted log := by simp [accepted]
            have hall := polled_eq_accepted h.ring hat
            rcases hphase with hphase | hphase
            · -- the first loop goes on to read the flag
              have hafter : afterPoll { l with ring := ring } none =
                  { l with ring := ring, mdConsumer := .foundNone } := by
                simp only [afterPoll, hphase]
              rw [hafter]
              refine ⟨hinv, h.book.of_poll rfl rfl rfl rfl hproducer (Or.inr ⟨_, rfl⟩), ?_⟩
              refine ⟨?_, ?_, (fun h => by cases h), (fun h => by cases h)⟩
              · rw [hpolled]
                exact h.consumer.received
              · rw [hpolled]
                exact h.consumer.last
            · -- the second loop ends, with everything polled
              have hafter : afterPoll { l with ring := ring } none =
                  { l with ring := ring, mdConsumer := .returned } := by
                simp only [afterPoll, hphase]
              rw [hafter]
              refine ⟨hinv, h.book.of_poll rfl rfl rfl rfl hproducer (Or.inr ⟨_, rfl⟩), ?_⟩
              rw [← hpolled, ← haccepted] at hall
              refine ⟨?_, ?_, (fun h => by cases h),
                fun _ => ⟨h.consumer.draining hphase, hall⟩⟩
              · rw [hpolled]
                exact h.consumer.received
              · rw [hpolled]
                exact h.consumer.last
  · cases hstep

/-- The messages that the steps handle. -/
def handled (steps : List ListenStep) : List FeedMessage :=
  steps.filterMap fun
    | .handle msg => some msg
    | _ => none

/-- Every step keeps the invariant. -/
theorem ListenInv.step (hcap : capacity.isPowerOfTwo) (h : ListenInv msgs log l) {a : ListenStep}
    (hstep : l.step a = some (l', returned)) :
    ListenInv (msgs ++ handled [a]) (log ++ returned) l' := by
  cases a with
  | handle msg => exact h.handle hstep
  | publish a =>
      rw [show handled [.publish a] = [] from rfl, List.append_nil]
      exact h.publish hcap hstep
  | stop =>
      rw [show handled [.stop] = [] from rfl, List.append_nil]
      exact h.stop hstep
  | poll a =>
      rw [show handled [.poll a] = [] from rfl, List.append_nil]
      exact h.poll hcap hstep
  | loadStop =>
      rw [show handled [.loadStop] = [] from rfl, List.append_nil]
      exact h.loadStop hstep

/-- Every interleaving keeps the invariant. -/
theorem ListenInv.run (hcap : capacity.isPowerOfTwo) (h : ListenInv msgs log l)
    {steps : List ListenStep} (hrun : l.run steps = some (l', returned)) :
    ListenInv (msgs ++ handled steps) (log ++ returned) l' := by
  induction steps generalizing l msgs log returned with
  | nil =>
      cases hrun
      rw [List.append_nil, show handled [] = [] from rfl, List.append_nil]
      exact h
  | cons a steps ih =>
      obtain ⟨⟨l₁, returned₁⟩, hstep, hrest⟩ := Option.bind_eq_some_iff.mp hrun
      obtain ⟨⟨l₂, returned₂⟩, hrun₂, hlast⟩ := Option.bind_eq_some_iff.mp hrest
      cases hlast
      have hsplit : handled (a :: steps) = handled [a] ++ handled steps :=
        List.filterMap_append (l := [a])
      rw [hsplit, ← List.append_assoc, ← List.append_assoc]
      exact ih (h.step hcap hstep) hrun₂

/-- What the consumer has when it returns, and what it has received at any time. -/
structure LosesNothing (msgs : List FeedMessage) (log : List (Returned Int 8))
    (l : Listener poolCapacity windowSize capacity) : Prop where
  /-- When the consumer returns, the ring is empty and everything published was received. -/
  drained : l.mdConsumer = .returned →
    l.ring.unread = 0 ∧ l.mdReceived = l.ring.pub.published
  /-- It then keeps the last snapshot that was accepted. -/
  last : l.mdConsumer = .returned → ∀ item, (accepted log).getLast? = some item →
    l.mdLast = .ofWords item
  /-- What it receives are the signals after longer and longer prefixes of the messages. -/
  received : SnapshotsOf poolCapacity windowSize msgs msgs.length (polled log)
  /-- If the last call of `publish` did not drop, it keeps the signals of the final book. -/
  final : l.mdConsumer = .returned → lastPublish log = some true →
    ({} : OrderBook poolCapacity windowSize).applyMessages msgs = .ok l.book ∧
      computeSignals l.book.topLevels {} = .ok l.mdLast

/-- No snapshot is lost at shutdown: in every interleaving of the two threads, whenever the
consumer has returned it has received everything that was published. -/
theorem run_loses_nothing (hcap : capacity.isPowerOfTwo) (buffer : Nat → Item Int 8)
    (steps : List ListenStep) (l : Listener poolCapacity windowSize capacity)
    (log : List (Returned Int 8)) (hrun : (fresh buffer).run steps = some (l, log)) :
    LosesNothing (handled steps) log l := by
  have h := (fresh_listenInv hcap buffer).run hcap hrun
  rw [List.nil_append, List.nil_append] at h
  have hlast : l.mdConsumer = .returned → ∀ item, (accepted log).getLast? = some item →
      l.mdLast = .ofWords item := by
    intro hret item hitem
    rw [h.consumer.last, (h.consumer.returned hret).2, hitem]
    rfl
  refine ⟨fun hret => ⟨?_, ?_⟩, hlast, ?_, fun hret hpublished => ⟨h.book.book, ?_⟩⟩
  · rw [h.ring.unread_eq, (h.consumer.returned hret).2, Nat.sub_self]
  · rw [h.consumer.received, h.ring.published, (h.consumer.returned hret).2]
  · -- a call under way has not been accepted yet
    by_cases hthread : l.bookThread = .publishing
    · obtain ⟨-, -, bound, hlt, hsnap⟩ := h.book.during hthread
      have hall : SnapshotsOf poolCapacity windowSize (handled steps ++ []) (handled steps).length
          (accepted log) := hsnap.mono hlt.le hlt.le
      rw [List.append_nil] at hall
      exact hall.of_isPrefix h.ring.fifo
    · exact (h.book.between hthread).2.1.of_isPrefix h.ring.fifo
  · have hstopped := h.book.stop.mp (h.consumer.returned hret).1
    obtain ⟨-, -, hfinal⟩ := h.book.between (by rw [hstopped]; decide)
    obtain ⟨item, hitem, hsnap⟩ := hfinal hpublished
    rw [hlast hret item hitem, ← hsnap, snapshotAfter, h.book.book, ok_bind]

/-- The consumer finds the ring empty; the book thread then applies a message, publishes and stops,
and the consumer reads the flag and drains. -/
def latePublish (msg : FeedMessage) : List ListenStep :=
  [.poll .call, .poll .loadHead, .handle msg, .publish .call, .publish .loadTail] ++
    (List.finRange 8).map (fun k => ListenStep.publish (.copyIn k)) ++
    [.publish .storeHead, .stop, .loadStop, .poll .call, .poll .loadHead] ++
    (List.finRange 8).map (fun k => ListenStep.poll (.copyOut k)) ++
    [.poll .storeTail, .poll .call, .poll .loadHead]

/-- The snapshot of a late publish is still received. -/
theorem run_loses_nothing_late_publish :
    ∃ (l : Listener 2 64 2) (log : List (Returned Int 8)),
      (fresh fun _ _ => 0).run (latePublish ⟨.addOrder, .buy, 1, 100, 5, 0⟩) = some (l, log) ∧
      l.mdConsumer = .returned ∧ lastPublish log = some true ∧
      computeSignals l.book.topLevels {} = .ok l.mdLast ∧ l.mdLast.bidQty = 5 := by
  have hview : ((fresh fun _ _ => 0 : Listener 2 64 2).run
      (latePublish ⟨.addOrder, .buy, 1, 100, 5, 0⟩)).map
      (fun r => (r.1.mdConsumer, lastPublish r.2, r.1.mdLast.bidQty)) =
      some (.returned, some true, 5) := by decide +kernel
  obtain ⟨⟨l, log⟩, hrun, hobs⟩ := Option.map_eq_some_iff.mp hview
  obtain ⟨hret, hobs⟩ := Prod.mk.inj hobs
  obtain ⟨hpublished, hqty⟩ := Prod.mk.inj hobs
  have h := run_loses_nothing ⟨1, rfl⟩ (fun _ _ => 0) _ l log hrun
  exact ⟨l, log, hrun, hret, hpublished, (h.final hret hpublished).2, hqty⟩

end Listener

end LimitOrderBook
