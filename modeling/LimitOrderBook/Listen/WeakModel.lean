import LimitOrderBook.Library.ReleaseAcquire
import LimitOrderBook.Listen.Model

/-!
# The two threads under release and acquire

The publish ring and the shutdown of `run_xdp_listen` with the memory orders that the source gives:
each thread loads its own index relaxed and the other's with acquire, both store with release, and
`md_stop` is stored with release and loaded with acquire. The words of a slot are plain cells. A
load may return an old value of an index or of the flag; which store it reads is part of the step.

The counters and the other variables that one thread keeps to itself until the two are joined are
fields of the state.
-/

namespace LimitOrderBook

open ReleaseAcquire (Memory DataRace)

/-- The two threads. -/
inductive Party where
  | producer
  | consumer
  deriving DecidableEq, Repr

instance : Fintype Party := ⟨{.producer, .consumer}, fun t => by cases t <;> simp⟩

/-- The atomic variables of the two threads. -/
inductive Location where
  | head
  | tail
  | stop
  deriving DecidableEq, Repr

/-- The thread that stores to the variable. -/
def Location.owner : Location → Party
  | .head => .producer
  | .tail => .consumer
  | .stop => .producer

/-- The slots, word by word, and the atomic variables. -/
abbrev RingMemory (Word : Type) (words : Nat) : Type :=
  Memory Party Location Nat (Nat × Fin words) Word

/-- A step of one of the threads; a load has the number of the store that it reads. -/
inductive WeakStep (Word : Type) (words : Nat) where
  /-- The book thread calls `publish` and loads `head_`. -/
  | publish (item : Item Word words) (i : Nat)
  | loadTail (i : Nat)
  | copyIn (k : Fin words)
  | storeHead
  /-- The book thread stores `md_stop`. -/
  | stop
  /-- The consumer calls `poll` and loads `tail_`. -/
  | poll (out : Item Word words) (i : Nat)
  | loadHead (i : Nat)
  | copyOut (k : Fin words)
  | storeTail
  /-- The consumer loads `md_stop`. -/
  | loadStop (i : Nat)

/-- The shared memory and the variables of the two threads. -/
structure WeakListener (Word : Type) (words capacity : Nat) where
  memory : RingMemory Word words
  published : UInt64 := 0
  dropped : UInt64 := 0
  producer : Producer Word words := .idle
  stopped : Bool := false
  consumer : Consumer Word words := .idle
  mdConsumer : MdConsumer := .polling
  mdReceived : UInt64 := 0

namespace WeakListener

variable {Word : Type} {words capacity : Nat}

/-- The positions of words are compared lawfully. -/
theorem lawfulBEq_word (words : Nat) : LawfulBEq (Fin words) := inferInstance

/-- It can be decided whether all words of a slot are copied. -/
instance (done : List (Fin words)) : Decidable (∀ k, k ∈ done) :=
  haveI := lawfulBEq_word words
  inferInstance

/-- The threads before their first step, with any contents of the slots. -/
def fresh (buffer : Nat → Item Word words) : WeakListener Word words capacity :=
  { memory := .fresh (fun _ => 0) fun c => buffer c.1 c.2 }

/-- What the consumer does after `poll` has returned. -/
def afterPoll (s : WeakListener Word words capacity) :
    Option (Item Word words) → WeakListener Word words capacity
  | some _ => { s with mdReceived := s.mdReceived + 1 }
  | none =>
      match s.mdConsumer with
      | .draining => { s with mdConsumer := .returned }
      | _ => { s with mdConsumer := .foundNone }

/-- One step of a thread, and the call that returns in it. There is no such step if the thread is
not where it takes it or if it cannot read this store. -/
def step (s : WeakListener Word words capacity) : WeakStep Word words →
    Option (Except DataRace (WeakListener Word words capacity × List (Returned Word words)))
  | .publish item i =>
      match s.stopped, s.producer with
      | false, .idle => do
          let (head, memory) ← s.memory.loadRelaxed .producer .head i
          some (.ok ({ s with memory := memory, producer := .loadedHead item head }, []))
      | _, _ => none
  | .loadTail i =>
      match s.producer with
      | .loadedHead item head => do
          let (tail, memory) ← s.memory.load .producer .tail i
          let next := (head + 1) &&& SpscRingBuffer.mask capacity
          if next = tail then
            some (.ok ({ s with
              memory := memory, dropped := s.dropped + 1, producer := .idle },
              [.publish item false]))
          else some (.ok ({ s with memory := memory, producer := .copying item head next [] }, []))
      | _ => none
  | .copyIn k =>
      match s.producer with
      | .copying item head next done =>
          some ((s.memory.write .producer (head, k) (item k)).map fun memory =>
            ({ s with memory := memory, producer := .copying item head next (k :: done) }, []))
      | _ => none
  | .storeHead =>
      match s.producer with
      | .copying item _ next done =>
          if ∀ k, k ∈ done then
            some (.ok ({ s with
              memory := s.memory.store .producer .head next, published := s.published + 1,
              producer := .idle }, [.publish item true]))
          else none
      | _ => none
  | .stop =>
      match s.stopped, s.producer with
      | false, .idle =>
          some (.ok ({ s with memory := s.memory.store .producer .stop 1, stopped := true }, []))
      | _, _ => none
  | .poll out i =>
      if s.mdConsumer = .polling ∨ s.mdConsumer = .draining then
        match s.consumer with
        | .idle => do
            let (tail, memory) ← s.memory.loadRelaxed .consumer .tail i
            some (.ok ({ s with memory := memory, consumer := .loadedTail out tail }, []))
        | _ => none
      else none
  | .loadHead i =>
      match s.consumer with
      | .loadedTail out tail => do
          let (head, memory) ← s.memory.load .consumer .head i
          if tail = head then
            some (.ok ({ s with memory := memory, consumer := .idle }.afterPoll none,
              [.poll none]))
          else some (.ok ({ s with memory := memory, consumer := .copying out tail [] }, []))
      | _ => none
  | .copyOut k =>
      match s.consumer with
      | .copying out tail done =>
          some ((s.memory.read .consumer (tail, k)).map fun (value, memory) =>
            ({ s with
              memory := memory
              consumer := .copying (Function.update out k value) tail (k :: done) }, []))
      | _ => none
  | .storeTail =>
      match s.consumer with
      | .copying out tail done =>
          if ∀ k, k ∈ done then
            let next := (tail + 1) &&& SpscRingBuffer.mask capacity
            some (.ok ({ s with
              memory := s.memory.store .consumer .tail next
              consumer := .idle }.afterPoll (some out),
              [.poll (some out)]))
          else none
      | _ => none
  | .loadStop i =>
      match s.mdConsumer with
      | .foundNone => do
          let (stop, memory) ← s.memory.load .consumer .stop i
          let mdConsumer := if stop ≠ 0 then MdConsumer.draining else .polling
          some (.ok ({ s with memory := memory, mdConsumer := mdConsumer }, []))
      | _ => none

/-- An interleaving of steps, and the calls that return in it. -/
def run (s : WeakListener Word words capacity) : List (WeakStep Word words) →
    Option (Except DataRace (WeakListener Word words capacity × List (Returned Word words)))
  | [] => some (.ok (s, []))
  | a :: as =>
      match s.step a with
      | none => none
      | some (.error race) => some (.error race)
      | some (.ok (s₁, returned)) =>
          (s₁.run as).map fun outcome => outcome.map fun (s₂, returned') =>
            (s₂, returned ++ returned')

/-- What the slots hold. -/
def buffer (m : RingMemory Word words) : Nat → Item Word words :=
  fun slot k => (m.cells (slot, k)).value

end WeakListener

end LimitOrderBook
