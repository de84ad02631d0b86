import Mathlib.Data.List.FinRange
import Mathlib.Logic.Function.Basic

/-!
# The publish ring

`SpscRingBuffer` of `spsc_ring_buffer.hpp` and `MdPublisher` of `md_publisher.hpp`: a ring in which
one thread publishes and one other thread polls. `publish` and `poll` are the calls as one thread
sees them; `step` is the system of the two threads, in which every load and every store of an index
and every copy of one word of a slot is a step of its own.

An item is a number of words, and the words of a slot may be copied in any order. The counters
belong to the producer, so a call counts and returns in the step of its last access to shared
memory.
-/

namespace LimitOrderBook

/-- The slots of a ring and its two indices. -/
structure SpscRingBuffer (T : Type) (capacity : Nat) where
  buffer : Nat → T
  head : Nat := 0
  tail : Nat := 0

namespace SpscRingBuffer

variable {T : Type} {capacity : Nat}

/-- `mask_`. -/
def mask (capacity : Nat) : Nat := capacity - 1

/-- `try_push`. Returns whether there was room. -/
def tryPush (r : SpscRingBuffer T capacity) (item : T) : Bool × SpscRingBuffer T capacity :=
  let head := r.head
  let next := (head + 1) &&& mask capacity
  if next = r.tail then (false, r)
  else (true, { r with buffer := Function.update r.buffer head item, head := next })

/-- `try_pop`. Returns whether there was an item, and what `out` is afterwards. -/
def tryPop (r : SpscRingBuffer T capacity) (out : T) : Bool × T × SpscRingBuffer T capacity :=
  let tail := r.tail
  if tail = r.head then (false, out, r)
  else (true, r.buffer tail, { r with tail := (tail + 1) &&& mask capacity })

end SpscRingBuffer

/-- The ring and the counters of the producer. -/
structure MdPublisher (T : Type) (capacity : Nat) where
  ring : SpscRingBuffer T capacity
  published : UInt64 := 0
  dropped : UInt64 := 0

namespace MdPublisher

variable {T : Type} {capacity : Nat}

/-- Count a published item. -/
def countPublished (p : MdPublisher T capacity) : MdPublisher T capacity :=
  { p with published := p.published + 1 }

/-- Count a dropped item. -/
def countDropped (p : MdPublisher T capacity) : MdPublisher T capacity :=
  { p with dropped := p.dropped + 1 }

/-- `publish`. -/
def publish (p : MdPublisher T capacity) (item : T) : Bool × MdPublisher T capacity :=
  let (ok, ring) := p.ring.tryPush item
  if ok then (true, { p with ring := ring }.countPublished)
  else (false, { p with ring := ring }.countDropped)

/-- `poll`. -/
def poll (p : MdPublisher T capacity) (out : T) : Bool × T × MdPublisher T capacity :=
  let (ok, out, ring) := p.ring.tryPop out
  (ok, out, { p with ring := ring })

/-- `usable_slots`. -/
def usableSlots (capacity : Nat) : Nat := capacity - 1

end MdPublisher

/-! ## The two threads -/

/-- An item, word by word. -/
abbrev Item (Word : Type) (words : Nat) : Type := Fin words → Word

/-- Where the producer is in `publish`. -/
inductive Producer (Word : Type) (words : Nat) where
  | idle
  /-- `head_` is loaded. -/
  | loadedHead (item : Item Word words) (head : Nat)
  /-- There is room, and the words in `done` are in the slot. -/
  | copying (item : Item Word words) (head next : Nat) (done : List (Fin words))

/-- Where the consumer is in `poll`. -/
inductive Consumer (Word : Type) (words : Nat) where
  | idle
  /-- `tail_` is loaded. -/
  | loadedTail (out : Item Word words) (tail : Nat)
  /-- There is an item, and the words in `done` are in `out`. -/
  | copying (out : Item Word words) (tail : Nat) (done : List (Fin words))

/-- The shared object and the two threads. -/
structure PublishSystem (Word : Type) (words capacity : Nat) where
  pub : MdPublisher (Item Word words) capacity
  producer : Producer Word words := .idle
  consumer : Consumer Word words := .idle

/-- A step of one of the threads. -/
inductive ThreadStep (Word : Type) (words : Nat) where
  /-- The producer calls `publish` and loads `head_`. -/
  | publish (item : Item Word words)
  /-- The producer loads `tail_`. -/
  | loadTail
  /-- The producer copies a word into the slot. -/
  | copyIn (k : Fin words)
  /-- The producer stores `head_`. -/
  | storeHead
  /-- The consumer calls `poll` and loads `tail_`. -/
  | poll (out : Item Word words)
  /-- The consumer loads `head_`. -/
  | loadHead
  /-- The consumer copies a word out of the slot. -/
  | copyOut (k : Fin words)
  /-- The consumer stores `tail_`. -/
  | storeTail

/-- A call that has returned, with its result. -/
inductive Returned (Word : Type) (words : Nat) where
  | publish (item : Item Word words) (ok : Bool)
  | poll (item : Option (Item Word words))

namespace PublishSystem

variable {Word : Type} {words capacity : Nat}

/-- A fresh object, with any contents of its slots. -/
def fresh (buffer : Nat → Item Word words) : PublishSystem Word words capacity :=
  { pub := { ring := { buffer := buffer } } }

/-- Write one word of a slot. -/
def writeWord (buffer : Nat → Item Word words) (slot : Nat) (k : Fin words) (value : Word) :
    Nat → Item Word words :=
  Function.update buffer slot (Function.update (buffer slot) k value)

/-- Write the slots. -/
def setBuffer (s : PublishSystem Word words capacity) (buffer : Nat → Item Word words) :
    PublishSystem Word words capacity :=
  { s with pub := { s.pub with ring := { s.pub.ring with buffer := buffer } } }

/-- Store `head_`. -/
def setHead (s : PublishSystem Word words capacity) (head : Nat) :
    PublishSystem Word words capacity :=
  { s with pub := { s.pub with ring := { s.pub.ring with head := head } } }

/-- Store `tail_`. -/
def setTail (s : PublishSystem Word words capacity) (tail : Nat) :
    PublishSystem Word words capacity :=
  { s with pub := { s.pub with ring := { s.pub.ring with tail := tail } } }

/-- One step of a thread, and the call that returns in it. There is no such step if the thread is
not where it takes it. -/
def step (s : PublishSystem Word words capacity) :
    ThreadStep Word words → Option (PublishSystem Word words capacity × List (Returned Word words))
  | .publish item =>
      match s.producer with
      | .idle => some ({ s with producer := .loadedHead item s.pub.ring.head }, [])
      | _ => none
  | .loadTail =>
      match s.producer with
      | .loadedHead item head =>
          let next := (head + 1) &&& SpscRingBuffer.mask capacity
          if next = s.pub.ring.tail then
            some ({ s with pub := s.pub.countDropped, producer := .idle }, [.publish item false])
          else some ({ s with producer := .copying item head next [] }, [])
      | _ => none
  | .copyIn k =>
      match s.producer with
      | .copying item head next done =>
          let s := s.setBuffer (writeWord s.pub.ring.buffer head k (item k))
          some ({ s with producer := .copying item head next (k :: done) }, [])
      | _ => none
  | .storeHead =>
      match s.producer with
      | .copying item _ next done =>
          if ∀ k, k ∈ done then
            let s := s.setHead next
            some ({ s with pub := s.pub.countPublished, producer := .idle }, [.publish item true])
          else none
      | _ => none
  | .poll out =>
      match s.consumer with
      | .idle => some ({ s with consumer := .loadedTail out s.pub.ring.tail }, [])
      | _ => none
  | .loadHead =>
      match s.consumer with
      | .loadedTail out tail =>
          if tail = s.pub.ring.head then some ({ s with consumer := .idle }, [.poll none])
          else some ({ s with consumer := .copying out tail [] }, [])
      | _ => none
  | .copyOut k =>
      match s.consumer with
      | .copying out tail done =>
          let out := Function.update out k (s.pub.ring.buffer tail k)
          some ({ s with consumer := .copying out tail (k :: done) }, [])
      | _ => none
  | .storeTail =>
      match s.consumer with
      | .copying out tail done =>
          if ∀ k, k ∈ done then
            let s := s.setTail ((tail + 1) &&& SpscRingBuffer.mask capacity)
            some ({ s with consumer := .idle }, [.poll (some out)])
          else none
      | _ => none

/-- An interleaving of steps, and the calls that return in it. -/
def run (s : PublishSystem Word words capacity) : List (ThreadStep Word words) →
    Option (PublishSystem Word words capacity × List (Returned Word words))
  | [] => some (s, [])
  | a :: as => do
      let (s₁, returned) ← s.step a
      let (s₂, returned') ← s₁.run as
      some (s₂, returned ++ returned')

/-! ## Calls without interruption -/

variable {s s₁ : PublishSystem Word words capacity} {returned : List (Returned Word words)}

/-- A step, and then the others. -/
theorem run_cons {a : ThreadStep Word words} {steps : List (ThreadStep Word words)}
    (hstep : s.step a = some (s₁, returned)) :
    s.run (a :: steps) = (s₁.run steps).map fun r => (r.1, returned ++ r.2) := by
  rw [run, hstep, Option.bind_eq_bind, Option.bind_some]
  show (s₁.run steps >>= _) = _
  cases s₁.run steps <;> rfl

/-- Words copied one after the other into a slot. -/
def writeWords (buffer : Nat → Item Word words) (slot : Nat) (item : Item Word words)
    (ks : List (Fin words)) : Nat → Item Word words :=
  ks.foldl (fun buffer k => writeWord buffer slot k (item k)) buffer

/-- A slot into which all words have been copied holds the item. -/
theorem writeWords_all (buffer : Nat → Item Word words) (slot : Nat) (item : Item Word words) :
    writeWords buffer slot item (List.finRange words) = Function.update buffer slot item := by
  have hword : ∀ (ks : List (Fin words)) (buffer : Nat → Item Word words), ∃ slotItem,
      writeWords buffer slot item ks = Function.update buffer slot slotItem ∧
      ∀ k, slotItem k = if k ∈ ks then item k else buffer slot k := by
    intro ks
    induction ks with
    | nil =>
        intro buffer
        exact ⟨buffer slot, (Function.update_eq_self slot buffer).symm, fun k => by simp⟩
    | cons j ks ih =>
        intro buffer
        obtain ⟨slotItem, hwrite, hitem⟩ := ih (writeWord buffer slot j (item j))
        refine ⟨slotItem, ?_, fun k => ?_⟩
        · show writeWords (writeWord buffer slot j (item j)) slot item ks = _
          rw [hwrite, writeWord, Function.update_idem]
        · rw [hitem k, writeWord, Function.update_self]
          by_cases hks : k ∈ ks
          · simp [hks]
          · by_cases hkj : k = j
            · simp [hkj]
            · simp [hks, hkj]
  obtain ⟨slotItem, hwrite, hitem⟩ := hword (List.finRange words) buffer
  rw [hwrite]
  congr
  funext k
  rw [hitem k, if_pos (List.mem_finRange k)]

/-- The producer copies words one after the other and then stores its index. -/
theorem run_copyIn {item : Item Word words} {head next : Nat} {ks done : List (Fin words)}
    (hat : s.producer = .copying item head next done) (hall : ∀ k, k ∈ ks ∨ k ∈ done) :
    s.run (ks.map .copyIn ++ [.storeHead]) =
      some ({ s with
        pub := { s.pub with ring := { s.pub.ring with
          buffer := writeWords s.pub.ring.buffer head item ks, head := next } }.countPublished
        producer := .idle }, [.publish item true]) := by
  induction ks generalizing s done with
  | nil =>
      have hdone : ∀ k, k ∈ done := fun k => (hall k).resolve_left (by simp)
      have hstep : s.step .storeHead = some ({ s.setHead next with
          pub := (s.setHead next).pub.countPublished, producer := .idle },
            [.publish item true]) := by
        rw [step, hat]
        exact if_pos hdone
      rw [List.map_nil, List.nil_append, run_cons hstep]
      rfl
  | cons j ks ih =>
      rw [List.map_cons, List.cons_append]
      have hstep : s.step (.copyIn j) =
          some ({ s.setBuffer (writeWord s.pub.ring.buffer head j (item j)) with
            producer := .copying item head next (j :: done) }, []) := by
        rw [step, hat]
      have hall' : ∀ k, k ∈ ks ∨ k ∈ j :: done := by
        intro k
        have hk := hall k
        simp only [List.mem_cons] at hk ⊢
        tauto
      rw [run_cons hstep, ih rfl hall']
      rfl

/-- The steps of `publish`, one after the other, are the call. -/
theorem run_publish (hidle : s.producer = .idle) (item : Item Word words) :
    ∃ steps, s.run steps = some ({ s with pub := (s.pub.publish item).2 },
      [.publish item (s.pub.publish item).1]) := by
  have hload : s.step (.publish item) =
      some ({ s with producer := .loadedHead item s.pub.ring.head }, []) := by
    rw [step, hidle]
  by_cases hfull : (s.pub.ring.head + 1) &&& SpscRingBuffer.mask capacity = s.pub.ring.tail
  · have hdrop : step { s with producer := .loadedHead item s.pub.ring.head } .loadTail =
        some ({ s with pub := s.pub.countDropped, producer := .idle }, [.publish item false]) :=
      if_pos hfull
    refine ⟨[.publish item, .loadTail], ?_⟩
    rw [run_cons hload, run_cons hdrop, MdPublisher.publish, SpscRingBuffer.tryPush, if_pos hfull,
      ← hidle]
    rfl
  · have hroom : step { s with producer := .loadedHead item s.pub.ring.head } .loadTail =
        some ({ s with
          producer := .copying item s.pub.ring.head
            ((s.pub.ring.head + 1) &&& SpscRingBuffer.mask capacity) [] }, []) :=
      if_neg hfull
    refine ⟨.publish item :: .loadTail :: ((List.finRange words).map .copyIn ++ [.storeHead]), ?_⟩
    rw [run_cons hload, run_cons hroom, run_copyIn rfl fun k => Or.inl (List.mem_finRange k),
      writeWords_all, MdPublisher.publish, SpscRingBuffer.tryPush, if_neg hfull, ← hidle]
    rfl

/-- The consumer copies words one after the other and then stores its index. -/
theorem run_copyOut {into : Item Word words} {tail : Nat} {ks done : List (Fin words)}
    (hat : s.consumer = .copying into tail done)
    (hdone : ∀ k ∈ done, into k = s.pub.ring.buffer tail k) (hall : ∀ k, k ∈ ks ∨ k ∈ done) :
    s.run (ks.map .copyOut ++ [.storeTail]) =
      some ({ s.setTail ((tail + 1) &&& SpscRingBuffer.mask capacity) with consumer := .idle },
        [.poll (some (s.pub.ring.buffer tail))]) := by
  -- the words in `done` are those that have been copied already
  induction ks generalizing s into done with
  | nil =>
      have hinto : into = s.pub.ring.buffer tail :=
        funext fun k => hdone k ((hall k).resolve_left (by simp))
      have hstep : s.step .storeTail =
          some ({ s.setTail ((tail + 1) &&& SpscRingBuffer.mask capacity) with consumer := .idle },
            [.poll (some into)]) := by
        rw [step, hat]
        exact if_pos fun k => (hall k).resolve_left (by simp)
      rw [List.map_nil, List.nil_append, run_cons hstep, hinto]
      rfl
  | cons j ks ih =>
      rw [List.map_cons, List.cons_append]
      have hstep : s.step (.copyOut j) =
          some ({ s with
            consumer := .copying (Function.update into j (s.pub.ring.buffer tail j)) tail
              (j :: done) }, []) := by
        rw [step, hat]
      have hdone' : ∀ k ∈ j :: done,
          Function.update into j (s.pub.ring.buffer tail j) k = s.pub.ring.buffer tail k := by
        intro k hk
        by_cases hkj : k = j
        · rw [hkj, Function.update_self]
        · rw [Function.update_of_ne hkj]
          exact hdone k ((List.mem_cons.mp hk).resolve_left hkj)
      have hall' : ∀ k, k ∈ ks ∨ k ∈ j :: done := by
        intro k
        have hk := hall k
        simp only [List.mem_cons] at hk ⊢
        tauto
      have hrest := ih (s := { s with
        consumer := .copying (Function.update into j (s.pub.ring.buffer tail j)) tail
          (j :: done) }) rfl hdone' hall'
      rw [run_cons hstep, hrest]
      rfl

/-- The steps of `poll`, one after the other, are the call. -/
theorem run_poll (hidle : s.consumer = .idle) (into : Item Word words) :
    ∃ steps, s.run steps = some ({ s with pub := (s.pub.poll into).2.2 },
      [.poll (if (s.pub.poll into).1 then some (s.pub.poll into).2.1 else none)]) := by
  have hload : s.step (.poll into) =
      some ({ s with consumer := .loadedTail into s.pub.ring.tail }, []) := by
    rw [step, hidle]
  by_cases hempty : s.pub.ring.tail = s.pub.ring.head
  · have hnone : step { s with consumer := .loadedTail into s.pub.ring.tail } .loadHead =
        some ({ s with consumer := .idle }, [.poll none]) := if_pos hempty
    refine ⟨[.poll into, .loadHead], ?_⟩
    rw [run_cons hload, run_cons hnone, MdPublisher.poll, SpscRingBuffer.tryPop, if_pos hempty,
      ← hidle]
    rfl
  · have hitem : step { s with consumer := .loadedTail into s.pub.ring.tail } .loadHead =
        some ({ s with consumer := .copying into s.pub.ring.tail [] }, []) := if_neg hempty
    refine ⟨.poll into :: .loadHead :: ((List.finRange words).map .copyOut ++ [.storeTail]), ?_⟩
    rw [run_cons hload, run_cons hitem,
      run_copyOut rfl (by simp) fun k => Or.inl (List.mem_finRange k), MdPublisher.poll,
      SpscRingBuffer.tryPop, if_neg hempty, ← hidle]
    rfl

end PublishSystem

end LimitOrderBook
