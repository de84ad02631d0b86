import LimitOrderBook.Listen.WeakMemory

/-!
# Interleavings without old values

The interleaving model of the ring, `PublishSystem`, is the case of `WeakListener` in which each
load reads the newest store: every run of the former is one of the latter
(`weak_run_of_interleaving`).
-/

namespace LimitOrderBook

open ReleaseAcquire (Memory)

namespace WeakListener

variable {Word : Type} {words capacity : Nat} {s : WeakListener Word words capacity}
  {p p' : PublishSystem Word words capacity} {log returned : List (Returned Word words)}

/-- The two models are in the same place, and the flag is not set. -/
structure Same (p : PublishSystem Word words capacity) (s : WeakListener Word words capacity) :
    Prop where
  slots : buffer s.memory = p.pub.ring.buffer
  published : s.published = p.pub.published
  dropped : s.dropped = p.pub.dropped
  producer : s.producer = p.producer
  consumer : s.consumer = p.consumer
  running : s.stopped = false
  polling : s.mdConsumer = .polling
  unset : s.memory.history .stop = [⟨0, .start⟩]

/-- One step is a run. -/
theorem run_single {a : WeakStep Word words} {s' : WeakListener Word words capacity}
    (hstep : s.step a = some (.ok (s', returned))) :
    s.run [a] = some (.ok (s', returned)) := by
  simp [run, hstep, Except.map]

/-- Runs one after the other. -/
theorem run_append {first second : List (WeakStep Word words)}
    {s₁ s₂ : WeakListener Word words capacity} {returned' : List (Returned Word words)}
    (hfirst : s.run first = some (.ok (s₁, returned)))
    (hsecond : s₁.run second = some (.ok (s₂, returned'))) :
    s.run (first ++ second) = some (.ok (s₂, returned ++ returned')) := by
  induction first generalizing s returned with
  | nil =>
      cases hfirst
      exact hsecond
  | cons a first ih =>
      rw [run] at hfirst
      rw [List.cons_append, run]
      split at hfirst
      · cases hfirst
      · cases hfirst
      · next s' returned₁ hstep =>
          obtain ⟨outcome, hrest, hsome⟩ := Option.map_eq_some_iff.mp hfirst
          cases outcome with
          | error race => cases hsome
          | ok r =>
              obtain ⟨s'', returned₂⟩ := r
              cases hsome
              rw [ih hrest]
              simp [Except.map]

/-- A step of the interleaving model is one of this model, with loads of the newest stores. The
consumer that finds nothing looks at the flag before it polls again. -/
theorem step_of_step (hsame : Same p s) (hp : PublishSystem.Inv log p) (hs : WeakInv log s)
    {a : ThreadStep Word words} (hstep : p.step a = some (p', returned)) :
    ∃ steps s', s.run steps = some (.ok (s', returned)) ∧ Same p' s' := by
  have hwf := hs.memory.wf
  cases a with
  | publish item =>
      simp only [PublishSystem.step] at hstep
      split at hstep
      · next hidle =>
          cases hstep
          obtain ⟨msg, hmsg, hload⟩ := hwf.loadRelaxed_newest hs.memory.headCount
          have hhead : msg.value = p.pub.ring.head := by
            rw [hs.memory.heads _ _ hmsg, hp.head]
          refine ⟨[.publish item (accepted log).length],
            { s with producer := .loadedHead item p.pub.ring.head }, run_single ?_,
            { hsame with producer := rfl }⟩
          simp only [step, hsame.running, hsame.producer, hidle]
          rw [show s.memory.loadRelaxed .producer .head _ = _ from hload, hhead]
          rfl
      · cases hstep
  | loadTail =>
      simp only [PublishSystem.step] at hstep
      split at hstep
      · next item head hat =>
          obtain ⟨msg, hmsg, hload⟩ := hwf.load_newest hs.memory.tailCount .producer
          have htail : msg.value = p.pub.ring.tail := by
            rw [hs.memory.tails _ _ hmsg, hp.tail]
          refine ⟨[.loadTail (polled log).length], ?_⟩
          split at hstep
          · next hfull =>
              cases hstep
              refine ⟨{ s with
                  memory := s.memory.setView .producer ((s.memory.views .producer).join msg.view)
                  dropped := s.dropped + 1
                  producer := .idle }, run_single ?_, { hsame with
                dropped := congrArg (· + 1) hsame.dropped, producer := rfl }⟩
              simp only [step, hsame.producer, hat, hload, htail, Option.bind_eq_bind,
                Option.bind_some, if_pos hfull]
          · next hroom =>
              cases hstep
              refine ⟨{ s with
                  memory := s.memory.setView .producer ((s.memory.views .producer).join msg.view)
                  producer := .copying item head ((head + 1) &&& SpscRingBuffer.mask capacity) [] },
                run_single ?_, { hsame with producer := rfl }⟩
              simp only [step, hsame.producer, hat, hload, htail, Option.bind_eq_bind,
                Option.bind_some, if_neg hroom]
      · cases hstep
  | copyIn k =>
      simp only [PublishSystem.step] at hstep
      split at hstep
      · next item head next done hat =>
          cases hstep
          obtain ⟨m, hwrite, -⟩ := hs.copyIn (hsame.producer.trans hat) k
          have hafter : m = s.memory.afterWrite .producer (head, k) (item k) := by
            rw [Memory.write] at hwrite
            split at hwrite
            · exact (Except.ok.inj hwrite).symm
            · cases hwrite
          refine ⟨[.copyIn k], { s with
            memory := m, producer := .copying item head next (k :: done) }, run_single ?_, ?_⟩
          · simp only [step, hsame.producer, hat, hwrite]
            rfl
          · refine { hsame with slots := ?_, producer := rfl, unset := ?_ }
            · show buffer m = PublishSystem.writeWord p.pub.ring.buffer head k (item k)
              rw [hafter, buffer_afterWrite, hsame.slots]
            · rw [hafter]
              exact hsame.unset
      · cases hstep
  | storeHead =>
      simp only [PublishSystem.step] at hstep
      split at hstep
      · next item head next done hat =>
          split at hstep
          · next hall =>
              cases hstep
              refine ⟨[.storeHead], { s with
                  memory := s.memory.store .producer .head next
                  published := s.published + 1
                  producer := .idle }, run_single ?_, { hsame with
                published := congrArg (· + 1) hsame.published, producer := rfl }⟩
              simp only [step, hsame.producer, hat, if_pos hall]
          · cases hstep
      · cases hstep
  | poll into =>
      simp only [PublishSystem.step] at hstep
      split at hstep
      · next hidle =>
          cases hstep
          obtain ⟨msg, hmsg, hload⟩ := hwf.loadRelaxed_newest hs.memory.tailCount
          have htail : msg.value = p.pub.ring.tail := by
            rw [hs.memory.tails _ _ hmsg, hp.tail]
          refine ⟨[.poll into (polled log).length],
            { s with consumer := .loadedTail into p.pub.ring.tail }, run_single ?_,
            { hsame with consumer := rfl }⟩
          simp only [step, hsame.polling, true_or, if_true, hsame.consumer, hidle]
          rw [show s.memory.loadRelaxed .consumer .tail _ = _ from hload, htail]
          rfl
      · cases hstep
  | loadHead =>
      simp only [PublishSystem.step] at hstep
      split at hstep
      · next into tail hat =>
          obtain ⟨msg, hmsg, hload⟩ := hwf.load_newest hs.memory.headCount .consumer
          have hhead : msg.value = p.pub.ring.head := by
            rw [hs.memory.heads _ _ hmsg, hp.head]
          split at hstep
          · next hempty =>
              cases hstep
              -- the flag is not set, so the consumer goes back to the head of its loop
              have hnow := hs.loadOther hmsg
              obtain ⟨flag, hflag, hloadFlag⟩ := hnow.memory.wf.load_newest
                (show (s.memory.history .stop).length = 0 + 1 by rw [hsame.unset]; rfl) .consumer
              have hzero : flag.value = 0 := by
                have hfirst : (s.memory.history .stop)[0]? = some flag := hflag
                rw [hsame.unset] at hfirst
                rw [← Option.some.inj hfirst]
              let m := s.memory.setView .consumer ((s.memory.views .consumer).join msg.view)
              refine ⟨[.loadHead (accepted log).length, .loadStop 0], { s with
                memory := m.setView .consumer ((m.views .consumer).join flag.view)
                consumer := .idle
                mdConsumer := .polling }, ?_, { hsame with consumer := rfl, polling := rfl }⟩
              have hfirst : s.step (.loadHead (accepted log).length) = some (.ok ({ s with
                  memory := m, consumer := .idle, mdConsumer := .foundNone }, [.poll none])) := by
                simp only [step, hsame.consumer, hat, hload, hhead, Option.bind_eq_bind,
                  Option.bind_some, if_pos hempty, afterPoll, hsame.polling]
                rfl
              rw [run, hfirst]
              simp only [run, step, show m.load .consumer .stop 0 = _ from hloadFlag, hzero]
              rfl
          · next hne =>
              cases hstep
              refine ⟨[.loadHead (accepted log).length], { s with
                  memory := s.memory.setView .consumer ((s.memory.views .consumer).join msg.view)
                  consumer := .copying into tail [] }, run_single ?_,
                { hsame with consumer := rfl }⟩
              simp only [step, hsame.consumer, hat, hload, hhead, Option.bind_eq_bind,
                Option.bind_some, if_neg hne]
      · cases hstep
  | copyOut k =>
      simp only [PublishSystem.step] at hstep
      split at hstep
      · next into tail done hat =>
          cases hstep
          obtain ⟨value, m, hread, -⟩ := hs.copyOut (hsame.consumer.trans hat) k
          have hafter : value = p.pub.ring.buffer tail k ∧
              m = s.memory.afterRead .consumer (tail, k) := by
            rw [Memory.read] at hread
            split at hread
            · obtain ⟨rfl, rfl⟩ := Prod.mk.inj (Except.ok.inj hread)
              exact ⟨congrFun (congrFun hsame.slots tail) k, rfl⟩
            · cases hread
          refine ⟨[.copyOut k], { s with
            memory := m
            consumer := .copying (Function.update into k (p.pub.ring.buffer tail k)) tail
              (k :: done) }, run_single ?_, ?_⟩
          · simp only [step, hsame.consumer, hat, hread, hafter.1]
            rfl
          · refine { hsame with slots := ?_, consumer := rfl, unset := ?_ }
            · show buffer m = _
              rw [hafter.2, buffer_afterRead, hsame.slots]
            · rw [hafter.2]
              exact hsame.unset
      · cases hstep
  | storeTail =>
      simp only [PublishSystem.step] at hstep
      split at hstep
      · next into tail done hat =>
          split at hstep
          · next hall =>
              cases hstep
              refine ⟨[.storeTail], { s with
                  memory := s.memory.store .consumer .tail
                    ((tail + 1) &&& SpscRingBuffer.mask capacity)
                  consumer := .idle
                  mdReceived := s.mdReceived + 1 }, run_single ?_, { hsame with consumer := rfl }⟩
              simp only [step, hsame.consumer, hat, if_pos hall]
              rfl
          · cases hstep
      · cases hstep

/-- A run of the interleaving model is a run of this model. -/
theorem run_of_run (hcap : capacity.isPowerOfTwo) (hsame : Same p s) (hp : PublishSystem.Inv log p)
    (hs : WeakInv log s) {steps : List (ThreadStep Word words)}
    (hrun : p.run steps = some (p', returned)) :
    ∃ weakSteps s', s.run weakSteps = some (.ok (s', returned)) ∧ Same p' s' := by
  induction steps generalizing p s log returned with
  | nil =>
      cases hrun
      exact ⟨[], s, rfl, hsame⟩
  | cons a steps ih =>
      obtain ⟨⟨p₁, returned₁⟩, hstep, hrest⟩ := Option.bind_eq_some_iff.mp hrun
      obtain ⟨⟨p₂, returned₂⟩, hrun₂, hlast⟩ := Option.bind_eq_some_iff.mp hrest
      cases hlast
      obtain ⟨first, s₁, hfirst, hsame₁⟩ := step_of_step hsame hp hs hstep
      obtain ⟨s₁', returned₁', heq, hs₁⟩ := run_ok hcap hs hfirst
      obtain ⟨rfl, rfl⟩ := Prod.mk.inj (Except.ok.inj heq)
      obtain ⟨second, s₂, hsecond, hsame₂⟩ :=
        ih hsame₁ (PublishSystem.step_inv hcap hp hstep) hs₁ hrun₂
      exact ⟨first ++ second, s₂, run_append hfirst hsecond, hsame₂⟩

/-- Every interleaving of the ring in which each load reads the newest value is also a run under
release and acquire, with the same results of all calls. -/
theorem weak_run_of_interleaving (hcap : capacity.isPowerOfTwo) (contents : Nat → Item Word words)
    (steps : List (ThreadStep Word words)) (p : PublishSystem Word words capacity)
    (log : List (Returned Word words))
    (hrun : PublishSystem.run (.fresh contents) steps = some (p, log)) :
    ∃ (weakSteps : List (WeakStep Word words)) (s : WeakListener Word words capacity),
      run (fresh contents) weakSteps = some (.ok (s, log)) ∧
      buffer s.memory = p.pub.ring.buffer ∧ s.producer = p.producer ∧ s.consumer = p.consumer ∧
      s.published = p.pub.published ∧ s.dropped = p.pub.dropped := by
  have hsame : Same (.fresh contents : PublishSystem Word words capacity) (fresh contents) :=
    ⟨rfl, rfl, rfl, rfl, rfl, rfl, rfl, rfl⟩
  obtain ⟨weakSteps, s, hweak, hend⟩ := run_of_run hcap hsame
    (PublishSystem.fresh_inv hcap contents) (fresh_weakInv (Nat.pos_of_isPowerOfTwo hcap) contents)
    hrun
  exact ⟨weakSteps, s, hweak, hend.slots, hend.producer, hend.consumer, hend.published,
    hend.dropped⟩

/-- An item is published and polled. -/
theorem weak_run_of_interleaving_one_item :
    ∃ (weakSteps : List (WeakStep Nat 1)) (s : WeakListener Nat 1 2) (log : List (Returned Nat 1)),
      run (fresh fun _ _ => 0) weakSteps = some (.ok (s, log)) ∧
      (polled log).map List.ofFn = [[7]] := by
  have hlog : (PublishSystem.run (.fresh fun _ _ => 0 : PublishSystem Nat 1 2)
      [.publish fun _ => 7, .loadTail, .copyIn 0, .storeHead, .poll fun _ => 0, .loadHead,
        .copyOut 0, .storeTail]).map (fun r => (polled r.2).map List.ofFn) = some [[7]] := by rfl
  obtain ⟨⟨p, log⟩, hrun, hitems⟩ := Option.map_eq_some_iff.mp hlog
  obtain ⟨weakSteps, s, hweak, -⟩ := weak_run_of_interleaving ⟨1, rfl⟩ _ _ p log hrun
  exact ⟨weakSteps, s, log, hweak, hitems⟩

end WeakListener

end LimitOrderBook
