import LimitOrderBook.Listen.Shutdown
import Mathlib.Data.Fintype.Card

/-!
# The consumer returns

After `md_stop` has been stored, `run_xdp_listen` waits for its consumer. `shutdown_terminates`: the
consumer is never stuck, and it returns after a number of steps that is bounded by what is in the
ring, whatever the steps were before. Every step of it has less work to do than the one before
(`ListenInv.step_work`). The steps of a `poll` may copy the words of a slot in any order, but each
word once.
-/

namespace LimitOrderBook

open PublishSystem

/-! ## Work -/

/-- The steps that are left of a call of `poll`, or of the next one. -/
def pollWork : Consumer Int 8 → Nat
  | .idle => 11
  | .loadedTail _ _ => 10
  | .copying _ _ done => (Finset.univ.filter (· ∉ done)).card + 1

/-- The step of `poll` does not copy a word again. -/
def NewWord : Consumer Int 8 → PollStep → Prop
  | .copying _ _ done, .copyOut k => k ∉ done
  | _, _ => True

section Ring

variable {capacity : Nat} {r r' : PublishSystem Int 8 capacity}
  {returned : List (Returned Int 8)}

/-- One word less is left. -/
theorem card_missing {k : Fin 8} {done : List (Fin 8)} (hk : k ∉ done) :
    (Finset.univ.filter (· ∉ k :: done)).card < (Finset.univ.filter (· ∉ done)).card := by
  refine Finset.card_lt_card (Finset.ssubset_iff_subset_ne.mpr ⟨fun j hj => ?_, fun heq => ?_⟩)
  · rw [Finset.mem_filter] at hj ⊢
    exact ⟨hj.1, fun hmem => hj.2 (List.mem_cons_of_mem _ hmem)⟩
  · have hmem : k ∈ Finset.univ.filter (· ∉ done) := Finset.mem_filter.mpr ⟨Finset.mem_univ k, hk⟩
    rw [← heq, Finset.mem_filter] at hmem
    exact hmem.2 List.mem_cons_self

/-- No more than all steps of a call are left. -/
theorem pollWork_le (c : Consumer Int 8) : pollWork c ≤ 11 := by
  cases c with
  | idle => exact le_refl 11
  | loadedTail out tail => exact Nat.le_succ 10
  | copying out tail done =>
      have hcard := Finset.card_le_univ (Finset.univ.filter (· ∉ done))
      rw [Fintype.card_fin] at hcard
      exact (Nat.succ_le_succ hcard).trans (by decide)

/-- A step of `poll` leaves less of the call, or it returns: with nothing right after it has found
the indices equal, or with an item when all words are copied. -/
theorem poll_work {a : PollStep} {s : BookSignals} (hnew : NewWord r.consumer a)
    (hstep : r.step (a.on s) = some (r', returned)) :
    (returned = [] ∧ pollWork r'.consumer < pollWork r.consumer) ∨
      (returned = [.poll none] ∧ ∃ out, r.consumer = .loadedTail out r.pub.ring.head) ∨
      ∃ item, returned = [.poll (some item)] ∧ 0 < pollWork r.consumer ∧ r'.consumer = .idle := by
  cases a with
  | call =>
      simp only [PollStep.on, PublishSystem.step] at hstep
      split at hstep
      · next hat =>
          cases hstep
          rw [hat]
          exact Or.inl ⟨rfl, Nat.lt_succ_self 10⟩
      · cases hstep
  | loadHead =>
      simp only [PollStep.on, PublishSystem.step] at hstep
      split at hstep
      · next out tail hat =>
          split at hstep
          · next hempty =>
              cases hstep
              exact Or.inr (Or.inl ⟨rfl, out, hempty ▸ hat⟩)
          · cases hstep
            refine Or.inl ⟨rfl, ?_⟩
            rw [hat]
            show (Finset.univ.filter (· ∉ ([] : List (Fin 8)))).card + 1 < 10
            have hcard := Finset.card_le_univ (Finset.univ.filter (· ∉ ([] : List (Fin 8))))
            rw [Fintype.card_fin] at hcard
            omega
      · cases hstep
  | copyOut k =>
      simp only [PollStep.on, PublishSystem.step] at hstep
      split at hstep
      · next out tail done hat =>
          cases hstep
          rw [hat] at hnew
          refine Or.inl ⟨rfl, ?_⟩
          rw [hat]
          exact Nat.succ_lt_succ (card_missing hnew)
      · cases hstep
  | storeTail =>
      simp only [PollStep.on, PublishSystem.step] at hstep
      split at hstep
      · next out tail done hat =>
          split at hstep
          · cases hstep
            rw [hat]
            exact Or.inr (Or.inr ⟨out, rfl, Nat.succ_pos _, rfl⟩)
          · cases hstep
      · cases hstep

/-- There is always a next step of `poll`. -/
theorem exists_poll_step (r : PublishSystem Int 8 capacity) (s : BookSignals) :
    ∃ a, (r.step (a.on s)).isSome = true ∧ NewWord r.consumer a := by
  cases hat : r.consumer with
  | idle =>
      refine ⟨.call, ?_, trivial⟩
      simp only [PollStep.on, PublishSystem.step, hat, Option.isSome_some]
  | loadedTail out tail =>
      refine ⟨.loadHead, ?_, trivial⟩
      simp only [PollStep.on, PublishSystem.step, hat]
      split <;> rfl
  | copying out tail done =>
      by_cases hall : ∀ k, k ∈ done
      · refine ⟨.storeTail, ?_, trivial⟩
        simp only [PollStep.on, PublishSystem.step, hat, if_pos hall, Option.isSome_some]
      · obtain ⟨k, hk⟩ := not_forall.mp hall
        refine ⟨.copyOut k, ?_, hk⟩
        simp only [PollStep.on, PublishSystem.step, hat, Option.isSome_some]

end Ring

/-! ## The consumer after `md_stop` -/

namespace Listener

variable {poolCapacity windowSize capacity : Nat}

/-- What was accepted and is still to be polled. -/
def waiting (log : List (Returned Int 8)) : Nat := (accepted log).length - (polled log).length

/-- The steps that are left until the consumer returns. -/
def work (log : List (Returned Int 8)) (l : Listener poolCapacity windowSize capacity) : Nat :=
  match l.mdConsumer with
  | .polling => 11 * (waiting log + 1) + pollWork l.ring.consumer
  | .foundNone => 11 * waiting log + 12
  | .draining => 11 * waiting log + pollWork l.ring.consumer
  | .returned => 0

/-- The step does not copy a word again. -/
def CopiesNew (l : Listener poolCapacity windowSize capacity) : ListenStep → Prop
  | .poll a => NewWord l.ring.consumer a
  | _ => True

/-- None of the steps copies a word again. -/
def CopiesOnce (l : Listener poolCapacity windowSize capacity) : List ListenStep → Prop
  | [] => True
  | a :: as => l.CopiesNew a ∧ ∀ l' returned, l.step a = some (l', returned) → CopiesOnce l' as

variable {msgs : List FeedMessage} {log : List (Returned Int 8)}
  {l l' : Listener poolCapacity windowSize capacity} {returned : List (Returned Int 8)}

/-- A call of `poll` that returns with an item. -/
theorem waiting_poll {item : Item Int 8} (hfifo : polled (log ++ [.poll (some item)]) <+:
    accepted (log ++ [.poll (some item)])) :
    waiting (log ++ [.poll (some item)]) + 1 = waiting log := by
  have haccepted : accepted (log ++ [.poll (some item)]) = accepted log := by simp [accepted]
  have hpolled : polled (log ++ [.poll (some item)]) = polled log ++ [item] := by simp [polled]
  have hle := hfifo.length_le
  unfold waiting
  rw [haccepted, hpolled, List.length_append, List.length_singleton] at *
  omega

/-- A step of `poll` after `md_stop` has been stored. -/
theorem ListenInv.poll_work_lt (hcap : capacity.isPowerOfTwo) (h : ListenInv msgs log l)
    {a : PollStep} (hnew : NewWord l.ring.consumer a)
    (hstep : l.step (.poll a) = some (l', returned)) :
    work (log ++ returned) l' < work log l ∧ l'.mdStop = l.mdStop := by
  have h' := h.poll hcap hstep
  simp only [Listener.step] at hstep
  split at hstep
  · next hphase =>
      cases hring : l.ring.step (a.on l.s) with
      | none =>
          rw [hring] at hstep
          cases hstep
      | some next =>
          obtain ⟨ring, calls⟩ := next
          rw [hring] at hstep
          obtain ⟨rfl, hless⟩ | ⟨rfl, out, hat⟩ | ⟨item, rfl, hpos, hidle⟩ := poll_work hnew hring
          · cases hstep
            refine ⟨?_, rfl⟩
            rw [List.append_nil]
            unfold work
            rcases hphase with hphase | hphase
            · simp only [hphase]
              omega
            · simp only [hphase]
              omega
          · -- the ring is empty: the first loop goes on to the flag, the second ends
            have hempty : waiting log = 0 := by
              rw [waiting, polled_eq_accepted h.ring hat, Nat.sub_self]
            have hnothing : waiting (log ++ [.poll none]) = waiting log := by
              simp [waiting, accepted, polled]
            have hten : pollWork l.ring.consumer = 10 := by
              rw [hat]
              rfl
            cases hstep
            unfold work
            rw [hnothing, hempty]
            rcases hphase with hphase | hphase
            · simp only [afterPoll, hphase, hten]
              exact ⟨by decide, trivial⟩
            · simp only [afterPoll, hphase, hten]
              exact ⟨by decide, trivial⟩
          · cases hstep
            have hone := waiting_poll h'.ring.fifo
            have heleven : pollWork ring.consumer = 11 := by
              rw [hidle]
              rfl
            unfold work
            rcases hphase with hphase | hphase
            · simp only [afterPoll, hphase, heleven]
              exact ⟨by omega, trivial⟩
            · simp only [afterPoll, hphase, heleven]
              exact ⟨by omega, trivial⟩
  · cases hstep

/-- Every step after `md_stop` has been stored leaves less to do. -/
theorem ListenInv.step_work (hcap : capacity.isPowerOfTwo) (h : ListenInv msgs log l)
    (hstop : l.mdStop = true) {a : ListenStep} (hnew : l.CopiesNew a)
    (hstep : l.step a = some (l', returned)) :
    work (log ++ returned) l' < work log l ∧ l'.mdStop = true := by
  have hthread := h.book.stop.mp hstop
  cases a with
  | handle msg =>
      simp only [Listener.step, hthread] at hstep
      cases hstep
  | publish a =>
      simp only [Listener.step, hthread] at hstep
      cases hstep
  | stop =>
      simp only [Listener.step, hthread] at hstep
      cases hstep
  | poll a =>
      obtain ⟨hless, hsame⟩ := h.poll_work_lt hcap hnew hstep
      exact ⟨hless, hsame.trans hstop⟩
  | loadStop =>
      simp only [Listener.step] at hstep
      split at hstep
      · next hphase =>
          cases hstep
          have hle := pollWork_le l.ring.consumer
          rw [List.append_nil]
          unfold work
          simp only [hphase, hstop, if_true]
          exact ⟨by omega, trivial⟩
      · cases hstep

/-- No more steps are left than a call for each item in the ring and two more. -/
theorem ListenInv.work_le (h : ListenInv msgs log l) :
    work log l ≤ 11 * (MdPublisher.usableSlots capacity + 2) := by
  have hroom := h.ring.room
  have hle := pollWork_le l.ring.consumer
  have hwaiting : waiting log ≤ MdPublisher.usableSlots capacity := by
    unfold waiting MdPublisher.usableSlots
    omega
  unfold work
  split <;> omega

/-- The steps after `md_stop` has been stored are no more than are left. -/
theorem ListenInv.length_le_work (hcap : capacity.isPowerOfTwo) {steps : List ListenStep} :
    ∀ {msgs : List FeedMessage} {log returned : List (Returned Int 8)}
      {l l' : Listener poolCapacity windowSize capacity}, ListenInv msgs log l →
      l.mdStop = true → l.CopiesOnce steps → l.run steps = some (l', returned) →
      steps.length + work (log ++ returned) l' ≤ work log l ∧ l'.mdStop = true := by
  induction steps with
  | nil =>
      intro msgs log returned l l' _ hstop _ hrun
      cases hrun
      rw [List.append_nil, List.length_nil, Nat.zero_add]
      exact ⟨le_refl _, hstop⟩
  | cons a steps ih =>
      intro msgs log returned l l' h hstop honce hrun
      obtain ⟨⟨l₁, returned₁⟩, hstep, hrest⟩ := Option.bind_eq_some_iff.mp hrun
      obtain ⟨⟨l₂, returned₂⟩, hrun₂, hlast⟩ := Option.bind_eq_some_iff.mp hrest
      cases hlast
      obtain ⟨hless, hstop₁⟩ := h.step_work hcap hstop honce.1 hstep
      obtain ⟨hrun, hstop₂⟩ :=
        ih (h.step hcap hstep) hstop₁ (honce.2 _ _ hstep) hrun₂
      rw [← List.append_assoc, List.length_cons]
      exact ⟨by omega, hstop₂⟩

/-- The consumer has a next step until it has returned. -/
theorem exists_step (hret : l.mdConsumer ≠ .returned) :
    ∃ a, (l.step a).isSome = true ∧ l.CopiesNew a := by
  have hpoll : l.mdConsumer = .polling ∨ l.mdConsumer = .draining →
      ∃ a, (l.step a).isSome = true ∧ l.CopiesNew a := by
    intro hphase
    obtain ⟨a, hsome, hnew⟩ := exists_poll_step l.ring l.s
    refine ⟨.poll a, ?_, hnew⟩
    obtain ⟨next, hnext⟩ := Option.isSome_iff_exists.mp hsome
    simp only [Listener.step, if_pos hphase, hnext]
    split
    · rfl
    · rfl
    · next hnone => cases hnone
  cases hphase : l.mdConsumer with
  | polling => exact hpoll (Or.inl hphase)
  | draining => exact hpoll (Or.inr hphase)
  | returned => exact absurd hphase hret
  | foundNone =>
      refine ⟨.loadStop, ?_, trivial⟩
      simp only [Listener.step, hphase, Option.isSome_some]

/-- The consumer can return. -/
theorem ListenInv.exists_return (hcap : capacity.isPowerOfTwo) {n : Nat} :
    ∀ {msgs : List FeedMessage} {log : List (Returned Int 8)}
      {l : Listener poolCapacity windowSize capacity}, ListenInv msgs log l → l.mdStop = true →
      work log l < n → ∃ more l' returned, l.CopiesOnce more ∧ l.run more = some (l', returned) ∧
        l'.mdConsumer = .returned := by
  induction n with
  | zero =>
      intro msgs log l _ _ hwork
      exact absurd hwork (Nat.not_lt_zero _)
  | succ n ih =>
      intro msgs log l h hstop hwork
      by_cases hret : l.mdConsumer = .returned
      · exact ⟨[], l, [], trivial, rfl, hret⟩
      obtain ⟨a, hsome, hnew⟩ := exists_step hret
      obtain ⟨⟨l₁, returned₁⟩, hstep⟩ := Option.isSome_iff_exists.mp hsome
      obtain ⟨hless, hstop₁⟩ := h.step_work hcap hstop hnew hstep
      obtain ⟨more, l', returned, honce, hrun, hret'⟩ := ih (h.step hcap hstep) hstop₁ (by omega)
      refine ⟨a :: more, l', returned₁ ++ returned, ⟨hnew, fun l₂ returned₂ hstep₂ => ?_⟩, ?_,
        hret'⟩
      · obtain ⟨rfl, -⟩ := Prod.mk.inj (Option.some_inj.mp (hstep.symm.trans hstep₂))
        exact honce
      · rw [Listener.run, hstep]
        show (l₁.run more >>= _) = _
        rw [hrun]
        rfl

/-- After `md_stop` has been stored, the consumer returns: however the steps go on, there are no
more of them than `poll` takes for the slots of the ring and twice in addition, there is a next one
until the consumer has returned, and it can return. -/
theorem shutdown_terminates (hcap : capacity.isPowerOfTwo) (buffer : Nat → Item Int 8)
    (steps : List ListenStep) (l : Listener poolCapacity windowSize capacity)
    (log : List (Returned Int 8)) (hrun : (fresh buffer).run steps = some (l, log))
    (hstop : l.mdStop = true) :
    (∀ more l' returned, l.CopiesOnce more → l.run more = some (l', returned) →
      more.length ≤ 11 * (MdPublisher.usableSlots capacity + 2) ∧
        (l'.mdConsumer ≠ .returned → ∃ a, (l'.step a).isSome = true ∧ l'.CopiesNew a)) ∧
      ∃ more l' returned, l.CopiesOnce more ∧ l.run more = some (l', returned) ∧
        l'.mdConsumer = .returned := by
  have h := (fresh_listenInv hcap buffer).run hcap hrun
  rw [List.nil_append, List.nil_append] at h
  refine ⟨fun more l' returned honce hmore => ?_, h.exists_return hcap hstop (Nat.lt_succ_self _)⟩
  obtain ⟨hlength, -⟩ := h.length_le_work hcap hstop honce hmore
  have hle := h.work_le
  exact ⟨by omega, exists_step⟩

/-- A snapshot waits in the ring when `md_stop` is stored. -/
theorem shutdown_terminates_one_waiting :
    ∃ (l : Listener 2 64 2) (log : List (Returned Int 8)),
      (fresh fun _ _ => 0).run ([.handle ⟨.addOrder, .buy, 1, 100, 5, 0⟩, .publish .call,
        .publish .loadTail] ++ (List.finRange 8).map (fun k => ListenStep.publish (.copyIn k)) ++
        [.publish .storeHead, .stop]) = some (l, log) ∧ l.mdConsumer = .polling ∧
      ∃ more l' returned, l.run more = some (l', returned) ∧ more.length ≤ 33 ∧
        l'.mdConsumer = .returned := by
  have hview : ((fresh fun _ _ => 0 : Listener 2 64 2).run
      ([.handle ⟨.addOrder, .buy, 1, 100, 5, 0⟩, .publish .call, .publish .loadTail] ++
        (List.finRange 8).map (fun k => ListenStep.publish (.copyIn k)) ++
        [.publish .storeHead, .stop])).map (fun r => (r.1.mdConsumer, r.1.mdStop)) =
      some (.polling, true) := by decide +kernel
  obtain ⟨⟨l, log⟩, hrun, hobs⟩ := Option.map_eq_some_iff.mp hview
  obtain ⟨hpolling, hstop⟩ := Prod.mk.inj hobs
  obtain ⟨hbound, more, l', returned, honce, hmore, hret⟩ :=
    shutdown_terminates ⟨1, rfl⟩ (fun _ _ => 0) _ l log hrun hstop
  exact ⟨l, log, hrun, hpolling, more, l', returned, hmore, (hbound more l' returned honce hmore).1,
    hret⟩

end Listener

end LimitOrderBook
