import Mathlib.Tactic.Common

/-!
# Programs with early exits

A program that changes a state and may leave early is a value of `ExceptT ε (StateM σ) α`. The state
it leaves behind counts also when it leaves early, so a specification has two postconditions: one
for the end of the program and one for every early exit.
-/

namespace EarlyExit

variable {ε σ α β : Type}

/-- From a state with `P` the program ends in a state with `Q`, or leaves early in one with `E`. -/
def Triple (P : σ → Prop) (x : ExceptT ε (StateM σ) α) (Q : α → σ → Prop) (E : σ → Prop) : Prop :=
  ∀ s, P s → match x.run.run s with
    | (.ok a, s') => Q a s'
    | (.error _, s') => E s'

variable {P P' : σ → Prop} {Q Q' : α → σ → Prop} {R : β → σ → Prop} {E : σ → Prop}
  {x : ExceptT ε (StateM σ) α}

theorem Triple.pure (a : α) (h : ∀ s, P s → Q a s) :
    Triple P (Pure.pure a : ExceptT ε (StateM σ) α) Q E :=
  fun s hs => h s hs

theorem Triple.throw (e : ε) (h : ∀ s, P s → E s) :
    Triple P (MonadExcept.throw e : ExceptT ε (StateM σ) α) Q E :=
  fun s hs => h s hs

/-- The first part of a program establishes what the second one needs. -/
theorem Triple.bind {f : α → ExceptT ε (StateM σ) β} (hx : Triple P x Q E)
    (hf : ∀ a, Triple (Q a) (f a) R E) : Triple P (x >>= f) R E := by
  intro s hs
  have hfirst := hx s hs
  show match (do
      match ← x.run with
      | .ok a => (f a).run
      | .error e => Pure.pure (Except.error e) : StateM σ (Except ε β)).run s with
    | (.ok b, s') => R b s'
    | (.error _, s') => E s'
  rw [StateT.run_bind]
  generalize x.run.run s = r at hfirst ⊢
  obtain ⟨outcome, s'⟩ := r
  cases outcome with
  | ok a => exact hf a s' hfirst
  | error e => exact hfirst

end EarlyExit
