import Mathlib.Data.List.Basic

/-!
# Recovery that is interrupted

A procedure makes its changes durable one after the other. A crash leaves the state
that one of them left, and the procedure starts again from there. If the states it
passes through all have the outcome of the state it started from, then any number of
crashes changes nothing about the outcome.
-/

namespace Figwal.Lib

set_option autoImplicit false

section Recovery

variable {State Outcome : Type} (durable : State → List State)

def crashAt (state : State) (steps : Nat) : State :=
  ((state :: durable state)[steps]?).getD state

theorem crash_at_mem (state : State) (steps : Nat) :
    crashAt durable state steps = state ∨ crashAt durable state steps ∈ durable state := by
  unfold crashAt
  cases found : (state :: durable state)[steps]? with
  | none => exact Or.inl rfl
  | some later => exact List.mem_cons.mp (List.mem_of_getElem? found)

theorem invariant_after_crashes (invariant : State → Prop)
    (step : ∀ state, invariant state → ∀ later ∈ durable state, invariant later)
    {state : State} (start : invariant state) (crashes : List Nat) :
    invariant (crashes.foldl (crashAt durable) state) := by
  induction crashes generalizing state with
  | nil => exact start
  | cons steps rest ih =>
    apply ih
    rcases crash_at_mem durable state steps with same | later
    · rw [same]
      exact start
    · exact step state start _ later

theorem outcome_after_crashes (invariant : State → Prop) (outcome : State → Outcome)
    (step : ∀ state, invariant state → ∀ later ∈ durable state,
      invariant later ∧ outcome later = outcome state)
    {state : State} (start : invariant state) (crashes : List Nat) :
    invariant (crashes.foldl (crashAt durable) state) ∧
      outcome (crashes.foldl (crashAt durable) state) = outcome state := by
  apply invariant_after_crashes durable
    (fun later => invariant later ∧ outcome later = outcome state)
  · rintro middle ⟨holds, same⟩ later change
    obtain ⟨kept, equal⟩ := step middle holds later change
    exact ⟨kept, equal.trans same⟩
  · exact ⟨start, rfl⟩

end Recovery

end Figwal.Lib
