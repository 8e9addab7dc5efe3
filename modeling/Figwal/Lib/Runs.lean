import Mathlib.Data.List.Basic

/-!
# Runs of a deterministic machine

A machine is a function that applies one operation to a state. `EveryStep`
says that each operation of a run stands in some relation to the state it is
applied to. The one induction over runs that safety proofs need is here.
-/

namespace Figwal.Lib

set_option autoImplicit false

section Runs

variable {State Op : Type} (apply : State → Op → State) {run : List Op} {state : State}

/-- Each operation of the run satisfies `holds` in the state it meets. -/
def EveryStep (holds : State → Op → Prop) : State → List Op → Prop
  | _, [] => True
  | state, op :: rest => holds state op ∧ EveryStep holds (apply state op) rest

instance everyStepDecidable (holds : State → Op → Prop)
    [∀ state op, Decidable (holds state op)] (state : State) (run : List Op) :
    Decidable (EveryStep apply holds state run) :=
  match run with
  | [] => .isTrue trivial
  | op :: rest =>
    have := everyStepDecidable holds (apply state op) rest
    inferInstanceAs (Decidable (_ ∧ _))

theorem every_step_and {first second : State → Op → Prop} (left : EveryStep apply first state run)
    (right : EveryStep apply second state run) :
    EveryStep apply (fun state op => first state op ∧ second state op) state run := by
  induction run generalizing state with
  | nil => trivial
  | cons op rest ih => exact ⟨⟨left.1, right.1⟩, ih left.2 right.2⟩

theorem every_step_of_forall {holds : Op → Prop} (all : ∀ op ∈ run, holds op) :
    EveryStep apply (fun _ op => holds op) state run := by
  induction run generalizing state with
  | nil => trivial
  | cons op rest ih =>
    exact ⟨all op List.mem_cons_self, ih fun later member =>
      all later (List.mem_cons_of_mem _ member)⟩

theorem every_step_last {holds : State → Op → Prop} {op : Op}
    (every : EveryStep apply holds state (run ++ [op])) : holds (run.foldl apply state) op := by
  induction run generalizing state with
  | nil => exact every.1
  | cons first rest ih => exact ih every.2

/-- An invariant that every admitted step keeps makes every admitted run good. -/
theorem every_step_of_invariant (invariant : State → Prop) {admitted holds : State → Op → Prop}
    (step : ∀ state op, invariant state → admitted state op →
      holds state op ∧ invariant (apply state op)) (start : invariant state)
    (meets : EveryStep apply admitted state run) : EveryStep apply holds state run := by
  induction run generalizing state with
  | nil => trivial
  | cons op rest ih =>
    obtain ⟨first, later⟩ := meets
    obtain ⟨good, kept⟩ := step state op start first
    exact ⟨good, ih kept later⟩

theorem invariant_after (invariant : State → Prop) {admitted : State → Op → Prop}
    (step : ∀ state op, invariant state → admitted state op → invariant (apply state op))
    (start : invariant state) (meets : EveryStep apply admitted state run) :
    invariant (run.foldl apply state) := by
  induction run generalizing state with
  | nil => exact start
  | cons op rest ih => exact ih (step state op start meets.1) meets.2

end Runs

end Figwal.Lib
