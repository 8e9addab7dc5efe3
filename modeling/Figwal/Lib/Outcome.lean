import Mathlib.Data.List.Forall2

/-!
# Calls that may fail

What a successful result says about the calls it was made of.
-/

namespace Figwal.Lib

set_option autoImplicit false

variable {ε ε' α γ : Type} {call : Except ε α}

theorem map_eq_ok {f : α → γ} {result : γ} :
    call.map f = .ok result ↔ ∃ value, call = .ok value ∧ f value = result := by
  cases call with
  | error err => simp [Except.map]
  | ok value => simp [Except.map]

theorem map_error_eq_ok {f : ε → ε'} {result : α} :
    call.mapError f = .ok result ↔ call = .ok result := by
  cases call with
  | error err => simp [Except.mapError]
  | ok value => simp [Except.mapError]

theorem mem_answers {result : α} : result ∈ call.toOption.toList ↔ call = .ok result := by
  cases call with
  | error err => simp [Except.toOption]
  | ok value => simp [Except.toOption, eq_comm]

theorem calls_eq_ok {call : α → Except ε γ} {items : List α} {results : List γ} :
    items.mapM call = .ok results ↔
      List.Forall₂ (fun item result => call item = .ok result) items results := by
  induction items generalizing results with
  | nil =>
    constructor
    · intro done
      cases done
      exact .nil
    · intro each
      cases each
      rfl
  | cons first rest ih =>
    rw [List.mapM_cons]
    constructor
    · intro done
      cases here : call first with
      | error err =>
        rw [here] at done
        cases done
      | ok result =>
        rw [here] at done
        cases later : rest.mapM call with
        | error err =>
          rw [later] at done
          cases done
        | ok others =>
          rw [later] at done
          cases done
          exact .cons here (ih.mp later)
    · intro each
      cases each with
      | cons here later =>
        rw [here, ih.mpr later]
        rfl

end Figwal.Lib
