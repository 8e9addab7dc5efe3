import Mathlib

/-!
# A ledger

A list whose entries carry weights, and the total of them. Changing the entry at one
place changes the total by the difference, and leaves alone what the change keeps.
-/

namespace Figwal.Lib

set_option autoImplicit false

section Ledger

variable {Entry Part : Type}

theorem map_modify_same (part : Entry → Part) (change : Entry → Entry) (entries : List Entry)
    (place : Nat)
    (kept : ∀ entry, entries[place]? = some entry → part (change entry) = part entry) :
    (entries.modify place change).map part = entries.map part := by
  apply List.ext_getElem?
  intro index
  rw [List.getElem?_map, List.getElem?_map, List.getElem?_modify]
  by_cases here : place = index
  · subst here
    cases found : entries[place]? with
    | none => rfl
    | some entry => simp [kept entry found]
  · simp [here]

theorem total_modify (weight : Entry → Nat) (change : Entry → Entry) {entries : List Entry}
    {place : Nat} {entry : Entry} (found : entries[place]? = some entry) :
    ((entries.modify place change).map weight).sum + weight entry =
      (entries.map weight).sum + weight (change entry) := by
  induction entries generalizing place with
  | nil => cases found
  | cons head rest ih =>
    cases place with
    | zero =>
      cases found
      rw [List.modify_zero_cons]
      simp only [List.map_cons, List.sum_cons]
      omega
    | succ place =>
      have later := ih found
      rw [List.modify_succ_cons]
      simp only [List.map_cons, List.sum_cons]
      omega

end Ledger

end Figwal.Lib
