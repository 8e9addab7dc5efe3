import Mathlib.Data.List.Basic
import Mathlib.Data.List.TakeDrop

/-!
# Histories that borrow a prefix

A branch keeps only the items from its base on and reads the earlier ones from
the history it branched off. Items are numbered from 1, so a branch based at
`base` borrows the first `base - 1` items of `upper`.
-/

namespace Figwal.Lib

open List

set_option autoImplicit false

section Splice

variable {Item : Type}

/-- The history of a branch based at `base` with items `own`. -/
def splice (base : Nat) (upper own : List Item) : List Item :=
  upper.take (base - 1) ++ own

variable {base : Nat} {upper own : List Item} {count : Nat}

theorem splice_length (positive : 1 ≤ base) (fits : base ≤ upper.length + 1) :
    (splice base upper own).length + 1 = base + own.length := by
  rw [splice, length_append, length_take]
  omega

theorem splice_get_borrowed (fits : base ≤ upper.length + 1) {index : Nat}
    (low : 1 ≤ index) (below : index < base) :
    (splice base upper own)[index - 1]? = upper[index - 1]? := by
  rw [splice, getElem?_append_left (by rw [length_take]; omega),
    getElem?_take_of_lt (by omega)]

theorem splice_get_own (positive : 1 ≤ base) (fits : base ≤ upper.length + 1) {index : Nat}
    (above : base ≤ index) :
    (splice base upper own)[index - 1]? = own[index - base]? := by
  have borrowed : (upper.take (base - 1)).length = base - 1 := by
    rw [length_take]
    omega
  rw [splice, getElem?_append_right (by omega), borrowed]
  congr 1
  omega

/-- Whatever is appended to the upper history, the branch does not see it. -/
theorem splice_of_prefix {longer : List Item} (fits : base ≤ upper.length + 1)
    (grown : upper <+: longer) : splice base longer own = splice base upper own := by
  obtain ⟨rest, rfl⟩ := grown
  rw [splice, splice, take_append_of_le_length (by omega)]

theorem take_splice_below (below : count + 1 ≤ base) (fits : base ≤ upper.length + 1) :
    (splice base upper own).take count = upper.take count := by
  rw [splice, take_append_of_le_length (by rw [length_take]; omega), take_take,
    Nat.min_eq_left (by omega)]

theorem take_splice_above (positive : 1 ≤ base) (above : base ≤ count + 1)
    (fits : base ≤ upper.length + 1) :
    (splice base upper own).take count = splice base upper (own.take (count + 1 - base)) := by
  have borrowed : (upper.take (base - 1)).length = base - 1 := by
    rw [length_take]
    omega
  rw [splice, splice, take_append, borrowed, take_of_length_le (by omega)]
  congr 2
  omega

/-- Splitting a branch in two at `cut` and reading the upper part through the
lower one gives the branch back. -/
theorem splice_splice {cut : Nat} (positive : 1 ≤ base) (above : base ≤ cut)
    (fits : base ≤ upper.length + 1) (inside : cut ≤ base + own.length) :
    splice cut (splice base upper (own.take (cut - base))) (own.drop (cut - base)) =
      splice base upper own := by
  have borrowed : (upper.take (base - 1)).length = base - 1 := by
    rw [length_take]
    omega
  have kept : (own.take (cut - base)).length = cut - base := by
    rw [length_take]
    omega
  have whole : (splice base upper (own.take (cut - base))).take (cut - 1) =
      splice base upper (own.take (cut - base)) := by
    rw [take_of_length_le]
    rw [splice, length_append]
    omega
  rw [splice, whole, splice, splice, append_assoc, take_append_drop]

end Splice

end Figwal.Lib
