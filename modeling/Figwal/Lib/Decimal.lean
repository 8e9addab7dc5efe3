import Mathlib.Data.List.Basic
import Mathlib.Tactic.IntervalCases

/-!
# Decimal numerals

Numbers as ASCII digits without leading zeros, and the loop that reads them back into a
machine word, checking for overflow before each digit.
-/

namespace Figwal.Lib

open List

variable {number : Nat}

set_option autoImplicit false

abbrev Text := List UInt8

theorem every_byte {holds : UInt8 → Prop} (all : ∀ number : Fin 256, holds (UInt8.ofNat number))
    (byte : UInt8) : holds byte := by
  have one := all ⟨byte.toNat, byte.toNat_lt⟩
  rwa [UInt8.ofNat_toNat] at one

def ascii (text : String) : Text :=
  text.toList.map fun character => UInt8.ofNat character.toNat

def digitByte (digit : Nat) : UInt8 :=
  UInt8.ofNat (48 + digit)

def isDigit (byte : UInt8) : Bool :=
  48 ≤ byte && byte ≤ 57

def digitValue (byte : UInt8) : Nat :=
  byte.toNat - 48

def decimalLoop : Nat → Nat → Text → Text
  | 0, _, later => later
  | fuel + 1, number, later =>
    if number < 10 then digitByte (number % 10) :: later
    else decimalLoop fuel (number / 10) (digitByte (number % 10) :: later)

def decimal (number : Nat) : Text :=
  decimalLoop (number + 1) number []

/-- Reads digits up to the first other byte. `none` if the number exceeds the limit. -/
def readBounded (limit : Nat) : Nat → Text → Option (Nat × Text)
  | value, [] => some (value, [])
  | value, byte :: rest =>
    if isDigit byte then
      if (limit - digitValue byte) / 10 < value then none
      else readBounded limit (value * 10 + digitValue byte) rest
    else some (value, byte :: rest)

def StopsDigits (rest : Text) : Prop :=
  ∀ byte ∈ rest.head?, isDigit byte = false

theorem digit_byte_spec {digit : Nat} (small : digit < 10) :
    isDigit (digitByte digit) = true ∧ digitValue (digitByte digit) = digit := by
  interval_cases digit <;> decide

theorem digit_value_lt {byte : UInt8} (digit : isDigit byte = true) : digitValue byte < 10 := by
  rw [isDigit, Bool.and_eq_true, decide_eq_true_eq, decide_eq_true_eq] at digit
  have high : byte.toNat ≤ 57 := digit.2
  rw [digitValue]
  omega

theorem decimal_loop_append {fuel : Nat} (later : Text) :
    decimalLoop fuel number later = decimalLoop fuel number [] ++ later := by
  induction fuel generalizing number later with
  | zero => rfl
  | succ fuel ih =>
    rw [decimalLoop, decimalLoop]
    split_ifs
    · rfl
    · rw [ih, ih [_], append_assoc]
      rfl

theorem decimal_loop_fuel {fuel : Nat} (enough : number < fuel) (later : Text) :
    decimalLoop fuel number later = decimal number ++ later := by
  rw [decimal, ← decimal_loop_append]
  induction fuel using Nat.strong_induction_on generalizing number later with
  | _ fuel ih =>
    cases fuel with
    | zero => omega
    | succ fuel =>
      rw [decimalLoop, decimalLoop]
      split_ifs with small
      · rfl
      · have shorter : number / 10 < fuel := by omega
        rw [ih fuel (Nat.lt_succ_self _) shorter]
        by_cases same : fuel = number
        · subst same
          exact (ih fuel (Nat.lt_succ_self _) shorter _).symm
        · exact (ih number (by omega) (by omega) _).symm

theorem decimal_eq (number : Nat) :
    decimal number = if number < 10 then [digitByte number]
      else decimal (number / 10) ++ [digitByte (number % 10)] := by
  conv_lhs => rw [decimal, decimalLoop]
  split_ifs with small
  · rw [Nat.mod_eq_of_lt small]
  · exact decimal_loop_fuel (by omega) _

theorem decimal_digits (number : Nat) : ∀ byte ∈ decimal number, isDigit byte = true := by
  induction number using Nat.strong_induction_on with
  | _ number ih =>
    intro byte member
    rw [decimal_eq] at member
    split_ifs at member with small
    · rw [mem_singleton.mp member]
      exact (digit_byte_spec small).1
    · rcases mem_append.mp member with early | last
      · exact ih (number / 10) (by omega) byte early
      · rw [mem_singleton.mp last]
        exact (digit_byte_spec (Nat.mod_lt _ (by decide))).1

theorem decimal_ne_nil (number : Nat) : decimal number ≠ [] := by
  rw [decimal_eq]
  split_ifs <;> simp

theorem decimal_head (positive : number ≠ 0) : (decimal number).head? ≠ some 48 := by
  induction number using Nat.strong_induction_on with
  | _ number ih =>
    rw [decimal_eq]
    split_ifs with small
    · interval_cases number <;> first | exact absurd rfl positive | decide
    · rw [head?_append_of_ne_nil _ (decimal_ne_nil _)]
      exact ih (number / 10) (by omega) (by omega)

def readDigits (value : Nat) (digits : Text) : Nat :=
  digits.foldl (fun sum byte => sum * 10 + digitValue byte) value

theorem read_digits_decimal (number : Nat) : readDigits 0 (decimal number) = number := by
  induction number using Nat.strong_induction_on with
  | _ number ih =>
    rw [decimal_eq]
    split_ifs with small
    · simp [readDigits, (digit_byte_spec small).2]
    · have last := (digit_byte_spec (Nat.mod_lt number (by decide : 0 < 10))).2
      rw [readDigits, foldl_append, foldl_cons, foldl_nil, last]
      have early : (decimal (number / 10)).foldl
          (fun sum byte => sum * 10 + digitValue byte) 0 = number / 10 :=
        ih (number / 10) (by omega)
      rw [early]
      omega

theorem read_digits_le (value : Nat) (digits : Text) : value ≤ readDigits value digits := by
  induction digits generalizing value with
  | nil => exact Nat.le_refl _
  | cons byte rest ih =>
    have more := ih (value * 10 + digitValue byte)
    rw [readDigits, foldl_cons]
    rw [readDigits] at more
    omega

theorem read_bounded_append {limit value : Nat} {digits rest : Text}
    (all : ∀ byte ∈ digits, isDigit byte = true) (stops : StopsDigits rest)
    (fits : readDigits value digits ≤ limit) :
    readBounded limit value (digits ++ rest) = some (readDigits value digits, rest) := by
  induction digits generalizing value with
  | nil =>
    cases rest with
    | nil => rfl
    | cons byte later =>
      have other := stops byte rfl
      rw [nil_append, readBounded, if_neg (by simp [other])]
      rfl
  | cons byte digits ih =>
    have here := all byte mem_cons_self
    have small := digit_value_lt here
    have later := read_digits_le (value * 10 + digitValue byte) digits
    have whole : readDigits (value * 10 + digitValue byte) digits ≤ limit := fits
    rw [cons_append, readBounded, if_pos here, if_neg (by omega)]
    exact ih (fun other member => all other (mem_cons_of_mem _ member)) whole

theorem read_bounded_decimal {limit number : Nat} (fits : number ≤ limit) {rest : Text}
    (stops : StopsDigits rest) :
    readBounded limit 0 (decimal number ++ rest) = some (number, rest) := by
  have value := read_digits_decimal number
  have small : readDigits 0 (decimal number) ≤ limit := by rw [value]; exact fits
  rw [read_bounded_append (decimal_digits number) stops small, value]

example : decimal 40960 = ascii "40960" := by decide

end Figwal.Lib
