import Figwal.Lib.JsonCanon

/-!
# Base64

The standard alphabet with padding. A decoder drops line breaks and does not look at the
bits behind the last byte.
-/

namespace Figwal.Lib

set_option autoImplicit false

def base64Byte (value : Nat) : UInt8 :=
  if value < 26 then UInt8.ofNat (65 + value)
  else if value < 52 then UInt8.ofNat (71 + value)
  else if value < 62 then UInt8.ofNat (value - 4)
  else if value = 62 then 43
  else 47

def base64Value (byte : UInt8) : Option Nat :=
  if 65 ≤ byte && byte ≤ 90 then some (byte.toNat - 65)
  else if 97 ≤ byte && byte ≤ 122 then some (byte.toNat - 71)
  else if isDigit byte then some (byte.toNat + 4)
  else if byte = 43 then some 62
  else if byte = 47 then some 63
  else none

def sextets (a b c : UInt8) : Nat × Nat × Nat × Nat :=
  (a.toNat / 4, a.toNat % 4 * 16 + b.toNat / 16, b.toNat % 16 * 4 + c.toNat / 64, c.toNat % 64)

def base64Encode : List UInt8 → Text
  | a :: b :: c :: rest =>
    let (w, x, y, z) := sextets a b c
    base64Byte w :: base64Byte x :: base64Byte y :: base64Byte z :: base64Encode rest
  | [a, b] =>
    let (w, x, y, _) := sextets a b 0
    [base64Byte w, base64Byte x, base64Byte y, 61]
  | [a] =>
    let (w, x, _, _) := sextets a 0 0
    [base64Byte w, base64Byte x, 61, 61]
  | [] => []

def firstByte (w x : Nat) : UInt8 := UInt8.ofNat (w * 4 + x / 16)

def secondByte (x y : Nat) : UInt8 := UInt8.ofNat (x % 16 * 16 + y / 4)

def thirdByte (y z : Nat) : UInt8 := UInt8.ofNat (y % 4 * 64 + z)

def decodeGroups : Text → Option (List UInt8)
  | [] => some []
  | w :: x :: y :: z :: rest =>
    match base64Value w, base64Value x with
    | some first, some second =>
      if y = 61 then if z = 61 ∧ rest = [] then some [firstByte first second] else none
      else
        match base64Value y with
        | none => none
        | some third =>
          if z = 61 then
            if rest = [] then some [firstByte first second, secondByte second third] else none
          else
            match base64Value z with
            | none => none
            | some fourth =>
              (decodeGroups rest).map fun later =>
                firstByte first second :: secondByte second third ::
                  thirdByte third fourth :: later
    | _, _ => none
  | _ => none

def base64Decode (text : Text) : Option (List UInt8) :=
  decodeGroups (text.filter fun byte => byte != 10 && byte != 13)

theorem base64_value_byte {value : Nat} (small : value < 64) :
    base64Value (base64Byte value) = some value ∧ base64Byte value ≠ 61 ∧
      isPlain (base64Byte value) = true := by
  have every : ∀ value : Fin 64, base64Value (base64Byte value) = some value.val ∧
      base64Byte value ≠ 61 ∧ isPlain (base64Byte value) = true := by decide +kernel
  exact every ⟨value, small⟩

theorem sextets_spec (a b c : UInt8) {w x y z : Nat} (split : sextets a b c = (w, x, y, z)) :
    (w < 64 ∧ x < 64 ∧ y < 64 ∧ z < 64) ∧ firstByte w x = a ∧ secondByte x y = b ∧
      thirdByte y z = c := by
  cases split
  have aSmall := a.toNat_lt
  have bSmall := b.toNat_lt
  have cSmall := c.toNat_lt
  refine ⟨by omega, ?_, ?_, ?_⟩
  · rw [firstByte, show a.toNat / 4 * 4 + (a.toNat % 4 * 16 + b.toNat / 16) / 16 = a.toNat by omega,
      UInt8.ofNat_toNat]
  · rw [secondByte, show (a.toNat % 4 * 16 + b.toNat / 16) % 16 * 16 +
      (b.toNat % 16 * 4 + c.toNat / 64) / 4 = b.toNat by omega, UInt8.ofNat_toNat]
  · rw [thirdByte, show (b.toNat % 16 * 4 + c.toNat / 64) % 4 * 64 + c.toNat % 64 = c.toNat by
      omega, UInt8.ofNat_toNat]

theorem decode_groups_encode (bytes : List UInt8) :
    decodeGroups (base64Encode bytes) = some bytes := by
  fun_induction base64Encode bytes with
  | case1 a b c rest w x y z split ih =>
    rcases sextets_spec a b c split with ⟨⟨wSmall, xSmall, ySmall, zSmall⟩, first, second, third⟩
    rw [decodeGroups, (base64_value_byte wSmall).1, (base64_value_byte xSmall).1]
    simp only [if_neg (base64_value_byte ySmall).2.1, (base64_value_byte ySmall).1,
      if_neg (base64_value_byte zSmall).2.1, (base64_value_byte zSmall).1, ih, first, second,
      third]
    rfl
  | case2 a b w x y z split =>
    rcases sextets_spec a b 0 split with ⟨⟨wSmall, xSmall, ySmall, _⟩, first, second, _⟩
    rw [decodeGroups, (base64_value_byte wSmall).1, (base64_value_byte xSmall).1]
    simp only [if_neg (base64_value_byte ySmall).2.1, (base64_value_byte ySmall).1, if_true, first,
      second]
  | case3 a w x y z split =>
    rcases sextets_spec a 0 0 split with ⟨⟨wSmall, xSmall, _, _⟩, first, _, _⟩
    rw [decodeGroups, (base64_value_byte wSmall).1, (base64_value_byte xSmall).1]
    simp only [if_true, and_self, first]
  | case4 => rfl

theorem base64_encode_plain (bytes : List UInt8) : (base64Encode bytes).all isPlain = true := by
  have pad : isPlain 61 = true := by decide
  fun_induction base64Encode bytes with
  | case1 a b c rest w x y z split ih =>
    rcases (sextets_spec a b c split).1 with ⟨wSmall, xSmall, ySmall, zSmall⟩
    simp only [List.all_cons, (base64_value_byte wSmall).2.2, (base64_value_byte xSmall).2.2,
      (base64_value_byte ySmall).2.2, (base64_value_byte zSmall).2.2, ih, Bool.and_self]
  | case2 a b w x y z split =>
    rcases (sextets_spec a b 0 split).1 with ⟨wSmall, xSmall, ySmall, _⟩
    simp only [List.all_cons, List.all_nil, (base64_value_byte wSmall).2.2,
      (base64_value_byte xSmall).2.2, (base64_value_byte ySmall).2.2, pad, Bool.and_self]
  | case3 a w x y z split =>
    rcases (sextets_spec a 0 0 split).1 with ⟨wSmall, xSmall, _, _⟩
    simp only [List.all_cons, List.all_nil, (base64_value_byte wSmall).2.2,
      (base64_value_byte xSmall).2.2, pad, Bool.and_self]
  | case4 => rfl

theorem base64_decode_encode (bytes : List UInt8) :
    base64Decode (base64Encode bytes) = some bytes := by
  have breaks : ∀ byte : UInt8, isPlain byte = true → (byte != 10 && byte != 13) = true :=
    every_byte (by decide +kernel)
  have kept : (base64Encode bytes).filter (fun byte => byte != 10 && byte != 13) =
      base64Encode bytes := by
    refine List.filter_eq_self.mpr fun byte member => breaks byte ?_
    exact List.all_eq_true.mp (base64_encode_plain bytes) byte member
  rw [base64Decode, kept, decode_groups_encode]

example : base64Encode (ascii "figs!") = ascii "ZmlncyE=" := by decide

end Figwal.Lib
