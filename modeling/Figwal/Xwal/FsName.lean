import Mathlib.Data.List.Basic

/-!
# Node keys as directory names

A node key is not a file name. Where the platform reserves characters they are
percent-encoded; everywhere else a key is its own directory name. The encoding is
the identity on keys without reserved characters, and `keyName` undoes it.

Names are texts here. The reserved characters are single bytes in UTF-8, so it makes
no difference to `fsName` whether it walks bytes or characters.
-/

namespace Figwal.Xwal

variable {char : Char}

set_option autoImplicit false

def fsReserved : List Char := ['<', '>', ':', '"', '|', '?', '*', '%']

def hexDigits : List Char := "0123456789ABCDEF".toList

def escaped (char : Char) : List Char :=
  ['%', hexDigits.getD (char.toNat / 16) '0', hexDigits.getD (char.toNat % 16) '0']

def encodeName (key : List Char) : List Char :=
  key.flatMap fun char => if char ∈ fsReserved then escaped char else [char]

def fsName (fsEncode : Bool) (key : String) : String :=
  if !fsEncode || !key.toList.any (· ∈ fsReserved) then key
  else String.ofList (encodeName key.toList)

def unhex (char : Char) : Option Nat :=
  if '0' ≤ char ∧ char ≤ '9' then some (char.toNat - '0'.toNat)
  else if 'A' ≤ char ∧ char ≤ 'F' then some (char.toNat - 'A'.toNat + 10)
  else none

/-- The loop of `keyName`. A percent sign without two hexadecimal digits stands for
itself. -/
def decodeName : List Char → List Char
  | '%' :: high :: low :: rest =>
    match unhex high, unhex low with
    | some upper, some lower => Char.ofNat (upper * 16 + lower) :: decodeName rest
    | _, _ => '%' :: decodeName (high :: low :: rest)
  | char :: rest => char :: decodeName rest
  | [] => []

def keyName (fsEncode : Bool) (name : String) : String :=
  if !fsEncode || '%' ∉ name.toList then name
  else String.ofList (decodeName name.toList)

theorem decode_escaped (reserved : char ∈ fsReserved) (rest : List Char) :
    decodeName (escaped char ++ rest) = char :: decodeName rest := by
  have each : ∀ listed ∈ fsReserved,
      decodeName (escaped listed ++ rest) = listed :: decodeName rest := by
    intro listed member
    simp only [fsReserved, List.mem_cons, List.not_mem_nil, or_false] at member
    rcases member with rfl | rfl | rfl | rfl | rfl | rfl | rfl | rfl <;> rfl
  exact each char reserved

theorem decode_plain (plain : char ≠ '%') (rest : List Char) :
    decodeName (char :: rest) = char :: decodeName rest := by
  conv_lhs => unfold decodeName
  split
  · rename_i same
    exact absurd (List.cons.inj same).1 plain
  · rename_i same
    obtain ⟨rfl, rfl⟩ := List.cons.inj same
    rfl
  · rename_i same
    cases same

theorem decode_encode (key : List Char) : decodeName (encodeName key) = key := by
  induction key with
  | nil => rfl
  | cons char rest ih =>
    rw [encodeName, List.flatMap_cons]
    by_cases reserved : char ∈ fsReserved
    · rw [if_pos reserved, decode_escaped reserved]
      exact congrArg (char :: ·) ih
    · have plain : char ≠ '%' := by
        rintro rfl
        exact reserved (by decide)
      rw [if_neg reserved, List.singleton_append, decode_plain plain]
      exact congrArg (char :: ·) ih

theorem key_name_fs_name (fsEncode : Bool) (key : String) :
    keyName fsEncode (fsName fsEncode key) = key := by
  unfold fsName
  by_cases plain : (!fsEncode || !key.toList.any (· ∈ fsReserved)) = true
  · rw [if_pos plain]
    unfold keyName
    rw [if_pos]
    cases fsEncode with
    | false => rfl
    | true =>
      have clean : ∀ char ∈ key.toList, char ∉ fsReserved := by simpa using plain
      have without : '%' ∉ key.toList := fun member => clean '%' member (by decide)
      simpa using without
  · rw [if_neg plain]
    have coded : fsEncode = true := by
      cases fsEncode with
      | true => rfl
      | false => simp at plain
    obtain ⟨char, member, reserved⟩ : ∃ char ∈ key.toList, char ∈ fsReserved := by
      simpa [coded] using plain
    have marked : '%' ∈ encodeName key.toList := by
      rw [encodeName, List.mem_flatMap]
      exact ⟨char, member, by rw [if_pos reserved]; exact List.mem_cons_self⟩
    unfold keyName
    rw [if_neg]
    · rw [String.toList_ofList, decode_encode, String.ofList_toList]
    · simpa [coded] using marked

theorem fs_name_injective (fsEncode : Bool) : Function.Injective (fsName fsEncode) := by
  intro left right same
  rw [← key_name_fs_name fsEncode left, same, key_name_fs_name]

theorem mem_encode_name {key : List Char} (member : char ∈ encodeName key) :
    char ∈ key ∨ char = '%' ∨ char ∈ hexDigits := by
  rw [encodeName, List.mem_flatMap] at member
  obtain ⟨source, inside, here⟩ := member
  by_cases reserved : source ∈ fsReserved
  · rw [if_pos reserved] at here
    have each : (fsReserved.flatMap escaped).all
        (fun piece => piece = '%' || hexDigits.contains piece) = true := by decide
    have found := List.all_eq_true.mp each char (List.mem_flatMap.mpr ⟨source, reserved, here⟩)
    exact Or.inr (by simpa using found)
  · rw [if_neg reserved, List.mem_singleton] at here
    exact Or.inl (here ▸ inside)

end Figwal.Xwal
