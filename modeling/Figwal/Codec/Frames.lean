import Figwal.Lib.Framing
import Figwal.Codec.Jsonl

/-!
# The two codecs

How an entry is framed, read back and recognised in a file, for the length-prefixed binary
format and for JSONL. A frame of either is found in front of any other bytes, and is not
found when its end is missing, as long as a binary payload's length fits its prefix.
-/

namespace Figwal.Codec

open Figwal.Lib List

set_option autoImplicit false

/-- `SegmentCodec`: `readFrame` is given the bytes between two offsets, and `nextFrame` is
one step of `ScanFrames`. -/
structure FrameCodec where
  frame : Nat → Text → Except FrameErr Text
  readFrame : Text → Except FrameErr Text
  nextFrame : Text → Option Nat

def headerSize : Nat := 8

def putUint32 (word : Nat) : Text :=
  [UInt8.ofNat word, UInt8.ofNat (word / 256), UInt8.ofNat (word / 65536),
    UInt8.ofNat (word / 16777216)]

def uint32 : Text → Nat
  | a :: b :: c :: d :: _ => a.toNat + b.toNat * 256 + c.toNat * 65536 + d.toNat * 16777216
  | _ => 0

def crcBit (register : UInt32) : UInt32 :=
  if register &&& 1 = 1 then (register >>> 1) ^^^ 0xEDB88320 else register >>> 1

def crcByte (register : UInt32) (byte : UInt8) : UInt32 :=
  crcBit (crcBit (crcBit (crcBit (crcBit (crcBit (crcBit (crcBit
    (register ^^^ byte.toUInt32))))))))

def checksumIEEE (payload : Text) : UInt32 :=
  payload.foldl crcByte 0xFFFFFFFF ^^^ 0xFFFFFFFF

namespace Binary

def frame (_ : Nat) (payload : Text) : Except FrameErr Text :=
  .ok (putUint32 payload.length ++ (putUint32 (checksumIEEE payload).toNat ++ payload))

def readFrame (slice : Text) : Except FrameErr Text :=
  if slice.length < headerSize then .error .corrupt
  else if uint32 slice + headerSize ≠ slice.length then .error .corrupt
  else .ok (slice.drop headerSize)

def nextFrame (file : Text) : Option Nat :=
  if file.length < headerSize then none
  else if file.length < headerSize + uint32 file then none
  else if (checksumIEEE ((file.drop headerSize).take (uint32 file))).toNat ≠ uint32 (file.drop 4)
    then
    none
  else some (headerSize + uint32 file)

end Binary

namespace Jsonl

def readFrame (libraries : Libraries) (slice : Text) : Except FrameErr Text :=
  decodeJSONLLine libraries slice false

def nextFrame (libraries : Libraries) (file : Text) : Option Nat :=
  let line := file.takeWhile (· != 10)
  if line.length < file.length then
    match decodeJSONLLine libraries (line ++ [10]) true with
    | .ok _ => some (line.length + 1)
    | .error _ => none
  else none

end Jsonl

def binary : FrameCodec where
  frame := Binary.frame
  readFrame := Binary.readFrame
  nextFrame := Binary.nextFrame

def jsonl (libraries : Libraries) : FrameCodec where
  frame := Codec.frame libraries
  readFrame := Jsonl.readFrame libraries
  nextFrame := Jsonl.nextFrame libraries

inductive Format where
  | binary
  | jsonl (libraries : Libraries)

def Format.codec : Format → FrameCodec
  | .binary => Codec.binary
  | .jsonl libraries => Codec.jsonl libraries

def Format.Short : Format → Text → Prop
  | .binary, payload => payload.length < 4294967296
  | .jsonl _, _ => True

section Binary

theorem uint32_put {word : Nat} (small : word < 4294967296) (rest : Text) :
    uint32 (putUint32 word ++ rest) = word := by
  simp only [putUint32, cons_append, nil_append, uint32, UInt8.toNat_ofNat']
  omega

theorem uint32_take {file : Text} {cut : Nat} (long : 4 ≤ cut) :
    uint32 (file.take cut) = uint32 file := by
  obtain ⟨more, rfl⟩ : ∃ more, cut = more + 1 + 1 + 1 + 1 := ⟨cut - 4, by omega⟩
  match file with
  | [] => rfl
  | [_] => rfl
  | [_, _] => rfl
  | [_, _, _] => rfl
  | a :: b :: c :: d :: rest => rfl

theorem binary_frame {idx : Nat} {payload line : Text} (framed : Binary.frame idx payload =
    .ok line) :
    line = putUint32 payload.length ++ (putUint32 (checksumIEEE payload).toNat ++ payload) ∧
      line.length = headerSize + payload.length := by
  cases framed
  refine ⟨rfl, ?_⟩
  simp only [length_append, putUint32, length_cons, length_nil, headerSize]
  omega

theorem binary_read {idx : Nat} {payload line : Text} (short : payload.length < 4294967296)
    (framed : Binary.frame idx payload = .ok line) : Binary.readFrame line = .ok payload := by
  rcases binary_frame framed with ⟨shape, length⟩
  have prefixed : uint32 line = payload.length := by
    rw [shape, uint32_put short]
  rw [Binary.readFrame, if_neg (by omega), if_neg (by omega), shape]
  rfl

theorem binary_framed {idx : Nat} {payload line : Text} (short : payload.length < 4294967296)
    (framed : Binary.frame idx payload = .ok line) : Framed Binary.nextFrame line := by
  rcases binary_frame framed with ⟨shape, length⟩
  refine ⟨by rw [length]; exact Nat.lt_of_lt_of_le (by decide) (Nat.le_add_right _ _), ?_, ?_⟩
  · intro rest
    have whole : line ++ rest = putUint32 payload.length ++
        (putUint32 (checksumIEEE payload).toNat ++ (payload ++ rest)) := by
      rw [shape, append_assoc, append_assoc]
    have size : uint32 (line ++ rest) = payload.length := by
      rw [whole, uint32_put short]
    have sum : uint32 ((line ++ rest).drop 4) = (checksumIEEE payload).toNat := by
      rw [whole]
      exact uint32_put (checksumIEEE payload).toNat_lt (payload ++ rest)
    have body : (line ++ rest).drop headerSize = payload ++ rest := by
      rw [whole]
      rfl
    rw [Binary.nextFrame, size, sum, body, take_left, length_append, if_neg (by omega),
      if_neg (by omega), if_neg (by simp), length]
  · intro cut short'
    have size : (line.take cut).length = cut := by
      rw [length_take]
      omega
    rw [Binary.nextFrame]
    by_cases head : cut < headerSize
    · rw [if_pos (by omega)]
    · have prefixed : uint32 (line.take cut) = payload.length := by
        rw [uint32_take (by rw [headerSize] at head; omega), shape, uint32_put short]
      rw [if_neg (by omega), prefixed, if_pos (by omega)]

end Binary

section Jsonl

variable {libraries : Libraries}

theorem frame_line {idx : Nat} {payload line : Text}
    (framed : frame libraries idx payload = .ok line) :
    ∃ members text, decodeJSONObject libraries payload = .ok members ∧ line = text ++ [10] ∧
      ∀ byte ∈ text, byte ≠ 10 := by
  cases decoded : decodeJSONObject libraries payload with
  | error err =>
    rw [frame, decoded] at framed
    cases framed
  | ok members =>
    have canonical := envelope_canonical (decode_canonical decoded) idx
    rw [frame, decoded] at framed
    simp only at framed
    split_ifs at framed
    cases framed
    refine ⟨members, _, rfl, rfl, fun byte member same => ?_⟩
    have sound : (Json.object (libraries.strings.requote
        (envelope libraries idx members))).Sound maxNesting :=
      Json.Sound.object (forall_mem_map.mpr fun _ _ =>
        libraries.strings.quote_scannable _) (forall_mem_map.mpr canonical.sound)
    exact text_shown sound byte member (by rw [same]; decide)

theorem jsonl_framed {idx : Nat} {payload line : Text}
    (framed : frame libraries idx payload = .ok line) :
    Framed (Jsonl.nextFrame libraries) line := by
  rcases frame_line framed with ⟨members, text, decoded, shape, shown⟩
  have intact := decode_line_frame decoded framed true
  have kept : ∀ byte ∈ text, (byte != 10) = true := fun byte member => by
    simpa using shown byte member
  refine ⟨by rw [shape]; simp, ?_, ?_⟩
  · intro rest
    have leading : (line ++ rest).takeWhile (· != 10) = text := by
      rw [shape, append_assoc, takeWhile_append_of_pos kept]
      simp
    have longer : text.length < (line ++ rest).length := by
      rw [shape]
      simp
    rw [Jsonl.nextFrame]
    simp only [leading, if_pos longer]
    rw [← shape, intact, shape]
    simp
  · intro cut short
    have part : ∀ byte ∈ line.take cut, (byte != 10) = true := by
      intro byte member
      rw [shape, length_append, length_singleton] at short
      rw [shape, take_append_of_le_length (by omega)] at member
      exact kept byte (mem_of_mem_take member)
    rw [Jsonl.nextFrame]
    simp [takeWhile_eq_self_iff.mpr part]

end Jsonl

theorem format_framed {format : Format} {idx : Nat} {payload line : Text}
    (short : format.Short payload) (framed : format.codec.frame idx payload = .ok line) :
    Framed format.codec.nextFrame line ∧ ∃ stored, format.codec.readFrame line = .ok stored := by
  cases format with
  | binary =>
    exact ⟨@binary_framed idx _ _ short framed, payload, @binary_read idx _ _ short framed⟩
  | jsonl libraries =>
    rcases frame_line framed with ⟨members, _, decoded, _⟩
    exact ⟨jsonl_framed framed, _, decode_line_frame decoded framed false⟩

end Figwal.Codec
