import Figwal.Lib.JsonCanon

/-!
# A string codec

Strings as sequences of bytes: quotes, backslashes, control characters and the characters
that mean something in HTML are escaped, every other byte stands for itself, and a code
unit is decoded to UTF-8. It is the encoding of a standard library on valid UTF-8; only the
repair of other strings is left out.
-/

namespace Figwal.Lib

set_option autoImplicit false

def hexByte (digit : Nat) : UInt8 :=
  if digit < 10 then UInt8.ofNat (48 + digit) else UInt8.ofNat (87 + digit)

def hexValue (byte : UInt8) : Nat :=
  if isDigit byte then byte.toNat - 48
  else if 97 ≤ byte then byte.toNat - 87
  else byte.toNat - 55

def unitEscape (byte : UInt8) : Text :=
  [92, 117, 48, 48, hexByte (byte.toNat / 16), hexByte (byte.toNat % 16)]

def isHTML (byte : UInt8) : Bool :=
  byte == 60 || byte == 62 || byte == 38

def quoteByte (byte : UInt8) : Text :=
  if byte = 34 || byte = 92 then [92, byte]
  else if byte < 32 || isHTML byte then unitEscape byte
  else [byte]

def embedByte (byte : UInt8) : Text :=
  if isHTML byte then unitEscape byte else [byte]

def unescape (mark : UInt8) : UInt8 :=
  if mark = 98 then 8
  else if mark = 102 then 12
  else if mark = 110 then 10
  else if mark = 114 then 13
  else if mark = 116 then 9
  else mark

def unitBytes (value : Nat) : Text :=
  if value < 128 then [UInt8.ofNat value]
  else if value < 2048 then [UInt8.ofNat (192 + value / 64), UInt8.ofNat (128 + value % 64)]
  else [UInt8.ofNat (224 + value / 4096), UInt8.ofNat (128 + value / 64 % 64),
    UInt8.ofNat (128 + value % 64)]

/-- The decoder inside a string: where it is, and the digits of the unit it is reading. -/
structure Decoder where
  state : StringState
  value : Nat
  deriving DecidableEq, Repr

def Decoder.start : Decoder := ⟨.plain, 0⟩

def Decoder.step (decoder : Decoder) (byte : UInt8) : Decoder × Text :=
  match decoder.state with
  | .plain => if byte = 92 then (⟨.escape, 0⟩, []) else (.start, [byte])
  | .escape => if byte = 117 then (⟨.unit 3, 0⟩, []) else (.start, [unescape byte])
  | .unit left =>
    match left with
    | 0 => (.start, unitBytes (decoder.value * 16 + hexValue byte))
    | fewer + 1 => (⟨.unit fewer, decoder.value * 16 + hexValue byte⟩, [])

def Decoder.run (decoder : Decoder) : Text → Decoder × Text
  | [] => (decoder, [])
  | byte :: rest =>
    let first := decoder.step byte
    let later := first.1.run rest
    (later.1, first.2 ++ later.2)

theorem Decoder.run_append (decoder : Decoder) (early late : Text) :
    decoder.run (early ++ late) = (((decoder.run early).1.run late).1,
      (decoder.run early).2 ++ ((decoder.run early).1.run late).2) := by
  induction early generalizing decoder with
  | nil => rfl
  | cons byte rest ih => simp [Decoder.run, ih]

theorem quote_byte_spec (byte : UInt8) :
    Scannable (quoteByte byte) ∧ Decoder.start.run (quoteByte byte) = (.start, [byte]) := by
  have every : ∀ byte : UInt8, StringState.plain.run (quoteByte byte) = some .plain ∧
      Decoder.start.run (quoteByte byte) = (.start, [byte]) := every_byte (by decide +kernel)
  exact every byte

theorem embed_byte_spec (byte : UInt8) (state : StringState) :
    embedByte byte = [byte] ∨ state.next byte = none ∨
      state = .plain ∧ Scannable (embedByte byte) ∧
        Decoder.start.run (embedByte byte) = (.start, [byte]) ∧
        Decoder.start.step byte = (.start, [byte]) := by
  by_cases special : isHTML byte = true
  · have every : ∀ byte : UInt8, isHTML byte = true →
        isEscape byte = false ∧ byte ≠ 117 ∧ isHex byte = false ∧
          StringState.plain.run (embedByte byte) = some .plain ∧
          Decoder.start.run (embedByte byte) = (.start, [byte]) ∧
          Decoder.start.step byte = (.start, [byte]) := every_byte (by decide +kernel)
    rcases every byte special with ⟨mark, unit, hex, scans, decoded, stepped⟩
    right
    cases state with
    | plain => exact Or.inr ⟨rfl, scans, decoded, stepped⟩
    | escape => exact Or.inl (by simp [StringState.next, mark, unit])
    | unit left => exact Or.inl (by simp [StringState.next, hex])
  · exact Or.inl (if_neg special)

theorem Decoder.step_state {decoder : Decoder} {byte : UInt8} {after : StringState}
    (next : decoder.state.next byte = some after) : (decoder.step byte).1.state = after := by
  rcases decoder with ⟨state, value⟩
  cases state with
  | plain =>
    simp only [StringState.next] at next
    simp only [Decoder.step]
    split_ifs at next with quote slash control
    · cases next
      rw [if_pos slash]
    · cases next
      rw [if_neg slash]
      rfl
  | escape =>
    simp only [StringState.next] at next
    simp only [Decoder.step]
    split_ifs at next with known unit
    · cases next
      have other : byte ≠ 117 := by
        rintro rfl
        exact absurd known (by decide)
      rw [if_neg other]
      rfl
    · cases next
      rw [if_pos unit]
  | unit left =>
    simp only [StringState.next] at next
    split_ifs at next
    cases left with
    | zero =>
      cases next
      rfl
    | succ fewer =>
      cases next
      rfl

theorem Decoder.step_begun {decoder : Decoder} {byte : UInt8}
    (outside : (decoder.step byte).1.state = .plain) : (decoder.step byte).1 = .start := by
  rcases decoder with ⟨state, value⟩
  cases state with
  | plain =>
    simp only [Decoder.step] at outside ⊢
    split_ifs at outside with slash
    rw [if_neg slash]
  | escape =>
    simp only [Decoder.step] at outside ⊢
    split_ifs at outside with unit
    rw [if_neg unit]
  | unit left =>
    cases left with
    | zero => rfl
    | succ fewer => cases outside

theorem embed_run {body : Text} {decoder : Decoder}
    (begun : decoder.state = .plain → decoder = .start)
    (runs : decoder.state.run body = some .plain) :
    decoder.state.run (body.flatMap embedByte) = some .plain ∧
      decoder.run (body.flatMap embedByte) = decoder.run body := by
  induction body generalizing decoder with
  | nil => exact ⟨runs, rfl⟩
  | cons byte rest ih =>
    rw [StringState.run] at runs
    rcases Option.bind_eq_some_iff.mp runs with ⟨after, next, more⟩
    have moved := Decoder.step_state next
    rw [← moved] at more
    rcases ih Decoder.step_begun more with ⟨scanned, decoded⟩
    rw [List.flatMap_cons]
    rcases embed_byte_spec byte decoder.state with same | stuck | ⟨plain, scans, run, step⟩
    · rw [same, List.singleton_append, StringState.run, next, Decoder.run, Decoder.run, decoded]
      exact ⟨moved ▸ scanned, rfl⟩
    · rw [stuck] at next
      cases next
    · rw [begun plain, step] at scanned decoded
      rw [begun plain, Decoder.run_append, Decoder.run, run, step, decoded]
      refine ⟨?_, rfl⟩
      change StringState.plain.run _ = _
      rw [StringState.run_append, scans]
      exact scanned

theorem quote_run (string : Text) :
    Scannable (string.flatMap quoteByte) ∧
      Decoder.start.run (string.flatMap quoteByte) = (.start, string) := by
  induction string with
  | nil => exact ⟨rfl, rfl⟩
  | cons byte rest ih =>
    rcases quote_byte_spec byte with ⟨scans, decoded⟩
    rw [List.flatMap_cons, Decoder.run_append, decoded, ih.2]
    exact ⟨scans.append ih.1, rfl⟩

theorem plain_run {string : Text} (plain : string.all isPlain = true) :
    string.flatMap quoteByte = string ∧ Decoder.start.run string = (.start, string) := by
  have every : ∀ byte : UInt8, isPlain byte = true →
      quoteByte byte = [byte] ∧ Decoder.start.step byte = (.start, [byte]) :=
    every_byte (by decide +kernel)
  induction string with
  | nil => exact ⟨rfl, rfl⟩
  | cons byte rest ih =>
    rw [List.all_cons, Bool.and_eq_true] at plain
    rcases every byte plain.1 with ⟨quoted, stepped⟩
    rcases ih plain.2 with ⟨later, decoded⟩
    rw [List.flatMap_cons, quoted, later, Decoder.run, stepped, decoded]
    exact ⟨rfl, rfl⟩

def byteStrings : StringCodec where
  quote string := string.flatMap quoteByte
  unquote body := (Decoder.start.run body).2
  escapeHTML body := body.flatMap embedByte
  quote_scannable string := (quote_run string).1
  escape_scannable _ scans := (@embed_run _ Decoder.start (fun _ => rfl) scans).1
  unquote_escape body scans := by rw [(@embed_run body Decoder.start (fun _ => rfl) scans).2]
  unquote_quote body _ := by rw [(quote_run _).2]
  quote_plain _ plain := (plain_run plain).1
  unquote_plain _ plain := by rw [(plain_run plain).2]

example : byteStrings.quote (ascii "a\"<\n") = ascii "a\\\"\\u003c\\u000a" := by decide

end Figwal.Lib
