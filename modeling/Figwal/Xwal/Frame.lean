import Figwal.Lib.Base64
import Figwal.Codec.Jsonl

/-!
# Channel frames

A channel entry is stored as a JSON object with the main index, the payload, a timestamp,
the meta value and, on main records, the cursors of the unkeyed channels. There are two
decoders: a scanner that knows one order of the keys and walks the bytes, and the general
decoder it falls back to.

`json.Marshal` and `json.Unmarshal` follow the JSON library; the text of a raw field is its
value without whitespace.
-/

namespace Figwal.Frame

open Figwal.Lib Figwal.Codec

set_option autoImplicit false

def maxUint64 : Nat := 18446744073709551615

def maxInt64 : Nat := 9223372036854775807

structure FrameObj where
  m : Nat
  p : Text
  p64 : Option Text
  t : Int
  x : Text
  c : List (Text × Nat)

structure Record where
  channelLT : Nat
  mainLT : Nat
  payload : Text
  metadata : Text
  ts : Int
  cursors : List (Text × Nat)
  deriving DecidableEq, Repr

def keyM : Text := ascii "m"

def keyP : Text := ascii "p"

def keyP64 : Text := ascii "p64"

def keyT : Text := ascii "t"

def keyX : Text := ascii "x"

def keyC : Text := ascii "c"

section Encoding

variable (strings : StringCodec)

def embedJSON (bytes : Text) : Text :=
  if bytes = [] then []
  else if (parseJson maxNesting bytes).isSome then bytes
  else quoted (strings.quote bytes)

def integer (number : Int) : Text :=
  if number < 0 then 45 :: decimal number.natAbs else decimal number.natAbs

def rawField (key raw : Text) : Option Members :=
  if raw = [] then some []
  else (parseJson maxNesting raw).map fun value => [(key, value.embedded strings)]

def cursorMembers (cursors : List (Text × Nat)) : Members :=
  cursors.map fun cursor => (strings.quote cursor.1, .scalar (decimal cursor.2))

/-- The members `json.Marshal` writes for a frame, in the order of the fields. `none` if a
raw field is no JSON. -/
def fields (frame : FrameObj) : Option Members :=
  match rawField strings keyP frame.p, rawField strings keyX frame.x with
  | some payload, some metadata =>
    some ((keyM, .scalar (decimal frame.m)) :: (payload ++
      ((frame.p64.toList.map fun encoded => (keyP64, .string (strings.quote encoded))) ++
      ((if frame.t = 0 then [] else [(keyT, .scalar (integer frame.t))]) ++
      (metadata ++
      (if frame.c = [] then [] else [(keyC, .object (cursorMembers strings frame.c))]))))))
  | _, _ => none

def marshal (frame : FrameObj) : Text :=
  match fields strings frame with
  | some members => (Json.object members).text
  | none => []

def encodeStampedFrame (mainLT : Nat) (payload metadata : Text) (isOpaque : Bool)
    (cursors : List (Text × Nat)) (ts : Int) : Text :=
  let raw := embedJSON strings payload
  marshal strings {
    m := mainLT
    p := if isOpaque then [] else if raw = [] then ascii "null" else raw
    p64 := if isOpaque then some (base64Encode payload) else none
    t := ts
    x := embedJSON strings metadata
    c := cursors }

end Encoding

section Unmarshal

variable (strings : StringCodec)

def parseUint (limit : Nat) (lexeme : Text) : Option Nat :=
  if lexeme = [] then none
  else
    match readBounded limit 0 lexeme with
    | some (value, []) => some value
    | _ => none

def parseInt (lexeme : Text) : Option Int :=
  match lexeme with
  | [] => none
  | first :: rest =>
    if first = 45 then (parseUint (maxInt64 + 1) rest).map fun value => -value
    else (parseUint maxInt64 lexeme).map fun value => value

/-- A number field: `null` leaves it alone. -/
def numberField {α : Type} (read : Text → Option α) (old : α) : Json → Option α
  | .scalar lexeme => if lexeme = ascii "null" then some old else read lexeme
  | _ => none

/-- The cursor map. A repeated field is decoded into the map that is there. -/
def cursorField (old : List (Text × Nat)) : Json → Option (List (Text × Nat))
  | .scalar lexeme => if lexeme = ascii "null" then some [] else none
  | .object members =>
    (members.mapM fun member =>
      (numberField (parseUint maxUint64) 0 member.2).map fun value =>
        (strings.unquote member.1, value)).map fun read =>
          read.foldl (fun map cursor => putMember cursor.1 cursor.2 map) old
  | _ => none

def stringField : Json → Option (Option Text)
  | .scalar lexeme => if lexeme = ascii "null" then some none else none
  | .string body => some (some (strings.unquote body))
  | _ => none

/-- Field names match without regard to case. None of them has a letter that folds to
anything but its other case. -/
def foldName (key : Text) : Text :=
  key.map fun byte => if 65 ≤ byte ∧ byte ≤ 90 then byte + 32 else byte

def assign (frame : FrameObj) (member : Text × Json) : Option FrameObj :=
  let key := foldName (strings.unquote member.1)
  if key = keyM then
    (numberField (parseUint maxUint64) frame.m member.2).map fun m => { frame with m := m }
  else if key = keyP then some { frame with p := member.2.text }
  else if key = keyP64 then (stringField strings member.2).map fun p64 => { frame with p64 := p64 }
  else if key = keyT then
    (numberField parseInt frame.t member.2).map fun t => { frame with t := t }
  else if key = keyX then some { frame with x := member.2.text }
  else if key = keyC then (cursorField strings frame.c member.2).map fun c => { frame with c := c }
  else some frame

def emptyFrame : FrameObj := ⟨0, [], none, 0, [], []⟩

def unmarshal (text : Text) : Option FrameObj :=
  match parseJson maxNesting text with
  | some (.object members) => members.foldlM (assign strings) emptyFrame
  | some (.scalar lexeme) => if lexeme = ascii "null" then some emptyFrame else none
  | _ => none

/-- `json.Unmarshal` into a structure with the main index only. -/
def unmarshalMainLT (text : Text) : Option Nat :=
  match parseJson maxNesting text with
  | some (.object members) =>
    members.foldlM (fun old member =>
      if foldName (strings.unquote member.1) = keyM then
        numberField (parseUint maxUint64) old member.2
      else some old) 0
  | some (.scalar lexeme) => if lexeme = ascii "null" then some 0 else none
  | _ => none

def FrameObj.payload (frame : FrameObj) : Option Text :=
  match frame.p64 with
  | none => some frame.p
  | some encoded => base64Decode encoded

end Unmarshal

inductive ScanMode where
  | outside
  | inString
  | skipping
  deriving DecidableEq, Repr

/-- The string case of `jsonValueEnd`, behind the opening quote. A byte behind a backslash
is skipped. -/
def stringEnd : Bool → Text → Option (Text × Text)
  | _, [] => none
  | skip, byte :: rest =>
    if skip then (stringEnd false rest).map fun found => (byte :: found.1, found.2)
    else if byte = 34 then some ([byte], rest)
    else (stringEnd (byte = 92) rest).map fun found => (byte :: found.1, found.2)

/-- The loop of `jsonValueEnd` over an array or an object. -/
def nestedEnd : Nat → ScanMode → Text → Option (Text × Text)
  | _, _, [] => none
  | depth, mode, byte :: rest =>
    match mode with
    | .skipping =>
      (nestedEnd depth .inString rest).map fun found => (byte :: found.1, found.2)
    | .inString =>
      (nestedEnd depth
        (if byte = 92 then .skipping else if byte = 34 then .outside else .inString)
        rest).map fun found => (byte :: found.1, found.2)
    | .outside =>
      if byte = 34 then
        (nestedEnd depth .inString rest).map fun found => (byte :: found.1, found.2)
      else if byte = 123 ∨ byte = 91 then
        (nestedEnd (depth + 1) .outside rest).map fun found => (byte :: found.1, found.2)
      else if byte = 125 ∨ byte = 93 then
        if depth - 1 = 0 then some ([byte], rest)
        else (nestedEnd (depth - 1) .outside rest).map fun found => (byte :: found.1, found.2)
      else (nestedEnd depth .outside rest).map fun found => (byte :: found.1, found.2)

def jsonValueEnd : Text → Option (Text × Text)
  | [] => none
  | byte :: rest =>
    if byte = 34 then (stringEnd false rest).map fun found => (byte :: found.1, found.2)
    else if byte = 123 ∨ byte = 91 then nestedEnd 0 .outside (byte :: rest)
    else
      let value := (byte :: rest).takeWhile fun other => other != 44 && other != 125
      if value = [] ∨ value.length = (byte :: rest).length then none
      else some (value, (byte :: rest).drop value.length)

def fastNumber (limit : Nat) (input : Text) : Option (Nat × Text) :=
  match readBounded limit 0 input with
  | none => none
  | some (value, rest) => if rest.length = input.length then none else some (value, rest)

def after (lead input : Text) : Option Text :=
  if lead.isPrefixOf input then some (input.drop lead.length) else none

def fastDecodeMainLT (text : Text) : Option Nat :=
  match after (ascii "\x7b\"m\":") text with
  | none => none
  | some rest =>
    if rest = [] ∨ (parseJson maxNesting text).isNone then none
    else
      match fastNumber maxUint64 rest with
      | some (mainLT, 44 :: _) => some mainLT
      | _ => none

structure Fast where
  mainLT : Nat
  payload : Text
  metadata : Text
  ts : Int

def fastMeta (rest : Text) : Option Text :=
  match after (ascii ",\"x\":") rest with
  | none => none
  | some [] => none
  | some behind =>
    match jsonValueEnd behind with
    | some (value, [125]) => some value
    | _ => none

def fastTail (rest : Text) : Option (Text × Int) :=
  if rest = [125] then some ([], 0)
  else
    match after (ascii ",\"t\":") rest with
    | none => (fastMeta rest).map fun value => (value, 0)
    | some [] => (fastMeta rest).map fun value => (value, 0)
    | some behind =>
      match fastNumber maxInt64 behind with
      | none => none
      | some (ts, later) =>
        if later = [125] then some ([], ts)
        else (fastMeta later).map fun value => (value, ts)

def fastPayload (rest : Text) : Option (Text × Text) :=
  match after (ascii ",\"p\":") rest with
  | some behind => jsonValueEnd behind
  | none =>
    match after (ascii ",\"p64\":") rest with
    | none => none
    | some behind =>
      match jsonValueEnd behind with
      | none => none
      | some (value, later) =>
        if value.length < 2 ∨ value.head? ≠ some 34 ∨ value.getLast? ≠ some 34 then none
        else (base64Decode value.tail.dropLast).map fun payload => (payload, later)

def fastDecodeFrame (text : Text) : Option Fast :=
  match after (ascii "\x7b\"m\":") text with
  | none => none
  | some rest =>
    if rest = [] ∨ (parseJson maxNesting text).isNone then none
    else
      match fastNumber maxUint64 rest with
      | none => none
      | some (mainLT, behind) =>
        match fastPayload behind with
        | none => none
        | some (payload, later) =>
          (fastTail later).map fun tail => ⟨mainLT, payload, tail.1, tail.2⟩

section Decoding

variable (strings : StringCodec)

def decodeFrame (text : Text) : Option (Nat × Text) :=
  match fastDecodeFrame text with
  | some fast => some (fast.mainLT, fast.payload)
  | none =>
    match unmarshal strings text with
    | none => none
    | some frame => frame.payload.map fun payload => (frame.m, payload)

def decodeRecordFrom (channelLT : Nat) (text : Text) (isMain : Bool) : Option Record :=
  match fastDecodeFrame text, isMain with
  | some fast, false =>
    some ⟨channelLT, fast.mainLT, fast.payload, fast.metadata, fast.ts, []⟩
  | _, _ =>
    match unmarshal strings text with
    | none => none
    | some frame =>
      frame.payload.map fun payload =>
        ⟨channelLT, frame.m, payload, frame.x, frame.t, frame.c⟩

def decodeMainLT (text : Text) : Option Nat :=
  match fastDecodeMainLT text with
  | some mainLT => some mainLT
  | none => unmarshalMainLT strings text

end Decoding

end Figwal.Frame
