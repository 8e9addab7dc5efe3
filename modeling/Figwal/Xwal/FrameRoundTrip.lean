import Figwal.Codec.Cache
import Figwal.Lib.JsonNesting
import Figwal.Lib.JsonStrings
import Figwal.Xwal.FrameFast

/-!
# Frames are read back

A frame decodes to what it was built from, as it is printed and as a line of the JSONL codec
stores it, by the scanner and by the general decoder alike. The frame nests its payload and
its meta value once more, so a value at the decoder's limit of nesting cannot be read back.
-/

namespace Figwal.Frame

open Figwal.Lib Figwal.Codec

set_option autoImplicit false

/-- The arguments of `encodeStampedFrame`. The cursors are a map in the order of its keys. -/
structure Input where
  mainLT : Nat
  payload : Text
  metadata : Text
  isOpaque : Bool
  cursors : List (Text × Nat)
  ts : Int
  mainLT_le : mainLT ≤ maxUint64
  ts_ge : -(maxInt64 + 1 : Int) ≤ ts
  ts_le : ts ≤ maxInt64
  cursors_ordered : Ordered cursors
  cursors_le : ∀ cursor ∈ cursors, cursor.2 ≤ maxUint64

def Input.encode (strings : StringCodec) (input : Input) : Text :=
  encodeStampedFrame strings input.mainLT input.payload input.metadata input.isOpaque input.cursors
    input.ts

def Nestable (bytes : Text) : Prop :=
  ∀ value ∈ parseJson maxNesting bytes, value.depth < maxNesting

def Input.Shallow (input : Input) : Prop :=
  (input.isOpaque = false → Nestable input.payload) ∧ Nestable input.metadata

/-- The bytes read back are the same JSON value as the JSON text that was given. -/
def SameValue (strings : StringCodec) (bytes read : Text) : Prop :=
  ∀ value, parseJson maxNesting bytes = some value →
    ∃ other, parseJson maxNesting read = some other ∧ other.canon strings = value.canon strings

def Input.SamePayload (strings : StringCodec) (input : Input) (read : Text) : Prop :=
  if input.isOpaque then read = input.payload else SameValue strings input.payload read

/-- Every decoder returns what the frame was built from, and the same bytes as every other. -/
def Decodes (strings : StringCodec) (input : Input) (text : Text) : Prop :=
  ∃ payload metadata, input.SamePayload strings payload ∧
    SameValue strings input.metadata metadata ∧ (input.metadata = [] → metadata = []) ∧
    decodeMainLT strings text = some input.mainLT ∧
    decodeFrame strings text = some (input.mainLT, payload) ∧
    (∀ channelLT isMain, ∃ cursors,
      decodeRecordFrom strings channelLT text isMain =
        some ⟨channelLT, input.mainLT, payload, metadata, input.ts, cursors⟩ ∧
      (isMain = true →
        (cursors = input.cursors ↔ ∀ cursor ∈ input.cursors, strings.Clean cursor.1))) ∧
    (∃ frame, unmarshal strings text = some frame ∧ frame.m = input.mainLT ∧
      frame.payload = some payload ∧ frame.x = metadata ∧ frame.t = input.ts) ∧
    ∀ fast, fastDecodeFrame text = some fast → fast = ⟨input.mainLT, payload, metadata, input.ts⟩

section Embedding

variable {strings : StringCodec} {bytes : Text}

def embedValue (strings : StringCodec) (bytes : Text) : Json :=
  match parseJson maxNesting bytes with
  | some value => value.embedded strings
  | none => .string (strings.escapeHTML (strings.quote bytes))

theorem embed_value_sound (strings : StringCodec) (bytes : Text) :
    (embedValue strings bytes).Sound maxNesting := by
  rw [embedValue]
  cases found : parseJson maxNesting bytes with
  | none => exact .string (strings.escape_scannable _ (strings.quote_scannable bytes))
  | some value => exact (parse_json_sound found).embedded

theorem nestable_iff (strings : StringCodec) (bytes : Text) :
    Nestable bytes ↔ (embedValue strings bytes).Sound (maxNesting - 1) := by
  rw [embedValue]
  cases found : parseJson maxNesting bytes with
  | none =>
    constructor
    · exact fun _ => .string (strings.escape_scannable _ (strings.quote_scannable bytes))
    · intro _ value held
      cases found.symm.trans held
  | some value =>
    have sound := parse_json_sound found
    constructor
    · intro nestable
      exact (sound.of_depth (Nat.le_sub_one_of_lt (nestable value found))).embedded
    · intro fits other held
      cases found.symm.trans held
      have shallow := (@Json.Sound.embedded_depth strings _ _ sound).trans fits.depth_le
      exact Nat.lt_of_le_of_lt shallow (by decide)

theorem raw_field_embed (key : Text) (filled : bytes ≠ []) :
    rawField strings key (embedJSON strings bytes) = some [(key, embedValue strings bytes)] := by
  rw [embedJSON, if_neg filled, embedValue]
  cases found : parseJson maxNesting bytes with
  | some value => simp [rawField, filled, found]
  | none =>
    have body : (Json.string (strings.quote bytes)).Sound maxNesting :=
      .string (strings.quote_scannable bytes)
    have read : parseJson maxNesting (quoted (strings.quote bytes)) =
        some (.string (strings.quote bytes)) := parse_json_text body
    have some_text : quoted (strings.quote bytes) ≠ [] := by simp [quoted]
    simp [rawField, some_text, read, Json.embedded]

theorem embed_json_filled (filled : bytes ≠ []) : embedJSON strings bytes ≠ [] := by
  rw [embedJSON, if_neg filled]
  split_ifs
  · exact filled
  · simp [quoted]

theorem embed_value_same {value : Json} (found : parseJson maxNesting bytes = some value) :
    (embedValue strings bytes).canon strings = value.canon strings := by
  rw [embedValue, found]
  exact (parse_json_sound found).canon_embedded

end Embedding

section Contents

variable (strings : StringCodec)

def Input.body (input : Input) : Body :=
  if input.isOpaque then .encoded input.payload
  else if input.payload = [] then .value (.scalar (ascii "null"))
  else .value (embedValue strings input.payload)

def Input.content (input : Input) : Content where
  mainLT := input.mainLT
  body := input.body strings
  ts := input.ts
  metadata := if input.metadata = [] then none else some (embedValue strings input.metadata)
  cursors := if input.cursors = [] then none else some
    (.object (cursorMembers strings input.cursors))

def Body.canon : Body → Body
  | .value json => .value (json.canon strings)
  | .encoded payload => .encoded payload

def Content.canon (content : Content) : Content where
  mainLT := content.mainLT
  body := content.body.canon strings
  ts := content.ts
  metadata := content.metadata.map (Json.canon strings)
  cursors := content.cursors.map (Json.canon strings)

end Contents

section Printed

variable {strings : StringCodec}

theorem null_sound (depth : Nat) : (Json.scalar (ascii "null")).Sound depth :=
  .word (by decide)

theorem raw_field_null (key : Text) :
    rawField strings key (ascii "null") = some [(key, .scalar (ascii "null"))] := by
  have read : parseJson maxNesting (ascii "null") = some (.scalar (ascii "null")) :=
    parse_json_text (null_sound maxNesting)
  have filled : ascii "null" ≠ [] := by decide
  simp [rawField, filled, read, Json.embedded]

theorem encode_text (input : Input) :
    input.encode strings = (Json.object (input.content strings).emitted).text := by
  have metadata : rawField strings keyX (embedJSON strings input.metadata) =
      some (input.content strings).metaPart := by
    rw [Content.metaPart, Input.content]
    by_cases empty : input.metadata = []
    · simp [empty, embedJSON, rawField]
    · simp [empty, raw_field_embed keyX empty]
  have encoded : strings.quote (base64Encode input.payload) = base64Encode input.payload :=
    strings.quote_plain _ (base64_encode_plain input.payload)
  have cursors : (if input.cursors = [] then []
      else [(keyC, Json.object (cursorMembers strings input.cursors))]) =
        (input.content strings).cursorPart := by
    rw [Content.cursorPart, Input.content]
    by_cases empty : input.cursors = []
    · simp [empty]
    · simp [empty]
  have written : fields strings {
      m := input.mainLT
      p := if input.isOpaque then [] else
        if embedJSON strings input.payload = [] then ascii "null"
        else embedJSON strings input.payload
      p64 := if input.isOpaque then some (base64Encode input.payload) else none
      t := input.ts
      x := embedJSON strings input.metadata
      c := input.cursors } = some (input.content strings).emitted := by
    rw [fields, metadata, cursors, Content.emitted, Content.leading]
    cases opaque_payload : input.isOpaque with
    | true =>
      simp [rawField, Input.content, Input.body, opaque_payload, Body.member, encoded,
        Content.timePart]
    | false =>
      by_cases empty : input.payload = []
      · simp [Input.content, Input.body, opaque_payload, Body.member, empty, embedJSON,
          raw_field_null, Content.timePart]
      · simp [Input.content, Input.body, opaque_payload, Body.member, empty,
          embed_json_filled empty, raw_field_embed keyP empty, Content.timePart]
  rw [Input.encode, encodeStampedFrame, marshal, written]

theorem cursor_members_sound (cursors : List (Text × Nat)) :
    (Json.object (cursorMembers strings cursors)).Sound (maxNesting - 1) := by
  apply Json.Sound.object
  · intro member inside
    obtain ⟨cursor, held, rfl⟩ := List.mem_map.mp inside
    exact strings.quote_scannable cursor.1
  · intro member inside
    obtain ⟨cursor, held, rfl⟩ := List.mem_map.mp inside
    exact decimal_sound _ cursor.2

theorem content_fits {input : Input} (shallow : input.Shallow) : (input.content strings).Fits := by
  constructor
  · exact input.mainLT_le
  · exact input.ts_ge
  · exact input.ts_le
  · change (input.body strings).member.2.Sound (maxNesting - 1)
    rw [Input.body]
    split_ifs with isOpaque empty
    · exact .string (plain_scannable strings (base64_encode_plain input.payload))
    · exact null_sound _
    · exact (nestable_iff strings _).mp (shallow.1 (Bool.not_eq_true _ ▸ isOpaque))
  · intro json held
    obtain ⟨_, ⟨⟩⟩ := Option.ite_none_left_eq_some.mp held
    exact (nestable_iff strings _).mp shallow.2
  · intro json held
    obtain ⟨_, ⟨⟩⟩ := Option.ite_none_left_eq_some.mp held
    exact cursor_members_sound input.cursors

theorem Content.Fits.canon {content : Content} (fits : content.Fits) :
    (content.canon strings).Fits := by
  constructor
  · exact fits.mainLT
  · exact fits.low
  · exact fits.high
  · have sound := fits.body
    rw [Content.canon]
    cases shape : content.body with
    | value json =>
      rw [shape] at sound
      exact Json.Sound.canon sound
    | encoded payload =>
      rw [shape] at sound
      exact sound
  · intro json held
    obtain ⟨source, there, rfl⟩ := Option.map_eq_some_iff.mp held
    exact (fits.metadata source there).canon
  · intro json held
    obtain ⟨source, there, rfl⟩ := Option.map_eq_some_iff.mp held
    exact (fits.cursors source there).canon

end Printed

section Stored

variable {libraries : Libraries}

theorem keys_plain : ∀ key ∈ [keyM, keyP, keyP64, keyT, keyX, keyC], key.all isPlain = true := by
  decide

theorem body_key (body : Body) : body.member.1 = keyP ∨ body.member.1 = keyP64 := by
  cases body with
  | value json => exact .inl rfl
  | encoded payload => exact .inr rfl

theorem rest_cases {content : Content} {member : Text × Json}
    (inside : member ∈ content.body.member :: (content.timePart ++ content.metaPart)) :
    member = content.body.member ∨ member = (keyT, .scalar (integer content.ts)) ∨
      ∃ json ∈ content.metadata, member = (keyX, json) := by
  simp only [Content.timePart, Content.metaPart, List.mem_cons, List.mem_append, List.mem_map,
    Option.mem_toList] at inside
  rcases inside with body | time | ⟨json, held, rfl⟩
  · exact .inl body
  · split_ifs at time
    · cases time
    · exact .inr (.inl (List.mem_singleton.mp time))
  · exact .inr (.inr ⟨json, held, rfl⟩)

theorem rest_keys {content : Content} {member : Text × Json}
    (inside : member ∈ content.body.member :: (content.timePart ++ content.metaPart)) :
    member.1 ∈ [keyP, keyP64, keyT, keyX, keyC] := by
  rcases rest_cases inside with rfl | rfl | ⟨json, held, rfl⟩
  · rcases body_key content.body with value | encoded
    · simp [value]
    · simp [encoded]
  · simp
  · simp

theorem stored_cases {content : Content} {member : Text × Json} (inside : member ∈ content.stored) :
    (∃ json ∈ content.cursors, member = (keyC, json)) ∨
      member = (keyM, .scalar (decimal content.mainLT)) ∨
      member ∈ content.body.member :: (content.timePart ++ content.metaPart) := by
  rcases List.mem_append.mp inside with cursor | other
  · obtain ⟨json, held, rfl⟩ := List.mem_map.mp cursor
    exact .inl ⟨json, Option.mem_toList.mp held, rfl⟩
  · exact .inr (List.mem_cons.mp other)

theorem stored_keys {content : Content} {member : Text × Json} (inside : member ∈ content.stored) :
    member.1 ∈ [keyM, keyP, keyP64, keyT, keyX, keyC] := by
  rcases stored_cases inside with ⟨json, held, rfl⟩ | rfl | rest
  · simp
  · simp
  · exact List.mem_cons_of_mem _ (rest_keys rest)

theorem leading_ordered (content : Content) : Ordered content.leading := by
  have order : keyM < keyP ∧ keyM < keyP64 ∧ keyM < keyT ∧ keyM < keyX ∧ keyP < keyT ∧
      keyP < keyX ∧ keyP64 < keyT ∧ keyP64 < keyX ∧ keyT < keyX := by decide
  rcases content with ⟨mainLT, body, ts, metadata, cursors⟩
  rw [Ordered, Content.leading, Content.timePart, Content.metaPart]
  cases body <;> cases metadata <;> by_cases zero : ts = 0 <;>
    simp [Body.member, zero, order]

theorem decode_members_emitted (content : Content) :
    Json.decodeMembers libraries.strings content.emitted =
      (content.canon libraries.strings).emitted := by
  have keys := fun key inside => libraries.strings.unquote_plain key (keys_plain key inside)
  simp only [List.forall_mem_cons, List.not_mem_nil, false_implies, implies_true, and_true] at keys
  rcases content with ⟨mainLT, body, ts, metadata, cursors⟩
  have bodies : (libraries.strings.unquote body.member.1, body.member.2.canon libraries.strings) =
      (body.canon libraries.strings).member := by
    cases body with
    | value json => rw [Body.member, keys.2.1, Body.canon, Body.member]
    | encoded payload =>
      have plain := base64_encode_plain payload
      rw [Body.member, keys.2.2.1, Json.canon, libraries.strings.unquote_plain _ plain,
        libraries.strings.quote_plain _ plain, Body.canon, Body.member]
  rw [decode_members_eq]
  simp only [Content.emitted, Content.leading, Content.timePart, Content.metaPart,
    Content.cursorPart, Content.canon, List.map_append, List.map_cons, keys.1, Json.canon, bodies]
  cases metadata <;> cases cursors <;> by_cases zero : ts = 0 <;>
    simp [zero, keys, Json.canon]

theorem collect_emitted (content : Content) : collect content.emitted = content.stored := by
  rw [collect, Content.emitted, List.foldl_append]
  have front : content.leading.foldl (fun map member => putMember member.1 member.2 map) [] =
      content.leading := collect_of_ordered (leading_ordered content)
  rw [front, Content.stored, Content.cursorPart]
  cases content.cursors with
  | none => rfl
  | some json =>
    have before : keyC < keyM := by decide
    simp [Content.leading, putMember, before]

theorem members_sound {content : Content} {depth : Nat}
    (values : ∀ member ∈ content.stored, member.2.Sound depth) :
    (Json.object content.stored).Sound (depth + 1) ∧
      (Json.object content.emitted).Sound (depth + 1) := by
  have keys : ∀ key ∈ [keyM, keyP, keyP64, keyT, keyX, keyC], Scannable key := by
    have scans := keys_scannable
    simp only [List.forall_mem_cons, List.not_mem_nil, false_implies, implies_true, and_true]
    tauto
  have same : ∀ member, member ∈ content.emitted → member ∈ content.stored := by
    intro member inside
    rw [Content.emitted, List.mem_append] at inside
    rw [Content.stored, List.mem_append]
    exact inside.symm
  constructor
  · apply Json.Sound.object
    · intro member inside
      exact keys member.1 (stored_keys inside)
    · exact values
  · apply Json.Sound.object
    · intro member inside
      exact keys member.1 (stored_keys (same member inside))
    · intro member inside
      exact values member (same member inside)

theorem object_sound {content : Content} (fits : content.Fits) :
    (Json.object content.stored).Sound maxNesting ∧
      (Json.object content.emitted).Sound maxNesting := by
  apply members_sound
  intro member inside
  rcases stored_cases inside with ⟨json, held, rfl⟩ | rfl | rest
  · exact fits.cursors json held
  · exact decimal_sound _ content.mainLT
  · rcases rest_cases rest with rfl | rfl | ⟨json, held, rfl⟩
    · exact fits.body
    · exact integer_sound _ content.ts
    · exact fits.metadata json held

/-- A printed frame is stored in the order of its keys, each value in its canonical form. -/
theorem frame_stored {content : Content} (fits : content.Fits) (idx : Nat) :
    ∃ line, frame libraries idx (Json.object content.emitted).text = .ok line ∧
      Jsonl.readFrame libraries line =
        .ok (Json.object (content.canon libraries.strings).stored).text := by
  have decoded : decodeJSONObject libraries (Json.object content.emitted).text =
      .ok (content.canon libraries.strings).stored := by
    have read := parse_value_text (object_sound fits).2 [] (by simp [StopsNumber])
    rw [List.append_nil] at read
    rw [decodeJSONObject, read]
    simp only
    rw [decode_members_emitted, collect_emitted]
  have absent : ∀ key, key ∉ [keyM, keyP, keyP64, keyT, keyX, keyC] →
      (content.canon libraries.strings).stored.has key = false := by
    intro key other
    rw [Members.has, List.any_eq_false]
    intro member inside same
    rw [beq_iff_eq] at same
    exact other (same ▸ stored_keys inside)
  have printed : marshalCanonical libraries (content.canon libraries.strings).stored =
      (Json.object (content.canon libraries.strings).stored).text := by
    have requoted : libraries.strings.requote (content.canon libraries.strings).stored =
        (content.canon libraries.strings).stored := by
      rw [StringCodec.requote]
      refine (List.map_congr_left fun member inside => ?_).trans (List.map_id _)
      rw [libraries.strings.quote_plain _ (keys_plain _ (stored_keys inside))]
      rfl
    rw [marshalCanonical, requoted]
  have framed : ∃ line, frame libraries idx (Json.object content.emitted).text = .ok line := by
    rw [frame, decoded]
    simp only [absent sidecarIdx (by decide), absent sidecarHash (by decide), Bool.false_eq_true,
      if_false]
    exact ⟨_, rfl⟩
  obtain ⟨line, done⟩ := framed
  refine ⟨line, done, ?_⟩
  rw [Jsonl.readFrame, decode_line_frame decoded done, printed]

end Stored

section Cursors

variable {strings : StringCodec}

def readCursors (strings : StringCodec) (cursors : List (Text × Nat)) : List (Text × Nat) :=
  collect (cursors.map fun cursor => (strings.unquote (strings.quote cursor.1), cursor.2))

theorem read_cursors_clean {cursors : List (Text × Nat)} (ordered : Ordered cursors)
    (clean : ∀ cursor ∈ cursors, strings.Clean cursor.1) :
    readCursors strings cursors = cursors := by
  have same : cursors.map (fun cursor => (strings.unquote (strings.quote cursor.1), cursor.2)) =
      cursors := by
    refine (List.map_congr_left fun cursor held => ?_).trans (List.map_id _)
    have key : strings.unquote (strings.quote cursor.1) = cursor.1 := clean cursor held
    rw [key]
    rfl
  rw [readCursors, same, collect_of_ordered ordered]

theorem clean_of_read_cursors {cursors : List (Text × Nat)}
    (same : readCursors strings cursors = cursors) :
    ∀ cursor ∈ cursors, strings.Clean cursor.1 := by
  intro cursor held
  rw [← same] at held
  obtain ⟨source, _, rfl⟩ := List.mem_map.mp (mem_collect held)
  exact strings.unquote_quote _ (strings.quote_scannable source.1)

theorem cursor_field_numbers {members : List (Text × Nat)}
    (bounded : ∀ member ∈ members, member.2 ≤ maxUint64) :
    cursorField strings [] (.object (members.map fun member =>
      (member.1, .scalar (decimal member.2)))) =
      some (collect (members.map fun member => (strings.unquote member.1, member.2))) := by
  have read : (members.map fun member => (member.1, Json.scalar (decimal member.2))).mapM
      (fun member => (numberField (parseUint maxUint64) 0 member.2).map fun value =>
        (strings.unquote member.1, value)) =
      some (members.map fun member => (strings.unquote member.1, member.2)) := by
    induction members with
    | nil => rfl
    | cons first rest ih =>
      have here : numberField (parseUint maxUint64) 0 (.scalar (decimal first.2)) =
          some first.2 := by
        rw [numberField, if_neg (decimal_not_null first.2)]
        exact parse_uint_decimal (bounded first List.mem_cons_self)
      have later := ih fun member inside => bounded member (List.mem_cons_of_mem first inside)
      simp [List.mapM_cons, here, later]
  rw [cursorField, read]
  rfl

theorem read_cursors_bounded {input : Input} :
    ∀ member ∈ readCursors strings input.cursors, member.2 ≤ maxUint64 := by
  intro member inside
  obtain ⟨cursor, held, rfl⟩ := List.mem_map.mp (mem_collect inside)
  exact input.cursors_le cursor held

theorem cursor_members_eq (cursors : List (Text × Nat)) :
    cursorMembers strings cursors =
      (cursors.map fun cursor => (strings.quote cursor.1, cursor.2)).map
        fun member => (member.1, Json.scalar (decimal member.2)) := by
  rw [cursorMembers, List.map_map]
  rfl

theorem cursors_read (input : Input) :
    (input.content strings).CursorsRead strings (readCursors strings input.cursors) := by
  rw [Content.CursorsRead, Input.content]
  by_cases empty : input.cursors = []
  · simp [empty, readCursors, collect]
  · simp only [empty, if_false]
    rw [cursor_members_eq, cursor_field_numbers, List.map_map]
    · rfl
    · intro member inside
      obtain ⟨cursor, held, rfl⟩ := List.mem_map.mp inside
      exact input.cursors_le cursor held

theorem cursors_read_canon (input : Input) :
    ((input.content strings).canon strings).CursorsRead strings
      (readCursors strings input.cursors) := by
  rw [Content.CursorsRead, Content.canon, Input.content]
  by_cases empty : input.cursors = []
  · simp [empty, readCursors, collect]
  · have canonical : (Json.object (cursorMembers strings input.cursors)).canon strings =
        .object (((readCursors strings input.cursors).map fun member =>
          (strings.quote member.1, member.2)).map
            fun member => (member.1, Json.scalar (decimal member.2))) := by
      have decoded : Json.decodeMembers strings (cursorMembers strings input.cursors) =
          (input.cursors.map fun cursor =>
            (strings.unquote (strings.quote cursor.1), cursor.2)).map
              fun member => (member.1, Json.scalar (decimal member.2)) := by
        rw [decode_members_eq, cursorMembers, List.map_map, List.map_map]
        rfl
      rw [Json.canon, decoded, collect_map (fun number => Json.scalar (decimal number)),
        StringCodec.requote, List.map_map, List.map_map]
      rfl
    have again : ((readCursors strings input.cursors).map fun member =>
        (strings.quote member.1, member.2)).map
          (fun member => (strings.unquote member.1, member.2)) =
        readCursors strings input.cursors := by
      rw [List.map_map]
      refine (List.map_congr_left fun member inside => ?_).trans (List.map_id _)
      obtain ⟨cursor, held, rfl⟩ := List.mem_map.mp (mem_collect inside)
      have key := strings.unquote_quote _ (strings.quote_scannable cursor.1)
      simp [key]
    simp only [empty, if_false, Option.map_some]
    rw [canonical, cursor_field_numbers, again]
    · exact congrArg some (collect_of_ordered (collect_ordered _))
    · intro member inside
      obtain ⟨source, held, rfl⟩ := List.mem_map.mp inside
      exact read_cursors_bounded source held

end Cursors

section Decoding

variable {strings : StringCodec}

theorem unmarshal_members {members : Members} (sound : (Json.object members).Sound maxNesting) :
    unmarshal strings (Json.object members).text = members.foldlM (assign strings) emptyFrame := by
  rw [unmarshal, parse_json_text sound]

theorem main_skip {members : Members}
    (others : ∀ member ∈ members, foldName (strings.unquote member.1) ≠ keyM) (old : Nat) :
    members.foldlM (fun old member =>
      if foldName (strings.unquote member.1) = keyM then
        numberField (parseUint maxUint64) old member.2
      else some old) old = some old := by
  induction members with
  | nil => rfl
  | cons first rest ih =>
    rw [List.foldlM_cons, if_neg (others first List.mem_cons_self)]
    exact ih fun member inside => others member (List.mem_cons_of_mem first inside)

theorem unmarshal_main_stored {content : Content} (fits : content.Fits) :
    unmarshalMainLT strings (Json.object content.stored).text = some content.mainLT := by
  have others : ∀ key ∈ [keyP, keyP64, keyT, keyX, keyC], foldName (strings.unquote key) ≠
      keyM := by
    have apart : ∀ key ∈ [keyP, keyP64, keyT, keyX, keyC],
        key.all isPlain = true ∧ foldName key ≠ keyM := by decide
    intro key inside
    rw [strings.unquote_plain key (apart key inside).1]
    exact (apart key inside).2
  have before : ∀ member ∈ content.cursorPart, foldName (strings.unquote member.1) ≠ keyM := by
    intro member inside
    obtain ⟨json, held, rfl⟩ := List.mem_map.mp inside
    exact others keyC (by simp)
  have behind : ∀ member ∈ content.body.member :: (content.timePart ++ content.metaPart),
      foldName (strings.unquote member.1) ≠ keyM :=
    fun member inside => others member.1 (rest_keys inside)
  have main := @fold_key strings keyM (by decide) (by decide)
  rw [unmarshalMainLT, parse_json_text (object_sound fits).1]
  simp only [Content.stored, Content.leading]
  rw [List.foldlM_append, main_skip before, Option.bind_eq_bind, Option.bind_some,
    List.foldlM_cons, if_pos main, numberField, if_neg (decimal_not_null _),
    parse_uint_decimal fits.mainLT, Option.bind_eq_bind, Option.bind_some, main_skip behind]

/-- What the decoders return, given the reflection path and what the scanner may find. -/
theorem decodes_content {input : Input} {content : Content} {text : Text}
    {cursors : List (Text × Nat)} (mainLT : content.mainLT = input.mainLT)
    (ts : content.ts = input.ts) (payload : input.SamePayload strings content.body.payload)
    (metadata : SameValue strings input.metadata content.metaText)
    (absent : input.metadata = [] → content.metaText = [])
    (slow : unmarshal strings text = some (content.decoded cursors))
    (main : decodeMainLT strings text = some content.mainLT)
    (scanned : ∀ fast, fastDecodeFrame text = some fast →
      fast = ⟨content.mainLT, content.body.payload, content.metaText, content.ts⟩)
    (intact : cursors = input.cursors ↔ ∀ cursor ∈ input.cursors, strings.Clean cursor.1) :
    Decodes strings input text := by
  have whole := decoded_payload content cursors
  refine ⟨content.body.payload, content.metaText, payload, metadata, absent, ?_, ?_, ?_, ?_, ?_⟩
  · rw [main, mainLT]
  · rw [decodeFrame]
    cases found : fastDecodeFrame text with
    | some fast =>
      rw [scanned fast found]
      simp only [mainLT]
    | none =>
      simp only [slow, whole, Option.map_some]
      rw [← mainLT]
      rfl
  · intro channelLT isMain
    rw [decodeRecordFrom.eq_def]
    cases found : fastDecodeFrame text with
    | none =>
      refine ⟨cursors, ?_, fun _ => intact⟩
      simp only [slow, whole, Option.map_some]
      rw [← mainLT, ← ts]
      rfl
    | some fast =>
      cases isMain with
      | true =>
        refine ⟨cursors, ?_, fun _ => intact⟩
        simp only [slow, whole, Option.map_some]
        rw [← mainLT, ← ts]
        rfl
      | false =>
        rw [scanned fast found, mainLT, ts]
        exact ⟨[], rfl, fun impossible => nomatch impossible⟩
  · exact ⟨content.decoded cursors, slow, mainLT, whole, rfl, ts⟩
  · intro fast found
    rw [scanned fast found, mainLT, ts]

/-- What stands for bytes in a frame, and its canonical form, is the value of the bytes. -/
theorem same_value_embedded {bytes : Text} (nestable : Nestable bytes) :
    SameValue strings bytes (embedValue strings bytes).text ∧
      SameValue strings bytes ((embedValue strings bytes).canon strings).text := by
  have sound := (nestable_iff strings bytes).mp nestable
  constructor
  · intro value found
    exact ⟨_, parse_json_text (sound.mono (Nat.sub_le maxNesting 1)), embed_value_same found⟩
  · intro value found
    refine ⟨_, parse_json_text (sound.canon.mono (Nat.sub_le maxNesting 1)), ?_⟩
    rw [sound.canon_canon, embed_value_same found]

theorem same_value_nil (read : Text) : SameValue strings [] read := by
  intro value found
  rw [parseJson, maxNesting, parseValue] at found
  cases found

theorem stored_of_no_cursors {content : Content} (none_held : content.cursors = none) :
    content.stored = content.emitted := by
  rw [Content.stored, Content.emitted, Content.cursorPart, none_held]
  simp

theorem stored_of_cursors {content : Content} {json : Json} (held : content.cursors = some json) :
    content.stored = (keyC, json) :: content.leading := by
  rw [Content.stored, Content.cursorPart, held]
  rfl

theorem decode_main_stored {content : Content} (fits : content.Fits) :
    decodeMainLT strings (Json.object content.stored).text = some content.mainLT := by
  have slow := @unmarshal_main_stored strings content fits
  rw [decodeMainLT]
  cases held : content.cursors with
  | none =>
    have valid := parse_json_text (object_sound fits).2
    rw [stored_of_no_cursors held, fast_main_emitted fits (by rw [valid]; rfl)]
  | some json =>
    have passed : fastDecodeMainLT (Json.object content.stored).text = none := by
      rw [fastDecodeMainLT, stored_of_cursors held, after_main_cursors]
    rw [passed]
    exact slow

theorem fast_frame_stored {content : Content} (fits : content.Fits) {fast : Fast}
    (found : fastDecodeFrame (Json.object content.stored).text = some fast) :
    fast = ⟨content.mainLT, content.body.payload, content.metaText, content.ts⟩ := by
  cases held : content.cursors with
  | none =>
    rw [stored_of_no_cursors held] at found
    exact fast_frame_emitted fits found
  | some json =>
    rw [fastDecodeFrame, stored_of_cursors held, after_main_cursors] at found
    cases found

/-- The payload of the content, and of its canonical form, is the payload that was given. -/
theorem content_payload {input : Input} (shallow : input.Shallow) :
    input.SamePayload strings (input.content strings).body.payload ∧
      input.SamePayload strings ((input.content strings).canon strings).body.payload := by
  rw [Input.SamePayload, Input.SamePayload]
  cases raw : input.isOpaque with
  | true => simp [Input.content, Input.body, raw, Body.payload, Content.canon, Body.canon]
  | false =>
    by_cases empty : input.payload = []
    · rw [empty]
      exact ⟨same_value_nil _, same_value_nil _⟩
    · have given : (input.content strings).body = .value (embedValue strings input.payload) := by
        simp [Input.content, Input.body, raw, empty]
      simp only [Content.canon, given, Body.canon, Body.payload, Bool.false_eq_true, if_false]
      exact same_value_embedded (shallow.1 raw)

theorem content_meta {input : Input} (shallow : input.Shallow) :
    SameValue strings input.metadata (input.content strings).metaText ∧
      SameValue strings input.metadata ((input.content strings).canon strings).metaText := by
  by_cases empty : input.metadata = []
  · rw [empty]
    exact ⟨same_value_nil _, same_value_nil _⟩
  · have given : (input.content strings).metadata = some (embedValue strings input.metadata) := by
      simp [Input.content, empty]
    simp only [Content.metaText, Content.canon, given, Option.map_some]
    exact same_value_embedded shallow.2

theorem content_meta_absent {input : Input} (empty : input.metadata = []) :
    (input.content strings).metaText = [] ∧
      ((input.content strings).canon strings).metaText = [] := by
  simp [Content.metaText, Content.canon, Input.content, empty]

end Decoding

section Limit

variable {strings : StringCodec}

theorem encode_whole (input : Input) :
    IsText (input.encode strings) (.object (input.content strings).emitted) := by
  refine ⟨maxNesting + 1, ?_⟩
  rw [encode_text]
  apply parse_json_text
  refine (members_sound fun member inside => ?_).2
  rcases stored_cases inside with ⟨json, held, rfl⟩ | rfl | rest
  · obtain ⟨_, ⟨⟩⟩ := Option.ite_none_left_eq_some.mp held
    exact (cursor_members_sound input.cursors).mono (Nat.sub_le _ _)
  · exact decimal_sound _ input.mainLT
  · rcases rest_cases rest with rfl | rfl | ⟨json, held, rfl⟩
    · change (input.body strings).member.2.Sound maxNesting
      rw [Input.body]
      split_ifs
      · exact .string (plain_scannable strings (base64_encode_plain input.payload))
      · exact null_sound _
      · exact embed_value_sound strings input.payload
    · exact integer_sound _ input.ts
    · obtain ⟨_, ⟨⟩⟩ := Option.ite_none_left_eq_some.mp held
      exact embed_value_sound strings input.metadata

theorem nestable_of_nil {bytes : Text} (empty : bytes = []) : Nestable bytes := by
  intro value held
  rw [empty, Option.mem_def, parseJson, maxNesting, parseValue] at held
  cases held

/-- A frame that can be read at all embeds values that could be nested once more. -/
theorem shallow_of_parsed {input : Input}
    (parsed : (parseJson maxNesting (input.encode strings)).isSome = true) : input.Shallow := by
  obtain ⟨found, read⟩ := Option.isSome_iff_exists.mp parsed
  have whole := @encode_whole strings input
  have same := whole.unique ⟨_, read⟩
  have depth := (parse_json_sound read).depth_le
  rw [← same, Json.depth] at depth
  have inside : ∀ member ∈ (input.content strings).emitted, member.2.depth ≤ maxNesting - 1 :=
    fun member held => (member_depth_le held).trans (Nat.le_sub_one_of_lt depth)
  constructor
  · intro raw
    by_cases empty : input.payload = []
    · exact nestable_of_nil empty
    · have given : (input.content strings).body = .value (embedValue strings input.payload) := by
        simp [Input.content, Input.body, raw, empty]
      apply (nestable_iff strings _).mpr
      apply (embed_value_sound strings _).of_depth
      apply inside (keyP, embedValue strings input.payload)
      simp [Content.emitted, Content.leading, given, Body.member]
  · by_cases empty : input.metadata = []
    · exact nestable_of_nil empty
    · have given : (input.content strings).metadata = some (embedValue strings input.metadata) := by
        simp [Input.content, empty]
      apply (nestable_iff strings _).mpr
      apply (embed_value_sound strings _).of_depth
      apply inside (keyX, embedValue strings input.metadata)
      simp [Content.emitted, Content.leading, Content.metaPart, given]

theorem undecoded {text : Text} (unparsed : parseJson maxNesting text = none) :
    decodeMainLT strings text = none ∧ decodeFrame strings text = none ∧
      ∀ channelLT isMain, decodeRecordFrom strings channelLT text isMain = none := by
  have slow : unmarshal strings text = none := by
    rw [unmarshal, unparsed]
  have fast : fastDecodeFrame text = none := by
    rw [fastDecodeFrame]
    split
    · rfl
    · rw [unparsed]
      exact if_pos (.inr rfl)
  have fastMain : fastDecodeMainLT text = none := by
    rw [fastDecodeMainLT]
    split
    · rfl
    · rw [unparsed]
      exact if_pos (.inr rfl)
  refine ⟨?_, ?_, ?_⟩
  · rw [decodeMainLT, fastMain]
    rw [unmarshalMainLT, unparsed]
  · rw [decodeFrame, fast, slow]
  · intro channelLT isMain
    rw [decodeRecordFrom.eq_def, fast, slow]

theorem deep_undecoded {input : Input} (deep : ¬input.Shallow) :
    decodeMainLT strings (input.encode strings) = none ∧
      decodeFrame strings (input.encode strings) = none ∧
      ∀ channelLT isMain,
        decodeRecordFrom strings channelLT (input.encode strings) isMain = none := by
  apply undecoded
  by_contra read
  exact deep (shallow_of_parsed (Option.isSome_iff_ne_none.mpr read))

theorem shallow_round_trip {libraries : Libraries} {input : Input} (shallow : input.Shallow)
    (idx : Nat) :
    Decodes libraries.strings input (input.encode libraries.strings) ∧
      ∃ line stored, frame libraries idx (input.encode libraries.strings) = .ok line ∧
        Jsonl.readFrame libraries line = .ok stored ∧ Decodes libraries.strings input stored := by
  have fits := @content_fits libraries.strings input shallow
  have stays := @Content.Fits.canon libraries.strings _ fits
  have payloads := @content_payload libraries.strings input shallow
  have metas := @content_meta libraries.strings input shallow
  have intact : readCursors libraries.strings input.cursors = input.cursors ↔
      ∀ cursor ∈ input.cursors, libraries.strings.Clean cursor.1 :=
    ⟨clean_of_read_cursors, read_cursors_clean input.cursors_ordered⟩
  have valid := parse_json_text (object_sound fits).2
  rw [encode_text]
  constructor
  · refine decodes_content rfl rfl payloads.1 metas.1 (fun empty => (content_meta_absent empty).1)
      ?_ ?_ (fun fast found => fast_frame_emitted fits found) intact
    · rw [unmarshal_members (object_sound fits).2]
      exact assign_emitted fits (cursors_read input)
    · rw [decodeMainLT, fast_main_emitted fits (by rw [valid]; rfl)]
  · obtain ⟨line, framed, read⟩ := frame_stored fits idx
    refine ⟨line, _, framed, read, ?_⟩
    refine decodes_content rfl rfl payloads.2 metas.2 (fun empty => (content_meta_absent empty).2)
      ?_ (decode_main_stored stays) (fun fast found => fast_frame_stored stays found) intact
    rw [unmarshal_members (object_sound stays).1]
    exact assign_stored stays (cursors_read_canon input)

end Limit

/-- Every decoder returns what a frame was built from, as the frame is printed and as it is
read from a line, exactly if the values it embeds can be nested once more. If they cannot, no
decoder reads the frame. -/
theorem frame_round_trip (libraries : Libraries) (input : Input) (idx : Nat) :
    (Decodes libraries.strings input (input.encode libraries.strings) ∧
      (∃ line stored, frame libraries idx (input.encode libraries.strings) = .ok line ∧
        Jsonl.readFrame libraries line = .ok stored ∧ Decodes libraries.strings input stored) ↔
      input.Shallow) ∧
    (¬input.Shallow →
      decodeMainLT libraries.strings (input.encode libraries.strings) = none ∧
      decodeFrame libraries.strings (input.encode libraries.strings) = none ∧
      ∀ channelLT isMain, decodeRecordFrom libraries.strings channelLT
        (input.encode libraries.strings) isMain = none) := by
  refine ⟨⟨?_, fun shallow => shallow_round_trip shallow idx⟩, deep_undecoded⟩
  rintro ⟨⟨_, _, _, _, _, main, _⟩, _⟩
  by_contra deep
  cases (deep_undecoded deep).1.symm.trans main

def bareInput (payload : Text) : Input where
  mainLT := 1
  payload := payload
  metadata := []
  isOpaque := false
  cursors := []
  ts := 0
  mainLT_le := by decide
  ts_ge := by decide
  ts_le := by decide
  cursors_ordered := List.Pairwise.nil
  cursors_le _ held := nomatch held

theorem tower_not_shallow {levels : Nat} (limit : maxNesting = levels + 1) :
    parseJson maxNesting (tower levels).text = some (tower levels) ∧
      ¬(bareInput (tower levels).text).Shallow := by
  have valid : parseJson maxNesting (tower levels).text = some (tower levels) := by
    rw [limit]
    exact parse_json_text (tower_sound levels)
  refine ⟨valid, fun shallow => ?_⟩
  have below := shallow.1 rfl (tower levels) valid
  rw [tower_depth, limit] at below
  exact Nat.lt_irrefl _ below

/-- A payload that is JSON is framed, and no decoder reads the frame. -/
theorem deep_payload_unreadable :
    ∃ payload, (parseJson maxNesting payload).isSome = true ∧
      decodeMainLT byteStrings ((bareInput payload).encode byteStrings) = none ∧
      decodeFrame byteStrings ((bareInput payload).encode byteStrings) = none ∧
      (∀ channelLT isMain, decodeRecordFrom byteStrings channelLT
        ((bareInput payload).encode byteStrings) isMain = none) ∧
      ¬Decodes byteStrings (bareInput payload) ((bareInput payload).encode byteStrings) := by
  obtain ⟨levels, limit⟩ : ∃ levels, maxNesting = levels + 1 := ⟨9999, rfl⟩
  obtain ⟨valid, deep⟩ := tower_not_shallow limit
  obtain ⟨main, frame, record⟩ := @deep_undecoded byteStrings _ deep
  refine ⟨(tower levels).text, by rw [valid]; rfl, main, frame, record, ?_⟩
  rintro ⟨payload, metadata, _, _, _, read, _⟩
  rw [main] at read
  cases read

/-- A main record with nested JSON, a meta value, a cursor and a negative timestamp. -/
def stampedInput : Input where
  mainLT := 7
  payload := ascii "\x7b\"b\": [1, \"<\"], \"a\": null\x7d"
  metadata := ascii "[true]"
  isOpaque := false
  cursors := [(ascii "tr", 3)]
  ts := -5
  mainLT_le := by decide
  ts_ge := by decide
  ts_le := by decide
  cursors_ordered := List.pairwise_singleton _ _
  cursors_le := by decide

theorem stamped_round_trip :
    stampedInput.Shallow ∧
      Decodes byteStrings stampedInput (stampedInput.encode byteStrings) ∧
      ∃ line stored, frame ⟨byteStrings, zeroDigest⟩ 4 (stampedInput.encode byteStrings) =
        .ok line ∧
        Jsonl.readFrame ⟨byteStrings, zeroDigest⟩ line = .ok stored ∧
        Decodes byteStrings stampedInput stored := by
  have nested : ∀ bytes, ((parseJson maxNesting bytes).all fun value =>
      decide (value.depth < maxNesting)) = true → Nestable bytes := by
    intro bytes all value found
    rw [found] at all
    exact of_decide_eq_true all
  have shallow : stampedInput.Shallow :=
    ⟨fun _ => nested _ (by decide +kernel), nested _ (by decide +kernel)⟩
  exact ⟨shallow, (frame_round_trip ⟨byteStrings, zeroDigest⟩ stampedInput 4).1.mpr shallow⟩

end Figwal.Frame
