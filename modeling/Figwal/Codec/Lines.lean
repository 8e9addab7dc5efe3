import Figwal.Lib.JsonNesting
import Figwal.Codec.Cache

/-!
# What a line keeps

`Frame` takes any text of an object without sidecar keys and stores its canonical form, and
either decoder gives that form back together with its hash. What `Frame` asks of a text is
less than that it be one object: the decoder reads one value and leaves the rest unread, and
of several members with one key the last counts.
-/

namespace Figwal.Codec

open Figwal.Lib

set_option autoImplicit false

def objectOf (libraries : Libraries) (members : List (Text × Json)) : Members :=
  collect (Json.decodeMembers libraries.strings members)

def Members.Free (members : Members) : Prop :=
  members.has sidecarIdx = false ∧ members.has sidecarHash = false

def valueHash (libraries : Libraries) (text : Text) : Option Text :=
  (parseValue maxNesting text).map fun found =>
    libraries.digest.hashCanonical (found.1.canon libraries.strings).text

def lineHash (libraries : Libraries) (line : Text) : Option Text :=
  match decodeJSONObject libraries line with
  | .error _ => none
  | .ok members =>
    match members.find sidecarHash with
    | some (.string body) => some (libraries.strings.unquote body)
    | _ => none

instance (members : Members) : Decidable members.Free :=
  inferInstanceAs (Decidable (_ ∧ _))

section Texts

variable {libraries : Libraries} {members : Members}

theorem decode_text {payload : Text} {members : List (Text × Json)}
    (whole : IsText payload (.object members))
    (shallow : (Json.object members).depth ≤ maxNesting) :
    decodeJSONObject libraries payload = .ok (objectOf libraries members) := by
  obtain ⟨depth, read⟩ := whole
  have found := parse_json_shallow read shallow
  rw [parseJson] at found
  rw [decodeJSONObject]
  cases parsed : parseValue maxNesting payload with
  | none =>
    rw [parsed] at found
    cases found
  | some pair =>
    obtain ⟨json, rest⟩ := pair
    rw [parsed] at found
    simp only at found
    split_ifs at found
    cases found
    rfl

theorem frame_free {payload : Text} (decoded : decodeJSONObject libraries payload = .ok members)
    (free : members.Free) (idx : Nat) : frame libraries idx payload =
      .ok (marshalCanonical libraries (envelope libraries idx members) ++ [10]) := by
  rw [frame, decoded]
  simp only [free.1, free.2, Bool.false_eq_true, if_false]

theorem frame_decodes {payload line : Text} {idx : Nat}
    (framed : frame libraries idx payload = .ok line) :
    ∃ members, decodeJSONObject libraries payload = .ok members ∧ members.Free := by
  rw [frame] at framed
  cases decoded : decodeJSONObject libraries payload with
  | error err =>
    rw [decoded] at framed
    cases framed
  | ok members =>
    rw [decoded] at framed
    simp only at framed
    split_ifs at framed with idxTaken hashTaken
    exact ⟨members, rfl, Bool.not_eq_true _ ▸ idxTaken, Bool.not_eq_true _ ▸ hashTaken⟩

theorem decode_parsed {payload : Text}
    (decoded : decodeJSONObject libraries payload = .ok members) :
    ∃ written rest, parseValue maxNesting payload = some (.object written, rest) ∧
      members = objectOf libraries written := by
  rw [decodeJSONObject] at decoded
  split at decoded
  · cases decoded
  · rename_i written rest read
    cases decoded
    exact ⟨written, rest, read, rfl⟩
  · cases decoded

theorem value_hash_marshal (canonical : members.Canonical libraries) :
    valueHash libraries (marshalCanonical libraries members) =
      some (libraries.digest.hashCanonical (marshalCanonical libraries members)) := by
  have sound : (Json.object (libraries.strings.requote members)).Sound maxNesting :=
    Json.Sound.object (List.forall_mem_map.mpr fun _ _ =>
      libraries.strings.quote_scannable _) (List.forall_mem_map.mpr canonical.sound)
  have read := parse_value_text sound [] (by simp [StopsNumber])
  rw [List.append_nil] at read
  rw [valueHash, marshalCanonical, read, Option.map_some, Json.canon,
    decode_requote canonical.clean, collect_of_ordered canonical.ordered]

theorem line_hash_envelope (canonical : members.Canonical libraries) (idx : Nat) :
    lineHash libraries (marshalCanonical libraries (envelope libraries idx members) ++ [10]) =
      some (libraries.digest.hashCanonical (marshalCanonical libraries members)) := by
  have decoded := decode_marshal (envelope_canonical canonical idx) [10] (by rintro _ ⟨⟩; decide)
  have found : (envelope libraries idx members).find sidecarHash =
      some (.string (libraries.digest.hashCanonical (marshalCanonical libraries members))) :=
    find_put canonical.ordered.put_member
  rw [lineHash, decoded]
  simp only [found]
  rw [libraries.strings.unquote_plain _ (libraries.digest.hash_plain _)]

end Texts

/-- Exactly the texts of objects that nest within the decoder's limit are framed, and every
decoder then returns the object's canonical form, whose hash the line carries. -/
theorem jsonl_round_trip (libraries : Libraries) {payload : Text} {members : List (Text × Json)}
    (whole : IsText payload (.object members)) (free : (objectOf libraries members).Free)
    (idx : Nat) :
    (∃ line, frame libraries idx payload = .ok line ∧
      (∀ verify, decodeJSONLLine libraries line verify =
        .ok (marshalCanonical libraries (objectOf libraries members))) ∧
      ∃ hash, lineHash libraries line = some hash ∧
        valueHash libraries (marshalCanonical libraries (objectOf libraries members)) =
          some hash) ↔
      (Json.object members).depth ≤ maxNesting := by
  constructor
  · intro ⟨line, framed, _⟩
    obtain ⟨found, decoded, _⟩ := frame_decodes framed
    obtain ⟨_, _, read, _⟩ := decode_parsed decoded
    exact whole.depth_le read
  · intro shallow
    have decoded := @decode_text libraries _ _ whole shallow
    have canonical := decode_canonical decoded
    have framed := frame_free decoded free idx
    refine ⟨_, framed, fun verify => decode_line_frame decoded framed verify, ?_⟩
    exact ⟨_, line_hash_envelope canonical idx, value_hash_marshal canonical⟩

def sampleLibraries : Libraries := ⟨byteStrings, zeroDigest⟩

def spacedObject : Text := ascii "\x7b \"b\" : [1, \x7b\"x\":null\x7d], \"_i\":\"q\",\n\"Z\":2 \x7d"

def spacedMembers : List (Text × Json) :=
  [(ascii "b", .array [.scalar (ascii "1"), .object [(ascii "x", .scalar (ascii "null"))]]),
    (ascii "_i", .string (ascii "q")), (ascii "Z", .scalar (ascii "2"))]

theorem spaced_object_text : IsText spacedObject (.object spacedMembers) :=
  ⟨3, by decide +kernel⟩

theorem spaced_object_round_trip :
    (objectOf sampleLibraries spacedMembers).Free ∧
      ∃ line, frame sampleLibraries 7 spacedObject = .ok line ∧
        (∀ verify, decodeJSONLLine sampleLibraries line verify =
          .ok (marshalCanonical sampleLibraries (objectOf sampleLibraries spacedMembers))) ∧
        ∃ hash, lineHash sampleLibraries line = some hash ∧
          valueHash sampleLibraries
            (marshalCanonical sampleLibraries (objectOf sampleLibraries spacedMembers)) =
              some hash := by
  have free : (objectOf sampleLibraries spacedMembers).Free := by decide +kernel
  exact ⟨free, (jsonl_round_trip sampleLibraries spaced_object_text free 7).mpr (by decide)⟩

def deepObject : Json := .object [(ascii "a", tower 9999)]

theorem scannable_a : Scannable (ascii "a") := by
  rw [Scannable]
  decide

theorem deep_object_whole : IsText deepObject.text deepObject := by
  refine ⟨10001, parse_json_text ?_⟩
  apply Json.Sound.object
  · intro member inside
    rw [List.mem_singleton.mp inside]
    exact scannable_a
  · intro member inside
    rw [List.mem_singleton.mp inside]
    exact tower_sound 9999

theorem deep_object_unread : parseValue maxNesting deepObject.text = none := by
  apply deep_object_whole.unread
  rw [deepObject, Json.depth, Json.membersDepth, tower_depth]
  decide

theorem deep_object_not_framed :
    IsText deepObject.text deepObject ∧
      (∃ members, deepObject = .object members ∧ (objectOf sampleLibraries members).Free) ∧
      ∀ idx, frame sampleLibraries idx deepObject.text = .error .notJSON := by
  refine ⟨deep_object_whole, ⟨_, rfl, ?_⟩, ?_⟩
  · constructor <;> rfl
  · intro idx
    rw [frame, decodeJSONObject, deep_object_unread]

/-- If what the decoder reads first is an object that can be framed, then nothing follows it,
and if the whole text is such an object, then it nests within the limit. -/
structure ReadWhole (libraries : Libraries) (payload : Text) : Prop where
  alone : ∀ members rest, parseValue maxNesting payload = some (.object members, rest) →
    (objectOf libraries members).Free → skipSpace rest = []
  shallow : ∀ members, IsText payload (.object members) → (objectOf libraries members).Free →
    (Json.object members).depth ≤ maxNesting

section Accepting

variable {libraries : Libraries} {payload : Text}

theorem ReadWhole.taken (whole : ReadWhole libraries payload) {idx : Nat} {line : Text}
    (framed : frame libraries idx payload = .ok line) :
    ∃ members, IsText payload (.object members) ∧ (objectOf libraries members).Free := by
  obtain ⟨members, decoded, free⟩ := frame_decodes framed
  obtain ⟨written, rest, read, same⟩ := decode_parsed decoded
  rw [same] at free
  exact ⟨written, IsText.of_parsed read (whole.alone _ _ read free), free⟩

theorem read_whole_iff (libraries : Libraries) (payload : Text) (idx : Nat) :
    ((∃ line, frame libraries idx payload = .ok line) ↔
        ∃ members, IsText payload (.object members) ∧ (objectOf libraries members).Free) ↔
      ReadWhole libraries payload := by
  constructor
  · intro takes
    constructor
    · intro members rest read free
      have decoded : decodeJSONObject libraries payload = .ok (objectOf libraries members) := by
        rw [decodeJSONObject, read]
        rfl
      obtain ⟨others, text, _⟩ := takes.mp ⟨_, frame_free decoded free idx⟩
      obtain ⟨_, _, again, blank⟩ := text.parsed
      rw [(parse_value_unique read again).2]
      exact blank
    · intro members text free
      obtain ⟨line, framed⟩ := takes.mpr ⟨members, text, free⟩
      obtain ⟨_, decoded, _⟩ := frame_decodes framed
      obtain ⟨_, _, read, _⟩ := decode_parsed decoded
      exact text.depth_le read
  · intro whole
    constructor
    · rintro ⟨line, framed⟩
      exact whole.taken framed
    · rintro ⟨members, text, free⟩
      exact ⟨_, frame_free (decode_text text (whole.shallow _ text free)) free idx⟩

theorem marshal_is_text {members : List (Text × Json)} {depth : Nat}
    (sound : (Json.object members).Sound depth) :
    IsText (marshalCanonical libraries (objectOf libraries members))
      ((Json.object members).canon libraries.strings) :=
  ⟨depth, parse_json_text sound.canon⟩

theorem read_whole_of_text {members : List (Text × Json)}
    (text : IsText payload (.object members))
    (shallow : (Json.object members).depth ≤ maxNesting) : ReadWhole libraries payload := by
  constructor
  · intro others rest read _
    obtain ⟨_, _, again, blank⟩ := text.parsed
    rw [(parse_value_unique read again).2]
    exact blank
  · intro others again _
    rw [again.unique text]
    exact shallow

end Accepting

/-- `Frame` takes exactly the objects without a sidecar key just where the decoder reads all
of the text. A line then holds all of it but its whitespace, the spelling of strings and the
order of members, where no key stands twice and the strings survive the JSON library. -/
theorem frame_takes_objects (libraries : Libraries) (payload : Text) (idx : Nat) :
    (((∃ line, frame libraries idx payload = .ok line) ↔
        ∃ members, IsText payload (.object members) ∧ (objectOf libraries members).Free) ↔
      ReadWhole libraries payload) ∧
    ∀ line, frame libraries idx payload = .ok line → ReadWhole libraries payload →
      ∃ written stored read, IsText payload written ∧ IsText stored read ∧
        (∀ verify, decodeJSONLLine libraries line verify = .ok stored) ∧
        ∀ (σ : Type) (content : Text → σ), written.Lossless libraries.strings content →
          written.Rearranged content read := by
  refine ⟨read_whole_iff libraries payload idx, ?_⟩
  intro line framed whole
  obtain ⟨members, text, free⟩ := whole.taken framed
  have decoded := @decode_text libraries _ _ text (whole.shallow _ text free)
  exact ⟨_, _, _, text, marshal_is_text text.sound,
    fun verify => decode_line_frame decoded framed verify,
    fun _ _ lossless => text.sound.rearranged lossless⟩

theorem spaced_object_taken :
    ReadWhole sampleLibraries spacedObject ∧
      ∃ line, frame sampleLibraries 7 spacedObject = .ok line := by
  have whole := @read_whole_of_text sampleLibraries _ _ spaced_object_text (by decide)
  exact ⟨whole, ((frame_takes_objects sampleLibraries spacedObject 7).1.mpr whole).mpr
    ⟨spacedMembers, spaced_object_text, by decide +kernel⟩⟩

def twoObjects : Text := ascii "\x7b\"a\":1\x7d\x7b\"b\":2\x7d"

def twiceKeyed : Text := ascii "\x7b\"a\":1,\"a\":2\x7d"

theorem two_objects_read :
    parseValue maxNesting twoObjects =
      some (.object [(ascii "a", .scalar (ascii "1"))], ascii "\x7b\"b\":2\x7d") := by
  decide +kernel

theorem twice_keyed_decoded :
    decodeJSONObject sampleLibraries twiceKeyed = .ok [(ascii "a", .scalar (ascii "2"))] := by
  decide +kernel

theorem two_objects_no_text (json : Json) : ¬IsText twoObjects json := by
  intro whole
  obtain ⟨depth, rest, read, blank⟩ := whole.parsed
  rw [(parse_value_unique read two_objects_read).2] at blank
  exact absurd blank (by decide)

theorem framed_text_dropped :
    ((∃ line, frame sampleLibraries 1 twoObjects = .ok line) ∧
        ¬∃ json, IsText twoObjects json) ∧
      (∃ line, frame sampleLibraries 1 twiceKeyed = .ok line ∧
        decodeJSONLLine sampleLibraries line true = .ok (ascii "\x7b\"a\":2\x7d")) ∧
      IsText deepObject.text deepObject ∧
        frame sampleLibraries 1 deepObject.text = .error .notJSON := by
  have first : decodeJSONObject sampleLibraries twoObjects =
      .ok [(ascii "a", .scalar (ascii "1"))] := by
    decide +kernel
  have framed := frame_free twice_keyed_decoded (by decide) 1
  refine ⟨⟨⟨_, frame_free first (by decide) 1⟩, fun ⟨json, whole⟩ =>
    two_objects_no_text json whole⟩, ⟨_, framed, ?_⟩, deep_object_whole, ?_⟩
  · rw [decode_line_frame twice_keyed_decoded framed true]
    decide +kernel
  · rw [frame, decodeJSONObject, deep_object_unread]

end Figwal.Codec
