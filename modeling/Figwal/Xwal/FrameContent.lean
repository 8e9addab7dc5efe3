import Figwal.Xwal.FrameScan

/-!
# What a frame holds

A frame is printed with the cursors behind the other fields and stored with the cursors
before them. Both orders are decoded to the same fields, and where the scanner finds a
frame it finds those fields.
-/

namespace Figwal.Frame

open Figwal.Lib Figwal.Codec

set_option autoImplicit false

inductive Body where
  | value (json : Json)
  | encoded (payload : Text)

def Body.member : Body → Text × Json
  | .value json => (keyP, json)
  | .encoded payload => (keyP64, .string (base64Encode payload))

def Body.payload : Body → Text
  | .value json => json.text
  | .encoded payload => payload

structure Content where
  mainLT : Nat
  body : Body
  ts : Int
  metadata : Option Json
  cursors : Option Json

namespace Content

def timePart (content : Content) : Members :=
  if content.ts = 0 then [] else [(keyT, .scalar (integer content.ts))]

def metaPart (content : Content) : Members :=
  content.metadata.toList.map fun json => (keyX, json)

def cursorPart (content : Content) : Members :=
  content.cursors.toList.map fun json => (keyC, json)

def leading (content : Content) : Members :=
  (keyM, .scalar (decimal content.mainLT)) :: content.body.member ::
    (content.timePart ++ content.metaPart)

def emitted (content : Content) : Members :=
  content.leading ++ content.cursorPart

def stored (content : Content) : Members :=
  content.cursorPart ++ content.leading

def metaText (content : Content) : Text :=
  match content.metadata with
  | none => []
  | some json => json.text

/-- The numbers are in the ranges of their types and the values can be nested once more. -/
structure Fits (content : Content) : Prop where
  mainLT : content.mainLT ≤ maxUint64
  low : -(maxInt64 + 1 : Int) ≤ content.ts
  high : content.ts ≤ maxInt64
  body : content.body.member.2.Sound (maxNesting - 1)
  metadata : ∀ json ∈ content.metadata, json.Sound (maxNesting - 1)
  cursors : ∀ json ∈ content.cursors, json.Sound (maxNesting - 1)

/-- What `json.Unmarshal` makes of the fields. -/
def decoded (content : Content) (cursors : List (Text × Nat)) : FrameObj where
  m := content.mainLT
  p := match content.body with
    | .value json => json.text
    | .encoded _ => []
  p64 := match content.body with
    | .value _ => none
    | .encoded payload => some (base64Encode payload)
  t := content.ts
  x := content.metaText
  c := cursors

end Content

theorem decoded_payload (content : Content) (cursors : List (Text × Nat)) :
    (content.decoded cursors).payload = some content.body.payload := by
  rcases content with ⟨mainLT, body, ts, metadata, held⟩
  cases body with
  | value json => rfl
  | encoded payload => exact base64_decode_encode payload

section Numbers

theorem decimal_not_null (number : Nat) : decimal number ≠ ascii "null" := by
  intro same
  have digit := decimal_digits number 110 (by rw [same]; decide)
  exact absurd digit (by decide)

theorem parse_uint_decimal {limit number : Nat} (fits : number ≤ limit) :
    parseUint limit (decimal number) = some number := by
  have read := @read_bounded_decimal limit number fits [] (by simp [StopsDigits])
  rw [List.append_nil] at read
  simp [parseUint, decimal_ne_nil, read]

theorem parse_int_integer {number : Int} (low : -(maxInt64 + 1 : Int) ≤ number)
    (high : number ≤ maxInt64) : parseInt (integer number) = some number := by
  by_cases negative : number < 0
  · have small : number.natAbs ≤ maxInt64 + 1 := by omega
    have back : -(number.natAbs : Int) = number := by omega
    rw [integer, if_pos negative, parseInt, if_pos rfl, parse_uint_decimal small]
    exact congrArg some back
  · have small : number.natAbs ≤ maxInt64 := by omega
    have back : (number.natAbs : Int) = number := by omega
    rw [integer, if_neg negative]
    have read := parse_uint_decimal small
    cases shape : decimal number.natAbs with
    | nil => exact absurd shape (decimal_ne_nil _)
    | cons first rest =>
      have digit := decimal_digits number.natAbs first (by rw [shape]; exact List.mem_cons_self)
      have unsigned : first ≠ 45 := by
        rintro rfl
        exact absurd digit (by decide)
      rw [shape] at read
      rw [parseInt, if_neg unsigned, read]
      exact congrArg some back

theorem integer_not_null (number : Int) : integer number ≠ ascii "null" := by
  rw [integer]
  split_ifs
  · intro same
    exact absurd (List.cons.inj same).1 (by decide)
  · exact decimal_not_null _

theorem integer_sound (depth : Nat) (number : Int) :
    (Json.scalar (integer number)).Sound depth := by
  rw [integer]
  split_ifs
  · have signed := valid_number_decimal number.natAbs
    exact .number signed.2.1 signed.2.2
  · exact decimal_sound depth _

end Numbers

section Slow

variable {strings : StringCodec}

theorem fold_key {key : Text} (plain : key.all isPlain = true) (lower : foldName key = key) :
    foldName (strings.unquote key) = key := by
  rw [strings.unquote_plain key plain, lower]

theorem assign_main {mainLT : Nat} (fits : mainLT ≤ maxUint64) (frame : FrameObj) :
    assign strings frame (keyM, .scalar (decimal mainLT)) = some { frame with m := mainLT } := by
  have key := @fold_key strings keyM (by decide) (by decide)
  simp [assign, key, numberField, decimal_not_null, parse_uint_decimal fits]

theorem assign_value (json : Json) (frame : FrameObj) :
    assign strings frame (keyP, json) = some { frame with p := json.text } := by
  have key := @fold_key strings keyP (by decide) (by decide)
  have other : keyP ≠ keyM := by decide
  simp [assign, key, other]

theorem assign_encoded (payload : Text) (frame : FrameObj) :
    assign strings frame (keyP64, .string (base64Encode payload)) =
      some { frame with p64 := some (base64Encode payload) } := by
  have key := @fold_key strings keyP64 (by decide) (by decide)
  have others : keyP64 ≠ keyM ∧ keyP64 ≠ keyP := by decide
  have same := strings.unquote_plain _ (base64_encode_plain payload)
  simp [assign, key, others, stringField, same]

theorem assign_time {ts : Int} (low : -(maxInt64 + 1 : Int) ≤ ts) (high : ts ≤ maxInt64)
    (frame : FrameObj) :
    assign strings frame (keyT, .scalar (integer ts)) = some { frame with t := ts } := by
  have key := @fold_key strings keyT (by decide) (by decide)
  have others : keyT ≠ keyM ∧ keyT ≠ keyP ∧ keyT ≠ keyP64 := by decide
  simp [assign, key, others, numberField, integer_not_null, parse_int_integer low high]

theorem assign_meta (json : Json) (frame : FrameObj) :
    assign strings frame (keyX, json) = some { frame with x := json.text } := by
  have key := @fold_key strings keyX (by decide) (by decide)
  have others : keyX ≠ keyM ∧ keyX ≠ keyP ∧ keyX ≠ keyP64 ∧ keyX ≠ keyT := by decide
  simp [assign, key, others]

theorem assign_cursors (json : Json) (frame : FrameObj) :
    assign strings frame (keyC, json) =
      (cursorField strings frame.c json).map fun c => { frame with c := c } := by
  have key := @fold_key strings keyC (by decide) (by decide)
  have others : keyC ≠ keyM ∧ keyC ≠ keyP ∧ keyC ≠ keyP64 ∧ keyC ≠ keyT ∧ keyC ≠ keyX := by decide
  simp [assign, key, others]

/-- The fields but the cursors, on top of any cursors that were read before. -/
theorem assign_leading {content : Content} (fits : content.Fits) (cursors : List (Text × Nat)) :
    content.leading.foldlM (assign strings) { emptyFrame with c := cursors } =
      some (content.decoded cursors) := by
  have time : ∀ frame : FrameObj, frame.t = 0 →
      content.timePart.foldlM (assign strings) frame = some { frame with t := content.ts } := by
    intro frame unset
    rw [Content.timePart]
    split_ifs with zero
    · rw [zero, ← unset]
      rfl
    · simp [assign_time fits.low fits.high]
  have metadata : ∀ frame : FrameObj, frame.x = [] →
      content.metaPart.foldlM (assign strings) frame =
        some { frame with x := content.metaText } := by
    intro frame unset
    rw [Content.metaPart, Content.metaText]
    cases content.metadata with
    | none =>
      rw [← unset]
      rfl
    | some json => simp [assign_meta]
  have body : assign strings { emptyFrame with m := content.mainLT, c := cursors }
      content.body.member =
        some { content.decoded cursors with t := 0, x := [] } := by
    rw [Content.decoded]
    cases content.body with
    | value json => exact assign_value json _
    | encoded payload => exact assign_encoded payload _
  rw [Content.leading, List.foldlM_cons, assign_main fits.mainLT, Option.bind_eq_bind,
    Option.bind_some, List.foldlM_cons, body, Option.bind_eq_bind, Option.bind_some,
    List.foldlM_append, time _ rfl, Option.bind_eq_bind, Option.bind_some, metadata _ rfl]
  rfl

def Content.CursorsRead (strings : StringCodec) (content : Content)
    (cursors : List (Text × Nat)) : Prop :=
  match content.cursors with
  | none => cursors = []
  | some json => cursorField strings [] json = some cursors

theorem assign_cursor_part {content : Content} {cursors : List (Text × Nat)}
    (read : content.CursorsRead strings cursors) {frame : FrameObj} (unset : frame.c = []) :
    content.cursorPart.foldlM (assign strings) frame = some { frame with c := cursors } := by
  rw [Content.cursorPart]
  rw [Content.CursorsRead] at read
  cases shape : content.cursors with
  | none =>
    rw [shape] at read
    rw [read, ← unset]
    rfl
  | some json =>
    rw [shape] at read
    have here : cursorField strings frame.c json = some cursors := unset ▸ read
    simp [assign_cursors, here]

theorem assign_emitted {content : Content} (fits : content.Fits) {cursors : List (Text × Nat)}
    (read : content.CursorsRead strings cursors) :
    content.emitted.foldlM (assign strings) emptyFrame = some (content.decoded cursors) := by
  have leading := @assign_leading strings content fits []
  rw [Content.emitted, List.foldlM_append]
  change (content.leading.foldlM (assign strings) { emptyFrame with c := [] } >>= _) = _
  rw [leading, Option.bind_eq_bind, Option.bind_some, assign_cursor_part read rfl]
  rfl

theorem assign_stored {content : Content} (fits : content.Fits) {cursors : List (Text × Nat)}
    (read : content.CursorsRead strings cursors) :
    content.stored.foldlM (assign strings) emptyFrame = some (content.decoded cursors) := by
  rw [Content.stored, List.foldlM_append, assign_cursor_part read rfl, Option.bind_eq_bind,
    Option.bind_some, assign_leading fits]

end Slow

section Texts

/-- The text of the members behind the first, up to the end of the object. -/
def tailText (members : Members) : Text :=
  (members.flatMap fun member => 44 :: (quoted member.1 ++ 58 :: member.2.text)) ++ [125]

def fieldLead (key : Text) : Text :=
  44 :: (quoted key ++ [58])

theorem tail_text_cons (key : Text) (json : Json) (rest : Members) :
    tailText ((key, json) :: rest) = fieldLead key ++ (json.text ++ tailText rest) := by
  simp [tailText, fieldLead]

theorem object_text (member : Text × Json) (rest : Members) :
    (Json.object (member :: rest)).text =
      123 :: (quoted member.1 ++ 58 :: (member.2.text ++ tailText rest)) := by
  rw [Json.text, member_texts_eq]
  induction rest generalizing member with
  | nil => simp [commas, tailText]
  | cons next later ih =>
    have inner := List.cons.inj (ih next)
    rw [List.map_cons, commas_cons _ _ (by simp)]
    simp only [List.append_assoc, List.cons_append] at inner ⊢
    rw [inner.2]
    simp [tailText]

theorem tail_ends (members : Members) : EndsField (tailText members) := by
  cases members with
  | nil => exact .inr rfl
  | cons member rest => exact .inl rfl

theorem tail_stops (members : Members) : StopsDigits (tailText members) := by
  intro byte first
  rcases tail_ends members with comma | brace
  · rw [comma] at first
    cases first
    decide
  · rw [brace] at first
    cases first
    decide

theorem tail_text_end {members : Members} (only : tailText members = [125]) : members = [] := by
  cases members with
  | nil => rfl
  | cons member rest =>
    have heads := congrArg List.head? only
    exact absurd heads (by simp [tailText])

theorem after_self (lead rest : Text) : after lead (lead ++ rest) = some rest := by
  have leads : lead.isPrefixOf (lead ++ rest) = true :=
    List.isPrefixOf_iff_prefix.mpr (List.prefix_append lead rest)
  rw [after, if_pos leads, List.drop_left]

theorem after_other {key other : Text} (scans : Scannable key) (also : Scannable other)
    (apart : key ≠ other) (rest : Text) : after (fieldLead key) (fieldLead other ++ rest) =
    none := by
  rw [after, if_neg]
  intro leads
  rw [List.isPrefixOf_iff_prefix, fieldLead, fieldLead, List.cons_append,
    List.cons_prefix_cons, List.append_assoc] at leads
  exact apart (quoted_unique also scans ((List.prefix_append _ _).trans leads.2))

theorem after_end (key : Text) : after (fieldLead key) [125] = none := by
  simp [after, fieldLead]

theorem lead_value : ascii ",\"p\":" = fieldLead keyP := by decide

theorem lead_encoded : ascii ",\"p64\":" = fieldLead keyP64 := by decide

theorem lead_time : ascii ",\"t\":" = fieldLead keyT := by decide

theorem lead_meta : ascii ",\"x\":" = fieldLead keyX := by decide

theorem lead_main : ascii "\x7b\"m\":" = 123 :: (quoted keyM ++ [58]) := by decide

theorem keys_scannable : Scannable keyM ∧ Scannable keyP ∧ Scannable keyP64 ∧ Scannable keyT ∧
    Scannable keyX ∧ Scannable keyC := by
  simp only [Scannable]
  decide

theorem text_ne_nil {depth : Nat} {json : Json} (sound : json.Sound depth) : json.text ≠ [] := by
  intro empty
  have found := @json_value_end_text depth json sound [125] (.inr rfl)
  rw [empty] at found
  exact absurd found (by decide)

end Texts

end Figwal.Frame
