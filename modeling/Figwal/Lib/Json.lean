import Mathlib.Data.List.TakeWhile
import Figwal.Lib.Decimal

/-!
# JSON texts

Syntax trees of JSON texts: string bodies are kept as they are written, escapes included,
and object members in the order in which they stand. `text` prints a tree without
whitespace. `parseValue` is the decoder of a standard library: it takes whitespace, checks
every escape and every number, and refuses values that nest too deeply. What `text` prints
is read back.
-/

namespace Figwal.Lib

open List

set_option autoImplicit false

inductive Json where
  | scalar (lexeme : Text)
  | string (body : Text)
  | array (items : List Json)
  | object (members : List (Text × Json))

mutual

def Json.decEq : (json other : Json) → Decidable (json = other)
  | .scalar one, .scalar two => decidable_of_iff (one = two) (by rw [Json.scalar.injEq])
  | .string one, .string two => decidable_of_iff (one = two) (by rw [Json.string.injEq])
  | .array one, .array two =>
    @decidable_of_iff _ (one = two) (by rw [Json.array.injEq]) (Json.decEqItems one two)
  | .object one, .object two =>
    @decidable_of_iff _ (one = two) (by rw [Json.object.injEq]) (Json.decEqMembers one two)
  | .scalar _, .string _ | .scalar _, .array _ | .scalar _, .object _ => isFalse nofun
  | .string _, .scalar _ | .string _, .array _ | .string _, .object _ => isFalse nofun
  | .array _, .scalar _ | .array _, .string _ | .array _, .object _ => isFalse nofun
  | .object _, .scalar _ | .object _, .string _ | .object _, .array _ => isFalse nofun

def Json.decEqItems : (items others : List Json) → Decidable (items = others)
  | [], [] => isTrue rfl
  | [], _ :: _ | _ :: _, [] => isFalse nofun
  | one :: items, two :: others =>
    @decidable_of_iff _ (one = two ∧ items = others) (by rw [List.cons.injEq])
      (@instDecidableAnd _ _ (one.decEq two) (Json.decEqItems items others))

def Json.decEqMembers : (members others : List (Text × Json)) → Decidable (members = others)
  | [], [] => isTrue rfl
  | [], _ :: _ | _ :: _, [] => isFalse nofun
  | (key, one) :: members, (other, two) :: others =>
    @decidable_of_iff _ ((key = other ∧ one = two) ∧ members = others)
      (by rw [List.cons.injEq, Prod.mk.injEq])
      (@instDecidableAnd _ _ (@instDecidableAnd _ _ inferInstance (one.decEq two))
        (Json.decEqMembers members others))

end

instance : DecidableEq Json := Json.decEq

def commas : List Text → Text
  | [] => []
  | [one] => one
  | one :: next :: rest => one ++ 44 :: commas (next :: rest)

def quoted (body : Text) : Text :=
  34 :: (body ++ [34])

mutual

def Json.text : Json → Text
  | .scalar lexeme => lexeme
  | .string body => quoted body
  | .array items => 91 :: (commas (Json.itemTexts items) ++ [93])
  | .object members => 123 :: (commas (Json.memberTexts members) ++ [125])

def Json.itemTexts : List Json → List Text
  | [] => []
  | item :: rest => item.text :: Json.itemTexts rest

def Json.memberTexts : List (Text × Json) → List Text
  | [] => []
  | (key, value) :: rest => (quoted key ++ 58 :: value.text) :: Json.memberTexts rest

end

mutual

def Json.depth : Json → Nat
  | .scalar _ => 0
  | .string _ => 0
  | .array items => Json.itemsDepth items + 1
  | .object members => Json.membersDepth members + 1

def Json.itemsDepth : List Json → Nat
  | [] => 0
  | item :: rest => max item.depth (Json.itemsDepth rest)

def Json.membersDepth : List (Text × Json) → Nat
  | [] => 0
  | (_, value) :: rest => max value.depth (Json.membersDepth rest)

end

def isSpace (byte : UInt8) : Bool :=
  byte == 32 || byte == 9 || byte == 10 || byte == 13

def skipSpace (input : Text) : Text :=
  input.dropWhile isSpace

def isHex (byte : UInt8) : Bool :=
  isDigit byte || (97 ≤ byte && byte ≤ 102) || (65 ≤ byte && byte ≤ 70)

def isEscape (byte : UInt8) : Bool :=
  byte ∈ ascii "\"\\/bfnrt"

/-- Where in a string the decoder is: outside of an escape, behind a backslash, or with
some digits of a code unit to come. -/
inductive StringState where
  | plain
  | escape
  | unit (left : Nat)
  deriving DecidableEq, Repr

def StringState.next : StringState → UInt8 → Option StringState
  | .plain, byte =>
    if byte = 34 then none
    else if byte = 92 then some .escape
    else if byte < 32 then none
    else some .plain
  | .escape, byte =>
    if isEscape byte then some .plain
    else if byte = 117 then some (.unit 3)
    else none
  | .unit left, byte =>
    if isHex byte then
      match left with
      | 0 => some .plain
      | fewer + 1 => some (.unit fewer)
    else none

/-- A string behind its opening quote: the body, and what follows the closing quote. -/
def scanBody : StringState → Text → Option (Text × Text)
  | _, [] => none
  | state, byte :: rest =>
    if state = .plain ∧ byte = 34 then some ([], rest)
    else
      match state.next byte with
      | none => none
      | some after => (scanBody after rest).map fun found => (byte :: found.1, found.2)

def StringState.run : StringState → Text → Option StringState
  | state, [] => some state
  | state, byte :: rest => (state.next byte).bind fun after => after.run rest

/-- A string body: no quote, no control character, and only complete escapes. -/
def Scannable (body : Text) : Prop :=
  StringState.plain.run body = some .plain

def isNumberByte (byte : UInt8) : Bool :=
  isDigit byte || byte == 43 || byte == 45 || byte == 46 || byte == 101 || byte == 69

def allDigits (digits : Text) : Bool :=
  !digits.isEmpty && digits.all isDigit

def validExponent : Text → Bool
  | [] => true
  | mark :: rest =>
    (mark == 101 || mark == 69) &&
      match rest with
      | [] => false
      | sign :: digits =>
        if sign == 43 || sign == 45 then allDigits digits else allDigits (sign :: digits)

def validFraction : Text → Bool
  | [] => true
  | mark :: rest =>
    if mark = 46 then
      !(rest.takeWhile isDigit).isEmpty && validExponent (rest.dropWhile isDigit)
    else validExponent (mark :: rest)

def validUnsigned : Text → Bool
  | [] => false
  | first :: rest =>
    if first = 48 then validFraction rest
    else isDigit first && validFraction (rest.dropWhile isDigit)

def validNumber : Text → Bool
  | [] => false
  | first :: rest => if first = 45 then validUnsigned rest else validUnsigned (first :: rest)

def words : List Text :=
  [ascii "null", ascii "true", ascii "false"]

def parseScalar (input : Text) : Option (Json × Text) :=
  match words.find? (·.isPrefixOf input) with
  | some word => some (.scalar word, input.drop word.length)
  | none =>
    let lexeme := input.takeWhile isNumberByte
    if validNumber lexeme then some (.scalar lexeme, input.drop lexeme.length) else none

abbrev Reader := Text → Option (Json × Text)

def parseItems (inner : Reader) : Nat → Text → Option (List Json × Text)
  | 0, _ => none
  | fuel + 1, input =>
    match inner input with
    | none => none
    | some (item, rest) =>
      match skipSpace rest with
      | [] => none
      | byte :: later =>
        if byte = 44 then
          (parseItems inner fuel later).map fun found => (item :: found.1, found.2)
        else if byte = 93 then some ([item], later)
        else none

def parseKey (input : Text) : Option (Text × Text) :=
  match skipSpace input with
  | [] => none
  | byte :: rest =>
    if byte = 34 then
      match scanBody .plain rest with
      | none => none
      | some (key, more) =>
        match skipSpace more with
        | [] => none
        | colon :: later => if colon = 58 then some (key, later) else none
    else none

def parseMembers (inner : Reader) : Nat → Text → Option (List (Text × Json) × Text)
  | 0, _ => none
  | fuel + 1, input =>
    match parseKey input with
    | none => none
    | some (key, more) =>
      match inner more with
      | none => none
      | some (value, rest) =>
        match skipSpace rest with
        | [] => none
        | byte :: later =>
          if byte = 44 then
            (parseMembers inner fuel later).map fun found =>
              ((key, value) :: found.1, found.2)
          else if byte = 125 then some ([(key, value)], later)
          else none

def parseArray (inner : Reader) (input : Text) : Option (Json × Text) :=
  match skipSpace input with
  | [] => none
  | byte :: later =>
    if byte = 93 then some (.array [], later)
    else (parseItems inner input.length input).map fun found => (.array found.1, found.2)

def parseObject (inner : Reader) (input : Text) : Option (Json × Text) :=
  match skipSpace input with
  | [] => none
  | byte :: later =>
    if byte = 125 then some (.object [], later)
    else (parseMembers inner input.length input).map fun found => (.object found.1, found.2)

/-- One value, given how to read those inside it; at the limit there is none. -/
def parseWith (inner : Option Reader) (input : Text) : Option (Json × Text) :=
  match skipSpace input with
  | [] => none
  | byte :: rest =>
    if byte = 34 then (scanBody .plain rest).map fun found => (.string found.1, found.2)
    else if byte = 91 then inner.bind fun reader => parseArray reader rest
    else if byte = 123 then inner.bind fun reader => parseObject reader rest
    else parseScalar (byte :: rest)

/-- A value that nests at most `depth` deep, and what follows it. -/
def parseValue : Nat → Text → Option (Json × Text)
  | 0 => parseWith none
  | depth + 1 => parseWith (some (parseValue depth))

def parseJson (depth : Nat) (input : Text) : Option Json :=
  match parseValue depth input with
  | none => none
  | some (json, rest) => if skipSpace rest = [] then some json else none

/-- Scalars and bodies are well formed, and nothing nests deeper than `depth`. -/
inductive Json.Sound : Nat → Json → Prop
  | word {depth : Nat} {lexeme : Text} (word : lexeme ∈ words) : Sound depth (.scalar lexeme)
  | number {depth : Nat} {lexeme : Text} (valid : validNumber lexeme = true)
      (all : ∀ byte ∈ lexeme, isNumberByte byte = true) : Sound depth (.scalar lexeme)
  | string {depth : Nat} {body : Text} (scans : Scannable body) : Sound depth (.string body)
  | array {depth : Nat} {items : List Json} (inside : ∀ item ∈ items, Sound depth item) :
      Sound (depth + 1) (.array items)
  | object {depth : Nat} {members : List (Text × Json)}
      (keys : ∀ member ∈ members, Scannable member.1)
      (inside : ∀ member ∈ members, Sound depth member.2) : Sound (depth + 1) (.object members)

def StopsNumber (rest : Text) : Prop :=
  ∀ byte ∈ rest.head?, isNumberByte byte = false

def startsValue (byte : UInt8) : Bool :=
  byte == 34 || byte == 91 || byte == 123 || byte == 116 || byte == 102 || byte == 110 ||
    byte == 45 || isDigit byte

section Bodies

variable {body : Text}

theorem StringState.run_append (state : StringState) (early late : Text) :
    state.run (early ++ late) = (state.run early).bind fun middle => middle.run late := by
  induction early generalizing state with
  | nil => rfl
  | cons byte rest ih =>
    rw [cons_append, StringState.run, StringState.run, Option.bind_assoc]
    congr 1
    funext after
    exact ih after

theorem Scannable.append {early late : Text} (first : Scannable early) (second : Scannable late) :
    Scannable (early ++ late) := by
  rw [Scannable, StringState.run_append, first]
  exact second

theorem scan_body_from {state : StringState} (runs : state.run body = some .plain) (rest : Text) :
    scanBody state (body ++ 34 :: rest) = some (body, rest) := by
  induction body generalizing state with
  | nil =>
    cases runs
    rw [nil_append, scanBody, if_pos ⟨rfl, rfl⟩]
  | cons byte later ih =>
    rw [StringState.run] at runs
    rcases Option.bind_eq_some_iff.mp runs with ⟨after, next, more⟩
    have inside : ¬(state = .plain ∧ byte = 34) := by
      rintro ⟨rfl, rfl⟩
      cases next
    rw [cons_append, scanBody, if_neg inside, next]
    simp only
    rw [ih more]
    rfl

theorem Scannable.scan (scans : Scannable body) (rest : Text) :
    scanBody .plain (body ++ 34 :: rest) = some (body, rest) :=
  scan_body_from scans rest

theorem quoted_unique {other rest : Text} (scans : Scannable body) (also : Scannable other)
    (leads : quoted other <+: quoted body ++ rest) : other = body := by
  rcases leads with ⟨tail, whole⟩
  have same : other ++ 34 :: tail = body ++ 34 :: rest := by
    simpa [quoted] using whole
  have scanned := also.scan tail
  rw [same, scans.scan] at scanned
  exact (Prod.mk.inj (Option.some.inj scanned)).1.symm

end Bodies

section Printing

variable {byte : UInt8}

theorem item_texts_eq (items : List Json) : Json.itemTexts items = items.map Json.text := by
  induction items with
  | nil => rfl
  | cons item rest ih => rw [Json.itemTexts, ih, map_cons]

theorem member_texts_eq (members : List (Text × Json)) :
    Json.memberTexts members =
      members.map fun member => quoted member.1 ++ 58 :: member.2.text := by
  induction members with
  | nil => rfl
  | cons member rest ih =>
    rcases member with ⟨key, value⟩
    rw [Json.memberTexts, ih, map_cons]

theorem commas_cons (one : Text) (rest : List Text) (filled : rest ≠ []) :
    commas (one :: rest) = one ++ 44 :: commas rest := by
  cases rest with
  | nil => exact absurd rfl filled
  | cons next later => rfl

theorem commas_length (texts : List Text) : texts.length ≤ (commas texts).length + 1 := by
  induction texts with
  | nil => exact Nat.zero_le _
  | cons one rest ih =>
    by_cases filled : rest = []
    · rw [filled]
      exact Nat.le_add_left _ _
    · rw [commas_cons one rest filled, length_cons, length_append, length_cons]
      omega

theorem starts_value_spec (starts : startsValue byte = true) :
    isSpace byte = false ∧ byte ≠ 93 ∧ byte ≠ 125 ∧ byte ≠ 44 := by
  have every : ∀ byte : UInt8, startsValue byte = true →
      isSpace byte = false ∧ byte ≠ 93 ∧ byte ≠ 125 ∧ byte ≠ 44 := every_byte (by decide +kernel)
  exact every byte starts

theorem valid_number_head {lexeme : Text} (valid : validNumber lexeme = true) :
    ∃ byte rest, lexeme = byte :: rest ∧ (byte = 45 ∨ isDigit byte = true) := by
  cases lexeme with
  | nil => cases valid
  | cons first rest =>
    refine ⟨first, rest, rfl, ?_⟩
    by_cases minus : first = 45
    · exact Or.inl minus
    · rw [validNumber, if_neg minus, validUnsigned] at valid
      by_cases zero : first = 48
      · rw [zero]
        exact Or.inr (by decide)
      · rw [if_neg zero, Bool.and_eq_true] at valid
        exact Or.inr valid.1

theorem drop_digits {digits : Text} (all : ∀ byte ∈ digits, isDigit byte = true) :
    digits.dropWhile isDigit = [] :=
  dropWhile_eq_nil_iff.mpr all

theorem valid_unsigned_decimal (number : Nat) : validUnsigned (decimal number) = true := by
  have digits := decimal_digits number
  by_cases zero : number = 0
  · rw [zero]
    decide
  · have head := decimal_head zero
    cases shape : decimal number with
    | nil => exact absurd shape (decimal_ne_nil number)
    | cons first rest =>
      rw [shape] at digits head
      have other : first ≠ 48 := fun same => head (congrArg some same)
      rw [validUnsigned, if_neg other, digits first mem_cons_self,
        drop_digits fun byte member => digits byte (mem_cons_of_mem _ member)]
      rfl

theorem valid_number_decimal (number : Nat) :
    validNumber (decimal number) = true ∧ validNumber (45 :: decimal number) = true ∧
      ∀ byte ∈ 45 :: decimal number, isNumberByte byte = true := by
  have unsigned := valid_unsigned_decimal number
  refine ⟨?_, by rw [validNumber, if_pos rfl]; exact unsigned, ?_⟩
  · cases shape : decimal number with
    | nil => exact absurd shape (decimal_ne_nil number)
    | cons first rest =>
      have digit := decimal_digits number first (by rw [shape]; exact mem_cons_self)
      have other : first ≠ 45 := by
        rintro rfl
        exact absurd digit (by decide)
      rw [validNumber, if_neg other, ← shape]
      exact unsigned
  · refine forall_mem_cons.mpr ⟨by decide, fun byte member => ?_⟩
    rw [isNumberByte, decimal_digits number byte member]
    rfl

theorem decimal_sound (depth number : Nat) : (Json.scalar (decimal number)).Sound depth :=
  .number (valid_number_decimal number).1 fun byte member =>
    (valid_number_decimal number).2.2 byte (mem_cons_of_mem _ member)

theorem number_starts (number : byte = 45 ∨ isDigit byte = true) :
    startsValue byte = true ∧ byte ≠ 34 ∧ byte ≠ 91 ∧ byte ≠ 123 ∧
      ∀ word ∈ words, word.head? ≠ some byte := by
  have every : ∀ byte : UInt8, byte = 45 ∨ isDigit byte = true →
      startsValue byte = true ∧ byte ≠ 34 ∧ byte ≠ 91 ∧ byte ≠ 123 ∧
        ∀ word ∈ words, word.head? ≠ some byte := every_byte (by decide +kernel)
  exact every byte number

theorem word_head {lexeme : Text} (word : lexeme ∈ words) :
    ∃ byte rest, lexeme = byte :: rest ∧ startsValue byte = true ∧ byte ≠ 34 ∧ byte ≠ 91 ∧
      byte ≠ 123 := by
  rcases mem_cons.mp word with null | later
  · exact ⟨_, _, null, by decide⟩
  · rcases mem_cons.mp later with yes | last
    · exact ⟨_, _, yes, by decide⟩
    · exact ⟨_, _, mem_singleton.mp last, by decide⟩

theorem text_head {depth : Nat} {json : Json} (sound : json.Sound depth) :
    ∃ byte rest, json.text = byte :: rest ∧ startsValue byte = true := by
  cases sound with
  | word word =>
    obtain ⟨byte, rest, shape, starts, _⟩ := word_head word
    exact ⟨byte, rest, shape, starts⟩
  | number valid all =>
    rcases valid_number_head valid with ⟨byte, rest, shape, starts⟩
    exact ⟨byte, rest, shape, (number_starts starts).1⟩
  | string scans => exact ⟨34, _, rfl, by decide⟩
  | array inside => exact ⟨91, _, rfl, by decide⟩
  | object keys inside => exact ⟨123, _, rfl, by decide⟩

theorem StringState.next_shown {state after : StringState} (next : state.next byte = some after) :
    ¬byte < 32 := by
  have every : ∀ byte : UInt8, byte < 32 → isEscape byte = false ∧ byte ≠ 117 ∧ isHex byte = false ∧
      StringState.plain.next byte = none := every_byte (by decide +kernel)
  intro control
  rcases every byte control with ⟨mark, unit, hex, plain⟩
  cases state with
  | plain =>
    rw [plain] at next
    cases next
  | escape => simp [StringState.next, mark, unit] at next
  | unit left => simp [StringState.next, hex] at next

theorem run_shown {state after : StringState} {body : Text} (runs : state.run body = some after) :
    ∀ byte ∈ body, ¬byte < 32 := by
  induction body generalizing state with
  | nil => exact fun _ member => absurd member not_mem_nil
  | cons byte rest ih =>
    rw [StringState.run] at runs
    rcases Option.bind_eq_some_iff.mp runs with ⟨middle, next, more⟩
    exact forall_mem_cons.mpr ⟨StringState.next_shown next, ih more⟩

theorem quoted_shown {body : Text} (scans : Scannable body) : ∀ byte ∈ quoted body, ¬byte < 32 := by
  intro byte member
  rcases mem_cons.mp member with first | later
  · rw [first]
    decide
  · rcases mem_append.mp later with inside | last
    · exact run_shown scans byte inside
    · rw [mem_singleton.mp last]
      decide

theorem commas_shown {texts : List Text} (each : ∀ text ∈ texts, ∀ byte ∈ text, ¬byte < 32) :
    ∀ byte ∈ commas texts, ¬byte < 32 := by
  induction texts with
  | nil => exact fun _ member => absurd member not_mem_nil
  | cons one rest ih =>
    have here := each one mem_cons_self
    by_cases last : rest = []
    · subst last
      exact here
    · rw [commas_cons one rest last]
      intro byte member
      rcases mem_append.mp member with early | late
      · exact here byte early
      · rcases mem_cons.mp late with comma | more
        · rw [comma]
          decide
        · exact ih (fun text held => each text (mem_cons_of_mem _ held)) byte more

theorem text_shown {depth : Nat} {json : Json} (sound : json.Sound depth) :
    ∀ byte ∈ json.text, ¬byte < 32 := by
  have bracket : ∀ {opening closing : UInt8} {inner : Text}, ¬opening < 32 → ¬closing < 32 →
      (∀ byte ∈ inner, ¬byte < 32) → ∀ byte ∈ opening :: (inner ++ [closing]), ¬byte < 32 := by
    intro opening closing inner first last inside byte member
    rcases mem_cons.mp member with here | later
    · exact here ▸ first
    · rcases mem_append.mp later with within | final
      · exact inside byte within
      · exact mem_singleton.mp final ▸ last
  induction sound with
  | word word =>
    have every : ∀ lexeme ∈ words, ∀ byte ∈ lexeme, ¬byte < 32 := by decide +kernel
    exact every _ word
  | number valid all =>
    have every : ∀ byte : UInt8, isNumberByte byte = true → ¬byte < 32 :=
      every_byte (by decide +kernel)
    exact fun byte member => every byte (all byte member)
  | string scans => exact quoted_shown scans
  | array inside ih =>
    rw [Json.text, item_texts_eq]
    exact bracket (by decide) (by decide) (commas_shown (forall_mem_map.mpr ih))
  | object keys inside ih =>
    rw [Json.text, member_texts_eq]
    refine bracket (by decide) (by decide)
      (commas_shown (forall_mem_map.mpr fun member held byte there => ?_))
    rcases mem_append.mp there with key | value
    · exact quoted_shown (keys member held) byte key
    · rcases mem_cons.mp value with colon | text
      · rw [colon]
        decide
      · exact ih member held byte text

theorem skip_space_of_head {rest : Text} (shown : isSpace byte = false) :
    skipSpace (byte :: rest) = byte :: rest := by
  rw [skipSpace, dropWhile_cons, shown]
  rfl

end Printing

section Reading

variable {inner : Reader} {lexeme rest : Text}

theorem StopsNumber.take (all : ∀ byte ∈ lexeme, isNumberByte byte = true)
    (stops : StopsNumber rest) : (lexeme ++ rest).takeWhile isNumberByte = lexeme := by
  rw [takeWhile_append_of_pos all]
  cases rest with
  | nil => simp
  | cons byte later => simp [stops byte rfl]

theorem parse_word {word : Text} (member : word ∈ words) (rest : Text) :
    parseScalar (word ++ rest) = some (.scalar word, rest) := by
  have found : words.find? (·.isPrefixOf (word ++ rest)) = some word := by
    rcases mem_cons.mp member with null | later
    · rw [null]
      rfl
    · rcases mem_cons.mp later with yes | last
      · rw [yes]
        rfl
      · rw [mem_singleton.mp last]
        rfl
  rw [parseScalar, found]
  simp

theorem parse_number (valid : validNumber lexeme = true)
    (all : ∀ byte ∈ lexeme, isNumberByte byte = true) (stops : StopsNumber rest) :
    parseScalar (lexeme ++ rest) = some (.scalar lexeme, rest) := by
  rcases valid_number_head valid with ⟨byte, later, shape, starts⟩
  have other : words.find? (·.isPrefixOf (lexeme ++ rest)) = none := by
    rw [find?_eq_none]
    intro word member same
    have apart := (number_starts starts).2.2.2.2 word member
    rw [shape, cons_append] at same
    rcases List.isPrefixOf_iff_prefix.mp same with ⟨tail, whole⟩
    cases word with
    | nil => exact absurd member (by decide)
    | cons first more =>
      rw [cons_append] at whole
      exact apart (congrArg some (List.cons.inj whole).1)
  rw [parseScalar, other]
  rw [stops.take all, if_pos valid, drop_left]

theorem parse_items_text {items : List Json}
    (each : ∀ item ∈ items, ∀ rest, StopsNumber rest → inner (item.text ++ rest) =
      some (item, rest))
    (filled : items ≠ []) {fuel : Nat} (enough : items.length ≤ fuel) (rest : Text) :
    parseItems inner fuel (commas (items.map Json.text) ++ 93 :: rest) = some (items, rest) := by
  induction items generalizing fuel with
  | nil => exact absurd rfl filled
  | cons item later ih =>
    cases fuel with
    | zero => simp at enough
    | succ fuel =>
      have here := each item mem_cons_self
      by_cases last : later = []
      · subst last
        rw [map_cons, map_nil, commas, parseItems, here _ (by rintro _ ⟨⟩; decide)]
        rfl
      · rw [map_cons, commas_cons _ _ (by simpa using last), append_assoc,
          cons_append, parseItems, here _ (by rintro _ ⟨⟩; decide)]
        have more := ih (fun other member => each other (mem_cons_of_mem _ member)) last
          (Nat.le_of_succ_le_succ enough)
        simp only
        rw [skip_space_of_head (by decide)]
        simp only [if_true, more]
        rfl

theorem skip_space_commas {byte : UInt8} {tail one : Text} (shape : one = byte :: tail)
    (starts : startsValue byte = true) (texts : List Text) (rest : Text) :
    ∃ more, skipSpace (commas (one :: texts) ++ rest) = byte :: more := by
  subst shape
  have shown := (starts_value_spec starts).1
  cases texts with
  | nil => exact ⟨_, skip_space_of_head shown⟩
  | cons next later => exact ⟨_, skip_space_of_head shown⟩

theorem parse_array_text {items : List Json}
    (each : ∀ item ∈ items, ∀ rest, StopsNumber rest → inner (item.text ++ rest) =
      some (item, rest))
    (heads : ∀ item ∈ items, ∃ byte tail, item.text = byte :: tail ∧ startsValue byte = true)
    (rest : Text) :
    parseArray inner (commas (items.map Json.text) ++ 93 :: rest) = some (.array items, rest) := by
  cases items with
  | nil => rfl
  | cons item later =>
    have long := commas_length ((item :: later).map Json.text)
    rw [length_map] at long
    have enough : (item :: later).length ≤
        (commas ((item :: later).map Json.text) ++ 93 :: rest).length := by
      rw [length_append, @length_cons _ _ rest]
      omega
    have read := parse_items_text each (cons_ne_nil _ _) enough rest
    rcases heads item mem_cons_self with ⟨byte, tail, head, starts⟩
    rcases skip_space_commas head starts (later.map Json.text) (93 :: rest) with ⟨more, skip⟩
    rw [map_cons] at read ⊢
    rw [parseArray, skip]
    simp only [if_neg (starts_value_spec starts).2.1, read]
    rfl

theorem parse_key_text {key : Text} (scans : Scannable key) (rest : Text) :
    parseKey (quoted key ++ 58 :: rest) = some (key, rest) := by
  have shape : quoted key ++ 58 :: rest = 34 :: (key ++ 34 :: 58 :: rest) := by
    simp [quoted]
  rw [parseKey, shape, skip_space_of_head (by decide)]
  simp only [if_true, scans.scan]
  rw [skip_space_of_head (by decide)]
  rfl

theorem parse_members_text {members : List (Text × Json)}
    (keys : ∀ member ∈ members, Scannable member.1)
    (each : ∀ member ∈ members, ∀ rest, StopsNumber rest →
      inner (member.2.text ++ rest) = some (member.2, rest)) (filled : members ≠ []) {fuel : Nat}
    (enough : members.length ≤ fuel) (rest : Text) :
    parseMembers inner fuel (commas (members.map fun member =>
      quoted member.1 ++ 58 :: member.2.text) ++ 125 :: rest) = some (members, rest) := by
  induction members generalizing fuel with
  | nil => exact absurd rfl filled
  | cons member later ih =>
    cases fuel with
    | zero => simp at enough
    | succ fuel =>
      have here := each member mem_cons_self
      have key := keys member mem_cons_self
      by_cases last : later = []
      · subst last
        rw [map_cons, map_nil, commas, append_assoc, cons_append,
          parseMembers, parse_key_text key]
        simp only
        rw [here _ (by rintro _ ⟨⟩; decide)]
        rfl
      · rw [map_cons, commas_cons _ _ (by simpa using last), append_assoc,
          append_assoc, cons_append, cons_append, parseMembers,
          parse_key_text key]
        simp only
        rw [here _ (by rintro _ ⟨⟩; decide)]
        have more := ih (fun other inside => keys other (mem_cons_of_mem _ inside))
          (fun other inside => each other (mem_cons_of_mem _ inside)) last
          (Nat.le_of_succ_le_succ enough)
        simp only
        rw [skip_space_of_head (by decide)]
        simp only [if_true, more]
        rfl

theorem parse_value_scalar {depth : Nat} {byte : UInt8} {later : Text}
    (shape : lexeme ++ rest = byte :: later) (starts : startsValue byte = true) (quote : byte ≠ 34)
    (bracket : byte ≠ 91) (brace : byte ≠ 123)
    (read : parseScalar (lexeme ++ rest) = some (.scalar lexeme, rest)) :
    parseValue depth (lexeme ++ rest) = some (.scalar lexeme, rest) := by
  have one : ∀ inner, parseWith inner (lexeme ++ rest) = some (.scalar lexeme, rest) := by
    intro inner
    rw [parseWith, shape, skip_space_of_head (starts_value_spec starts).1]
    simp only [if_neg quote, if_neg bracket, if_neg brace]
    rw [← shape, read]
  cases depth with
  | zero => exact one none
  | succ depth => exact one _

theorem parse_object_text {members : List (Text × Json)}
    (keys : ∀ member ∈ members, Scannable member.1)
    (each : ∀ member ∈ members, ∀ rest, StopsNumber rest →
      inner (member.2.text ++ rest) = some (member.2, rest)) (rest : Text) :
    parseObject inner (commas (members.map fun member =>
      quoted member.1 ++ 58 :: member.2.text) ++ 125 :: rest) = some (.object members, rest) := by
  cases members with
  | nil => rfl
  | cons member later =>
    have long := commas_length ((member :: later).map fun member =>
      quoted member.1 ++ 58 :: member.2.text)
    rw [length_map] at long
    have enough : (member :: later).length ≤ (commas ((member :: later).map fun member =>
        quoted member.1 ++ 58 :: member.2.text) ++ 125 :: rest).length := by
      rw [length_append, @length_cons _ _ rest]
      omega
    have read := parse_members_text keys each (cons_ne_nil _ _) enough rest
    have starts : startsValue 34 = true := by decide
    have head : quoted member.1 ++ 58 :: member.2.text =
        34 :: (member.1 ++ [34] ++ 58 :: member.2.text) := rfl
    rcases skip_space_commas head starts
      (later.map fun member => quoted member.1 ++ 58 :: member.2.text) (125 :: rest) with
      ⟨more, skip⟩
    rw [map_cons] at read ⊢
    rw [parseObject, skip]
    simp only [if_neg (starts_value_spec starts).2.2.1, read]
    rfl

theorem parse_value_text {depth : Nat} {json : Json} (sound : json.Sound depth) (rest : Text)
    (stops : StopsNumber rest) : parseValue depth (json.text ++ rest) = some (json, rest) := by
  induction sound generalizing rest with
  | word word =>
    rcases word_head word with ⟨byte, later, shape, starts, quote, bracket, brace⟩
    exact parse_value_scalar (by rw [shape]; rfl) starts quote bracket brace (parse_word word rest)
  | number valid all =>
    rcases valid_number_head valid with ⟨byte, later, shape, number⟩
    rcases number_starts number with ⟨starts, quote, bracket, brace, _⟩
    exact parse_value_scalar (by rw [shape]; rfl) starts quote bracket brace
      (parse_number valid all stops)
  | @string depth body scans =>
    have one : ∀ inner, parseWith inner (quoted body ++ rest) = some (.string body, rest) := by
      intro inner
      have shape : quoted body ++ rest = 34 :: (body ++ 34 :: rest) := by simp [quoted]
      rw [parseWith, shape, skip_space_of_head (by decide)]
      simp only [if_true, scans.scan, Option.map_some]
    cases depth with
    | zero => exact one none
    | succ depth => exact one _
  | @array depth items inside ih =>
    have shape : (Json.array items).text ++ rest =
        91 :: (commas (items.map Json.text) ++ 93 :: rest) := by
      simp [Json.text, item_texts_eq]
    rw [parseValue, parseWith, shape, skip_space_of_head (by decide)]
    exact parse_array_text ih (fun item member => text_head (inside item member)) rest
  | @object depth members keys inside ih =>
    have shape : (Json.object members).text ++ rest = 123 :: (commas (members.map fun member =>
        quoted member.1 ++ 58 :: member.2.text) ++ 125 :: rest) := by
      simp [Json.text, member_texts_eq]
    rw [parseValue, parseWith, shape, skip_space_of_head (by decide)]
    exact parse_object_text keys ih rest

theorem parse_json_text {depth : Nat} {json : Json} (sound : json.Sound depth) :
    parseJson depth json.text = some json := by
  have read := parse_value_text sound [] (by simp [StopsNumber])
  rw [append_nil] at read
  rw [parseJson, read]
  rfl

end Reading

section Decoded

variable {json : Json} {input rest : Text}

theorem scan_body_sound {state : StringState} {body : Text}
    (found : scanBody state input = some (body, rest)) :
    state.run body = some .plain ∧ input = body ++ 34 :: rest := by
  induction input generalizing state body with
  | nil => cases found
  | cons byte later ih =>
    rw [scanBody] at found
    split_ifs at found with closing
    · cases found
      rw [closing.1, closing.2]
      exact ⟨rfl, rfl⟩
    · cases next : state.next byte with
      | none =>
        rw [next] at found
        cases found
      | some after =>
        rw [next] at found
        rcases Option.map_eq_some_iff.mp found with ⟨⟨inner, tail⟩, scanned, same⟩
        cases same
        rcases ih scanned with ⟨runs, split⟩
        exact ⟨by rw [StringState.run, next]; exact runs, by rw [split]; rfl⟩

theorem parse_scalar_sound {depth : Nat} (found : parseScalar input = some (json, rest)) :
    json.Sound depth := by
  rw [parseScalar] at found
  split at found
  · rename_i word first
    cases found
    exact .word (mem_of_find?_eq_some first)
  · dsimp only at found
    split_ifs at found with valid
    cases found
    exact .number valid fun byte member => mem_takeWhile_imp member

theorem parse_items_sound {depth : Nat} {inner : Reader}
    (sound : ∀ input json rest, inner input = some (json, rest) → json.Sound depth) {fuel : Nat}
    {items : List Json} (found : parseItems inner fuel input = some (items, rest)) :
    ∀ item ∈ items, item.Sound depth := by
  induction fuel generalizing input items with
  | zero => cases found
  | succ fuel ih =>
    rw [parseItems] at found
    split at found
    · cases found
    · rename_i item more read
      have here := sound _ _ _ read
      split at found
      · cases found
      · split_ifs at found
        · rcases Option.map_eq_some_iff.mp found with ⟨⟨later, tail⟩, parsed, same⟩
          cases same
          exact forall_mem_cons.mpr ⟨here, ih parsed⟩
        · cases found
          exact forall_mem_cons.mpr ⟨here, fun _ member => absurd member not_mem_nil⟩

theorem parse_key_sound {key : Text} (found : parseKey input = some (key, rest)) :
    Scannable key := by
  rw [parseKey] at found
  split at found
  · cases found
  · split_ifs at found
    split at found
    · cases found
    · rename_i body more scanned
      split at found
      · cases found
      · split_ifs at found
        cases found
        exact (scan_body_sound scanned).1

theorem parse_members_sound {depth : Nat} {inner : Reader}
    (sound : ∀ input json rest, inner input = some (json, rest) → json.Sound depth) {fuel : Nat}
    {members : List (Text × Json)} (found : parseMembers inner fuel input = some (members, rest)) :
    ∀ member ∈ members, Scannable member.1 ∧ member.2.Sound depth := by
  induction fuel generalizing input members with
  | zero => cases found
  | succ fuel ih =>
    rw [parseMembers] at found
    split at found
    · cases found
    · rename_i key more keyed
      split at found
      · cases found
      · rename_i value tail read
        have here := And.intro (parse_key_sound keyed) (sound _ _ _ read)
        split at found
        · cases found
        · split_ifs at found
          · rcases Option.map_eq_some_iff.mp found with ⟨⟨later, last⟩, parsed, same⟩
            cases same
            exact forall_mem_cons.mpr ⟨here, ih parsed⟩
          · cases found
            exact forall_mem_cons.mpr
              ⟨here, fun _ member => absurd member not_mem_nil⟩

theorem parse_array_cases {inner : Reader} (found : parseArray inner input = some (json, rest)) :
    ∃ items, json = .array items ∧
      (items = [] ∨ parseItems inner input.length input = some (items, rest)) := by
  rw [parseArray] at found
  split at found
  · cases found
  · split_ifs at found
    · cases found
      exact ⟨[], rfl, .inl rfl⟩
    · rcases Option.map_eq_some_iff.mp found with ⟨⟨items, tail⟩, parsed, same⟩
      cases same
      exact ⟨items, rfl, .inr parsed⟩

theorem parse_object_cases {inner : Reader} (found : parseObject inner input = some (json, rest)) :
    ∃ members, json = .object members ∧
      (members = [] ∨ parseMembers inner input.length input = some (members, rest)) := by
  rw [parseObject] at found
  split at found
  · cases found
  · split_ifs at found
    · cases found
      exact ⟨[], rfl, .inl rfl⟩
    · rcases Option.map_eq_some_iff.mp found with ⟨⟨members, tail⟩, parsed, same⟩
      cases same
      exact ⟨members, rfl, .inr parsed⟩

theorem parse_with_sound {depth : Nat} {inner : Option Reader}
    (found : parseWith inner input = some (json, rest))
    (nested : ∀ reader ∈ inner, ∃ less, depth = less + 1 ∧
      ∀ input json rest, reader input = some (json, rest) → json.Sound less) :
    json.Sound depth := by
  rw [parseWith] at found
  split at found
  · cases found
  · split_ifs at found
    · rcases Option.map_eq_some_iff.mp found with ⟨⟨body, tail⟩, scanned, same⟩
      cases same
      exact .string (scan_body_sound scanned).1
    · obtain ⟨reader, given, read⟩ := Option.bind_eq_some_iff.mp found
      obtain ⟨less, rfl, sound⟩ := nested reader given
      obtain ⟨items, rfl, rfl | parsed⟩ := parse_array_cases read
      · exact .array nofun
      · exact .array (parse_items_sound sound parsed)
    · obtain ⟨reader, given, read⟩ := Option.bind_eq_some_iff.mp found
      obtain ⟨less, rfl, sound⟩ := nested reader given
      obtain ⟨members, rfl, rfl | parsed⟩ := parse_object_cases read
      · exact .object nofun nofun
      · have each := parse_members_sound sound parsed
        exact .object (fun member inside => (each member inside).1)
          fun member inside => (each member inside).2
    · exact parse_scalar_sound found

theorem parse_value_sound {depth : Nat} (found : parseValue depth input = some (json, rest)) :
    json.Sound depth := by
  induction depth generalizing input json rest with
  | zero => exact parse_with_sound found nofun
  | succ depth ih =>
    apply parse_with_sound found
    rintro reader ⟨⟩
    exact ⟨depth, rfl, fun _ _ _ read => ih read⟩

theorem parse_json_sound {depth : Nat} (found : parseJson depth input = some json) :
    json.Sound depth := by
  rw [parseJson] at found
  split at found
  · cases found
  · rename_i read
    split_ifs at found
    cases found
    exact parse_value_sound read

theorem Json.Sound.mono {depth deeper : Nat} (sound : json.Sound depth) (le : depth ≤ deeper) :
    json.Sound deeper := by
  induction sound generalizing deeper with
  | word word => exact .word word
  | number valid all => exact .number valid all
  | string scans => exact .string scans
  | array inside ih =>
    cases deeper with
    | zero => omega
    | succ deeper => exact .array fun item member => ih item member (Nat.le_of_succ_le_succ le)
  | object keys inside ih =>
    cases deeper with
    | zero => omega
    | succ deeper =>
      exact .object keys fun item member => ih item member (Nat.le_of_succ_le_succ le)

theorem item_depth_le {items : List Json} {item : Json} (inside : item ∈ items) :
    item.depth ≤ Json.itemsDepth items := by
  induction items with
  | nil => cases inside
  | cons first rest ih =>
    rw [Json.itemsDepth]
    rcases mem_cons.mp inside with rfl | later
    · exact Nat.le_max_left _ _
    · exact (ih later).trans (Nat.le_max_right _ _)

theorem member_depth_le {members : List (Text × Json)} {member : Text × Json}
    (inside : member ∈ members) : member.2.depth ≤ Json.membersDepth members := by
  induction members with
  | nil => cases inside
  | cons first rest ih =>
    rw [Json.membersDepth]
    rcases mem_cons.mp inside with rfl | later
    · exact Nat.le_max_left _ _
    · exact (ih later).trans (Nat.le_max_right _ _)

theorem items_depth_le {items : List Json} {bound : Nat}
    (each : ∀ item ∈ items, item.depth ≤ bound) : Json.itemsDepth items ≤ bound := by
  induction items with
  | nil => exact Nat.zero_le _
  | cons first rest ih =>
    obtain ⟨here, later⟩ := forall_mem_cons.mp each
    exact Nat.max_le.mpr ⟨here, ih later⟩

theorem members_depth_le {members : List (Text × Json)} {bound : Nat}
    (each : ∀ member ∈ members, member.2.depth ≤ bound) : Json.membersDepth members ≤ bound := by
  induction members with
  | nil => exact Nat.zero_le _
  | cons first rest ih =>
    obtain ⟨here, later⟩ := forall_mem_cons.mp each
    exact Nat.max_le.mpr ⟨here, ih later⟩

theorem Json.Sound.depth_le {depth : Nat} (sound : json.Sound depth) : json.depth ≤ depth := by
  induction sound with
  | word _ | number _ _ | string _ => exact Nat.zero_le _
  | array _ ih => exact Nat.succ_le_succ (items_depth_le ih)
  | object _ _ ih => exact Nat.succ_le_succ (members_depth_le ih)

theorem Json.Sound.of_depth {depth other : Nat} (sound : json.Sound depth)
    (le : json.depth ≤ other) : json.Sound other := by
  induction sound generalizing other with
  | word word => exact .word word
  | number valid all => exact .number valid all
  | string scans => exact .string scans
  | array inside ih =>
    rw [Json.depth] at le
    obtain ⟨less, rfl⟩ : ∃ less, other = less + 1 := ⟨other - 1, by omega⟩
    apply Json.Sound.array
    intro item within
    exact ih item within ((item_depth_le within).trans (Nat.le_of_succ_le_succ le))
  | object keys inside ih =>
    rw [Json.depth] at le
    obtain ⟨less, rfl⟩ : ∃ less, other = less + 1 := ⟨other - 1, by omega⟩
    apply Json.Sound.object keys
    intro member within
    exact ih member within ((member_depth_le within).trans (Nat.le_of_succ_le_succ le))

end Decoded

example : (parseJson 3 (ascii " \x7b\"a\": [1, -2.5e3 ], \"b\\n\":null \x7d")).map Json.text =
    some (ascii "\x7b\"a\":[1,-2.5e3],\"b\\n\":null\x7d") := by decide +kernel

end Figwal.Lib
