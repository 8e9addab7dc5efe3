import Figwal.Xwal.Frame

/-!
# The value scanner on JSON texts

`jsonValueEnd` counts brackets and skips strings. On the text of a value it stops exactly at
the end of that value.
-/

namespace Figwal.Frame

variable {depth : Nat} {byte : UInt8}

open Figwal.Lib Figwal.Codec

set_option autoImplicit false

def Passes (depth : Nat) (text : Text) : Prop :=
  ∀ rest, nestedEnd depth .outside (text ++ rest) =
    (nestedEnd depth .outside rest).map fun found => (text ++ found.1, found.2)

def isQuiet (byte : UInt8) : Bool :=
  byte != 34 && byte != 123 && byte != 91 && byte != 125 && byte != 93

theorem Passes.nil (depth : Nat) : Passes depth [] := by
  intro rest
  simp

theorem Passes.append {early late : Text} (first : Passes depth early)
    (second : Passes depth late) : Passes depth (early ++ late) := by
  intro rest
  rw [List.append_assoc, first, second, Option.map_map]
  simp [Function.comp_def]

theorem passes_byte {depth : Nat} {byte : UInt8} (quiet : isQuiet byte = true) :
    Passes depth [byte] := by
  intro rest
  simp only [isQuiet, Bool.and_eq_true, bne_iff_ne] at quiet
  simp [nestedEnd, quiet]

theorem passes_quiet {text : Text} (quiet : ∀ byte ∈ text, isQuiet byte = true) :
    Passes depth text := by
  induction text with
  | nil => exact Passes.nil depth
  | cons byte rest ih =>
    have here := @passes_byte depth byte (quiet byte List.mem_cons_self)
    exact here.append (ih fun other inside => quiet other (List.mem_cons_of_mem byte inside))

theorem word_quiet {lexeme : Text} (word : lexeme ∈ words) :
    ∀ byte ∈ lexeme, isQuiet byte = true ∧ byte ≠ 44 := by
  have all : (words.all fun lexeme => lexeme.all fun byte => isQuiet byte && byte != 44) =
      true := by
    decide +kernel
  intro byte inside
  simpa using List.all_eq_true.mp (List.all_eq_true.mp all lexeme word) byte inside

theorem number_byte_quiet (number : isNumberByte byte = true) :
    isQuiet byte = true ∧ byte ≠ 44 := by
  have all : ∀ byte : UInt8, isNumberByte byte = true → isQuiet byte = true ∧ byte ≠ 44 :=
    every_byte (by decide +kernel)
  exact all byte number

def bodyMode : StringState → ScanMode
  | .escape => .skipping
  | _ => .inString

theorem hex_ordinary (hex : isHex byte = true) : byte ≠ 34 ∧ byte ≠ 92 := by
  have all : ∀ byte : UInt8, isHex byte = true → byte ≠ 34 ∧ byte ≠ 92 :=
    every_byte (by decide +kernel)
  exact all byte hex

/-- What one byte of a string body does to the mode: behind a backslash anything is skipped,
elsewhere there is no quote and only a backslash changes the mode. -/
theorem next_mode {state after : StringState} (moved : state.next byte = some after) :
    (bodyMode state = .skipping ∧ bodyMode after = .inString) ∨
      (bodyMode state = .inString ∧ byte ≠ 34 ∧
        bodyMode after = if byte = 92 then .skipping else .inString) := by
  cases state with
  | plain =>
    rw [StringState.next] at moved
    split_ifs at moved with quote backslash control
    · cases moved
      exact .inr ⟨rfl, quote, by simp [bodyMode, backslash]⟩
    · cases moved
      exact .inr ⟨rfl, quote, by simp [bodyMode, backslash]⟩
  | escape =>
    rw [StringState.next] at moved
    split_ifs at moved <;> cases moved <;> exact .inl ⟨rfl, rfl⟩
  | unit left =>
    cases left <;> rw [StringState.next] at moved <;> split_ifs at moved with hex <;>
      obtain ⟨quote, backslash⟩ := hex_ordinary hex <;> cases moved <;>
      exact .inr ⟨rfl, quote, by simp [bodyMode, backslash]⟩

/-- Inside an array or an object a string body is read over up to its closing quote. -/
theorem nested_body {depth : Nat} {state : StringState} {body : Text}
    (scans : state.run body = some .plain) (rest : Text) :
    nestedEnd depth (bodyMode state) (body ++ rest) =
      (nestedEnd depth .inString rest).map fun found => (body ++ found.1, found.2) := by
  induction body generalizing state with
  | nil =>
    cases scans
    simp [bodyMode]
  | cons byte later ih =>
    rw [StringState.run, Option.bind_eq_some_iff] at scans
    obtain ⟨after, moved, ran⟩ := scans
    have step : nestedEnd depth (bodyMode state) (byte :: (later ++ rest)) =
        (nestedEnd depth (bodyMode after) (later ++ rest)).map
          fun found => (byte :: found.1, found.2) := by
      rcases next_mode moved with ⟨before, behind⟩ | ⟨before, quote, behind⟩
      · rw [before, behind]
        rfl
      · rw [before, behind]
        simp [nestedEnd, quote]
    rw [List.cons_append, step, ih ran, Option.map_map]
    rfl

theorem string_body {state : StringState} {body : Text} (scans : state.run body = some .plain)
    (rest : Text) :
    stringEnd (bodyMode state = .skipping) (body ++ rest) =
      (stringEnd false rest).map fun found => (body ++ found.1, found.2) := by
  induction body generalizing state with
  | nil =>
    cases scans
    simp [bodyMode]
  | cons byte later ih =>
    rw [StringState.run, Option.bind_eq_some_iff] at scans
    obtain ⟨after, moved, ran⟩ := scans
    have step : stringEnd (bodyMode state = .skipping) (byte :: (later ++ rest)) =
        (stringEnd (bodyMode after = .skipping) (later ++ rest)).map
          fun found => (byte :: found.1, found.2) := by
      rcases next_mode moved with ⟨before, behind⟩ | ⟨before, quote, behind⟩
      · simp [before, behind, stringEnd]
      · by_cases backslash : byte = 92 <;> simp [before, behind, stringEnd, quote, backslash]
    rw [List.cons_append, step, ih ran, Option.map_map]
    rfl

theorem passes_quoted {body : Text} (scans : Scannable body) : Passes depth (quoted body) := by
  intro rest
  have inside := @nested_body depth .plain body scans (34 :: rest)
  rw [bodyMode] at inside
  · simp [quoted, nestedEnd, inside, Function.comp_def]
  · simp

theorem passes_commas {texts : List Text} (all : ∀ text ∈ texts, Passes depth text) :
    Passes depth (commas texts) := by
  induction texts with
  | nil => exact Passes.nil depth
  | cons first rest ih =>
    have here := all first List.mem_cons_self
    have later := ih fun text inside => all text (List.mem_cons_of_mem first inside)
    cases rest with
    | nil => exact here
    | cons next more => exact here.append ((@passes_byte depth 44 rfl).append later)

theorem passes_items {items : List Json} (all : ∀ item ∈ items, Passes depth item.text) :
    Passes depth (commas (Json.itemTexts items)) := by
  rw [item_texts_eq]
  refine passes_commas ?_
  intro text member
  obtain ⟨item, within, rfl⟩ := List.mem_map.mp member
  exact all item within

theorem passes_members {members : List (Text × Json)}
    (keys : ∀ member ∈ members, Scannable member.1)
    (all : ∀ member ∈ members, Passes depth member.2.text) :
    Passes depth (commas (Json.memberTexts members)) := by
  rw [member_texts_eq]
  refine passes_commas ?_
  intro text member
  obtain ⟨pair, within, rfl⟩ := List.mem_map.mp member
  have value := (@passes_byte depth 58 rfl).append (all pair within)
  exact (passes_quoted (keys pair within)).append value

theorem passes_brackets {opening closing : UInt8} {inner : Text}
    (opens : opening = 123 ∨ opening = 91) (closes : closing = 125 ∨ closing = 93)
    (positive : 0 < depth) (inside : Passes (depth + 1) inner) :
    Passes depth (opening :: (inner ++ [closing])) := by
  intro rest
  have body := inside (closing :: rest)
  have stays : depth ≠ 0 := by omega
  rcases opens with rfl | rfl <;> rcases closes with rfl | rfl <;>
    simp [nestedEnd, body, stays, Function.comp_def]

/-- Brackets, strings and separators of a value balance, at any depth inside another. -/
theorem passes_text {size : Nat} {json : Json} (sound : json.Sound size) (positive : 0 < depth) :
    Passes depth json.text := by
  induction sound generalizing depth with
  | word word => exact passes_quiet fun byte inside => (word_quiet word byte inside).1
  | number _ all => exact passes_quiet fun byte inside => (number_byte_quiet (all byte inside)).1
  | string scans => exact passes_quoted scans
  | array inside ih =>
    have items := passes_items fun item within => ih item within (Nat.succ_pos depth)
    exact passes_brackets (.inr rfl) (.inr rfl) positive items
  | object keys inside ih =>
    have members := passes_members keys fun pair within => ih pair within (Nat.succ_pos depth)
    exact passes_brackets (.inl rfl) (.inl rfl) positive members

/-- A bracketed text is found whole: its closing bracket is the first to reach depth zero. -/
theorem nested_end_brackets {opening closing : UInt8} {inner : Text}
    (opens : opening = 123 ∨ opening = 91) (closes : closing = 125 ∨ closing = 93)
    (inside : Passes 1 inner) (rest : Text) :
    nestedEnd 0 .outside (opening :: (inner ++ [closing]) ++ rest) =
      some (opening :: (inner ++ [closing]), rest) := by
  have body := inside (closing :: rest)
  rcases opens with rfl | rfl <;> rcases closes with rfl | rfl <;> simp [nestedEnd, body]

/-- What stands behind a field of a frame: another field, or the end of the frame. -/
def EndsField (rest : Text) : Prop :=
  rest.head? = some 44 ∨ rest.head? = some 125

theorem value_end_scalar {lexeme rest : Text} (some_byte : lexeme ≠ [])
    (quiet : ∀ byte ∈ lexeme, isQuiet byte = true ∧ byte ≠ 44) (ends : EndsField rest) :
    jsonValueEnd (lexeme ++ rest) = some (lexeme, rest) := by
  obtain ⟨first, later, rfl⟩ := List.exists_cons_of_ne_nil some_byte
  obtain ⟨stop, behind, rfl⟩ : ∃ stop behind, rest = stop :: behind := by
    cases rest with
    | nil => rcases ends with none | none <;> cases none
    | cons stop behind => exact ⟨stop, behind, rfl⟩
  have stops : (stop != 44 && stop != 125) = false := by
    rcases ends with comma | brace
    · cases comma
      rfl
    · cases brace
      rfl
  have keeps : ∀ byte ∈ first :: later, (byte != 44 && byte != 125) = true := by
    intro byte inside
    obtain ⟨calm, comma⟩ := quiet byte inside
    simp only [isQuiet, Bool.and_eq_true, bne_iff_ne] at calm
    simp [comma, calm]
  have taken : (first :: later ++ stop :: behind).takeWhile
      (fun other => other != 44 && other != 125) = first :: later := by
    rw [List.takeWhile_append_of_pos keeps, List.takeWhile_cons, stops]
    simp
  have calm := (quiet first List.mem_cons_self).1
  simp only [isQuiet, Bool.and_eq_true, bne_iff_ne] at calm
  rw [List.cons_append] at taken ⊢
  simp only [jsonValueEnd, taken, calm.1.1.1.1, calm.1.1.1.2, calm.1.1.2, if_false, or_self]
  simp

theorem json_value_end_text {size : Nat} {json : Json} (sound : json.Sound size) {rest : Text}
    (ends : EndsField rest) : jsonValueEnd (json.text ++ rest) = some (json.text, rest) := by
  cases sound with
  | word word =>
    have filled : ∀ lexeme ∈ words, lexeme ≠ [] := by decide
    exact value_end_scalar (filled _ word) (word_quiet word) ends
  | number valid all =>
    refine value_end_scalar ?_ (fun byte inside => number_byte_quiet (all byte inside)) ends
    rintro rfl
    exact absurd valid (by decide)
  | string scans =>
    have body := string_body scans (34 :: rest)
    simp only [bodyMode, reduceCtorEq, decide_false] at body
    simp [Json.text, quoted, jsonValueEnd, body, stringEnd]
  | array inside =>
    have items := passes_items fun item within => passes_text (inside item within) Nat.one_pos
    exact nested_end_brackets (.inr rfl) (.inr rfl) items rest
  | object keys inside =>
    have members := passes_members keys fun pair within =>
      passes_text (inside pair within) Nat.one_pos
    exact nested_end_brackets (.inl rfl) (.inl rfl) members rest

end Figwal.Frame
