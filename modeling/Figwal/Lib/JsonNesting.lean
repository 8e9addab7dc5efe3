import Figwal.Lib.Json

/-!
# Nesting

The limit of a decoder only decides whether a value is read, never how. A value that is read
under one limit is read the same under any other that it does not exceed, and a value that
exceeds the limit is not read at all.
-/

namespace Figwal.Lib

set_option autoImplicit false

/-- The text is one value, however deep it nests, with nothing but whitespace around it. -/
def IsText (text : Text) (json : Json) : Prop :=
  ∃ depth, parseJson depth text = some json

section Limits

variable {json : Json} {depth other : Nat} {inner outer : Reader} {input rest text : Text}

theorem parse_items_agree {fuel : Nat} {items : List Json}
    (found : parseItems inner fuel input = some (items, rest))
    (agree : ∀ item ∈ items, ∀ text tail, inner text = some (item, tail) →
      outer text = some (item, tail)) : parseItems outer fuel input = some (items, rest) := by
  induction fuel generalizing input items with
  | zero => cases found
  | succ fuel ih =>
    rw [parseItems] at found ⊢
    cases read : inner input with
    | none =>
      rw [read] at found
      cases found
    | some pair =>
      obtain ⟨item, more⟩ := pair
      rw [read] at found
      simp only at found
      cases left : skipSpace more with
      | nil =>
        rw [left] at found
        cases found
      | cons byte later =>
        rw [left] at found
        simp only at found
        split_ifs at found with comma bracket
        · rcases Option.map_eq_some_iff.mp found with ⟨⟨others, tail⟩, parsed, same⟩
          cases same
          rw [agree item List.mem_cons_self _ _ read]
          simp only [left, if_pos comma]
          rw [ih parsed fun other member => agree other (List.mem_cons_of_mem _ member)]
          rfl
        · cases found
          rw [agree item List.mem_cons_self _ _ read]
          simp only [left, if_neg comma, if_pos bracket]

/-- Two readers that agree on the values read the same members, with any more fuel. -/
theorem parse_members_agree {fuel more : Nat} {members : List (Text × Json)}
    (found : parseMembers inner fuel input = some (members, rest))
    (agree : ∀ member ∈ members, ∀ text tail, inner text = some (member.2, tail) →
      outer text = some (member.2, tail)) (enough : fuel ≤ more) :
    parseMembers outer more input = some (members, rest) := by
  induction fuel generalizing input members more with
  | zero => cases found
  | succ fuel ih =>
    obtain ⟨extra, rfl⟩ : ∃ extra, more = extra + 1 := ⟨more - 1, by omega⟩
    rw [parseMembers] at found ⊢
    cases keyed : parseKey input with
    | none =>
      rw [keyed] at found
      cases found
    | some pair =>
      obtain ⟨key, behind⟩ := pair
      rw [keyed] at found
      simp only at found ⊢
      cases read : inner behind with
      | none =>
        rw [read] at found
        cases found
      | some answer =>
        obtain ⟨value, left⟩ := answer
        rw [read] at found
        simp only at found
        cases next : skipSpace left with
        | nil =>
          rw [next] at found
          cases found
        | cons byte later =>
          rw [next] at found
          simp only at found
          split_ifs at found with comma brace
          · rcases Option.map_eq_some_iff.mp found with ⟨⟨others, tail⟩, parsed, same⟩
            cases same
            rw [agree (key, value) List.mem_cons_self _ _ read]
            simp only [next, if_pos comma]
            rw [ih parsed (fun other member => agree other (List.mem_cons_of_mem _ member))
              (Nat.le_of_succ_le_succ enough)]
            rfl
          · cases found
            rw [agree (key, value) List.mem_cons_self _ _ read]
            simp only [next, if_neg comma, if_pos brace]

theorem parse_with_agree {inner outer : Option Reader} {input rest : Text} {json : Json}
    (found : parseWith inner input = some (json, rest))
    (arrays : ∀ reader ∈ inner, ∀ text, parseArray reader text = some (json, rest) →
      ∃ other ∈ outer, parseArray other text = some (json, rest))
    (objects : ∀ reader ∈ inner, ∀ text, parseObject reader text = some (json, rest) →
      ∃ other ∈ outer, parseObject other text = some (json, rest)) :
    parseWith outer input = some (json, rest) := by
  rw [parseWith] at found ⊢
  cases shape : skipSpace input with
  | nil =>
    rw [shape] at found
    cases found
  | cons byte later =>
    rw [shape] at found
    simp only at found ⊢
    split_ifs at found ⊢ with quote bracket brace
    · exact found
    · rcases Option.bind_eq_some_iff.mp found with ⟨reader, given, read⟩
      obtain ⟨other, held, same⟩ := arrays reader given later read
      exact Option.bind_eq_some_iff.mpr ⟨other, held, same⟩
    · rcases Option.bind_eq_some_iff.mp found with ⟨reader, given, read⟩
      obtain ⟨other, held, same⟩ := objects reader given later read
      exact Option.bind_eq_some_iff.mpr ⟨other, held, same⟩
    · exact found

theorem parse_array_agree (found : parseArray inner input = some (json, rest))
    (agree : ∀ items, json = .array items → ∀ item ∈ items, ∀ text tail,
      inner text = some (item, tail) → outer text = some (item, tail)) :
    parseArray outer input = some (json, rest) := by
  rw [parseArray] at found ⊢
  cases shape : skipSpace input with
  | nil =>
    rw [shape] at found
    cases found
  | cons byte later =>
    rw [shape] at found
    simp only at found ⊢
    split_ifs at found ⊢
    · exact found
    · rcases Option.map_eq_some_iff.mp found with ⟨⟨items, tail⟩, parsed, same⟩
      cases same
      rw [parse_items_agree parsed (agree items rfl)]
      rfl

theorem parse_object_agree (found : parseObject inner input = some (json, rest))
    (agree : ∀ members, json = .object members → ∀ member ∈ members, ∀ text tail,
      inner text = some (member.2, tail) → outer text = some (member.2, tail)) :
    parseObject outer input = some (json, rest) := by
  rw [parseObject] at found ⊢
  cases shape : skipSpace input with
  | nil =>
    rw [shape] at found
    cases found
  | cons byte later =>
    rw [shape] at found
    simp only at found ⊢
    split_ifs at found ⊢
    · exact found
    · rcases Option.map_eq_some_iff.mp found with ⟨⟨members, tail⟩, parsed, same⟩
      cases same
      rw [parse_members_agree parsed (agree members rfl) (Nat.le_refl _)]
      rfl

theorem parse_value_shallow (found : parseValue depth input = some (json, rest))
    (fits : json.depth ≤ other) : parseValue other input = some (json, rest) := by
  induction depth generalizing other input json rest with
  | zero =>
    have scalar := @parse_with_agree none (if other = 0 then none else some
        (parseValue (other - 1)))
      _ _ _ found (fun reader none => nomatch none) (fun reader none => nomatch none)
    cases other with
    | zero => exact scalar
    | succ other => exact scalar
  | succ depth ih =>
    rw [parseValue] at found
    have inner : ∀ part : Json, part.depth < json.depth → ∀ text tail,
        parseValue depth text = some (part, tail) →
          parseValue (other - 1) text = some (part, tail) := by
      intro part smaller text tail read
      exact ih read (by omega)
    cases other with
    | zero =>
      apply parse_with_agree found
      · rintro reader ⟨⟩ text read
        obtain ⟨items, rfl, _⟩ := parse_array_cases read
        rw [Json.depth] at fits
        omega
      · rintro reader ⟨⟩ text read
        obtain ⟨members, rfl, _⟩ := parse_object_cases read
        rw [Json.depth] at fits
        omega
    | succ other =>
      apply parse_with_agree found
      · rintro reader ⟨⟩ text read
        refine ⟨_, rfl, parse_array_agree read ?_⟩
        rintro items rfl item member
        apply inner
        rw [Json.depth]
        exact Nat.lt_succ_of_le (item_depth_le member)
      · rintro reader ⟨⟩ text read
        refine ⟨_, rfl, parse_object_agree read ?_⟩
        rintro members rfl member inside
        apply inner
        rw [Json.depth]
        exact Nat.lt_succ_of_le (member_depth_le inside)

/-- Under every limit that lets a value through, it is the same and ends at the same place. -/
theorem parse_value_unique {tail : Text} {found : Json}
    (first : parseValue depth input = some (json, rest))
    (second : parseValue other input = some (found, tail)) : json = found ∧ rest = tail := by
  have deep := parse_value_shallow first (Nat.le_max_left json.depth found.depth)
  rw [parse_value_shallow second (Nat.le_max_right json.depth found.depth)] at deep
  cases deep
  exact ⟨rfl, rfl⟩

theorem parse_json_shallow (found : parseJson depth input = some json) (fits : json.depth ≤ other) :
    parseJson other input = some json := by
  rw [parseJson] at found ⊢
  split at found
  · cases found
  · rename_i value rest read
    split_ifs at found with alone
    cases found
    rw [parse_value_shallow read fits]
    simp only [if_pos alone]

theorem IsText.parsed (whole : IsText text json) :
    ∃ depth rest, parseValue depth text = some (json, rest) ∧ skipSpace rest = [] := by
  obtain ⟨depth, read⟩ := whole
  rw [parseJson] at read
  split at read
  · cases read
  · rename_i value rest found
    split_ifs at read with alone
    cases read
    exact ⟨depth, rest, found, alone⟩

theorem IsText.of_parsed (found : parseValue depth text = some (json, rest))
    (alone : skipSpace rest = []) : IsText text json := by
  refine ⟨depth, ?_⟩
  rw [parseJson, found]
  exact if_pos alone

theorem IsText.unique {other : Json} (first : IsText text json) (second : IsText text other) :
    json = other := by
  obtain ⟨_, _, read, _⟩ := first.parsed
  obtain ⟨_, _, again, _⟩ := second.parsed
  exact (parse_value_unique read again).1

/-- A text is read under exactly the limits that its value nests within. -/
theorem IsText.depth_le {found : Json} (whole : IsText text json)
    (read : parseValue depth text = some (found, rest)) : json.depth ≤ depth := by
  obtain ⟨_, _, again, _⟩ := whole.parsed
  rw [(parse_value_unique again read).1]
  exact (parse_value_sound read).depth_le

theorem IsText.unread (whole : IsText text json) (deep : depth < json.depth) :
    parseValue depth text = none := by
  by_contra read
  obtain ⟨⟨found, rest⟩, parsed⟩ := Option.ne_none_iff_exists'.mp read
  exact absurd (whole.depth_le parsed) (Nat.not_le_of_lt deep)

theorem IsText.sound (whole : IsText text json) : json.Sound json.depth := by
  obtain ⟨depth, read⟩ := whole
  exact (parse_json_sound read).of_depth (Nat.le_refl _)

end Limits

section Members

variable {inner : Reader} {depth : Nat} {text rest : Text} {members : List (Text × Json)}

theorem parse_object_filled (found : parseObject inner text = some (.object members, rest))
    (filled : members ≠ []) : parseMembers inner text.length text = some (members, rest) := by
  obtain ⟨others, same, empty | parsed⟩ := parse_object_cases found
  · cases same
    exact absurd empty filled
  · cases same
    exact parsed

theorem parse_value_brace :
    parseValue (depth + 1) (123 :: text) = parseObject (parseValue depth) text := by
  have brace : (123 : UInt8) ≠ 34 ∧ (123 : UInt8) ≠ 91 := by decide
  rw [parseValue, parseWith, skip_space_of_head (by decide)]
  simp only [brace.1, brace.2, if_false, if_true, Option.bind_some]

theorem parse_object_quoted (key : Text) :
    parseObject inner (quoted key ++ text) =
      (parseMembers inner (quoted key ++ text).length (quoted key ++ text)).map
        fun found => (.object found.1, found.2) := by
  rw [parseObject, quoted, List.cons_append, skip_space_of_head (by decide)]
  rfl

theorem parse_object_led {key : Text} {value : Json}
    (found : parseValue (depth + 1) (123 :: text) = some (.object members, rest))
    (filled : members ≠ []) (scans : Scannable key) (sound : value.Sound depth) :
    parseValue (depth + 1) (123 :: (quoted key ++ 58 :: (value.text ++ 44 :: text))) =
      some (.object ((key, value) :: members), rest) := by
  rw [parse_value_brace] at found ⊢
  have parsed := parse_object_filled found filled
  have valued := parse_value_text sound (44 :: text) (by rintro _ ⟨⟩; decide)
  obtain ⟨fuel, enough, spare⟩ : ∃ fuel,
      (quoted key ++ 58 :: (value.text ++ 44 :: text)).length = fuel + 1 ∧ text.length ≤ fuel := by
    refine ⟨(quoted key).length + value.text.length + text.length + 1, ?_, by omega⟩
    simp only [List.length_append, List.length_cons]
    omega
  have more := parse_members_agree parsed (fun _ _ _ _ read => read) spare
  have led : parseMembers (parseValue depth) (fuel + 1)
      (quoted key ++ 58 :: (value.text ++ 44 :: text)) = some ((key, value) :: members, rest) := by
    rw [parseMembers, parse_key_text scans]
    simp only [valued, skip_space_of_head (show isSpace 44 = false by decide), if_true, more,
      Option.map_some]
  rw [parse_object_quoted, enough, led]
  rfl

end Members

section Deep

/-- Arrays in one another, `levels + 1` of them. -/
def tower : Nat → Json
  | 0 => .array []
  | levels + 1 => .array [tower levels]

theorem tower_sound (levels : Nat) : (tower levels).Sound (levels + 1) := by
  induction levels with
  | zero => exact .array fun item inside => nomatch inside
  | succ levels ih =>
    apply Json.Sound.array
    intro item inside
    rw [List.mem_singleton.mp inside]
    exact ih

theorem tower_depth (levels : Nat) : (tower levels).depth = levels + 1 := by
  induction levels with
  | zero => rfl
  | succ levels ih => rw [tower, Json.depth, Json.itemsDepth, ih, Json.itemsDepth, Nat.max_zero]

end Deep

end Figwal.Lib
