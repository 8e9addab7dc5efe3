import Figwal.Xwal.FrameContent

/-!
# The scanner on printed frames

Where the scanner accepts a frame it returns the fields the general decoder returns. It
passes over frames with a negative timestamp and over those with cursors.
-/

namespace Figwal.Frame

open Figwal.Lib Figwal.Codec

set_option autoImplicit false

section Fields

variable {content : Content}

theorem fast_number_decimal {limit number : Nat} (fits : number ≤ limit) (members : Members) :
    fastNumber limit (decimal number ++ tailText members) = some (number, tailText members) := by
  have filled := List.length_pos_of_ne_nil (decimal_ne_nil number)
  have shorter : ¬(tailText members).length = (decimal number ++ tailText members).length := by
    rw [List.length_append]
    omega
  rw [fastNumber, read_bounded_decimal fits (tail_stops members)]
  exact if_neg shorter

theorem fast_number_negative (limit : Nat) (rest : Text) :
    fastNumber limit (45 :: rest) = none := by
  have read : readBounded limit 0 (45 :: rest) = some (0, 45 :: rest) := by
    simp [readBounded, isDigit]
  rw [fastNumber, read]
  exact if_pos rfl

theorem fast_payload_body (fits : content.Fits) (rest : Members) :
    fastPayload (tailText (content.body.member :: rest)) =
      some (content.body.payload, tailText rest) := by
  have sound := fits.body
  rw [fastPayload, lead_value, lead_encoded]
  cases shape : content.body with
  | value json =>
    rw [shape] at sound
    rw [Body.member, tail_text_cons, after_self]
    exact json_value_end_text sound (tail_ends rest)
  | encoded payload =>
    rw [shape] at sound
    have other := after_other keys_scannable.2.1 keys_scannable.2.2.1 (by decide)
      ((Json.string (base64Encode payload)).text ++ tailText rest)
    have found := json_value_end_text sound (tail_ends rest)
    rw [Body.member] at found
    rw [Body.member, tail_text_cons, other, after_self]
    simp only [found]
    have last : (34 :: (base64Encode payload ++ [34])).getLast? = some 34 := by
      rw [← List.cons_append]
      exact List.getLast?_concat
    simp [Json.text, quoted, base64_decode_encode, Body.payload, last]

theorem fast_meta_found (fits : content.Fits) {value : Text}
    (found : fastMeta (tailText (content.metaPart ++ content.cursorPart)) = some value) :
    value = content.metaText := by
  rw [fastMeta, lead_meta, Content.metaPart, Content.cursorPart] at found
  rw [Content.metaText]
  cases shape : content.metadata with
  | none =>
    rw [shape] at found
    cases held : content.cursors with
    | none =>
      rw [held] at found
      have none_left := after_end keyX
      simp [tailText, none_left] at found
    | some json =>
      rw [held] at found
      have other := after_other keys_scannable.2.2.2.2.1 keys_scannable.2.2.2.2.2 (by decide)
        (json.text ++ tailText [])
      simp [tail_text_cons, other] at found
  | some json =>
    have sound := fits.metadata json shape
    have scanned := json_value_end_text sound (tail_ends content.cursorPart)
    obtain ⟨first, later, cons⟩ := List.exists_cons_of_ne_nil (text_ne_nil sound)
    rw [Content.cursorPart] at scanned
    rw [shape] at found
    simp only [Option.toList_some, List.map_cons, List.map_nil, List.cons_append,
      List.nil_append, tail_text_cons, after_self] at found
    rw [cons] at found scanned
    simp only [List.cons_append] at found scanned
    rw [scanned] at found
    split at found
    · rename_i only last
      rw [← Option.some.inj found, ← (Prod.mk.inj (Option.some.inj last)).1]
      exact cons.symm
    · cases found

theorem after_time_missing (content : Content) :
    after (fieldLead keyT) (tailText (content.metaPart ++ content.cursorPart)) = none := by
  have scans := keys_scannable
  rw [Content.metaPart, Content.cursorPart]
  cases content.metadata with
  | none =>
    cases content.cursors with
    | none => exact after_end keyT
    | some json =>
      have other := after_other scans.2.2.2.1 scans.2.2.2.2.2 (by decide)
        (json.text ++ tailText [])
      simpa [tail_text_cons] using other
  | some json =>
    have other := after_other scans.2.2.2.1 scans.2.2.2.2.1 (by decide)
      (json.text ++ tailText (content.cursors.toList.map fun json => (keyC, json)))
    simpa [tail_text_cons] using other

theorem meta_text_of_end (only : tailText (content.metaPart ++ content.cursorPart) = [125]) :
    content.metaText = [] := by
  have none_left := (List.append_eq_nil_iff.mp (tail_text_end only)).1
  rw [Content.metaPart] at none_left
  rw [Content.metaText]
  cases shape : content.metadata with
  | none => rfl
  | some json =>
    rw [shape] at none_left
    cases none_left

theorem fast_tail_found (fits : content.Fits) {tail : Text × Int}
    (found : fastTail (tailText (content.timePart ++ (content.metaPart ++ content.cursorPart))) =
      some tail) : tail = (content.metaText, content.ts) := by
  rw [fastTail, lead_time] at found
  by_cases zero : content.ts = 0
  · rw [Content.timePart, if_pos zero, List.nil_append, after_time_missing] at found
    split_ifs at found with only
    · cases found
      rw [meta_text_of_end only, zero]
    · obtain ⟨value, last, rfl⟩ := Option.map_eq_some_iff.mp found
      rw [fast_meta_found fits last, zero]
  · have filled : tailText (content.timePart ++ (content.metaPart ++ content.cursorPart)) ≠
        [125] := by
      intro only
      have empty := (List.append_eq_nil_iff.mp (tail_text_end only)).1
      rw [Content.timePart, if_neg zero] at empty
      cases empty
    rw [if_neg filled, Content.timePart, if_neg zero, List.cons_append, List.nil_append,
      tail_text_cons, after_self, Json.text] at found
    by_cases negative : content.ts < 0
    · rw [integer, if_pos negative, List.cons_append] at found
      simp only [fast_number_negative] at found
      cases found
    · have small : content.ts.natAbs ≤ maxInt64 := by
        have high := fits.high
        omega
      have back : (content.ts.natAbs : Int) = content.ts := by omega
      have read := fast_number_decimal small (content.metaPart ++ content.cursorPart)
      obtain ⟨first, later, cons⟩ := List.exists_cons_of_ne_nil (decimal_ne_nil content.ts.natAbs)
      rw [integer, if_neg negative] at found
      rw [cons] at found read
      simp only [List.cons_append] at found read
      rw [read] at found
      simp only [back] at found
      split_ifs at found with only
      · cases found
        rw [meta_text_of_end only]
      · obtain ⟨value, last, rfl⟩ := Option.map_eq_some_iff.mp found
        rw [fast_meta_found fits last]

end Fields

section Whole

theorem emitted_text (content : Content) :
    (Json.object content.emitted).text = ascii "\x7b\"m\":" ++ (decimal content.mainLT ++
      tailText (content.body.member ::
        (content.timePart ++ (content.metaPart ++ content.cursorPart)))) := by
  rw [Content.emitted, Content.leading, List.cons_append, List.cons_append, List.append_assoc,
    object_text, lead_main]
  simp [Json.text]

theorem fast_main_emitted {content : Content} (fits : content.Fits)
    (valid : (parseJson maxNesting (Json.object content.emitted).text).isSome = true) :
    fastDecodeMainLT (Json.object content.emitted).text = some content.mainLT := by
  rw [fastDecodeMainLT]
  simp only [Option.isSome_iff_ne_none.mp valid, Option.isNone_iff_eq_none, or_false]
  rw [emitted_text, after_self]
  simp only [List.append_eq_nil_iff, decimal_ne_nil, false_and, if_false,
    fast_number_decimal fits.mainLT]
  rfl

theorem fast_frame_emitted {content : Content} (fits : content.Fits) {fast : Fast}
    (found : fastDecodeFrame (Json.object content.emitted).text = some fast) :
    fast = ⟨content.mainLT, content.body.payload, content.metaText, content.ts⟩ := by
  rw [fastDecodeFrame] at found
  split at found
  · cases found
  · rename_i rest leads
    rw [emitted_text, after_self] at leads
    cases leads
    split_ifs at found
    rw [fast_number_decimal fits.mainLT] at found
    simp only [fast_payload_body fits] at found
    obtain ⟨tail, last, rfl⟩ := Option.map_eq_some_iff.mp found
    rw [fast_tail_found fits last]

/-- A frame that starts with its cursors is left to the general decoder. -/
theorem after_main_cursors (json : Json) (rest : Members) :
    after (ascii "\x7b\"m\":") (Json.object ((keyC, json) :: rest)).text = none := by
  rw [after, if_neg]
  intro leads
  rw [List.isPrefixOf_iff_prefix, lead_main, object_text, List.cons_prefix_cons] at leads
  have same := quoted_unique keys_scannable.2.2.2.2.2 keys_scannable.1
    ((List.prefix_append _ _).trans leads.2)
  exact absurd same (by decide)

end Whole

end Figwal.Frame
