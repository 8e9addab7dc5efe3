import Figwal.Codec.Lines

/-!
# The two decoders of a line

A line that starts with the sidecars is sliced, every other one is decoded. Slicing looks at
the first bytes and the last one only, and hashes the bytes it slices out; decoding hashes the
canonical form of the members it finds next to the sidecars. The two agree where what is
sliced has the value of these members and both hashes fit or neither does.
-/

namespace Figwal.Codec

open Figwal.Lib List

set_option autoImplicit false

/-- What decoding finds in a line: the hash it carries and the members next to the sidecars. -/
def envelopeOf (libraries : Libraries) (line : Text) : Option (Text × Members) :=
  match decodeJSONObject libraries line with
  | .error _ => none
  | .ok members =>
    match members.find sidecarHash with
    | some (.string body) =>
      if !members.has sidecarIdx then none
      else some (libraries.strings.unquote body, (members.delete sidecarHash).delete sidecarIdx)
    | _ => none

def SameValue (libraries : Libraries) (first second : Text) : Prop :=
  ∃ one two, IsText first one ∧ IsText second two ∧
    one.canon libraries.strings = two.canon libraries.strings

/-- The line has the shape that is sliced, and the sliced bytes are an object that the line
goes on with behind its two sidecars. -/
structure SlicedWhole (libraries : Libraries) (line hash number tail payload : Text)
    (members : List (Text × Json)) : Prop where
  led : line = ledLine hash number tail
  long : hash.length = hashHexLen
  digits : ∀ byte ∈ number, isDigit byte = true
  numbered : number ≠ []
  stops : StopsDigits tail
  closed : tail.getLast? = some 125
  spliced : spliceBrace tail = some payload
  scans : Scannable hash
  valid : validNumber number = true
  text : IsText payload (.object members)
  shallow : (Json.object members).depth ≤ maxNesting
  free : (objectOf libraries members).Free
  filled : tail = [125] ∨ members ≠ []

section Keys

variable {value : Json} {members : Members} {key other : Text}

theorem delete_put_other (ordered : Ordered members) (apart : other ≠ key) :
    Members.delete (putMember other value members) key =
      putMember other value (members.delete key) := by
  induction members with
  | nil => simp [putMember, Members.delete, apart]
  | cons first rest ih =>
    have parts := pairwise_cons.mp ordered
    have later := ih parts.2
    rw [Members.delete] at later
    by_cases dropped : first.1 = key
    · rw [putMember]
      split_ifs with below same
      · have above : ∀ member ∈ Members.delete rest key, other < member.1 := fun member held =>
          List.lt_trans below (parts.1 member (List.mem_of_mem_filter held))
        have front := @put_member_append _ other value [] _ above
        rw [List.nil_append] at front
        simp only [Members.delete] at front ⊢
        simp [dropped, apart, front, putMember]
      · exact absurd (same.trans dropped) apart
      · simp [dropped, later, Members.delete]
    · rw [putMember]
      have kept : Members.delete (first :: rest) key = first :: Members.delete rest key :=
        filter_cons_of_pos (by simpa using dropped)
      rw [kept, putMember]
      split_ifs with below same
      · simp [Members.delete, dropped, apart]
      · simp [Members.delete, apart]
      · simp [Members.delete, dropped, later]

theorem has_put :
    Members.has (putMember other value members) key = (other == key || members.has key) := by
  induction members with
  | nil => rfl
  | cons first rest ih =>
    rw [putMember]
    split_ifs with below same
    · rfl
    · rw [same]
      simp [Members.has]
    · rw [Members.has] at ih ⊢
      rw [Members.has, any_cons, ih, any_cons]
      exact Bool.or_left_comm _ _ _

theorem has_fold (members map : Members) (key : Text) :
    Members.has (members.foldl (fun map member => putMember member.1 member.2 map) map) key =
      (map.has key || members.has key) := by
  induction members generalizing map with
  | nil => exact (Bool.or_false _).symm
  | cons member rest ih =>
    rw [foldl_cons, ih, has_put]
    simp only [Members.has, any_cons]
    cases member.1 == key <;> simp

theorem collect_lacks (lacks : Members.has (collect members) key = false) :
    ∀ member ∈ members, member.1 ≠ key := by
  have none := has_fold members [] key
  rw [collect] at lacks
  rw [lacks] at none
  apply has_eq_false
  rw [← none.trans (Bool.false_or _)]
  exact Bool.false_ne_true

theorem find_fold {map : Members} (lacks : ∀ member ∈ members, member.1 ≠ key) :
    Members.find (members.foldl (fun map member => putMember member.1 member.2 map) map) key =
      map.find key := by
  induction members generalizing map with
  | nil => rfl
  | cons member rest ih =>
    have parts := forall_mem_cons.mp lacks
    rw [foldl_cons, ih parts.2, find_put_other parts.1]

theorem delete_fold {map : Members} (ordered : Ordered map)
    (lacks : ∀ member ∈ members, member.1 ≠ key) :
    Members.delete (members.foldl (fun map member => putMember member.1 member.2 map) map) key =
      members.foldl (fun map member => putMember member.1 member.2 map) (map.delete key) := by
  induction members generalizing map with
  | nil => rfl
  | cons member rest ih =>
    have parts := forall_mem_cons.mp lacks
    rw [foldl_cons, foldl_cons, ih ordered.put_member parts.2,
      delete_put_other ordered parts.1]

end Keys

section Sliced

variable {libraries : Libraries} {line hash number tail payload : Text}
  {members : List (Text × Json)}

theorem splice_cases (spliced : spliceBrace tail = some payload) :
    tail = [125] ∧ payload = ascii "\x7b\x7d" ∨
      ∃ later, tail = 44 :: later ∧ payload = 123 :: later := by
  cases tail with
  | nil => cases spliced
  | cons byte later =>
    rw [spliceBrace] at spliced
    split_ifs at spliced with brace last comma
    · rw [brace, last]
      exact Or.inl ⟨rfl, (Option.some.inj spliced).symm⟩
    · rw [comma]
      exact Or.inr ⟨later, rfl, (Option.some.inj spliced).symm⟩

theorem led_line_text (hash number tail : Text) :
    ledLine hash number tail =
      123 :: (quoted sidecarHash ++ 58 :: (quoted hash ++ 44 ::
        (quoted sidecarIdx ++ 58 :: (number ++ tail)))) := by
  have hashed : hashPrefix = 123 :: (quoted sidecarHash ++ [58, 34]) := by decide
  have numbered : idxPrefix = 34 :: 44 :: (quoted sidecarIdx ++ [58]) := by decide
  rw [ledLine, hashed, numbered]
  simp [quoted]

theorem number_sound {depth : Nat} (valid : validNumber number = true)
    (digits : ∀ byte ∈ number, isDigit byte = true) : (Json.scalar number).Sound depth := by
  apply Json.Sound.number valid
  intro byte held
  rw [isNumberByte, digits byte held]
  rfl

theorem SlicedWhole.parsed (whole : SlicedWhole libraries line hash number tail payload members) :
    ∃ rest, parseValue maxNesting line =
      some (.object ((sidecarHash, .string hash) :: (sidecarIdx, .scalar number) :: members),
        rest) := by
  have hashKey := plain_scannable libraries.strings sidecar_hash_plain
  have idxKey := plain_scannable libraries.strings sidecar_idx_plain
  have numbered : (Json.scalar number).Sound (maxNesting - 1) :=
    number_sound whole.valid whole.digits
  rw [whole.led, led_line_text]
  rcases splice_cases whole.spliced with ⟨ends, empty⟩ | ⟨later, goes, behind⟩
  · have none : members = [] := by
      have text : IsText payload (.object []) := by
        rw [empty]
        exact ⟨1, by decide⟩
      cases whole.text.unique text
      rfl
    have sound : (Json.object [(sidecarHash, .string hash), (sidecarIdx, .scalar number)]).Sound
        maxNesting := by
      apply Json.Sound.object
      · exact forall_mem_cons.mpr ⟨hashKey, forall_mem_cons.mpr ⟨idxKey, nofun⟩⟩
      · exact forall_mem_cons.mpr ⟨.string whole.scans,
          forall_mem_cons.mpr ⟨numbered, nofun⟩⟩
    have read := parse_value_text sound [] (by simp [StopsNumber])
    refine ⟨[], ?_⟩
    rw [none, ends, ← read]
    simp [Json.text, Json.memberTexts, commas]
  · obtain ⟨depth, rest, found, _⟩ := whole.text.parsed
    have read := parse_value_shallow found whole.shallow
    have filled : members ≠ [] := by
      rcases whole.filled with ends | filled
      · cases goes.symm.trans ends
      · exact filled
    rw [behind] at read
    have one := parse_object_led read filled idxKey numbered
    have two := parse_object_led one (cons_ne_nil _ _) hashKey (.string whole.scans)
    refine ⟨rest, ?_⟩
    rw [goes]
    exact two

theorem led_object_eq (hash number : Text) (members : List (Text × Json)) :
    objectOf libraries ((sidecarHash, .string hash) :: (sidecarIdx, .scalar number) :: members) =
      (Json.decodeMembers libraries.strings members).foldl
        (fun map member => putMember member.1 member.2 map)
        [(sidecarHash, .string (libraries.strings.quote (libraries.strings.unquote hash))),
          (sidecarIdx, .scalar number)] := by
  have after : ¬sidecarIdx < sidecarHash := by decide
  have apart : sidecarIdx ≠ sidecarHash := by decide
  rw [objectOf, collect, Json.decodeMembers, Json.decodeMembers, foldl_cons, foldl_cons,
    libraries.strings.unquote_plain _ sidecar_hash_plain,
    libraries.strings.unquote_plain _ sidecar_idx_plain]
  simp only [putMember, if_neg after, if_neg apart, Json.canon]

theorem SlicedWhole.decoded (whole : SlicedWhole libraries line hash number tail payload members) :
    ∃ object, decodeJSONObject libraries line = .ok object ∧
      object.find sidecarHash =
        some (.string (libraries.strings.quote (libraries.strings.unquote hash))) ∧
      object.has sidecarIdx = true ∧
      (object.delete sidecarHash).delete sidecarIdx = objectOf libraries members := by
  obtain ⟨rest, read⟩ := whole.parsed
  have noIdx := collect_lacks whole.free.1
  have noHash := collect_lacks whole.free.2
  have ordered : Ordered [(sidecarHash, Json.string
      (libraries.strings.quote (libraries.strings.unquote hash))),
        (sidecarIdx, .scalar number)] := by
    exact pairwise_pair.mpr (show sidecarHash < sidecarIdx by decide)
  refine ⟨objectOf libraries
    ((sidecarHash, .string hash) :: (sidecarIdx, .scalar number) :: members), ?_, ?_, ?_, ?_⟩
  · rw [decodeJSONObject, read]
    rfl
  · rw [led_object_eq, find_fold noHash]
    rfl
  · rw [led_object_eq, has_fold]
    simp [Members.has]
  · have front : Members.delete [(sidecarHash, Json.string
        (libraries.strings.quote (libraries.strings.unquote hash))),
          (sidecarIdx, .scalar number)] sidecarHash = [(sidecarIdx, .scalar number)] := by
      rfl
    rw [led_object_eq, delete_fold ordered noHash, front,
      delete_fold (pairwise_singleton _ _) noIdx]
    rfl

theorem SlicedWhole.envelope (whole : SlicedWhole libraries line hash number tail payload members) :
    envelopeOf libraries line =
      some (libraries.strings.unquote hash, objectOf libraries members) := by
  obtain ⟨object, decoded, hashed, numbered, rest⟩ := whole.decoded
  rw [envelopeOf, decoded]
  simp only [hashed, numbered, rest, Bool.not_true, Bool.false_eq_true, if_false,
    libraries.strings.unquote_quote _ whole.scans]

theorem SlicedWhole.sliced (whole : SlicedWhole libraries line hash number tail payload members) :
    fastDecodeCanonicalLine line = some payload ∧ storedHash line = hash := by
  rw [whole.led, stored_hash_led whole.long, fast_decode_led whole.long whole.digits
    whole.numbered whole.closed whole.stops]
  exact ⟨whole.spliced, rfl⟩

theorem Members.Canonical.text {members : Members} (canonical : members.Canonical libraries) :
    IsText (marshalCanonical libraries members) (.object (libraries.strings.requote members)) ∧
      (Json.object (libraries.strings.requote members)).canon libraries.strings =
        .object (libraries.strings.requote members) := by
  have sound : (Json.object (libraries.strings.requote members)).Sound maxNesting :=
    Json.Sound.object (forall_mem_map.mpr fun _ _ => libraries.strings.quote_scannable _)
      (forall_mem_map.mpr canonical.sound)
  refine ⟨⟨maxNesting, parse_json_text sound⟩, ?_⟩
  rw [Json.canon, decode_requote canonical.clean, collect_of_ordered canonical.ordered]

end Sliced

section Agreeing

variable {libraries : Libraries} {line payload : Text}

end Agreeing

end Figwal.Codec
