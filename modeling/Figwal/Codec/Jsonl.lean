import Figwal.Lib.JsonCanon

/-!
# The JSONL codec

One flat JSON object per line: the payload's members next to the index and the hash of the
payload, in the order of their keys. Reading a line slices the payload out of it where the
two sidecar keys lead the line, and decodes it otherwise. Either way the payload comes back
in its canonical form.

The strings of the JSON library and the hash are parameters.
-/

namespace Figwal.Codec

open Figwal.Lib List

set_option autoImplicit false

inductive FrameErr where
  | corrupt
  | notJSON
  | notObject
  | reservedKey
  deriving DecidableEq, Repr

/-- `hashCanonical`: sixteen hexadecimal digits. -/
structure Digest where
  hashCanonical : Text → Text
  hash_length : ∀ canon, (hashCanonical canon).length = 16
  hash_plain : ∀ canon, (hashCanonical canon).all isPlain = true

structure Libraries where
  strings : StringCodec
  digest : Digest

def maxNesting : Nat := 10000

def sidecarIdx : Text := ascii "_idx"

def sidecarHash : Text := ascii "_hash"

def hashHexLen : Nat := 16

def hashPrefix : Text := ascii "\x7b\"_hash\":\""

def idxPrefix : Text := ascii "\",\"_idx\":"

/-- A decoded object: its keys in order, each with the canonical form of its value. -/
abbrev Members := List (Text × Json)

def Members.has (members : Members) (key : Text) : Bool :=
  members.any fun member => member.1 == key

def Members.find (members : Members) (key : Text) : Option Json :=
  (members.find? fun member => member.1 == key).map Prod.snd

def Members.delete (members : Members) (key : Text) : Members :=
  members.filter fun member => member.1 != key

section Lines

variable (libraries : Libraries)

def decodeJSONObject (payload : Text) : Except FrameErr Members :=
  match parseValue maxNesting payload with
  | none => .error .notJSON
  | some (.object members, _) => .ok (collect (Json.decodeMembers libraries.strings members))
  | some _ => .error .notObject

def marshalCanonical (members : Members) : Text :=
  (Json.object (libraries.strings.requote members)).text

def envelope (idx : Nat) (members : Members) : Members :=
  putMember sidecarHash
    (.string (libraries.digest.hashCanonical (marshalCanonical libraries members)))
    (putMember sidecarIdx (.scalar (decimal idx)) members)

def frame (idx : Nat) (payload : Text) : Except FrameErr Text :=
  match decodeJSONObject libraries payload with
  | .error err => .error err
  | .ok members =>
    if members.has sidecarIdx then .error .reservedKey
    else if members.has sidecarHash then .error .reservedKey
    else .ok (marshalCanonical libraries (envelope libraries idx members) ++ [10])

/-- The payload behind the index: the comma before its first key becomes a brace. -/
def spliceBrace : Text → Option Text
  | [] => none
  | byte :: later =>
    if byte = 125 then if later = [] then some (ascii "\x7b\x7d") else none
    else if byte = 44 then some (123 :: later)
    else none

def fastDecodeCanonicalLine (line : Text) : Option Text :=
  if line.length < hashPrefix.length + hashHexLen + idxPrefix.length + 1 + 1 then none
  else if ¬hashPrefix.isPrefixOf line then none
  else
    let behindHash := line.drop (hashPrefix.length + hashHexLen)
    if ¬idxPrefix.isPrefixOf behindHash then none
    else
      let numeral := behindHash.drop idxPrefix.length
      if numeral.takeWhile isDigit = [] then none
      else if line.getLast? ≠ some 125 then none
      else spliceBrace (numeral.dropWhile isDigit)

def slowDecodeJSONLLine (line : Text) (verify : Bool) : Except FrameErr Text :=
  match decodeJSONObject libraries line with
  | .error _ => .error .corrupt
  | .ok members =>
    match members.find sidecarHash with
    | some (.string body) =>
      if !members.has sidecarIdx then .error .corrupt
      else
        let payload := marshalCanonical libraries
          ((members.delete sidecarHash).delete sidecarIdx)
        if verify && libraries.digest.hashCanonical payload != libraries.strings.unquote body then
          .error .corrupt
        else .ok payload
    | _ => .error .corrupt

def storedHash (line : Text) : Text :=
  if hashPrefix.isPrefixOf line && hashPrefix.length + hashHexLen ≤ line.length then
    (line.drop hashPrefix.length).take hashHexLen
  else []

def trimNewline (line : Text) : Text :=
  if line.getLast? = some 10 then line.dropLast else line

def decodeJSONLLine (line : Text) (verify : Bool) : Except FrameErr Text :=
  let line := trimNewline line
  match fastDecodeCanonicalLine line with
  | some payload =>
    if verify && libraries.digest.hashCanonical payload != storedHash line then .error .corrupt
    else .ok payload
  | none => slowDecodeJSONLLine libraries line verify

end Lines

structure Members.Canonical (libraries : Libraries) (members : Members) : Prop where
  ordered : Ordered members
  clean : ∀ member ∈ members,
    libraries.strings.Clean member.1 ∧ member.2.canon libraries.strings = member.2
  sound : ∀ member ∈ members, member.2.Sound (maxNesting - 1)

section Objects

variable {libraries : Libraries} {members : Members} {key : Text}

theorem decode_canonical {payload : Text}
    (decoded : decodeJSONObject libraries payload = .ok members) : members.Canonical libraries := by
  rw [decodeJSONObject] at decoded
  split at decoded
  · cases decoded
  · rename_i written rest read
    cases decoded
    have sound := parse_value_sound read
    cases sound with
    | object keys inside =>
      refine ⟨collect_ordered _, fun member held => ?_, fun member held => ?_⟩
      · have source := mem_collect held
        rw [decode_members_eq] at source
        rcases mem_map.mp source with ⟨one, there, rfl⟩
        exact ⟨libraries.strings.unquote_quote _ (keys one there),
          (inside one there).canon_canon⟩
      · have source := mem_collect held
        rw [decode_members_eq] at source
        rcases mem_map.mp source with ⟨one, there, rfl⟩
        exact (inside one there).canon
  · cases decoded

theorem decode_marshal (canonical : members.Canonical libraries) (rest : Text)
    (stops : StopsNumber rest) :
    decodeJSONObject libraries (marshalCanonical libraries members ++ rest) = .ok members := by
  have sound : (Json.object (libraries.strings.requote members)).Sound maxNesting := by
    refine Json.Sound.object (forall_mem_map.mpr fun _ _ =>
      libraries.strings.quote_scannable _) (forall_mem_map.mpr canonical.sound)
  rw [decodeJSONObject, marshalCanonical, parse_value_text sound rest stops]
  simp only
  rw [decode_requote canonical.clean, collect_of_ordered canonical.ordered]

theorem has_eq_false (lacks : ¬members.has key) : ∀ member ∈ members, member.1 ≠ key := by
  intro member held same
  exact lacks (any_eq_true.mpr ⟨member, held, by simp [same]⟩)

theorem find_put_other {other : Text} {value : Json} (apart : other ≠ key) :
    Members.find (putMember other value members) key = members.find key := by
  have passed : (other == key) = false := by simpa using apart
  induction members with
  | nil => simp [putMember, Members.find, passed]
  | cons first rest ih =>
    rw [putMember]
    split_ifs with below same
    · simp [Members.find, passed]
    · simp [Members.find, passed, ← same]
    · rw [Members.find] at ih ⊢
      rw [Members.find, find?_cons, find?_cons]
      cases first.1 == key with
      | true => rfl
      | false => exact ih

theorem plain_clean (strings : StringCodec) (plain : key.all isPlain = true) :
    strings.Clean key := by
  rw [StringCodec.Clean, strings.quote_plain key plain, strings.unquote_plain key plain]

theorem Members.Canonical.put (canonical : members.Canonical libraries) {value : Json}
    (plain : key.all isPlain = true) (same : value.canon libraries.strings = value)
    (sound : value.Sound (maxNesting - 1)) :
    Members.Canonical libraries (putMember key value members) := by
  refine ⟨canonical.ordered.put_member, fun member held => ?_, fun member held => ?_⟩
  · rcases mem_put_member held with new | old
    · rw [new]
      exact ⟨plain_clean _ plain, same⟩
    · exact canonical.clean member old
  · rcases mem_put_member held with new | old
    · rw [new]
      exact sound
    · exact canonical.sound member old

theorem plain_scannable (strings : StringCodec) {body : Text} (plain : body.all isPlain = true) :
    Scannable body := by
  have scans := strings.quote_scannable body
  rwa [strings.quote_plain body plain] at scans

theorem envelope_canonical (canonical : members.Canonical libraries) (idx : Nat) :
    (envelope libraries idx members).Canonical libraries := by
  have plain := libraries.digest.hash_plain (marshalCanonical libraries members)
  have key : sidecarIdx.all isPlain = true := by decide
  have numbered := canonical.put key rfl (decimal_sound _ idx)
  refine numbered.put (by decide) ?_ (.string (plain_scannable libraries.strings plain))
  rw [Json.canon, libraries.strings.unquote_plain _ plain, libraries.strings.quote_plain _ plain]

theorem envelope_split (canonical : members.Canonical libraries)
    (noIdx : ∀ member ∈ members, member.1 ≠ sidecarIdx)
    (noHash : ∀ member ∈ members, member.1 ≠ sidecarHash) (idx : Nat) :
    ∃ low mid high, members = low ++ (mid ++ high) ∧
      envelope libraries idx members = low ++
        (sidecarHash, .string (libraries.digest.hashCanonical (marshalCanonical libraries members)))
          ::
          (mid ++ (sidecarIdx, .scalar (decimal idx)) :: high) ∧
      (∀ member ∈ low, member.1 < sidecarHash) ∧ ∀ member ∈ mid, member.1 < sidecarIdx := by
  have order : sidecarHash < sidecarIdx := by decide
  rcases @put_member_split _ sidecarIdx (.scalar (decimal idx)) members canonical.ordered noIdx with
    ⟨early, high, split, putIdx, below, above⟩
  have later : ∀ member ∈ (sidecarIdx, Json.scalar (decimal idx)) :: high,
      sidecarHash < member.1 :=
    List.forall_mem_cons.mpr ⟨order, fun member held => List.lt_trans order (above member held)⟩
  have ordered : Ordered early := (List.pairwise_append.mp (split ▸ canonical.ordered)).1
  rcases @put_member_split _ sidecarHash
      (.string (libraries.digest.hashCanonical (marshalCanonical libraries members))) early ordered
      (fun member held => noHash member (split ▸ mem_append_left _ held)) with
    ⟨low, mid, parts, putHash, lower, _⟩
  refine ⟨low, mid, high, ?_, ?_, lower, fun member held => below member ?_⟩
  · rw [split, parts, append_assoc]
  · rw [envelope, putIdx, put_member_append later, putHash, append_assoc]
    rfl
  · rw [parts]
    exact mem_append_right _ held

def memberText (libraries : Libraries) (member : Text × Json) : Text :=
  quoted (libraries.strings.quote member.1) ++ 58 :: member.2.text

theorem marshal_eq (members : Members) :
    marshalCanonical libraries members =
      123 :: (commas (members.map (memberText libraries)) ++ [125]) := by
  rw [marshalCanonical, Json.text, member_texts_eq, StringCodec.requote, map_map]
  rfl

theorem sidecar_hash_plain : sidecarHash.all isPlain = true := by decide

theorem sidecar_idx_plain : sidecarIdx.all isPlain = true := by decide

theorem hash_text (hash : Text) :
    memberText libraries (sidecarHash, .string hash) = quoted sidecarHash ++ 58 :: quoted hash := by
  rw [memberText, libraries.strings.quote_plain _ sidecar_hash_plain]
  rfl

theorem idx_text (idx : Nat) :
    memberText libraries (sidecarIdx, .scalar (decimal idx)) =
      quoted sidecarIdx ++ 58 :: decimal idx := by
  rw [memberText, libraries.strings.quote_plain _ sidecar_idx_plain]
  rfl

theorem key_of_text {sidecar rest : Text} (clean : libraries.strings.Clean key)
    (plain : sidecar.all isPlain = true)
    (leads : quoted sidecar <+: quoted (libraries.strings.quote key) ++ rest) : key = sidecar := by
  have same := quoted_unique (libraries.strings.quote_scannable key)
    (plain_scannable libraries.strings plain) leads
  rw [← clean, ← same, libraries.strings.unquote_plain _ plain]

end Objects

section Slicing

variable {libraries : Libraries}

def ledLine (hash number tail : Text) : Text :=
  hashPrefix ++ (hash ++ (idxPrefix ++ (number ++ tail)))

theorem stored_hash_led {hash number tail : Text} (length : hash.length = hashHexLen) :
    storedHash (ledLine hash number tail) = hash := by
  have leads : hashPrefix.isPrefixOf (ledLine hash number tail) = true :=
    List.isPrefixOf_iff_prefix.mpr (List.prefix_append _ _)
  have long : hashPrefix.length + hashHexLen ≤ (ledLine hash number tail).length := by
    rw [ledLine, length_append, length_append]
    omega
  rw [storedHash, leads, Bool.true_and, if_pos (decide_eq_true long), ledLine, drop_left,
    ← length, take_left]

theorem fast_decode_led {hash number tail : Text} (length : hash.length = hashHexLen)
    (digits : ∀ byte ∈ number, isDigit byte = true) (numbered : number ≠ [])
    (closed : tail.getLast? = some 125) (stops : StopsDigits tail) :
    fastDecodeCanonicalLine (ledLine hash number tail) = spliceBrace tail := by
  have filled : tail ≠ [] := by
    rintro rfl
    cases closed
  have long : ¬(ledLine hash number tail).length <
      hashPrefix.length + hashHexLen + idxPrefix.length + 1 + 1 := by
    have one := length_pos_of_ne_nil numbered
    have two := length_pos_of_ne_nil filled
    simp only [ledLine, length_append]
    omega
  have leads : hashPrefix.isPrefixOf (ledLine hash number tail) = true :=
    List.isPrefixOf_iff_prefix.mpr (List.prefix_append _ _)
  have behind : (ledLine hash number tail).drop (hashPrefix.length + hashHexLen) =
      idxPrefix ++ (number ++ tail) := by
    rw [ledLine, ← append_assoc, ← length, ← length_append, drop_left]
  have follows : idxPrefix.isPrefixOf (idxPrefix ++ (number ++ tail)) = true :=
    List.isPrefixOf_iff_prefix.mpr (List.prefix_append _ _)
  have taken : (number ++ tail).takeWhile isDigit = number := by
    rw [takeWhile_append_of_pos digits]
    cases tail with
    | nil => exact absurd rfl filled
    | cons byte later => simp [stops byte rfl]
  have dropped : (number ++ tail).dropWhile isDigit = tail := by
    rw [dropWhile_append_of_pos digits]
    cases tail with
    | nil => rfl
    | cons byte later => simp [stops byte rfl]
  have last : (ledLine hash number tail).getLast? = some 125 := by
    simp only [ledLine, getLast?_append, closed, Option.some_or]
  rw [fastDecodeCanonicalLine, if_neg long]
  simp only [leads, behind, follows, not_true_eq_false, if_false, drop_left, taken, numbered,
    last, ne_eq, dropped]

/-- The payload of a line that starts with the sidecars is sliced out of it. -/
theorem fast_decode_envelope {hash : Text} (length : hash.length = hashHexLen) (idx : Nat)
    (high : Members) :
    ∃ tail, marshalCanonical libraries
        ((sidecarHash, .string hash) :: (sidecarIdx, .scalar (decimal idx)) :: high) =
          ledLine hash (decimal idx) tail ∧
      fastDecodeCanonicalLine (ledLine hash (decimal idx) tail) =
        some (marshalCanonical libraries high) := by
  have digits := decimal_digits idx
  have numbered := decimal_ne_nil idx
  have front : 123 :: (quoted sidecarHash ++ 58 :: quoted hash) ++ 44 :: quoted sidecarIdx ++ [58] =
      hashPrefix ++ (hash ++ idxPrefix) := by
    have shape : hashPrefix = 123 :: quoted sidecarHash ++ [58, 34] := by decide
    have other : idxPrefix = 34 :: 44 :: quoted sidecarIdx ++ [58] := by decide
    rw [shape, other]
    simp [quoted]
  cases high with
  | nil =>
    refine ⟨[125], ?_, ?_⟩
    · rw [marshal_eq, map_cons, map_cons, map_nil, hash_text, idx_text, commas,
        commas, ledLine, ← append_assoc hash, ← append_assoc hashPrefix, ← front]
      simp
    · rw [fast_decode_led length digits numbered rfl (by rintro _ ⟨⟩; decide)]
      rfl
  | cons member later =>
    refine ⟨44 :: (commas ((member :: later).map (memberText libraries)) ++ [125]), ?_, ?_⟩
    · rw [marshal_eq, map_cons, map_cons, hash_text, idx_text,
        commas_cons _ _ (by simp), commas_cons _ _ (by simp), ledLine, ← append_assoc hash,
        ← append_assoc hashPrefix, ← front]
      simp
    · rw [fast_decode_led length digits numbered
        (by rw [← cons_append]; exact getLast?_concat)
        (by rintro _ ⟨⟩; decide), marshal_eq]
      rfl

theorem commas_first (member : Text × Json) (later : Members) :
    ∃ rest, commas ((member :: later).map (memberText libraries)) ++ [125] =
      quoted (libraries.strings.quote member.1) ++ rest := by
  cases later with
  | nil => exact ⟨58 :: member.2.text ++ [125], by simp [commas, memberText]⟩
  | cons next more =>
    rw [map_cons, commas_cons _ _ (by simp), memberText, append_assoc, append_assoc]
    exact ⟨_, rfl⟩

theorem fast_decode_other {member : Text × Json} {later : Members}
    (clean : libraries.strings.Clean member.1) (other : member.1 ≠ sidecarHash) :
    fastDecodeCanonicalLine (marshalCanonical libraries (member :: later)) = none := by
  rcases @commas_first libraries member later with ⟨rest, front⟩
  have apart : ¬hashPrefix.isPrefixOf (marshalCanonical libraries (member :: later)) = true := by
    intro leads
    have shape : hashPrefix = 123 :: (quoted sidecarHash ++ [58, 34]) := by decide
    rw [List.isPrefixOf_iff_prefix, marshal_eq, front, shape, List.cons_prefix_cons] at leads
    exact other (key_of_text clean sidecar_hash_plain ((List.prefix_append _ _).trans leads.2))
  rw [fastDecodeCanonicalLine]
  simp only [apart, Bool.false_eq_true, not_false_eq_true, if_true, ite_self]

theorem fast_decode_between {hash : Text} (length : hash.length = hashHexLen)
    {member : Text × Json} {later : Members} (clean : libraries.strings.Clean member.1)
    (other : member.1 ≠ sidecarIdx) :
    fastDecodeCanonicalLine
      (marshalCanonical libraries ((sidecarHash, .string hash) :: member :: later)) = none := by
  rcases @commas_first libraries member later with ⟨rest, front⟩
  have whole : marshalCanonical libraries ((sidecarHash, .string hash) :: member :: later) =
      hashPrefix ++ (hash ++ 34 :: 44 :: (quoted (libraries.strings.quote member.1) ++ rest)) := by
    have shape : hashPrefix = 123 :: (quoted sidecarHash ++ [58, 34]) := by decide
    rw [marshal_eq, map_cons, hash_text, commas_cons _ _ (by simp), append_assoc,
      cons_append, front, shape]
    simp [quoted]
  have behind : (marshalCanonical libraries ((sidecarHash, .string hash) :: member :: later)).drop
      (hashPrefix.length + hashHexLen) =
        34 :: 44 :: (quoted (libraries.strings.quote member.1) ++ rest) := by
    rw [whole, ← append_assoc, ← length, ← length_append, drop_left]
  have apart : ¬idxPrefix.isPrefixOf
      (34 :: 44 :: (quoted (libraries.strings.quote member.1) ++ rest)) = true := by
    intro leads
    have shape : idxPrefix = 34 :: 44 :: (quoted sidecarIdx ++ [58]) := by decide
    rw [List.isPrefixOf_iff_prefix, shape, List.cons_prefix_cons, List.cons_prefix_cons] at leads
    exact other (key_of_text clean sidecar_idx_plain ((List.prefix_append _ _).trans leads.2.2))
  rw [fastDecodeCanonicalLine, behind]
  simp only [apart, Bool.false_eq_true, not_false_eq_true, if_true, ite_self]

end Slicing

section Frames

variable {libraries : Libraries} {value : Json} {members : Members} {key : Text}

theorem find_put (ordered : Ordered members) :
    Members.find (putMember key value members) key = some value := by
  induction members with
  | nil => simp [putMember, Members.find]
  | cons first rest ih =>
    have parts := pairwise_cons.mp ordered
    rw [putMember]
    split_ifs with below same
    · simp [Members.find]
    · simp [Members.find]
    · have apart : (first.1 == key) = false := by simpa using Ne.symm same
      rw [Members.find, find?_cons_of_neg (by simpa using apart)]
      exact ih parts.2

theorem delete_put (ordered : Ordered members) (new : ∀ member ∈ members, member.1 ≠ key) :
    Members.delete (putMember key value members) key = members := by
  rcases @put_member_split _ key value members ordered new with ⟨low, high, split, put, _⟩
  have kept : ∀ part : Members, (∀ member ∈ part, member ∈ members) →
      part.filter (fun member => member.1 != key) = part := fun part inside =>
    filter_eq_self.mpr fun member held => by simpa using new member (inside member held)
  rw [Members.delete, put, filter_append, filter_cons_of_neg (by simp),
    kept low fun member held => split ▸ mem_append_left _ held,
    kept high fun member held => split ▸ mem_append_right _ held, ← split]

theorem put_ne {other : Text} (apart : key ≠ other) (new : ∀ member ∈ members, member.1 ≠ other) :
    ∀ member ∈ putMember key value members, member.1 ≠ other := by
  intro member held
  rcases mem_put_member held with here | old
  · rw [here]
    exact apart
  · exact new member old

section

variable (canonical : members.Canonical libraries)
  (noIdx : ∀ member ∈ members, member.1 ≠ sidecarIdx)
  (noHash : ∀ member ∈ members, member.1 ≠ sidecarHash) (idx : Nat)

include canonical noIdx noHash idx

theorem delete_sidecars :
    ((envelope libraries idx members).delete sidecarHash).delete sidecarIdx = members := by
  rw [envelope, delete_put canonical.ordered.put_member (put_ne (by decide) noHash),
    delete_put canonical.ordered noIdx]

theorem slow_decode_envelope (verify : Bool) :
    slowDecodeJSONLLine libraries (marshalCanonical libraries (envelope libraries idx members))
      verify = .ok (marshalCanonical libraries members) := by
  have plain := libraries.digest.hash_plain (marshalCanonical libraries members)
  have decoded := decode_marshal (envelope_canonical canonical idx) [] (by simp [StopsNumber])
  rw [append_nil] at decoded
  have hash : (envelope libraries idx members).find sidecarHash =
      some (.string (libraries.digest.hashCanonical (marshalCanonical libraries members))) :=
    find_put canonical.ordered.put_member
  have numbered : (envelope libraries idx members).has sidecarIdx = true := by
    rcases envelope_split canonical noIdx noHash idx with ⟨low, mid, high, _, laid, _⟩
    rw [laid]
    simp [Members.has]
  rw [slowDecodeJSONLLine, decoded]
  simp only [hash, numbered, delete_sidecars canonical noIdx noHash,
    libraries.strings.unquote_plain _ plain, Bool.not_true, Bool.false_eq_true, if_false,
    bne_self_eq_false, Bool.and_false]

end

/-- What was framed is read back in its canonical form, sliced or decoded, and the hash it
carries is the payload's. -/
theorem decode_line_frame {payload line : Text} {idx : Nat}
    (decoded : decodeJSONObject libraries payload = .ok members)
    (framed : frame libraries idx payload = .ok line) (verify : Bool) :
    decodeJSONLLine libraries line verify = .ok (marshalCanonical libraries members) := by
  have canonical := decode_canonical decoded
  rw [frame, decoded] at framed
  simp only at framed
  split_ifs at framed with idxTaken hashTaken
  have noIdx := has_eq_false idxTaken
  have noHash := has_eq_false hashTaken
  cases framed
  have trimmed : trimNewline (marshalCanonical libraries (envelope libraries idx members) ++ [10]) =
      marshalCanonical libraries (envelope libraries idx members) := by
    rw [trimNewline, if_pos getLast?_concat, dropLast_concat]
  have slow := slow_decode_envelope canonical noIdx noHash idx verify
  have length := libraries.digest.hash_length (marshalCanonical libraries members)
  have envelopeClean := (envelope_canonical canonical idx).clean
  rcases envelope_split canonical noIdx noHash idx with ⟨low, mid, high, split, laid, lower,
    between⟩
  rw [decodeJSONLLine, trimmed]
  cases low with
  | cons first rest =>
    have other : first.1 ≠ sidecarHash := fun same =>
      List.lt_irrefl _ (same ▸ lower first List.mem_cons_self)
    have clean := (envelopeClean first (by rw [laid]; exact List.mem_cons_self)).1
    have unsliced := fun later => @fast_decode_other libraries first later clean other
    rw [laid] at slow ⊢
    simp only [cons_append, unsliced]
    exact slow
  | nil =>
    cases mid with
    | cons first rest =>
      have other : first.1 ≠ sidecarIdx := fun same =>
        List.lt_irrefl _ (same ▸ between first List.mem_cons_self)
      have clean := (envelopeClean first (by rw [laid]; simp)).1
      have unsliced := fun later => @fast_decode_between libraries _ length first later clean other
      rw [laid] at slow ⊢
      simp only [nil_append, cons_append, unsliced]
      exact slow
    | nil =>
      have whole : high = members := split.symm
      rw [whole] at laid
      rcases @fast_decode_envelope libraries _ length idx members with ⟨tail, printed, sliced⟩
      rw [laid]
      simp only [nil_append, printed, sliced, stored_hash_led length, bne_self_eq_false,
        Bool.and_false, Bool.false_eq_true, if_false]

end Frames

end Figwal.Codec
