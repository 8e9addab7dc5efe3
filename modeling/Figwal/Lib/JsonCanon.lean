import Figwal.Lib.Json

/-!
# Canonical JSON

The canonical form of a value: strings are decoded and quoted anew, object members are
collected into a map, where the last of several equal keys counts, and printed in the
order of their keys. Two texts mean the same value if they have the same canonical form.

How strings are quoted is left to a `StringCodec`. An encoder that embeds a raw value
escapes some characters of its strings, which does not change what the value means.
-/

namespace Figwal.Lib

open List

set_option autoImplicit false

def isPlain (byte : UInt8) : Bool :=
  isDigit byte || (97 ≤ byte && byte ≤ 122) || (65 ≤ byte && byte ≤ 90) || byte == 95 ||
    byte == 43 || byte == 47 || byte == 61

/-- The string half of a JSON library: what the encoder writes for a string, what the
decoder makes of a body, and what the encoder makes of the body of an embedded string. -/
structure StringCodec where
  quote : Text → Text
  unquote : Text → Text
  escapeHTML : Text → Text
  quote_scannable : ∀ string, Scannable (quote string)
  escape_scannable : ∀ body, Scannable body → Scannable (escapeHTML body)
  unquote_escape : ∀ body, Scannable body → unquote (escapeHTML body) = unquote body
  unquote_quote : ∀ body, Scannable body → unquote (quote (unquote body)) = unquote body
  quote_plain : ∀ string, string.all isPlain = true → quote string = string
  unquote_plain : ∀ string, string.all isPlain = true → unquote string = string

def StringCodec.Clean (codec : StringCodec) (string : Text) : Prop :=
  codec.unquote (codec.quote string) = string

def putMember {α : Type} (key : Text) (value : α) : List (Text × α) → List (Text × α)
  | [] => [(key, value)]
  | member :: rest =>
    if key < member.1 then (key, value) :: member :: rest
    else if key = member.1 then (key, value) :: rest
    else member :: putMember key value rest

def collect {α : Type} (members : List (Text × α)) : List (Text × α) :=
  members.foldl (fun map member => putMember member.1 member.2 map) []

def StringCodec.requote {α : Type} (codec : StringCodec) (members : List (Text × α)) :
    List (Text × α) :=
  members.map fun member => (codec.quote member.1, member.2)

mutual

/-- `marshalCanonical` of what the decoder makes of a value. -/
def Json.canon (codec : StringCodec) : Json → Json
  | .scalar lexeme => .scalar lexeme
  | .string body => .string (codec.quote (codec.unquote body))
  | .array items => .array (Json.canonItems codec items)
  | .object members => .object (codec.requote (collect (Json.decodeMembers codec members)))

def Json.canonItems (codec : StringCodec) : List Json → List Json
  | [] => []
  | item :: rest => item.canon codec :: Json.canonItems codec rest

def Json.decodeMembers (codec : StringCodec) : List (Text × Json) → List (Text × Json)
  | [] => []
  | (key, value) :: rest =>
    (codec.unquote key, value.canon codec) :: Json.decodeMembers codec rest

end

mutual

def Json.embedded (codec : StringCodec) : Json → Json
  | .scalar lexeme => .scalar lexeme
  | .string body => .string (codec.escapeHTML body)
  | .array items => .array (Json.embeddedItems codec items)
  | .object members => .object (Json.embeddedMembers codec members)

def Json.embeddedItems (codec : StringCodec) : List Json → List Json
  | [] => []
  | item :: rest => item.embedded codec :: Json.embeddedItems codec rest

def Json.embeddedMembers (codec : StringCodec) : List (Text × Json) → List (Text × Json)
  | [] => []
  | (key, value) :: rest =>
    (codec.escapeHTML key, value.embedded codec) :: Json.embeddedMembers codec rest

end

def Ordered {α : Type} (members : List (Text × α)) : Prop :=
  members.Pairwise fun early late => early.1 < late.1

section Members

variable {α : Type} {members : List (Text × α)} {key : Text} {value : α}

theorem mem_put_member {member : Text × α} (inside : member ∈ putMember key value members) :
    member = (key, value) ∨ member ∈ members := by
  induction members with
  | nil => exact Or.inl (mem_singleton.mp inside)
  | cons first rest ih =>
    rw [putMember] at inside
    split_ifs at inside
    · rcases mem_cons.mp inside with new | old
      · exact Or.inl new
      · exact Or.inr old
    · rcases mem_cons.mp inside with new | old
      · exact Or.inl new
      · exact Or.inr (List.mem_cons_of_mem _ old)
    · rcases mem_cons.mp inside with here | later
      · exact Or.inr (here ▸ List.mem_cons_self)
      · exact (ih later).imp_right (List.mem_cons_of_mem _)

theorem Ordered.put_member (ordered : Ordered members) : Ordered (putMember key value members) := by
  induction members with
  | nil => exact pairwise_singleton _ _
  | cons first rest ih =>
    have parts := List.pairwise_cons.mp ordered
    rw [putMember]
    split_ifs with below same
    · refine List.pairwise_cons.mpr ⟨fun member inside => ?_, ordered⟩
      rcases mem_cons.mp inside with here | later
      · rw [here]
        exact below
      · exact List.lt_trans below (parts.1 member later)
    · refine List.pairwise_cons.mpr ⟨fun member inside => ?_, parts.2⟩
      rw [same]
      exact parts.1 member inside
    · have above : first.1 < key := by
        by_contra other
        exact same (List.le_antisymm (List.not_lt.mp other) (List.not_lt.mp below))
      refine List.pairwise_cons.mpr ⟨fun member inside => ?_, ih parts.2⟩
      rcases mem_put_member inside with new | old
      · rw [new]
        exact above
      · exact parts.1 member old

theorem put_member_above (above : ∀ member ∈ members, member.1 < key) :
    putMember key value members = members ++ [(key, value)] := by
  induction members with
  | nil => rfl
  | cons first rest ih =>
    have here := above first List.mem_cons_self
    have apart : key ≠ first.1 := fun same => List.lt_irrefl _ (same ▸ here)
    rw [putMember, if_neg (List.lt_asymm here), if_neg apart,
      ih fun member inside => above member (List.mem_cons_of_mem _ inside)]
    rfl

theorem put_member_append {key : Text} {value : α} {early late : List (Text × α)}
    (above : ∀ member ∈ late, key < member.1) :
    putMember key value (early ++ late) = putMember key value early ++ late := by
  induction early with
  | nil =>
    cases late with
    | nil => rfl
    | cons first rest =>
      have here := above first List.mem_cons_self
      simp [putMember, here]
  | cons first rest ih =>
    rw [cons_append, putMember, putMember]
    split_ifs
    · rfl
    · rfl
    · rw [ih, cons_append]

theorem put_member_split {key : Text} {value : α} {members : List (Text × α)}
    (ordered : Ordered members) (new : ∀ member ∈ members, member.1 ≠ key) :
    ∃ low high, members = low ++ high ∧ putMember key value members = low ++ (key, value) :: high ∧
      (∀ member ∈ low, member.1 < key) ∧ ∀ member ∈ high, key < member.1 := by
  induction members with
  | nil => exact ⟨[], [], rfl, rfl, by simp, by simp⟩
  | cons first rest ih =>
    have parts := List.pairwise_cons.mp ordered
    rw [putMember]
    split_ifs with below same
    · refine ⟨[], first :: rest, rfl, rfl, by simp, fun member inside => ?_⟩
      rcases mem_cons.mp inside with here | later
      · rw [here]
        exact below
      · exact List.lt_trans below (parts.1 member later)
    · exact absurd same.symm (new first List.mem_cons_self)
    · have above : first.1 < key := by
        by_contra other
        exact same (List.le_antisymm (List.not_lt.mp other) (List.not_lt.mp below))
      rcases ih parts.2 fun member inside => new member (List.mem_cons_of_mem _ inside) with
        ⟨low, high, split, put, smaller, larger⟩
      refine ⟨first :: low, high, by rw [split]; rfl, by rw [put]; rfl, ?_, larger⟩
      exact forall_mem_cons.mpr ⟨above, smaller⟩

theorem collect_from_ordered (members map : List (Text × α)) (ordered : Ordered map) :
    Ordered (members.foldl (fun map member => putMember member.1 member.2 map) map) := by
  induction members generalizing map with
  | nil => exact ordered
  | cons member rest ih => exact ih _ ordered.put_member

theorem collect_ordered (members : List (Text × α)) : Ordered (collect members) :=
  collect_from_ordered members [] List.Pairwise.nil

theorem collect_append_of_ordered {early late : List (Text × α)}
    (ordered : Ordered (early ++ late)) :
    late.foldl (fun map member => putMember member.1 member.2 map) early = early ++ late := by
  induction late generalizing early with
  | nil => exact (append_nil _).symm
  | cons member rest ih =>
    have above : ∀ other ∈ early, other.1 < member.1 := fun other inside =>
      (pairwise_append.mp ordered).2.2 other inside member List.mem_cons_self
    have whole : Ordered ((early ++ [member]) ++ rest) := by
      rw [append_assoc]
      exact ordered
    rw [foldl_cons, put_member_above above, ih whole, append_assoc]
    rfl

theorem collect_of_ordered (ordered : Ordered members) : collect members = members :=
  @collect_append_of_ordered α [] members ordered

theorem mem_collect {member : Text × α} (inside : member ∈ collect members) : member ∈ members := by
  have from_map : ∀ (members map : List (Text × α)), member ∈
      members.foldl (fun map member => putMember member.1 member.2 map) map →
        member ∈ map ∨ member ∈ members := by
    intro members
    induction members with
    | nil => exact fun map held => Or.inl held
    | cons first rest ih =>
      intro map held
      rcases ih _ held with early | late
      · rcases mem_put_member early with new | old
        · exact Or.inr (new ▸ List.mem_cons_self)
        · exact Or.inl old
      · exact Or.inr (List.mem_cons_of_mem _ late)
  exact (from_map members [] inside).resolve_left not_mem_nil

theorem put_member_map {β : Type} (change : α → β) (key : Text) (value : α)
    (members : List (Text × α)) :
    putMember key (change value) (members.map fun member => (member.1, change member.2)) =
      (putMember key value members).map fun member => (member.1, change member.2) := by
  induction members with
  | nil => rfl
  | cons first rest ih =>
    rw [map_cons, putMember, putMember]
    split_ifs
    · rfl
    · rfl
    · rw [ih, map_cons]

theorem collect_map {β : Type} (change : α → β) (members : List (Text × α)) :
    collect (members.map fun member => (member.1, change member.2)) =
      (collect members).map fun member => (member.1, change member.2) := by
  have folded : ∀ (later map : List (Text × α)),
      (later.map fun member => (member.1, change member.2)).foldl
        (fun map member => putMember member.1 member.2 map)
        (map.map fun member => (member.1, change member.2)) =
      (later.foldl (fun map member => putMember member.1 member.2 map) map).map
        fun member => (member.1, change member.2) := by
    intro later
    induction later with
    | nil =>
      intro map
      rfl
    | cons member rest ih =>
      intro map
      rw [map_cons, foldl_cons, foldl_cons]
      dsimp only
      rw [put_member_map, ih]
  exact folded members []

end Members

section Canonical

variable {codec : StringCodec} {depth : Nat} {json : Json}

theorem canon_items_eq (codec : StringCodec) (items : List Json) :
    Json.canonItems codec items = items.map (Json.canon codec) := by
  induction items with
  | nil => rfl
  | cons item rest ih => rw [Json.canonItems, ih, map_cons]

theorem decode_members_eq (codec : StringCodec) (members : List (Text × Json)) :
    Json.decodeMembers codec members =
      members.map fun member => (codec.unquote member.1, member.2.canon codec) := by
  induction members with
  | nil => rfl
  | cons member rest ih =>
    rcases member with ⟨key, value⟩
    rw [Json.decodeMembers, ih, map_cons]

theorem embedded_items_eq (codec : StringCodec) (items : List Json) :
    Json.embeddedItems codec items = items.map (Json.embedded codec) := by
  induction items with
  | nil => rfl
  | cons item rest ih => rw [Json.embeddedItems, ih, map_cons]

theorem embedded_members_eq (codec : StringCodec) (members : List (Text × Json)) :
    Json.embeddedMembers codec members =
      members.map fun member => (codec.escapeHTML member.1, member.2.embedded codec) := by
  induction members with
  | nil => rfl
  | cons member rest ih =>
    rcases member with ⟨key, value⟩
    rw [Json.embeddedMembers, ih, map_cons]

theorem Json.Sound.canon (sound : json.Sound depth) : (json.canon codec).Sound depth := by
  induction sound with
  | word word => exact .word word
  | number valid all => exact .number valid all
  | string scans => exact .string (codec.quote_scannable _)
  | array inside ih =>
    rw [Json.canon, canon_items_eq]
    exact .array (forall_mem_map.mpr ih)
  | object keys inside ih =>
    rw [Json.canon, decode_members_eq]
    refine .object (forall_mem_map.mpr fun _ _ => codec.quote_scannable _)
      (forall_mem_map.mpr fun member held => ?_)
    rcases mem_map.mp (mem_collect held) with ⟨source, there, same⟩
    rw [← same]
    exact ih source there

theorem Json.Sound.embedded (sound : json.Sound depth) : (json.embedded codec).Sound depth := by
  induction sound with
  | word word => exact .word word
  | number valid all => exact .number valid all
  | string scans => exact .string (codec.escape_scannable _ scans)
  | array inside ih =>
    rw [Json.embedded, embedded_items_eq]
    exact .array (forall_mem_map.mpr ih)
  | object keys inside ih =>
    rw [Json.embedded, embedded_members_eq]
    exact .object (forall_mem_map.mpr fun member held =>
      codec.escape_scannable _ (keys member held)) (forall_mem_map.mpr ih)

theorem Json.Sound.embedded_depth (sound : json.Sound depth) :
    json.depth ≤ (json.embedded codec).depth := by
  induction sound with
  | word _ | number _ _ | string _ => exact Nat.zero_le _
  | array inside ih =>
    rw [Json.embedded, embedded_items_eq]
    apply Nat.succ_le_succ
    apply items_depth_le
    intro item held
    exact (ih item held).trans (item_depth_le (mem_map_of_mem held))
  | object keys inside ih =>
    rw [Json.embedded, embedded_members_eq]
    apply Nat.succ_le_succ
    apply members_depth_le
    intro member held
    have there := mem_map_of_mem held (f := fun member : Text × Json =>
      (codec.escapeHTML member.1, member.2.embedded codec))
    exact (ih member held).trans (member_depth_le there)

theorem decode_requote {members : List (Text × Json)}
    (clean : ∀ member ∈ members, codec.Clean member.1 ∧ member.2.canon codec = member.2) :
    Json.decodeMembers codec (codec.requote members) = members := by
  rw [decode_members_eq, StringCodec.requote, map_map]
  refine (map_congr_left fun member held => ?_).trans (map_id _)
  rcases clean member held with ⟨key, value⟩
  rw [StringCodec.Clean] at key
  simp only [Function.comp_apply, key, value, id_eq]

theorem Json.Sound.canon_canon (sound : json.Sound depth) :
    (json.canon codec).canon codec = json.canon codec := by
  induction sound with
  | word word => rfl
  | number valid all => rfl
  | string scans => rw [Json.canon, Json.canon, codec.unquote_quote _ scans]
  | array inside ih =>
    rw [Json.canon, Json.canon, canon_items_eq, canon_items_eq, map_map]
    exact congrArg _ (map_congr_left ih)
  | @object depth members keys inside ih =>
    have decoded : ∀ member ∈ collect (Json.decodeMembers codec members),
        codec.Clean member.1 ∧ member.2.canon codec = member.2 := by
      intro member held
      have source := mem_collect held
      rw [decode_members_eq] at source
      rcases mem_map.mp source with ⟨written, there, rfl⟩
      exact ⟨codec.unquote_quote _ (keys written there), ih written there⟩
    rw [Json.canon, Json.canon, decode_requote decoded, collect_of_ordered (collect_ordered _)]

theorem Json.Sound.canon_embedded (sound : json.Sound depth) :
    (json.embedded codec).canon codec = json.canon codec := by
  induction sound with
  | word word => rfl
  | number valid all => rfl
  | string scans => rw [Json.embedded, Json.canon, Json.canon, codec.unquote_escape _ scans]
  | array inside ih =>
    rw [Json.embedded, Json.canon, Json.canon, embedded_items_eq, canon_items_eq, canon_items_eq,
      map_map]
    exact congrArg _ (map_congr_left ih)
  | @object depth members keys inside ih =>
    rw [Json.embedded, Json.canon, Json.canon, embedded_members_eq, decode_members_eq,
      decode_members_eq, map_map]
    have same : members.map ((fun member => (codec.unquote member.1, member.2.canon codec)) ∘
          fun member => (codec.escapeHTML member.1, member.2.embedded codec)) =
        members.map fun member => (codec.unquote member.1, member.2.canon codec) := by
      refine map_congr_left fun member held => ?_
      simp only [Function.comp_apply, codec.unquote_escape _ (keys member held), ih member held]
    rw [same]

end Canonical

/-!
## What the canonical form may change
-/

mutual

/-- No key stands twice in one object, and every string has the content it had after it has
been decoded and encoded. -/
def Json.Lossless {σ : Type} (codec : StringCodec) (content : Text → σ) : Json → Prop
  | .scalar _ => True
  | .string body => content (codec.quote (codec.unquote body)) = content body
  | .array items => Json.ItemsLossless codec content items
  | .object members => (members.map fun member => codec.unquote member.1).Nodup ∧
      Json.MembersLossless codec content members

def Json.ItemsLossless {σ : Type} (codec : StringCodec) (content : Text → σ) : List Json → Prop
  | [] => True
  | item :: rest => item.Lossless codec content ∧ Json.ItemsLossless codec content rest

def Json.MembersLossless {σ : Type} (codec : StringCodec) (content : Text → σ) :
    List (Text × Json) → Prop
  | [] => True
  | (key, value) :: rest =>
    (content (codec.quote (codec.unquote key)) = content key ∧ value.Lossless codec content) ∧
      Json.MembersLossless codec content rest

end

/-- The second value is the first with its strings spelled anew and the members of its objects
in another order. What the content of a spelling is, is a parameter. -/
inductive Json.Rearranged {σ : Type} (content : Text → σ) : Json → Json → Prop
  | scalar (lexeme : Text) : Rearranged content (.scalar lexeme) (.scalar lexeme)
  | string {body other : Text} (same : content other = content body) :
      Rearranged content (.string body) (.string other)
  | array {items others : List Json} (length : others.length = items.length)
      (each : ∀ pair ∈ items.zip others, Rearranged content pair.1 pair.2) :
      Rearranged content (.array items) (.array others)
  | object {members laid others : List (Text × Json)} (order : laid.Perm others)
      (keys : laid.map (fun member => content member.1) =
        members.map fun member => content member.1)
      (values : ∀ pair ∈ members.zip laid, Rearranged content pair.1.2 pair.2.2) :
      Rearranged content (.object members) (.object others)

section Rearranging

variable {α σ : Type} {content : Text → σ} {codec : StringCodec} {depth : Nat} {json : Json}

theorem put_member_perm {key : Text} {value : α} {members : List (Text × α)}
    (new : ∀ member ∈ members, member.1 ≠ key) :
    (putMember key value members).Perm ((key, value) :: members) := by
  induction members with
  | nil => exact List.Perm.refl _
  | cons first rest ih =>
    rw [putMember]
    split_ifs with below same
    · exact List.Perm.refl _
    · exact absurd same.symm (new first List.mem_cons_self)
    · have later := ih fun member inside => new member (List.mem_cons_of_mem _ inside)
      exact (later.cons first).trans (List.Perm.swap _ _ _)

theorem collect_perm {members : List (Text × α)} (distinct : (members.map Prod.fst).Nodup) :
    (collect members).Perm members := by
  have general : ∀ map : List (Text × α), (map.map Prod.fst ++ members.map Prod.fst).Nodup →
      (members.foldl (fun map member => putMember member.1 member.2 map) map).Perm
        (map ++ members) := by
    clear distinct
    induction members with
    | nil =>
      intro map _
      rw [append_nil]
      exact List.Perm.refl _
    | cons member rest ih =>
      intro map apart
      have new : ∀ other ∈ map, other.1 ≠ member.1 := by
        intro other inside same
        exact (nodup_append.mp apart).2.2 _ (mem_map_of_mem inside) _
          List.mem_cons_self same
      have put := @put_member_perm _ member.1 member.2 map new
      have moved : ((putMember member.1 member.2 map).map Prod.fst ++
          rest.map Prod.fst).Perm (map.map Prod.fst ++ (member :: rest).map Prod.fst) := by
        refine ((put.map Prod.fst).append_right _).trans ?_
        exact perm_middle.symm
      rw [foldl_cons]
      refine (ih _ (moved.nodup_iff.mpr apart)).trans ?_
      exact (put.append_right rest).trans perm_middle.symm
  exact general [] distinct

theorem ItemsLossless.item {items : List Json}
    (lossless : Json.ItemsLossless codec content items) :
    ∀ item ∈ items, item.Lossless codec content := by
  induction items with
  | nil => exact fun item inside => nomatch inside
  | cons first rest ih => exact forall_mem_cons.mpr ⟨lossless.1, ih lossless.2⟩

theorem MembersLossless.member {members : List (Text × Json)}
    (lossless : Json.MembersLossless codec content members) :
    ∀ member ∈ members, content (codec.quote (codec.unquote member.1)) = content member.1 ∧
      member.2.Lossless codec content := by
  induction members with
  | nil => exact fun member inside => nomatch inside
  | cons first rest ih => exact forall_mem_cons.mpr ⟨lossless.1, ih lossless.2⟩

theorem mem_zip_map {β : Type} {change : α → β} {list : List α} {pair : α × β}
    (inside : pair ∈ list.zip (list.map change)) : pair.1 ∈ list ∧ pair.2 = change pair.1 := by
  induction list with
  | nil => cases inside
  | cons first rest ih =>
    rcases mem_cons.mp inside with here | later
    · rw [here]
      exact ⟨List.mem_cons_self, rfl⟩
    · exact ⟨List.mem_cons_of_mem _ (ih later).1, (ih later).2⟩

theorem Json.Sound.rearranged (sound : json.Sound depth)
    (lossless : json.Lossless codec content) :
    json.Rearranged content (json.canon codec) := by
  induction sound with
  | word word => exact .scalar _
  | number valid all => exact .scalar _
  | string scans => exact .string lossless
  | array inside ih =>
    rw [Json.canon, canon_items_eq]
    apply Json.Rearranged.array
    · exact length_map _
    · intro pair member
      obtain ⟨held, same⟩ := mem_zip_map member
      rw [same]
      exact ih _ held (ItemsLossless.item lossless _ held)
  | @object depth members keys inside ih =>
    have apart : ((Json.decodeMembers codec members).map Prod.fst).Nodup := by
      rw [decode_members_eq, map_map]
      exact lossless.1
    have order := (collect_perm apart).symm.map
      fun member : Text × Json => (codec.quote member.1, member.2)
    rw [decode_members_eq, map_map] at order
    rw [Json.canon, decode_members_eq]
    apply Json.Rearranged.object order
    · rw [map_map]
      apply map_congr_left
      intro member held
      exact (MembersLossless.member lossless.2 member held).1
    · intro pair member
      obtain ⟨held, same⟩ := mem_zip_map member
      rw [same]
      exact ih _ held (MembersLossless.member lossless.2 _ held).2

end Rearranging

end Figwal.Lib
