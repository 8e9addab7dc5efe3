import Figwal.Lib.JsonNesting
import Figwal.Lib.JsonStrings
import Figwal.Xwal.Frame

/-!
# Map patches

`reduceMap` decodes a JSON object, sets and removes what a patch addresses by path, and
encodes the object again. A decoded map is the list of its members in the order of their
keys; a map inside another stands there in its canonical form, keys quoted.

The patch is JSON too. `json.Unmarshal` decodes it into the slices of a `MapPatch`, and a
field that comes again is decoded into what the first left there.
-/

namespace Figwal.Xwal

open Figwal.Lib Figwal.Codec
open Figwal.Frame (foldName)

set_option autoImplicit false

inductive MapErr where
  | state
  | patch
  | emptyPath
  | setValue
  deriving DecidableEq, Repr

/-- A slice: those of its cells that count, and the stale ones behind them. -/
structure Slice (α : Type) where
  cells : List α
  len : Nat
  deriving DecidableEq, Repr

def Slice.empty {α : Type} : Slice α := ⟨[], 0⟩

def Slice.shown {α : Type} (slice : Slice α) : List α := slice.cells.take slice.len

structure MapSet where
  path : Slice Text
  value : Text
  deriving DecidableEq, Repr

structure MapPatch where
  set : Slice MapSet
  remove : Slice (Slice Text)
  deriving DecidableEq, Repr

def MapPatch.empty : MapPatch := ⟨Slice.empty, Slice.empty⟩

/-- Each set with its path and the text of its value. -/
def MapPatch.sets (patch : MapPatch) : List (List Text × Text) :=
  patch.set.shown.map fun entry => (entry.path.shown, entry.value)

def MapPatch.removes (patch : MapPatch) : List (List Text) :=
  patch.remove.shown.map Slice.shown

section Reducer

variable (codec : StringCodec)

def decodeString (old : Text) : Json → Option Text
  | .scalar lexeme => if lexeme = ascii "null" then some old else none
  | .string body => some (codec.unquote body)
  | _ => none

/-- The items of an array, each decoded into the cell that is there. -/
def decodeCells {α : Type} (zero : α) (decode : α → Json → Option α) :
    List α → List Json → Option (List α)
  | stale, [] => some stale
  | stale, item :: rest =>
    (decode (stale.headD zero) item).bind fun cell =>
      (decodeCells zero decode stale.tail rest).map (cell :: ·)

def decodeSlice {α : Type} (zero : α) (decode : α → Json → Option α) (old : Slice α) :
    Json → Option (Slice α)
  | .scalar lexeme => if lexeme = ascii "null" then some Slice.empty else none
  | .array items =>
    if items = [] then some Slice.empty
    else (decodeCells zero decode old.cells items).map fun cells => ⟨cells, items.length⟩
  | _ => none

def decodeStruct {α : Type} (field : α → Text × Json → Option α) (old : α) : Json → Option α
  | .scalar lexeme => if lexeme = ascii "null" then some old else none
  | .object members => members.foldlM field old
  | _ => none

/-- The long s (U+017F) is an s to the comparison of field names. -/
def foldLong : Text → Text
  | 197 :: 191 :: rest => 115 :: foldLong rest
  | byte :: rest => byte :: foldLong rest
  | [] => []

def decodePath : Slice Text → Json → Option (Slice Text) :=
  decodeSlice [] (decodeString codec)

def mapSetField (set : MapSet) (member : Text × Json) : Option MapSet :=
  let key := foldName (codec.unquote member.1)
  if key = ascii "path" then
    (decodePath codec set.path member.2).map fun path => { set with path := path }
  else if key = ascii "value" then some { set with value := member.2.text }
  else some set

def mapPatchField (patch : MapPatch) (member : Text × Json) : Option MapPatch :=
  let key := foldName (foldLong (codec.unquote member.1))
  if key = ascii "set" then
    (decodeSlice ⟨Slice.empty, []⟩ (decodeStruct (mapSetField codec)) patch.set member.2).map
      fun set => { patch with set := set }
  else if key = ascii "remove" then
    (decodeSlice Slice.empty (decodePath codec) patch.remove member.2).map
      fun remove => { patch with remove := remove }
  else some patch

def decodePatch : Json → Option MapPatch :=
  decodeStruct (mapPatchField codec) MapPatch.empty

/-- `json.Unmarshal` of a patch that is not empty. -/
def unmarshalPatch (patch : Text) : Option MapPatch :=
  if patch = [] then some MapPatch.empty
  else (parseJson maxNesting patch).bind (decodePatch codec)

/-- The type assertion `.(map[string]any)` on a decoded value. -/
def asObject : Json → Option Members
  | .object members => some (collect (Json.decodeMembers codec members))
  | _ => none

def mapJson (members : Members) : Json := .object (codec.requote members)

def decodeObject (state : Text) : Except MapErr Members :=
  if state = [] then .ok []
  else
    match parseValue maxNesting state with
    | none => .error .state
    | some (json, _) =>
      match asObject codec json with
      | some members => .ok members
      -- `null` leaves the map nil.
      | none => if json = .scalar (ascii "null") then .ok [] else .error .state

def decodeAny (value : Text) : Option Json :=
  (parseValue maxNesting value).map fun found => found.1.canon codec

def deepSet (members : Members) : List Text → Json → Members
  | [], _ => members
  | [key], value => putMember key value members
  | key :: inner :: rest, value =>
    putMember key (mapJson codec
      (deepSet (((members.find key).bind (asObject codec)).getD []) (inner :: rest) value)) members

def deepRemove (members : Members) : List Text → Members
  | [] => members
  | [key] => members.delete key
  | key :: inner :: rest =>
    match (members.find key).bind (asObject codec) with
    | none => members
    | some next => putMember key (mapJson codec (deepRemove next (inner :: rest))) members

def setAll (root : Members) : List (List Text × Text) → Except MapErr Members
  | [] => .ok root
  | (path, text) :: rest =>
    if path = [] then .error .emptyPath
    else
      match decodeAny codec text with
      | none => .error .setValue
      | some value => setAll (deepSet codec root path value) rest

def removeAll (root : Members) (paths : List (List Text)) : Members :=
  paths.foldl (fun root path => if path = [] then root else deepRemove codec root path) root

def reduceMap (state patch : Text) : Except MapErr Text :=
  match decodeObject codec state with
  | .error err => .error err
  | .ok root =>
    match unmarshalPatch codec patch with
    | none => .error .patch
    | some decoded =>
      match setAll codec root decoded.sets with
      | .error err => .error err
      | .ok root => .ok (mapJson codec (removeAll codec root decoded.removes)).text

/-!
## What a path addresses
-/

/-- The value at a path, in canonical form. A key given twice has its last value. -/
def lookup : Json → List Text → Option Json
  | json, [] => some json
  | json, key :: rest =>
    ((asObject codec json).bind fun members => members.find key).bind fun next => lookup next rest

def Diverge (path other : List Text) : Prop := ¬path <+: other ∧ ¬other <+: path

structure Sets (path : List Text) (value before after : Json) : Prop where
  there : lookup codec after path = some value
  apart : ∀ other, Diverge path other → lookup codec after other = lookup codec before other
  above : ∀ early, early <+: path → early ≠ path →
    ∃ members, lookup codec after early = some (.object members)

structure Removes (path : List Text) (before after : Json) : Prop where
  gone : lookup codec after path = none
  apart : ∀ other, Diverge path other → lookup codec after other = lookup codec before other
  above : ∀ early, early <+: path → early ≠ path →
    (lookup codec after early).isSome = (lookup codec before early).isSome
  absent : lookup codec before path = none → after = before

def Along {α : Type} (change : α → Json → Json → Prop) : List α → Json → Json → Prop
  | [], before, after => before = after
  | one :: rest, before, after => ∃ next, change one before next ∧ Along change rest next after

/-- A text, the patch that is written there and the levels it nests. -/
inductive Spells : Text → MapPatch → Nat → Prop
  | nothing : Spells [] MapPatch.empty 0
  | written {text : Text} {json : Json} {patch : MapPatch} (whole : IsText text json)
      (read : decodePatch codec json = some patch) : Spells text patch json.depth

/-- Every set has a path and a value. -/
def MapPatch.Valid (patch : MapPatch) : Prop :=
  ∀ entry ∈ patch.sets, entry.1 ≠ [] ∧ entry.2 ≠ []

/-- What is set last stands, and what a path of no set or remove addresses stays. -/
def Patched (patch : MapPatch) (state : Json) (out : Text) : Prop :=
  ∃ between after, IsText out after ∧
    (∀ path ≠ [], lookup codec (state.canon codec) path = lookup codec state path) ∧
    Along (fun (entry : List Text × Text) before next => ∃ json, IsText entry.2 json ∧
      Sets codec entry.1 (json.canon codec) before next) patch.sets (state.canon codec) between ∧
    Along (Removes codec) (patch.removes.filter fun path => decide (path ≠ [])) between after

structure Settled (members : Members) : Prop where
  ordered : Ordered members
  clean : ∀ member ∈ members, codec.Clean member.1 ∧ member.2.canon codec = member.2
  sound : ∀ member ∈ members, ∃ depth, member.2.Sound depth

end Reducer

section Maps

variable {codec : StringCodec} {members next : Members} {json value : Json} {key : Text}
  {path : List Text}

theorem find_mem (found : members.find key = some value) : (key, value) ∈ members := by
  obtain ⟨member, first, rfl⟩ := Option.map_eq_some_iff.mp found
  have same := List.find?_some first
  rw [← eq_of_beq same]
  exact List.mem_of_find?_eq_some first

theorem put_same (ordered : Ordered members) (found : members.find key = some value) :
    putMember key value members = members := by
  induction members with
  | nil => cases found
  | cons first rest ih =>
    obtain ⟨ahead, later⟩ := List.pairwise_cons.mp ordered
    rcases List.mem_cons.mp (find_mem found) with rfl | behind
    · simp [putMember]
    · have above := ahead _ behind
      have apart : (first.1 == key) = false := beq_false_of_ne fun same => by
        rw [same] at above
        exact List.lt_irrefl _ above
      rw [putMember, if_neg (List.lt_asymm above), if_neg fun same => by simp [same] at apart]
      rw [Members.find, List.find?_cons_of_neg (by simp [apart])] at found
      rw [ih later found]

theorem find_delete (members : Members) (key other : Text) :
    (members.delete key).find other = if other = key then none else members.find other := by
  rw [Members.find, Members.delete, List.find?_filter]
  split_ifs with same
  · subst same
    simp
  · rw [Members.find]
    congr 2
    funext member
    by_cases here : member.1 = other
    · simp [here, same]
    · simp [here]

theorem Settled.put (settled : Settled codec members) (clean : codec.Clean key)
    (canonical : value.canon codec = value) {depth : Nat} (sound : value.Sound depth) :
    Settled codec (putMember key value members) := by
  refine ⟨settled.ordered.put_member, fun member held => ?_, fun member held => ?_⟩
  · rcases mem_put_member held with new | old
    · rw [new]
      exact ⟨clean, canonical⟩
    · exact settled.clean member old
  · rcases mem_put_member held with new | old
    · rw [new]
      exact ⟨depth, sound⟩
    · exact settled.sound member old

theorem Settled.delete (settled : Settled codec members) : Settled codec (members.delete key) :=
  ⟨settled.ordered.filter _, fun member held => settled.clean member (List.mem_filter.mp held).1,
    fun member held => settled.sound member (List.mem_filter.mp held).1⟩

theorem Settled.empty : Settled codec [] :=
  ⟨List.Pairwise.nil, fun _ held => (List.not_mem_nil held).elim,
    fun _ held => (List.not_mem_nil held).elim⟩

theorem settled_as {depth : Nat} (sound : json.Sound depth)
    (object : asObject codec json = some members) :
    Settled codec members ∧ json.canon codec = mapJson codec members := by
  cases sound with
  | word | number | string | array => cases object
  | object keys inside =>
    cases object
    rw [decode_members_eq]
    refine ⟨⟨collect_ordered _, fun member held => ?_, fun member held => ?_⟩, ?_⟩
    · rcases List.mem_map.mp (mem_collect held) with ⟨source, there, rfl⟩
      exact ⟨codec.unquote_quote _ (keys source there), (inside source there).canon_canon⟩
    · rcases List.mem_map.mp (mem_collect held) with ⟨source, there, rfl⟩
      exact ⟨_, (inside source there).canon⟩
    · rw [Json.canon, decode_members_eq]
      rfl

section

variable (settled : Settled codec members)

include settled

theorem Settled.as_object : asObject codec (mapJson codec members) = some members := by
  rw [mapJson, asObject, decode_requote settled.clean, collect_of_ordered settled.ordered]

theorem Settled.canon : (mapJson codec members).canon codec = mapJson codec members := by
  rw [mapJson, Json.canon, decode_requote settled.clean, collect_of_ordered settled.ordered]

theorem Settled.depth : ∃ depth, (mapJson codec members).Sound depth := by
  have common : ∃ depth, ∀ member ∈ members, member.2.Sound depth := by
    have each := settled.sound
    clear settled
    induction members with
    | nil => exact ⟨0, fun _ held => (List.not_mem_nil held).elim⟩
    | cons first rest ih =>
      obtain ⟨early, here⟩ := each first List.mem_cons_self
      obtain ⟨late, there⟩ := ih fun member held => each member (List.mem_cons_of_mem _ held)
      refine ⟨max early late, List.forall_mem_cons.mpr ⟨here.mono (le_max_left _ _), ?_⟩⟩
      exact fun member held => (there member held).mono (le_max_right _ _)
  obtain ⟨depth, inside⟩ := common
  exact ⟨depth + 1, .object (List.forall_mem_map.mpr fun _ _ => codec.quote_scannable _)
    (List.forall_mem_map.mpr inside)⟩

theorem Settled.lookup_cons :
    lookup codec (mapJson codec members) (key :: path) =
      (members.find key).bind fun next => lookup codec next path := by
  rw [lookup, settled.as_object, Option.bind_some]

end

theorem lookup_as (settled : Settled codec next) (object : asObject codec json = some next)
    (filled : path ≠ []) : lookup codec json path = lookup codec (mapJson codec next) path := by
  cases path with
  | nil => exact absurd rfl filled
  | cons key rest => rw [lookup, lookup, object, settled.as_object]

theorem lookup_scalar (other : asObject codec json = none) (filled : path ≠ []) :
    lookup codec json path = none := by
  cases path with
  | nil => exact absurd rfl filled
  | cons key rest => rw [lookup, other, Option.bind_none, Option.bind_none]

theorem Settled.member (settled : Settled codec members)
    (object : (members.find key).bind (asObject codec) = some next) :
    Settled codec next ∧ codec.Clean key ∧ members.find key = some (mapJson codec next) := by
  obtain ⟨json, found, map⟩ := Option.bind_eq_some_iff.mp object
  have member := find_mem found
  obtain ⟨depth, sound⟩ := settled.sound _ member
  obtain ⟨inner, canonical⟩ := settled_as sound map
  obtain ⟨clean, same⟩ := settled.clean _ member
  exact ⟨inner, clean, by rw [found, ← canonical, same]⟩

theorem Settled.behind (settled : Settled codec members) (filled : path ≠ []) :
    lookup codec (mapJson codec members) (key :: path) = lookup codec
      (mapJson codec (((members.find key).bind (asObject codec)).getD [])) path := by
  rw [settled.lookup_cons]
  cases object : (members.find key).bind (asObject codec) with
  | some next =>
    rw [(settled.member object).2.2]
    rfl
  | none =>
    have bare : lookup codec (mapJson codec []) path = none := by
      cases path with
      | nil => exact absurd rfl filled
      | cons first rest => rw [Settled.empty.lookup_cons]; rfl
    rw [Option.getD_none, bare]
    cases found : members.find key with
    | none => rfl
    | some json =>
      rw [found] at object
      exact lookup_scalar object filled

theorem apart_cons {other : List Text} (apart : Diverge (key :: path) (key :: other)) :
    Diverge path other :=
  ⟨fun before => apart.1 (List.cons_prefix_cons.mpr ⟨rfl, before⟩),
    fun before => apart.2 (List.cons_prefix_cons.mpr ⟨rfl, before⟩)⟩

end Maps

section Effects

variable {codec : StringCodec} {members : Members} {json value before after : Json}
  {path : List Text} {depth : Nat}

theorem lookup_put_ne {key other : Text} {rest : List Text} (settled : Settled codec members)
    (changed : Settled codec (putMember key value members)) (apart : other ≠ key) :
    lookup codec (mapJson codec (putMember key value members)) (other :: rest) =
      lookup codec (mapJson codec members) (other :: rest) := by
  rw [changed.lookup_cons, settled.lookup_cons, find_put_other apart.symm]

theorem lookup_put {key : Text} {rest : List Text} (settled : Settled codec members)
    (changed : Settled codec (putMember key value members)) :
    lookup codec (mapJson codec (putMember key value members)) (key :: rest) =
      lookup codec value rest := by
  rw [changed.lookup_cons, find_put settled.ordered, Option.bind_some]

theorem apart_put {key : Text} {rest : List Text} (settled : Settled codec members)
    (changed : Settled codec (putMember key value members))
    (inner : ∀ later, later ≠ [] → Diverge rest later →
      lookup codec value later = lookup codec (mapJson codec members) (key :: later)) :
    ∀ other, Diverge (key :: rest) other →
      lookup codec (mapJson codec (putMember key value members)) other =
        lookup codec (mapJson codec members) other := by
  intro other apart
  cases other with
  | nil => exact absurd List.nil_prefix apart.2
  | cons first later =>
    by_cases same : first = key
    · subst same
      have beside := apart_cons apart
      have more : later ≠ [] := by
        rintro rfl
        exact beside.2 List.nil_prefix
      rw [lookup_put settled changed]
      exact inner later more beside
    · exact lookup_put_ne settled changed same

theorem prefix_cons_cases {key : Text} {early : List Text} (before : early <+: key :: path)
    (proper : early ≠ key :: path) :
    early = [] ∨ ∃ rest, early = key :: rest ∧ rest <+: path ∧ rest ≠ path := by
  cases early with
  | nil => exact .inl rfl
  | cons first rest =>
    obtain ⟨rfl, inner⟩ := List.cons_prefix_cons.mp before
    exact .inr ⟨rest, rfl, inner, fun same => proper (by rw [same])⟩

theorem deep_set_sets (settled : Settled codec members) (filled : path ≠ [])
    (clean : ∀ key ∈ path, codec.Clean key) (canonical : value.canon codec = value)
    (sound : value.Sound depth) :
    Settled codec (deepSet codec members path value) ∧
      Sets codec path value (mapJson codec members)
        (mapJson codec (deepSet codec members path value)) := by
  induction path generalizing members with
  | nil => exact absurd rfl filled
  | cons key rest ih =>
    have named := clean key List.mem_cons_self
    cases rest with
    | nil =>
      have changed : Settled codec (putMember key value members) :=
        settled.put named canonical sound
      refine ⟨changed, lookup_put settled changed, ?_, ?_⟩
      · exact apart_put settled changed fun later _ apart => absurd List.nil_prefix apart.1
      · intro early before proper
        rcases prefix_cons_cases before proper with rfl | ⟨rest, _, inner, other⟩
        · exact ⟨_, rfl⟩
        · exact absurd (List.prefix_nil.mp inner) other
    | cons inner rest =>
      -- The map behind the first key, or an empty one in its place.
      have behind : Settled codec (((members.find key).bind (asObject codec)).getD []) := by
        cases object : (members.find key).bind (asObject codec) with
        | none => exact Settled.empty
        | some next => exact (settled.member object).1
      obtain ⟨deeper, effect⟩ := ih behind (List.cons_ne_nil _ _)
        fun key held => clean key (List.mem_cons_of_mem _ held)
      obtain ⟨levels, nested⟩ := deeper.depth
      have changed := settled.put named deeper.canon nested
      rw [deepSet]
      refine ⟨changed, ?_, ?_, ?_⟩
      · rw [lookup_put settled changed]
        exact effect.there
      · apply apart_put settled changed
        intro later more apart
        rw [settled.behind more]
        exact effect.apart later apart
      · intro early before proper
        rcases prefix_cons_cases before proper with rfl | ⟨rest, rfl, inner, other⟩
        · exact ⟨_, rfl⟩
        · rw [lookup_put settled changed]
          exact effect.above rest inner other

theorem Removes.refl (missing : lookup codec json path = none) : Removes codec path json json :=
  ⟨missing, fun _ _ => rfl, fun _ _ _ => rfl, fun _ => rfl⟩

/-- Removing a path keeps a map one and changes nothing beside the path. -/
theorem deep_remove_removes (settled : Settled codec members) (filled : path ≠ []) :
    Settled codec (deepRemove codec members path) ∧
      Removes codec path (mapJson codec members)
        (mapJson codec (deepRemove codec members path)) := by
  induction path generalizing members with
  | nil => exact absurd rfl filled
  | cons key rest ih =>
    cases rest with
    | nil =>
      have changed : Settled codec (members.delete key) := settled.delete
      refine ⟨changed, ?_, ?_, ?_, ?_⟩
      · rw [deepRemove, changed.lookup_cons, find_delete, if_pos rfl, Option.bind_none]
      · intro other apart
        cases other with
        | nil => exact absurd List.nil_prefix apart.2
        | cons first later =>
          have ne : first ≠ key := by
            rintro rfl
            exact apart.1 (List.cons_prefix_cons.mpr ⟨rfl, List.nil_prefix⟩)
          rw [deepRemove, changed.lookup_cons, settled.lookup_cons, find_delete, if_neg ne]
      · intro early before proper
        rcases prefix_cons_cases before proper with rfl | ⟨rest, _, inner, other⟩
        · rfl
        · exact absurd (List.prefix_nil.mp inner) other
      · intro missing
        rw [settled.lookup_cons] at missing
        have lacks : members.find key = none := by
          cases found : members.find key with
          | none => rfl
          | some json =>
            rw [found] at missing
            cases missing
        rw [deepRemove, Members.delete, List.filter_eq_self.mpr]
        intro member held
        rw [Members.find, Option.map_eq_none_iff, List.find?_eq_none] at lacks
        simpa using lacks member held
    | cons inner rest =>
      have more : inner :: rest ≠ [] := List.cons_ne_nil _ _
      cases object : (members.find key).bind (asObject codec) with
      | none =>
        simp only [deepRemove, object]
        refine ⟨settled, Removes.refl ?_⟩
        rw [settled.behind more, object, Option.getD_none, Settled.empty.lookup_cons]
        rfl
      | some next =>
        obtain ⟨behind, named, found⟩ := settled.member object
        obtain ⟨deeper, effect⟩ := ih behind more
        obtain ⟨levels, nested⟩ := deeper.depth
        have changed := settled.put named deeper.canon nested
        have through : ∀ later, lookup codec (mapJson codec members) (key :: later) =
            lookup codec (mapJson codec next) later := by
          intro later
          rw [settled.lookup_cons, found, Option.bind_some]
        simp only [deepRemove, object]
        refine ⟨changed, ?_, ?_, ?_, ?_⟩
        · rw [lookup_put settled changed]
          exact effect.gone
        · apply apart_put settled changed
          intro later _ apart
          rw [through]
          exact effect.apart later apart
        · intro early before proper
          rcases prefix_cons_cases before proper with rfl | ⟨rest, rfl, inner, other⟩
          · rfl
          · rw [lookup_put settled changed, through]
            exact effect.above rest inner other
        · intro missing
          rw [through] at missing
          rw [effect.absent missing, put_same settled.ordered found]

end Effects

section Patches

variable {codec : StringCodec} {root : Members} {json : Json} {text : Text}

theorem decode_any {depth : Nat} (sound : json.Sound depth) (fits : depth ≤ maxNesting) :
    decodeAny codec json.text = some (json.canon codec) := by
  have read := parse_value_text (sound.mono fits) [] (by simp [StopsNumber])
  rw [List.append_nil] at read
  rw [decodeAny, read]
  rfl

theorem set_all_sets (settled : Settled codec root) {sets : List (List Text × Text)}
    (addressed : ∀ entry ∈ sets, entry.1 ≠ [] ∧ ∀ key ∈ entry.1, codec.Clean key)
    (valued : ∀ entry ∈ sets, ∃ json : Json, json.Sound maxNesting ∧ entry.2 = json.text) :
    ∃ after, setAll codec root sets = .ok after ∧ Settled codec after ∧
      Along (fun (entry : List Text × Text) before next => ∃ json, IsText entry.2 json ∧
        Sets codec entry.1 (json.canon codec) before next) sets
        (mapJson codec root) (mapJson codec after) := by
  induction sets generalizing root with
  | nil => exact ⟨root, rfl, settled, rfl⟩
  | cons entry rest ih =>
    obtain ⟨filled, clean⟩ := addressed entry List.mem_cons_self
    obtain ⟨json, sound, spelled⟩ := valued entry List.mem_cons_self
    obtain ⟨kept, effect⟩ := deep_set_sets settled filled clean sound.canon_canon sound.canon
    obtain ⟨after, done, last, later⟩ := ih kept
      (fun entry held => addressed entry (List.mem_cons_of_mem _ held))
      fun entry held => valued entry (List.mem_cons_of_mem _ held)
    have whole : IsText entry.2 json := ⟨_, by rw [spelled, parse_json_text sound]⟩
    refine ⟨after, ?_, last, _, ⟨json, whole, effect⟩, later⟩
    obtain ⟨path, text⟩ := entry
    subst spelled
    rw [setAll, if_neg filled, decode_any sound (Nat.le_refl _)]
    exact done

theorem remove_all_removes (settled : Settled codec root) (paths : List (List Text)) :
    Settled codec (removeAll codec root paths) ∧
      Along (Removes codec) (paths.filter fun path => decide (path ≠ [])) (mapJson codec root)
        (mapJson codec (removeAll codec root paths)) := by
  induction paths generalizing root with
  | nil => exact ⟨settled, rfl⟩
  | cons path rest ih =>
    by_cases bare : path = []
    · rw [removeAll, List.foldl_cons, if_pos bare, List.filter_cons_of_neg (by simpa using bare)]
      exact ih settled
    · obtain ⟨kept, effect⟩ := deep_remove_removes settled bare
      obtain ⟨last, later⟩ := ih kept
      rw [removeAll, List.foldl_cons, if_neg bare, List.filter_cons_of_pos (by simpa using bare)]
      exact ⟨last, _, effect, later⟩

end Patches

section Decoding

variable {codec : StringCodec} {α : Type} {P : α → Prop} {depth : Nat} {json : Json}

/-- The strings of a path come from the decoder, so they survive the encoder. -/
def CleanPath (codec : StringCodec) (path : Slice Text) : Prop :=
  ∀ key ∈ path.cells, codec.Clean key

structure MapSet.Drawn (codec : StringCodec) (depth : Nat) (set : MapSet) : Prop where
  path : CleanPath codec set.path
  value : set.value = [] ∨ ∃ json : Json, json.Sound depth ∧ set.value = json.text

theorem fold_keeps {β : Type} {field : α → β → Option α} {members : List β} {old new : α}
    (step : ∀ old new member, member ∈ members → P old → field old member = some new → P new)
    (start : P old) (done : members.foldlM field old = some new) : P new := by
  induction members generalizing old with
  | nil =>
    cases done
    exact start
  | cons first rest ih =>
    rw [List.foldlM_cons] at done
    obtain ⟨next, taken, later⟩ := Option.bind_eq_some_iff.mp done
    exact ih (fun old new member held => step old new member (List.mem_cons_of_mem _ held))
      (step old next first List.mem_cons_self start taken) later

theorem decode_cells_keeps {zero : α} {decode : α → Json → Option α} {items : List Json}
    {stale cells : List α} (bare : P zero) (sound : ∀ item ∈ items, item.Sound depth)
    (step : ∀ old new item, Json.Sound depth item → P old → decode old item = some new → P new)
    (start : ∀ cell ∈ stale, P cell) (done : decodeCells zero decode stale items = some cells) :
    ∀ cell ∈ cells, P cell := by
  induction items generalizing stale cells with
  | nil =>
    cases done
    exact start
  | cons item rest ih =>
    obtain ⟨cell, taken, later⟩ := Option.bind_eq_some_iff.mp done
    obtain ⟨more, decoded, rfl⟩ := Option.map_eq_some_iff.mp later
    have first : P (stale.headD zero) := by
      cases stale with
      | nil => exact bare
      | cons cell behind => exact start cell List.mem_cons_self
    refine List.forall_mem_cons.mpr
      ⟨step _ _ item (sound item List.mem_cons_self) first taken, ?_⟩
    exact ih (fun item held => sound item (List.mem_cons_of_mem _ held))
      (fun cell held => start cell (List.mem_of_mem_tail held)) decoded

theorem decode_slice_keeps {zero : α} {decode : α → Json → Option α} {old new : Slice α}
    (bare : P zero) (sound : json.Sound depth)
    (step : ∀ old new item, Json.Sound depth item → P old → decode old item = some new → P new)
    (start : ∀ cell ∈ old.cells, P cell) (done : decodeSlice zero decode old json = some new) :
    ∀ cell ∈ new.cells, P cell := by
  have nothing : ∀ cell ∈ (Slice.empty : Slice α).cells, P cell := nofun
  cases sound with
  | word | number =>
    rw [decodeSlice, Option.ite_none_right_eq_some] at done
    cases done.2
    exact nothing
  | string | object => cases done
  | array inside =>
    rw [decodeSlice] at done
    split_ifs at done with none
    · cases done
      exact nothing
    · obtain ⟨cells, decoded, rfl⟩ := Option.map_eq_some_iff.mp done
      exact decode_cells_keeps bare (fun item held => (inside item held).mono (Nat.le_succ _))
        step start decoded

theorem decode_struct_keeps {field : α → Text × Json → Option α} {old new : α}
    (sound : json.Sound depth)
    (step : ∀ old new key value, Json.Sound depth value → P old →
      field old (key, value) = some new → P new)
    (start : P old) (done : decodeStruct field old json = some new) : P new := by
  cases sound with
  | word | number =>
    rw [decodeStruct, Option.ite_none_right_eq_some] at done
    cases done.2
    exact start
  | string | array => cases done
  | object keys inside =>
    refine fold_keeps (fun old new member held => ?_) start done
    exact step old new member.1 member.2 ((inside member held).mono (Nat.le_succ _))

theorem decode_path_clean {old new : Slice Text} (sound : json.Sound depth)
    (start : CleanPath codec old) (done : decodePath codec old json = some new) :
    CleanPath codec new := by
  refine decode_slice_keeps (plain_clean codec rfl) sound (fun old new item sound clean => ?_)
    start done
  intro taken
  cases sound with
  | word | number =>
    rw [decodeString, Option.ite_none_right_eq_some] at taken
    cases taken.2
    exact clean
  | string scans =>
    cases taken
    exact codec.unquote_quote _ scans
  | array | object => cases taken

theorem map_set_drawn {old new : MapSet} {key : Text} (sound : json.Sound depth)
    (start : old.Drawn codec depth) (done : mapSetField codec old (key, json) = some new) :
    new.Drawn codec depth := by
  rw [mapSetField] at done
  split_ifs at done with path value
  · obtain ⟨new, decoded, rfl⟩ := Option.map_eq_some_iff.mp done
    exact ⟨decode_path_clean sound start.path decoded, start.value⟩
  · cases done
    exact ⟨start.path, .inr ⟨json, sound, rfl⟩⟩
  · cases done
    exact start

theorem decode_patch_drawn {patch : MapPatch} (sound : json.Sound depth)
    (done : decodePatch codec json = some patch) :
    ∀ set ∈ patch.set.cells, set.Drawn codec depth := by
  refine @decode_struct_keeps _ (fun patch : MapPatch =>
    ∀ set ∈ patch.set.cells, set.Drawn codec depth) _ _ _ _ _ sound ?_
    (fun _ held => (List.not_mem_nil held).elim) done
  intro old new key value sound start taken
  rw [mapPatchField] at taken
  split_ifs at taken with set remove
  · obtain ⟨cells, decoded, rfl⟩ := Option.map_eq_some_iff.mp taken
    refine decode_slice_keeps ⟨fun _ held => (List.not_mem_nil held).elim, .inl rfl⟩ sound
      (fun old new item sound drawn => ?_) start
      decoded
    exact decode_struct_keeps sound (fun _ _ _ _ => map_set_drawn) drawn
  · obtain ⟨cells, decoded, rfl⟩ := Option.map_eq_some_iff.mp taken
    exact start
  · cases taken
    exact start

end Decoding

section Patched

variable {codec : StringCodec} {state text : Text} {members : List (Text × Json)}
  {patch : MapPatch} {levels : Nat}

theorem decode_object_iff (object : IsText state (.object members)) :
    decodeObject codec state = if (Json.object members).depth ≤ maxNesting
      then .ok (collect (Json.decodeMembers codec members)) else .error .state := by
  obtain ⟨depth, rest, read, _⟩ := object.parsed
  have filled : state ≠ [] := by
    rintro rfl
    cases depth <;> cases read
  rw [decodeObject, if_neg filled]
  split_ifs with shallow
  · rw [parse_value_shallow read shallow]
    rfl
  · rw [object.unread (Nat.lt_of_not_le shallow)]

theorem unmarshal_patch_iff (spelled : Spells codec text patch levels) :
    unmarshalPatch codec text = if levels ≤ maxNesting then some patch else none := by
  cases spelled with
  | nothing => rfl
  | @written text json patch whole decoded =>
    obtain ⟨depth, rest, read, alone⟩ := whole.parsed
    have filled : text ≠ [] := by
      rintro rfl
      cases depth <;> cases read
    rw [unmarshalPatch, if_neg filled, parseJson]
    split_ifs with shallow
    · rw [parse_value_shallow read shallow]
      simpa [alone] using decoded
    · rw [whole.unread (Nat.lt_of_not_le shallow)]
      rfl

theorem Spells.sets_drawn (spelled : Spells codec text patch levels) (fits : levels ≤ maxNesting) :
    ∀ entry ∈ patch.sets, (∀ key ∈ entry.1, codec.Clean key) ∧
      (entry.2 = [] ∨ ∃ json : Json, json.Sound maxNesting ∧ entry.2 = json.text) := by
  have drawn : ∀ set ∈ patch.set.cells, set.Drawn codec maxNesting := by
    cases spelled with
    | nothing => exact fun _ held => (List.not_mem_nil held).elim
    | written whole decoded => exact decode_patch_drawn (whole.sound.mono fits) decoded
  refine List.forall_mem_map.mpr fun set held => ?_
  have found := drawn set (List.mem_of_mem_take held)
  exact ⟨fun key inside => found.path key (List.mem_of_mem_take inside), found.value⟩

/-- A patch changes what its paths address, the sets in their order and then the removes,
and nothing else; the values that stay are the same `Json`, so a number keeps its lexeme.
Only a state or a patch that nests too deep is refused. -/
theorem reduce_map_addressed (codec : StringCodec) {state text : Text}
    {members : List (Text × Json)} {patch : MapPatch} {levels : Nat}
    (object : IsText state (.object members)) (spelled : Spells codec text patch levels)
    (valid : patch.Valid) :
    ((∃ out, reduceMap codec state text = .ok out) ↔
      (Json.object members).depth ≤ maxNesting ∧ levels ≤ maxNesting) ∧
    ∀ out, reduceMap codec state text = .ok out → Patched codec patch (.object members) out := by
  have reduced : ((Json.object members).depth ≤ maxNesting ∧ levels ≤ maxNesting) →
      ∃ out, reduceMap codec state text = .ok out ∧ Patched codec patch (.object members) out := by
    rintro ⟨shallow, fits⟩
    have map : asObject codec (.object members) =
      some (collect (Json.decodeMembers codec members)) := rfl
    obtain ⟨settled, canonical⟩ := settled_as object.sound map
    have drawn := spelled.sets_drawn fits
    obtain ⟨between, done, kept, sets⟩ := set_all_sets settled
      (fun entry held => ⟨(valid entry held).1, (drawn entry held).1⟩)
      fun entry held => (drawn entry held).2.resolve_left (valid entry held).2
    obtain ⟨last, removes⟩ := remove_all_removes kept patch.removes
    obtain ⟨depth, sound⟩ := last.depth
    refine ⟨_, ?_, mapJson codec between, mapJson codec (removeAll codec between patch.removes),
      ⟨depth, parse_json_text sound⟩, ?_, ?_, removes⟩
    · simp only [reduceMap, decode_object_iff object, if_pos shallow, unmarshal_patch_iff spelled,
        if_pos fits, done]
    · intro path filled
      rw [canonical]
      exact (lookup_as settled map filled).symm
    · rw [canonical]
      exact sets
  have refused : ∀ out, reduceMap codec state text = .ok out →
      (Json.object members).depth ≤ maxNesting ∧ levels ≤ maxNesting := by
    intro out done
    by_contra deep
    rw [reduceMap, decode_object_iff object, unmarshal_patch_iff spelled] at done
    by_cases shallow : (Json.object members).depth ≤ maxNesting
    · rw [if_pos shallow, if_neg fun fits => deep ⟨shallow, fits⟩] at done
      cases done
    · rw [if_neg shallow] at done
      cases done
  refine ⟨⟨fun ⟨out, done⟩ => refused out done, fun fits => (reduced fits).imp fun _ => And.left⟩,
    fun out done => ?_⟩
  obtain ⟨other, same, patched⟩ := reduced (refused out done)
  rw [done] at same
  cases same
  exact patched

def samplePatch : Json :=
  .object [(ascii "set", .array [
      .object [(ascii "path", .array [.string (ascii "a"), .string (ascii "x")]),
        (ascii "value", .scalar (ascii "2"))],
      .object [(ascii "path", .array [.string (ascii "a"), .string (ascii "y")]),
        (ascii "value", .scalar (ascii "3.0"))]]),
    (ascii "remove", .array [.array [.string (ascii "a"), .string (ascii "x")]])]

def sampleDecoded : MapPatch where
  set := ⟨[⟨⟨[ascii "a", ascii "x"], 2⟩, ascii "2"⟩, ⟨⟨[ascii "a", ascii "y"], 2⟩, ascii "3.0"⟩], 2⟩
  remove := ⟨[⟨[ascii "a", ascii "x"], 2⟩], 1⟩

def sampleState : Json :=
  .object [(ascii "a", .scalar (ascii "1.50")), (ascii "b", .scalar (ascii "1e2"))]

/-- Two sets through a scalar and a remove, on a state with numbers of several spellings. -/
theorem patch_through_scalar_addressed :
    ∃ out, reduceMap byteStrings sampleState.text samplePatch.text = .ok out ∧
      out = ascii "\x7b\"a\":\x7b\"y\":3.0\x7d,\"b\":1e2\x7d" ∧
      Patched byteStrings sampleDecoded sampleState out := by
  have object : IsText sampleState.text sampleState := ⟨2, by decide +kernel⟩
  have spelled : Spells byteStrings samplePatch.text sampleDecoded samplePatch.depth :=
    .written ⟨4, by decide +kernel⟩ (by decide +kernel)
  have valid : sampleDecoded.Valid := by
    unfold MapPatch.Valid
    decide
  obtain ⟨accepted, effect⟩ := reduce_map_addressed byteStrings object spelled valid
  obtain ⟨out, reduced⟩ := accepted.mpr (by decide)
  refine ⟨out, reduced, ?_, effect out reduced⟩
  have computed : reduceMap byteStrings sampleState.text samplePatch.text =
      .ok (ascii "\x7b\"a\":\x7b\"y\":3.0\x7d,\"b\":1e2\x7d") := by decide +kernel
  exact Except.ok.inj (reduced.symm.trans computed)

/-- An object that nests one level deeper than the decoder goes is refused. -/
theorem deep_state_refused :
    IsText (Json.object [(ascii "a", tower 9999)]).text (.object [(ascii "a", tower 9999)]) ∧
      Spells byteStrings [] MapPatch.empty 0 ∧ MapPatch.empty.Valid ∧
      reduceMap byteStrings (Json.object [(ascii "a", tower 9999)]).text [] = .error .state := by
  have scans : Scannable (ascii "a") := rfl
  have sound : (Json.object [(ascii "a", tower 9999)]).Sound (9999 + 1 + 1) :=
    .object (List.forall_mem_singleton.mpr scans) (List.forall_mem_singleton.mpr (tower_sound 9999))
  have whole : IsText (Json.object [(ascii "a", tower 9999)]).text
      (.object [(ascii "a", tower 9999)]) := ⟨_, parse_json_text sound⟩
  refine ⟨whole, .nothing, fun _ held => (List.not_mem_nil held).elim, ?_⟩
  rw [reduceMap, decode_object_iff whole, if_neg]
  rw [Json.depth, Json.membersDepth, tower_depth]
  decide

end Patched

end Figwal.Xwal
