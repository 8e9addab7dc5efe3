import Figwal.Lib.Paths
import Figwal.Xwal.FsName

/-!
# Channel specs

What a caller says about a channel, what the manifest keeps of it, and the checks a
spec has to pass before a channel is added. A channel's name is a path below the
root of the store, of one part or more.

Paths are those of a system that separates parts by a slash only. What the reducers
and the codec do is reduced to what the checks ask: whether there is a function, and
whether the codec takes the initial state.
-/

namespace Figwal.Xwal

open Figwal.Lib

set_option autoImplicit false

inductive Kind where
  | log
  | reducible
  | other (value : Int)
  deriving DecidableEq, Repr

/-- `Kind.String`. -/
def Kind.text : Kind → String
  | .reducible => "reducible"
  | .log | .other _ => "log"

theorem Kind.text_eq (kind : Kind) :
    kind.text = if kind = .reducible then "reducible" else "log" := by
  cases kind <;> rfl

structure ChannelSpec where
  name : String
  kind : Kind
  reducer : String
  isOpaque : Bool
  unkeyed : Bool
  deriving DecidableEq, Repr

structure ManifestChannel where
  name : String
  kind : String
  reducer : String
  isOpaque : Bool
  unkeyed : Bool
  deriving DecidableEq, Repr

def ChannelSpec.manifest (spec : ChannelSpec) : ManifestChannel :=
  ⟨spec.name, spec.kind.text, spec.reducer, spec.isOpaque, spec.unkeyed⟩

/-- A reducer: `Reduce` is set, and the codec takes `Initial`. -/
structure RegisteredReducer where
  reduces : Bool
  hashes : Bool
  deriving DecidableEq, Repr

/-- The reducers of the caller, by their own names or by those of channels, and the
built-in ones. -/
structure Registry where
  own : List (String × RegisteredReducer)
  builtin : List (String × RegisteredReducer)

def resolveReducer (registry : Registry) (name channel : String) : Option RegisteredReducer :=
  ((registry.own.lookup name).or (registry.own.lookup channel)).or (registry.builtin.lookup name)

/-- The errors of `validateChannelSpec`. -/
inductive SpecFault where
  | invalidName (name : String)
  | reservedComponent (component : List Char)
  | logWithReducer (name reducer : String)
  | noReducerName (name : String)
  | notRegistered (reducer name : String)
  | invalidInitial (name : String)
  | invalidKind (value : Int) (name : String)
  | notDirectory (name : String)
  | alreadyExists (name kind reducer : String) (isOpaque : Bool)
  deriving DecidableEq, Repr

def manifestName : List Char := "xwal.json".toList

def reservedComponent (component : List Char) : Bool :=
  component.head? = some '.' || component = manifestName ||
    ".tmp".toList.isSuffixOf component || ".invalid".toList.isSuffixOf component ||
      ".replace-pending".toList.isSuffixOf component

def invalidChannelName (name : List Char) : Bool :=
  name = [] || name.head? = some '/' || clean '/' name ≠ name || name = ".".toList ||
    name = "..".toList || "../".toList.isPrefixOf name

def isSlash (char : Char) : Bool :=
  char = '/' || char = '\\'

def validateName (name : String) : Except SpecFault Unit :=
  if invalidChannelName name.toList then .error (.invalidName name)
  else
    match (fields isSlash name.toList).find? reservedComponent with
    | some component => .error (.reservedComponent component)
    | none => .ok ()

def validateKind (registry : Registry) (spec : ChannelSpec) : Except SpecFault Unit :=
  match spec.kind with
  | .log =>
    if spec.reducer ≠ "" then .error (.logWithReducer spec.name spec.reducer) else .ok ()
  | .reducible =>
    if spec.reducer = "" then .error (.noReducerName spec.name)
    else
      match resolveReducer registry spec.reducer spec.name with
      | none => .error (.notRegistered spec.reducer spec.name)
      | some reducer =>
        if !reducer.reduces then .error (.notRegistered spec.reducer spec.name)
        else if !reducer.hashes then .error (.invalidInitial spec.name)
        else .ok ()
  | .other value => .error (.invalidKind value spec.name)

/-- The comparison with the channels there are. Whether a channel is keyed is not
compared. -/
def validateExisting (channels : List ManifestChannel) (spec : ChannelSpec) :
    Except SpecFault Unit :=
  match channels.find? fun existing => existing.name = spec.name &&
      (existing.kind ≠ spec.kind.text || existing.reducer ≠ spec.reducer ||
        existing.isOpaque ≠ spec.isOpaque) with
  | some existing =>
    .error (.alreadyExists spec.name existing.kind existing.reducer existing.isOpaque)
  | none => .ok ()

/-- `validateChannelSpec`. `isFile` says that something other than a directory is
found at the channel's path. -/
def validateChannelSpec (registry : Registry) (channels : List ManifestChannel) (isFile : Bool)
    (spec : ChannelSpec) : Except SpecFault Unit := do
  validateName spec.name
  validateKind registry spec
  if isFile then .error (.notDirectory spec.name) else .ok ()
  validateExisting channels spec

theorem validate_name_of_ok {registry : Registry} {channels : List ManifestChannel}
    {isFile : Bool} {spec : ChannelSpec}
    (valid : validateChannelSpec registry channels isFile spec = .ok ()) :
    validateName spec.name = .ok () := by
  unfold validateChannelSpec at valid
  cases checked : validateName spec.name with
  | error fault =>
    rw [checked] at valid
    cases valid
  | ok _ => rfl

/-- Every channel of the name has the kind, the reducer and the form of the spec. -/
theorem validate_existing_of_ok {registry : Registry} {channels : List ManifestChannel}
    {isFile : Bool} {spec : ChannelSpec}
    (valid : validateChannelSpec registry channels isFile spec = .ok ())
    (existing : ManifestChannel) (member : existing ∈ channels)
    (name : existing.name = spec.name) :
    existing.kind = spec.kind.text ∧ existing.reducer = spec.reducer ∧
      existing.isOpaque = spec.isOpaque := by
  unfold validateChannelSpec at valid
  cases named : validateName spec.name with
  | error fault =>
    rw [named] at valid
    cases valid
  | ok _ =>
    cases typed : validateKind registry spec with
    | error fault =>
      rw [named, typed] at valid
      cases valid
    | ok _ =>
      rw [named, typed] at valid
      cases isFile with
      | true => cases valid
      | false =>
        have checked : validateExisting channels spec = .ok () := valid
        unfold validateExisting at checked
        split at checked
        · cases checked
        · rename_i none
          have clear := List.find?_eq_none.mp none existing member
          simpa [name, and_assoc] using clear

/-!
## The directory of a channel
-/

def channelDir (name : String) : Parts :=
  cleanParts false (name.toList.splitOn '/')

theorem clean_parts_solid {parts : Parts}
    (solid : ∀ part ∈ parts, part ≠ [] ∧ part ≠ ['.'] ∧ part ≠ ['.', '.']) (kept : Parts) :
    parts.foldl (cleanStep false) kept = parts.reverse ++ kept := by
  induction parts generalizing kept with
  | nil => rfl
  | cons part rest ih =>
    obtain ⟨filled, dot, up⟩ := solid part List.mem_cons_self
    have here : cleanStep false kept part = part :: kept := by
      simp [cleanStep, filled, dot, up]
    rw [List.foldl_cons, here, ih fun held member => solid held (List.mem_cons_of_mem _ member),
      List.reverse_cons, List.append_assoc]
    rfl

/-- A name with no hidden component is a path below the root, as it stands. -/
theorem unhidden_name_parts {name : String} (valid : invalidChannelName name.toList = false)
    (shown : ∀ field ∈ fields isSlash name.toList, field.head? ≠ some '.') :
    channelDir name = name.toList.splitOn '/' ∧
      ∀ part ∈ channelDir name, part ≠ [] ∧ part.head? ≠ some '.' := by
  rw [invalidChannelName] at valid
  simp only [Bool.or_eq_false_iff, decide_eq_false_iff_not, Decidable.not_not] at valid
  obtain ⟨⟨⟨⟨⟨_, relative⟩, cleaned⟩, named⟩, _⟩, _⟩ := valid
  have solid := parts_of_clean relative cleaned named
  have plain : ∀ part ∈ name.toList.splitOn '/', part.head? ≠ some '.' := by
    intro part member begins
    obtain ⟨field, found, opens⟩ :=
      @field_of_part isSlash '/' rfl name.toList part '.' member begins rfl
    exact shown field found opens
  have same : channelDir name = name.toList.splitOn '/' := by
    unfold channelDir cleanParts
    rw [clean_parts_solid, List.append_nil, List.reverse_reverse]
    intro part member
    refine ⟨(solid part member).1, (solid part member).2, ?_⟩
    rintro rfl
    exact plain _ member rfl
  refine ⟨same, ?_⟩
  rw [same]
  intro part member
  exact ⟨(solid part member).1, plain part member⟩

/-- An accepted name is a path below the root, as it stands, and none of its parts is
hidden. -/
theorem accepted_name_parts {name : String} (valid : validateName name = .ok ()) :
    channelDir name = name.toList.splitOn '/' ∧
      ∀ part ∈ channelDir name, part ≠ [] ∧ part.head? ≠ some '.' := by
  unfold validateName at valid
  split_ifs at valid with invalid
  apply unhidden_name_parts (Bool.not_eq_true _ ▸ invalid)
  intro field member hidden
  split at valid
  · cases valid
  · rename_i none
    have unreserved := List.find?_eq_none.mp none field member
    simp [reservedComponent, hidden] at unreserved

end Figwal.Xwal
