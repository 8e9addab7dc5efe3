import Figwal.Lib.Runs
import Figwal.Xwal.ChannelSpec
import Figwal.Xwal.IndexRuns

/-!
# Directories of channels and nodes

Every channel has a directory below the root, and every node one inside each
channel's. The names of channels may be paths, so a channel can lie inside the
directory of another. As long as none does, no two channels or nodes share a
directory, and adding a channel puts nothing inside a directory of another.

A `Layout` is the manifest, the keys of the nodes and the directories. Files are left
out, which accepts more names than the source does: nothing is refused here because
a file is in its place.
-/

namespace Figwal.Xwal

variable {fsEncode : Bool} {key : String}

open Figwal.Lib

set_option autoImplicit false

structure Layout where
  fsEncode : Bool
  main : String
  channels : List ManifestChannel
  nodes : List String
  dirs : List Parts
  deriving DecidableEq, Repr

inductive LayoutOp where
  | ensureChannel (spec : ChannelSpec)
  | createStump (name : String)
  | mint (seq : Nat)
  deriving DecidableEq, Repr

inductive LayoutFault where
  | spec (fault : SpecFault)
  | duplicateChannel (name : String)
  | noMain (name : String)
  | conflict (name : String)
  | pathTooLong
  | invalidStump (name : String)
  | stumpExists (name : String)
  deriving DecidableEq, Repr

/-- The directory of a channel at a node; the root of the nodes is the channel's own
directory. -/
def nodeDir (fsEncode : Bool) (channel node : String) : Parts :=
  cleanParts false (channel.toList.splitOn '/' ++ (fsName fsEncode node).toList.splitOn '/')

/-- The walk of `backfillChannel`: the directories of one tree are made in another. A
walk that goes deeper than `depth` meets directories it made itself and does not end
before the system refuses a path. -/
def backfillWalk : Nat → Parts → Parts → List Parts → Except LayoutFault (List Parts)
  | 0, _, _, _ => .error .pathTooLong
  | depth + 1, mainDir, chDir, dirs =>
    let made := mkdirAll dirs chDir
    (subdirs made mainDir).foldlM
      (fun dirs name => backfillWalk depth (mainDir ++ [name]) (chDir ++ [name]) dirs) made

namespace Layout

def backfillChannel (layout : Layout) (name : String) : Except LayoutFault (List Parts) :=
  backfillWalk (layout.dirs.length + 2) (channelDir layout.main) (channelDir name) layout.dirs

/-- `ensureChannel`, up to the logs: the checks, the directories and the manifest. -/
def ensureChannel (registry : Registry) (layout : Layout) (spec : ChannelSpec) :
    Except LayoutFault Layout := do
  (validateChannelSpec registry layout.channels false spec).mapError .spec
  let dirs ← layout.backfillChannel spec.name
  match layout.channels.find? fun existing => existing.name = spec.name with
  | some existing =>
    if existing ≠ spec.manifest then .error (.conflict spec.name)
    else .ok { layout with dirs }
  | none => .ok { layout with dirs, channels := layout.channels ++ [spec.manifest] }

def plant (layout : Layout) (key : String) : Layout :=
  { layout with
    nodes := key :: layout.nodes
    dirs := layout.channels.foldl
      (fun dirs channel => mkdirAll dirs (nodeDir layout.fsEncode channel.name key)) layout.dirs }

def createStump (layout : Layout) (name : String) : Except LayoutFault Layout :=
  if Trunks.invalidStump name then .error (.invalidStump name)
  else if name ∈ layout.nodes then .error (.stumpExists name)
  else .ok (layout.plant name)

/-- `loadOrCreateManifest` and `prepareInitialChannels`. -/
def found (registry : Registry) (fsEncode : Bool) (main : String) :
    List ChannelSpec → List ManifestChannel → Except LayoutFault Layout
  | [], channels =>
    if main ∉ channels.map ManifestChannel.name then .error (.noMain main)
    else .ok {
      fsEncode, main, channels
      nodes := []
      dirs := channels.foldl (fun dirs channel => mkdirAll dirs (channelDir channel.name)) [] }
  | spec :: rest, channels =>
    if spec.name ∈ channels.map ManifestChannel.name then .error (.duplicateChannel spec.name)
    else
      match validateChannelSpec registry channels false spec with
      | .error fault => .error (.spec fault)
      | .ok () => found registry fsEncode main rest (channels ++ [spec.manifest])

def step (registry : Registry) (layout : Layout) : LayoutOp → Except LayoutFault Layout
  | .ensureChannel spec => layout.ensureChannel registry spec
  | .createStump name => layout.createStump name
  | .mint seq => .ok (layout.plant (nodeName seq))

def apply (registry : Registry) (layout : Layout) (op : LayoutOp) : Layout :=
  (layout.step registry op).toOption.getD layout

end Layout

/-!
## The directory of a node
-/

theorem fs_name_no_slash (plain : '/' ∉ key.toList) : '/' ∉ (fsName fsEncode key).toList := by
  unfold fsName
  split_ifs
  · exact plain
  · rw [String.toList_ofList]
    intro member
    rcases mem_encode_name member with inside | percent | digit
    · exact plain inside
    · cases percent
    · exact absurd digit (by decide)

theorem fs_name_empty (named : key ≠ "") : (fsName fsEncode key).toList ≠ [] := by
  intro empty
  apply named
  apply fs_name_injective fsEncode
  rw [String.toList_eq_nil_iff.mp empty]
  cases fsEncode <;> rfl

theorem node_dir_root (fsEncode : Bool) (channel : String) :
    nodeDir fsEncode channel "" = channelDir channel := by
  have root : (fsName fsEncode "").toList.splitOn '/' = [[]] := by cases fsEncode <;> rfl
  rw [nodeDir, root, channelDir, cleanParts, cleanParts, List.foldl_append]
  rfl

theorem node_dir_key (nameable : Nameable key) (channel : String) :
    nodeDir fsEncode channel key = channelDir channel ++ [(fsName fsEncode key).toList] := by
  have whole : (fsName fsEncode key).toList.splitOn '/' = [(fsName fsEncode key).toList] :=
    List.splitOn_eq_singleton (fs_name_no_slash nameable.2.2)
  have shown : (fsName fsEncode key).toList.head? ≠ some '.' := fs_name_head nameable.2.1
  have kept : ∀ parts, cleanStep false parts (fsName fsEncode key).toList =
      (fsName fsEncode key).toList :: parts := by
    intro parts
    unfold cleanStep
    rw [if_neg, if_neg]
    · intro up
      exact shown (by rw [up]; rfl)
    · rintro (empty | dot)
      · exact fs_name_empty nameable.1 empty
      · exact shown (by rw [dot]; rfl)
  rw [nodeDir, whole, channelDir, cleanParts, cleanParts, List.foldl_append, List.foldl_cons,
    List.foldl_nil, kept, List.reverse_cons]

def innerDir (fsEncode : Bool) (key : String) : Parts :=
  if key = "" then [] else [(fsName fsEncode key).toList]

theorem node_dir_eq (known : key = "" ∨ Nameable key) (channel : String) :
    nodeDir fsEncode channel key = channelDir channel ++ innerDir fsEncode key := by
  rcases known with rfl | nameable
  · rw [node_dir_root]
    exact (List.append_nil _).symm
  · rw [node_dir_key nameable, innerDir, if_neg nameable.1]

theorem inner_dir_injective (fsEncode : Bool) : Function.Injective (innerDir fsEncode) := by
  intro left right same
  unfold innerDir at same
  split_ifs at same with first second second
  · exact first.trans second.symm
  · exact fs_name_injective fsEncode (String.toList_inj.mp (List.singleton_inj.mp same))

/-!
## The walk over a flat tree
-/

section Walk

variable {tops : List Parts} {names : List Part} {dirs : List Parts} {mainDir chDir : Parts}

theorem backfill_walk_leaf (free : PrefixFree tops) (placed : Placed tops names dirs)
    (mainTop : mainDir ∈ tops) (chTop : chDir ∈ tops) {name : Part} (among : name ∈ names)
    (depth : Nat) :
    backfillWalk (depth + 1) (mainDir ++ [name]) (chDir ++ [name]) dirs =
      .ok (mkdirAll dirs (chDir ++ [name])) := by
  have made : Placed tops names (mkdirAll dirs (chDir ++ [name])) :=
    placed.mkdir_all chTop (Or.inr ⟨name, among, rfl⟩)
  have none : subdirs (mkdirAll dirs (chDir ++ [name])) (mainDir ++ [name]) = [] := by
    apply List.eq_nil_iff_forall_not_mem.mpr
    intro inner member
    exact made.leaf free mainTop name inner (mem_subdirs.mp member).1
  unfold backfillWalk
  simp only [none]
  rfl

theorem backfill_walk_children (free : PrefixFree tops) (mainTop : mainDir ∈ tops)
    (chTop : chDir ∈ tops) (depth : Nat) (held : List Part) (inside : held ⊆ names)
    (placed : Placed tops names dirs) :
    ∃ filled, held.foldlM (fun dirs name =>
        backfillWalk (depth + 1) (mainDir ++ [name]) (chDir ++ [name]) dirs) dirs = .ok filled ∧
      Placed tops names filled ∧
      ∀ dir, dir ∈ filled ↔ dir ∈ dirs ∨ ∃ name ∈ held, dir ≠ [] ∧ dir <+: chDir ++ [name] := by
  induction held generalizing dirs with
  | nil => exact ⟨dirs, rfl, placed, by simp⟩
  | cons name rest ih =>
    have among : name ∈ names := inside List.mem_cons_self
    obtain ⟨filled, done, later, members⟩ :=
      ih (fun other member => inside (List.mem_cons_of_mem _ member))
        (placed.mkdir_all chTop (Or.inr ⟨name, among, rfl⟩))
    refine ⟨filled, ?_, later, ?_⟩
    · rw [List.foldlM_cons, backfill_walk_leaf free placed mainTop chTop among]
      exact done
    · intro dir
      simp only [members dir, mem_mkdir_all, List.mem_cons, exists_eq_or_imp, or_assoc]

/-- The walk makes the channel's directory, and inside it those the main channel has. -/
theorem backfill_walk_spec (free : PrefixFree tops) (placed : Placed tops names dirs)
    (mainTop : mainDir ∈ tops) (chTop : chDir ∈ tops) (depth : Nat) :
    ∃ filled, backfillWalk (depth + 2) mainDir chDir dirs = .ok filled ∧
      Placed tops names filled ∧ dirs ⊆ filled ∧
      (∀ name, mainDir ++ [name] ∈ dirs → name.head? ≠ some '.' → chDir ++ [name] ∈ filled) ∧
      ∀ dir ∈ filled, dir ∈ dirs ∨ dir <+: chDir ∨ ∃ name ∈ names, dir = chDir ++ [name] := by
  have made : Placed tops names (mkdirAll dirs chDir) := placed.mkdir_all chTop (Or.inl rfl)
  have inside : subdirs (mkdirAll dirs chDir) mainDir ⊆ names := by
    intro name member
    exact made.inside free mainTop (mem_subdirs.mp member).1
  obtain ⟨filled, done, later, members⟩ :=
    backfill_walk_children free mainTop chTop depth _ inside made
  refine ⟨filled, ?_, later, ?_, ?_, ?_⟩
  · exact done
  · intro dir old
    exact (members dir).mpr (Or.inl (mem_mkdir_all.mpr (Or.inl old)))
  · intro name listed shown
    refine (members _).mpr (Or.inr ⟨name, ?_, by simp, List.prefix_refl _⟩)
    exact mem_subdirs.mpr ⟨mem_mkdir_all.mpr (Or.inl listed), shown⟩
  · intro dir member
    rcases (members dir).mp member with early | ⟨name, held, _, above⟩
    · rcases mem_mkdir_all.mp early with old | ⟨_, above⟩
      · exact Or.inl old
      · exact Or.inr (Or.inl above)
    · rcases List.prefix_concat_iff.mp above with whole | outer
      · exact Or.inr (Or.inr ⟨name, inside held, whole⟩)
      · exact Or.inr (Or.inl outer)

end Walk

theorem mem_fold_mkdir {Item : Type} (path : Item → Parts) (items : List Item) (dirs : List Parts)
    (dir : Parts) :
    dir ∈ items.foldl (fun dirs item => mkdirAll dirs (path item)) dirs ↔
      dir ∈ dirs ∨ ∃ item ∈ items, dir ≠ [] ∧ dir <+: path item := by
  induction items generalizing dirs with
  | nil => simp
  | cons item rest ih =>
    rw [List.foldl_cons, ih]
    simp only [mem_mkdir_all, List.mem_cons, exists_eq_or_imp, or_assoc]

/-!
## Runs
-/

namespace Layout

def tops (layout : Layout) : List Parts :=
  layout.channels.map fun channel => channelDir channel.name

def names (layout : Layout) : List Part :=
  layout.nodes.map fun key => (fsName layout.fsEncode key).toList

/-- No channel lies inside another, and the directories are those of the channels and
nodes and those around them. -/
structure Flat (layout : Layout) : Prop where
  apart : ∀ left ∈ layout.channels, ∀ right ∈ layout.channels,
    channelDir left.name <+: channelDir right.name → left.name = right.name
  accepted : ∀ channel ∈ layout.channels, validateName channel.name = .ok ()
  main : ∃ channel ∈ layout.channels, channel.name = layout.main
  keys : ∀ key ∈ layout.nodes, Nameable key
  placed : Placed layout.tops layout.names layout.dirs
  complete : ∀ channel ∈ layout.channels, ∀ key ∈ layout.nodes,
    nodeDir layout.fsEncode channel.name key ∈ layout.dirs

/-- No two channels or nodes share a directory; the parts of a directory's path are
plain names, and a node's key can be told from its name. -/
structure Separate (layout : Layout) : Prop where
  distinct : ∀ left ∈ layout.channels, ∀ right ∈ layout.channels,
    ∀ key ∈ "" :: layout.nodes, ∀ other ∈ "" :: layout.nodes,
    nodeDir layout.fsEncode left.name key = nodeDir layout.fsEncode right.name other →
      left.name = right.name ∧ key = other
  roots : ∀ left ∈ layout.channels, ∀ right ∈ layout.channels, left.name ≠ right.name →
    ∀ key ∈ "" :: layout.nodes, channelDir left.name ≠ nodeDir layout.fsEncode right.name key
  plain : ∀ channel ∈ layout.channels, ∀ key ∈ "" :: layout.nodes,
    ∀ part ∈ nodeDir layout.fsEncode channel.name key, part ≠ [] ∧ part.head? ≠ some '.'
  keyed : ∀ key ∈ layout.nodes, keyName layout.fsEncode (fsName layout.fsEncode key) = key

variable {layout : Layout}

theorem Flat.prefix_free (flat : layout.Flat) : PrefixFree layout.tops := by
  intro left first right second above
  obtain ⟨channel, member, rfl⟩ := List.mem_map.mp first
  obtain ⟨other, known, rfl⟩ := List.mem_map.mp second
  rw [flat.apart channel member other known above]

theorem Flat.known (flat : layout.Flat) {key : String} (member : key ∈ "" :: layout.nodes) :
    key = "" ∨ Nameable key :=
  (List.mem_cons.mp member).imp id (flat.keys key)

theorem Flat.separate (flat : layout.Flat) : layout.Separate := by
  have distinct : ∀ left ∈ layout.channels, ∀ right ∈ layout.channels,
      ∀ key ∈ "" :: layout.nodes, ∀ other ∈ "" :: layout.nodes,
      nodeDir layout.fsEncode left.name key = nodeDir layout.fsEncode right.name other →
        left.name = right.name ∧ key = other := by
    intro left first right second key held other known same
    rw [node_dir_eq (flat.known held), node_dir_eq (flat.known known)] at same
    obtain ⟨tops, inner⟩ := flat.prefix_free.place_injective
      (List.mem_map.mpr ⟨left, first, rfl⟩) (List.mem_map.mpr ⟨right, second, rfl⟩) same
    exact ⟨flat.apart left first right second (tops ▸ List.prefix_refl _),
      inner_dir_injective layout.fsEncode inner⟩
  refine ⟨distinct, ?_, ?_, fun key _ => key_name_fs_name layout.fsEncode key⟩
  · intro left first right second differ key held same
    rw [← node_dir_root layout.fsEncode] at same
    exact differ (distinct left first right second "" List.mem_cons_self key held same).1
  · intro channel member key held part inside
    rw [node_dir_eq (flat.known held)] at inside
    rcases List.mem_append.mp inside with top | inner
    · exact (accepted_name_parts (flat.accepted channel member)).2 part top
    · rcases flat.known held with rfl | nameable
      · cases inner
      · rw [innerDir, if_neg nameable.1, List.mem_singleton] at inner
        rw [inner]
        exact ⟨fs_name_empty nameable.1, fs_name_head nameable.2.1⟩

theorem Flat.plant (flat : layout.Flat) {key : String} (nameable : Nameable key) :
    (layout.plant key).Flat := by
  have members := mem_fold_mkdir
    (fun channel : ManifestChannel => nodeDir layout.fsEncode channel.name key) layout.channels
    layout.dirs
  refine ⟨flat.apart, flat.accepted, flat.main, ?_, ?_, ?_⟩
  · intro held member
    rcases List.mem_cons.mp member with rfl | older
    · exact nameable
    · exact flat.keys held older
  · intro dir member
    rcases (members dir).mp member with old | ⟨channel, listed, _, above⟩
    · exact flat.placed.mono (List.Subset.refl _) (List.subset_cons_self _ _) dir old
    · refine ⟨channelDir channel.name, List.mem_map.mpr ⟨channel, listed, rfl⟩, ?_⟩
      rw [node_dir_key nameable] at above
      rcases List.prefix_concat_iff.mp above with whole | outer
      · exact Or.inr ⟨_, List.mem_cons_self, whole⟩
      · exact Or.inl outer
  · intro channel listed held member
    apply (members _).mpr
    rcases List.mem_cons.mp member with rfl | older
    · refine Or.inr ⟨channel, listed, ?_, List.prefix_refl _⟩
      rw [node_dir_key nameable]
      simp
    · exact Or.inl (flat.complete channel listed held older)

/-- The new channel neither lies inside a channel's directory nor has one inside its
own. -/
def Beside (layout : Layout) (spec : ChannelSpec) : Prop :=
  ∀ channel ∈ layout.channels, channel.name = spec.name ∨
    ¬channelDir channel.name <+: channelDir spec.name ∧
      ¬channelDir spec.name <+: channelDir channel.name

instance (layout : Layout) (spec : ChannelSpec) : Decidable (layout.Beside spec) :=
  inferInstanceAs (Decidable (∀ channel ∈ layout.channels, _ ∨ _ ∧ _))

structure Added (layout : Layout) (spec : ChannelSpec) (next : Layout) : Prop where
  flat : next.Flat
  quiet : ∀ channel ∈ layout.channels, ∀ key ∈ "" :: layout.nodes,
    hasSubdirs next.dirs (nodeDir layout.fsEncode channel.name key) = true →
      hasSubdirs layout.dirs (nodeDir layout.fsEncode channel.name key) = true

section Adding

variable {spec : ChannelSpec}

theorem Flat.prefix_free_cons (flat : layout.Flat) (beside : layout.Beside spec) :
    PrefixFree (channelDir spec.name :: layout.tops) := by
  have each : ∀ channel ∈ layout.channels,
      channelDir channel.name = channelDir spec.name ∨
      ¬channelDir channel.name <+: channelDir spec.name ∧
        ¬channelDir spec.name <+: channelDir channel.name := by
    intro channel member
    exact (beside channel member).imp (fun same => by rw [same]) id
  intro left first right second above
  rcases List.mem_cons.mp first with rfl | old
  · rcases List.mem_cons.mp second with rfl | listed
    · rfl
    · obtain ⟨channel, member, rfl⟩ := List.mem_map.mp listed
      exact (each channel member).elim Eq.symm fun differ => absurd above differ.2
  · obtain ⟨channel, member, rfl⟩ := List.mem_map.mp old
    rcases List.mem_cons.mp second with rfl | listed
    · exact (each channel member).elim id fun differ => absurd above differ.1
    · exact flat.prefix_free _ old _ listed above

theorem Flat.quiet_walk (flat : layout.Flat) (beside : layout.Beside spec) {filled : List Parts}
    (members : ∀ dir ∈ filled, dir ∈ layout.dirs ∨ dir <+: channelDir spec.name ∨
      ∃ name ∈ layout.names, dir = channelDir spec.name ++ [name])
    {channel : ManifestChannel} (listed : channel ∈ layout.channels) {key : String}
    (held : key ∈ "" :: layout.nodes)
    (frozen : hasSubdirs filled (nodeDir layout.fsEncode channel.name key) = true) :
    hasSubdirs layout.dirs (nodeDir layout.fsEncode channel.name key) = true := by
  have free := flat.prefix_free_cons beside
  have old : channelDir channel.name ∈ channelDir spec.name :: layout.tops :=
    List.mem_cons_of_mem _ (List.mem_map.mpr ⟨channel, listed, rfl⟩)
  obtain ⟨inner, inside, shown⟩ := has_subdirs_iff.mp frozen
  apply has_subdirs_iff.mpr
  refine ⟨inner, ?_, shown⟩
  rw [node_dir_eq (flat.known held), List.append_assoc] at inside ⊢
  rcases members _ inside with present | above | ⟨name, among, same⟩
  · exact present
  · have equal := free _ old _ List.mem_cons_self ((List.prefix_append _ _).trans above)
    have longer := above.length_le
    rw [← equal, List.length_append, List.length_append, List.length_singleton] at longer
    omega
  · -- the channel itself is gone over again, and has the directories of all nodes
    obtain ⟨tops, ends⟩ := free.place_injective old List.mem_cons_self same
    obtain ⟨node, known, rfl⟩ := List.mem_map.mp among
    have complete := flat.complete channel listed node known
    rw [node_dir_key (flat.keys node known)] at complete
    rw [ends]
    exact complete

theorem ensure_channel_ok {registry : Registry} {next : Layout}
    (done : layout.ensureChannel registry spec = .ok next) :
    validateName spec.name = .ok () ∧ ∃ dirs, layout.backfillChannel spec.name = .ok dirs ∧
      ((∃ existing ∈ layout.channels, existing.name = spec.name ∧ next = { layout with dirs }) ∨
        next = { layout with dirs, channels := layout.channels ++ [spec.manifest] }) := by
  unfold ensureChannel at done
  cases checked : validateChannelSpec registry layout.channels false spec with
  | error fault =>
    rw [checked] at done
    cases done
  | ok _ =>
    rw [checked] at done
    refine ⟨validate_name_of_ok checked, ?_⟩
    cases walked : layout.backfillChannel spec.name with
    | error fault =>
      rw [walked] at done
      cases done
    | ok dirs =>
      rw [walked] at done
      refine ⟨dirs, rfl, ?_⟩
      cases found : layout.channels.find? fun existing => existing.name = spec.name with
      | none =>
        simp only [found, Except.mapError, bind, Except.bind] at done
        cases done
        exact Or.inr rfl
      | some existing =>
        simp only [found, Except.mapError, bind, Except.bind] at done
        split_ifs at done
        cases done
        exact Or.inl ⟨existing, List.mem_of_find?_eq_some found,
          by simpa using List.find?_some found, rfl⟩

theorem Flat.ensure_channel (flat : layout.Flat) {registry : Registry} {next : Layout}
    (beside : layout.Beside spec) (done : layout.ensureChannel registry spec = .ok next) :
    layout.Added spec next := by
  obtain ⟨accepted, dirs, walked, ends⟩ := ensure_channel_ok done
  obtain ⟨home, homeListed, homeName⟩ := flat.main
  have mainTop : channelDir layout.main ∈ channelDir spec.name :: layout.tops :=
    List.mem_cons_of_mem _ (List.mem_map.mpr ⟨home, homeListed, by rw [homeName]⟩)
  obtain ⟨filled, again, placed, kept, mirrored, members⟩ := backfill_walk_spec
    (flat.prefix_free_cons beside)
    (flat.placed.mono (List.subset_cons_self (channelDir spec.name) layout.tops)
      (List.Subset.refl _)) mainTop List.mem_cons_self layout.dirs.length
  have same : dirs = filled := Except.ok.inj (walked.symm.trans again)
  subst same
  have quiet : ∀ channel ∈ layout.channels, ∀ key ∈ "" :: layout.nodes,
      hasSubdirs dirs (nodeDir layout.fsEncode channel.name key) = true →
        hasSubdirs layout.dirs (nodeDir layout.fsEncode channel.name key) = true :=
    fun channel listed key held => flat.quiet_walk beside members listed held
  rcases ends with ⟨existing, listed, name, rfl⟩ | rfl
  · refine ⟨⟨flat.apart, flat.accepted, flat.main, flat.keys, ?_, ?_⟩, quiet⟩
    · apply placed.mono _ (List.Subset.refl _)
      apply List.cons_subset.mpr
      exact ⟨List.mem_map.mpr ⟨existing, listed, by rw [name]⟩, List.Subset.refl _⟩
    · intro channel member key held
      exact kept (flat.complete channel member key held)
  · refine ⟨⟨?_, ?_, ?_, flat.keys, ?_, ?_⟩, quiet⟩
    · intro left first right second above
      have each : ∀ channel ∈ layout.channels ++ [spec.manifest],
          channel ∈ layout.channels ∨ channel.name = spec.name := by
        intro channel member
        rcases List.mem_append.mp member with old | new
        · exact Or.inl old
        · exact Or.inr (by rw [List.mem_singleton.mp new]; rfl)
      rcases each left first with old | new <;> rcases each right second with also | fresh
      · exact flat.apart left old right also above
      · rw [fresh] at above ⊢
        exact (beside left old).elim id fun differ => absurd above differ.1
      · rw [new] at above ⊢
        exact (beside right also).elim Eq.symm fun differ => absurd above differ.2
      · exact new.trans fresh.symm
    · intro channel member
      rcases List.mem_append.mp member with old | new
      · exact flat.accepted channel old
      · rw [List.mem_singleton.mp new]
        exact accepted
    · exact ⟨home, List.mem_append_left _ homeListed, homeName⟩
    · apply placed.mono _ (List.Subset.refl _)
      intro top member
      change top ∈ (layout.channels ++ [spec.manifest]).map _
      rw [List.map_append, List.mem_append]
      exact (List.mem_cons.mp member).symm.imp id fun new => by
        rw [new]
        exact List.mem_singleton.mpr rfl
    · intro channel member key held
      rcases List.mem_append.mp member with old | new
      · exact kept (flat.complete channel old key held)
      · rw [List.mem_singleton.mp new]
        have mirror := flat.complete home homeListed key held
        rw [node_dir_key (flat.keys key held), homeName] at mirror
        rw [node_dir_key (flat.keys key held)]
        exact mirrored _ mirror (fs_name_head (flat.keys key held).2.1)

end Adding

/-!
## Founding a store
-/

theorem found_ok {registry : Registry} {fsEncode : Bool} {main : String}
    {specs : List ChannelSpec} {channels : List ManifestChannel}
    (founded : found registry fsEncode main specs channels = .ok layout) :
    layout.channels = channels ++ specs.map ChannelSpec.manifest ∧
      (∀ spec ∈ specs, validateName spec.name = .ok ()) ∧ layout.nodes = [] ∧
      main ∈ layout.channels.map ManifestChannel.name ∧ layout.main = main ∧
      layout.dirs = layout.channels.foldl
        (fun dirs channel => mkdirAll dirs (channelDir channel.name)) [] := by
  induction specs generalizing channels with
  | nil =>
    rw [found] at founded
    split_ifs at founded with missing
    cases founded
    exact ⟨by simp, by simp, rfl, missing, rfl, rfl⟩
  | cons spec rest ih =>
    rw [found] at founded
    split_ifs at founded
    split at founded
    · cases founded
    · rename_i checked
      obtain ⟨listed, valid, later⟩ := ih founded
      refine ⟨?_, ?_, later⟩
      · rw [listed, List.map_cons, List.append_assoc]
        rfl
      · intro held member
        rcases List.mem_cons.mp member with rfl | older
        · exact validate_name_of_ok checked
        · exact valid held older

def SpecsBeside (specs : List ChannelSpec) : Prop :=
  ∀ left ∈ specs, ∀ right ∈ specs,
    channelDir left.name <+: channelDir right.name → left.name = right.name

instance (specs : List ChannelSpec) : Decidable (SpecsBeside specs) :=
  inferInstanceAs (Decidable (∀ left ∈ specs, ∀ right ∈ specs, _ → _))

theorem found_flat {registry : Registry} {fsEncode : Bool} {main : String}
    {specs : List ChannelSpec} (beside : SpecsBeside specs)
    (founded : found registry fsEncode main specs [] = .ok layout) : layout.Flat := by
  obtain ⟨listed, valid, empty, named, home, made⟩ := found_ok founded
  rw [List.nil_append] at listed
  have origin : ∀ channel ∈ layout.channels, ∃ spec ∈ specs, channel.name = spec.name := by
    intro channel member
    rw [listed] at member
    obtain ⟨spec, among, rfl⟩ := List.mem_map.mp member
    exact ⟨spec, among, rfl⟩
  refine ⟨?_, ?_, ?_, by simp [empty], ?_, by simp [empty]⟩
  · intro left first right second above
    obtain ⟨spec, among, name⟩ := origin left first
    obtain ⟨other, known, otherName⟩ := origin right second
    rw [name, otherName] at above ⊢
    exact beside spec among other known above
  · intro channel member
    obtain ⟨spec, among, name⟩ := origin channel member
    rw [name]
    exact valid spec among
  · obtain ⟨channel, member, name⟩ := List.mem_map.mp named
    exact ⟨channel, member, name.trans home.symm⟩
  · intro dir member
    rw [made] at member
    rcases (mem_fold_mkdir _ layout.channels [] dir).mp member with none | ⟨channel, old, _, above⟩
    · cases none
    · exact ⟨channelDir channel.name, List.mem_map.mpr ⟨channel, old, rfl⟩, Or.inl above⟩

end Layout

namespace LayoutOp

def Beside (layout : Layout) : LayoutOp → Prop
  | .ensureChannel spec => layout.Beside spec
  | .createStump _ | .mint _ => True

instance (layout : Layout) : (op : LayoutOp) → Decidable (Beside layout op)
  | .ensureChannel spec => inferInstanceAs (Decidable (layout.Beside spec))
  | .createStump _ => .isTrue trivial
  | .mint _ => .isTrue trivial

/-- The directories stay separate, and no log becomes read-only by adding a channel. -/
structure KeepsSeparate (registry : Registry) (layout : Layout) (op : LayoutOp) : Prop where
  separate : (layout.apply registry op).Separate
  writable : ∀ spec, op = .ensureChannel spec →
    ∀ channel ∈ layout.channels, ∀ key ∈ "" :: layout.nodes,
      hasSubdirs (layout.apply registry op).dirs (nodeDir layout.fsEncode channel.name key) = true →
        hasSubdirs layout.dirs (nodeDir layout.fsEncode channel.name key) = true

theorem flat_step {registry : Registry} {layout : Layout} (flat : layout.Flat) {op : LayoutOp}
    (beside : Beside layout op) :
    KeepsSeparate registry layout op ∧ (layout.apply registry op).Flat := by
  cases done : layout.step registry op with
  | error fault =>
    have same : layout.apply registry op = layout := by rw [Layout.apply, done]; rfl
    refine ⟨⟨?_, ?_⟩, ?_⟩
    · rw [same]
      exact flat.separate
    · rw [same]
      intro _ _ _ _ _ _ frozen
      exact frozen
    · rw [same]
      exact flat
  | ok next =>
    have same : layout.apply registry op = next := by rw [Layout.apply, done]; rfl
    rw [same]
    cases op with
    | ensureChannel spec =>
      have added := flat.ensure_channel beside done
      refine ⟨⟨?_, ?_⟩, added.flat⟩
      · rw [same]
        exact added.flat.separate
      · rw [same]
        intro _ _
        exact added.quiet
    | createStump name =>
      have planted : next.Flat := by
        change layout.createStump name = .ok next at done
        unfold Layout.createStump at done
        split_ifs at done with invalid
        cases done
        exact flat.plant (invalid_stump_nameable (Bool.not_eq_true _ ▸ invalid))
      exact ⟨⟨by rw [same]; exact planted.separate, fun _ other => by cases other⟩, planted⟩
    | mint seq =>
      have planted : next.Flat := by
        cases done
        exact flat.plant (node_name_nameable seq)
      exact ⟨⟨by rw [same]; exact planted.separate, fun _ other => by cases other⟩, planted⟩

/-- In every run of a store whose channels are all added beside each other, under
either naming, no two channels or nodes share a directory and no log becomes
read-only by adding a channel. -/
theorem directories_stay_separate (registry : Registry) (fsEncode : Bool) (main : String)
    (specs : List ChannelSpec) (layout : Layout)
    (founded : Layout.found registry fsEncode main specs [] = .ok layout)
    (besides : Layout.SpecsBeside specs) (run : List LayoutOp)
    (beside : EveryStep (Layout.apply registry) Beside layout run) :
    layout.Separate ∧ EveryStep (Layout.apply registry) (KeepsSeparate registry) layout run := by
  have flat := Layout.found_flat besides founded
  refine ⟨flat.separate, ?_⟩
  apply every_step_of_invariant (Layout.apply registry) Layout.Flat _ flat beside
  intro layout op kept fits
  exact flat_step kept fits

def logSpec (name : String) : ChannelSpec :=
  ⟨name, .log, "", false, false⟩

def twoChannels : Layout where
  fsEncode := false
  main := "ir"
  channels := [(logSpec "ir").manifest, (logSpec "ctx").manifest]
  nodes := []
  dirs := [["ir".toList], ["ctx".toList]]

/-- A channel named like the directory of a node is that directory, and one named
like a path inside it freezes the node's log. -/
theorem nested_channel_overlaps :
    Layout.found ⟨[], []⟩ false "ir" [logSpec "ir", logSpec "ctx"] [] = .ok twoChannels ∧
      ¬EveryStep (Layout.apply ⟨[], []⟩) (KeepsSeparate ⟨[], []⟩) twoChannels
        [.mint 0, .ensureChannel (logSpec "ctx/n0")] ∧
      ¬EveryStep (Layout.apply ⟨[], []⟩) (KeepsSeparate ⟨[], []⟩) twoChannels
        [.mint 0, .ensureChannel (logSpec "ctx/n0/x")] := by
  refine ⟨by decide +kernel, ?_, ?_⟩
  · intro good
    have shared := good.2.1.separate.distinct (logSpec "ctx").manifest (by decide +kernel)
      (logSpec "ctx/n0").manifest (by decide +kernel) "n0" (by decide +kernel) ""
      (by decide +kernel) (by decide +kernel)
    exact absurd shared.2 (by decide)
  · intro good
    have frozen := good.2.1.writable _ rfl (logSpec "ctx").manifest (by decide +kernel) "n0"
      (by decide +kernel) (by decide +kernel)
    exact absurd frozen (by decide +kernel)

theorem channels_beside_each_other :
    twoChannels.Separate ∧
      EveryStep (Layout.apply ⟨[], []⟩) (KeepsSeparate ⟨[], []⟩) twoChannels
        [.mint 0, .createStump "base@1", .ensureChannel (logSpec "notes/a"), .mint 1,
          .ensureChannel (logSpec "notes/b"), .ensureChannel (logSpec "ctx")] :=
  directories_stay_separate ⟨[], []⟩ false "ir" [logSpec "ir", logSpec "ctx"] twoChannels
    (by decide +kernel) (by decide +kernel) _ (by decide +kernel)

end LayoutOp

end Figwal.Xwal
