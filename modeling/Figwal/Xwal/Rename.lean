import Figwal.Lib.Recovery
import Figwal.Lib.FileTree
import Figwal.Xwal.ChannelSpec

/-!
# Renaming a channel

`RenameChannel` moves the directory of a channel and then rewrites the manifest. One
pass over the manifest decides whether there is anything to do. The pass takes the
new name for the sign of a finished renaming if it comes before the old one, and the
move takes along what other channels have inside the directory. Otherwise exactly one
channel is renamed, also if some runs crash before one ends.
-/

namespace Figwal.Xwal

open Figwal.Lib

set_option autoImplicit false

variable {α : Type}

structure StoreDir (α : Type) where
  main : String
  channels : List ManifestChannel
  tree : FileTree α
  deriving DecidableEq

inductive RenameFault where
  | source (fault : SpecFault)
  | target (fault : SpecFault)
  | bothExist
  | noChannel
  | targetExists
  | notDirectory
  | intoItself
  deriving DecidableEq, Repr

inductive Verdict where
  | alreadyRenamed
  | bothExist
  | found
  | missing
  deriving DecidableEq, Repr

def validChannelName (name : String) : Except SpecFault Unit :=
  if invalidChannelName name.toList then .error (.invalidName name)
  else
    match (fields isSlash name.toList).find? fun component =>
        component.head? = some '.' || component = manifestName with
    | some component => .error (.reservedComponent component)
    | none => .ok ()

theorem valid_channel_dir {name : String} (valid : validChannelName name = .ok ()) :
    channelDir name ≠ [] := by
  unfold validChannelName at valid
  split_ifs at valid with invalid
  have shown : ∀ field ∈ fields isSlash name.toList, field.head? ≠ some '.' := by
    intro field member hidden
    split at valid
    · cases valid
    · rename_i none
      have unreserved := List.find?_eq_none.mp none field member
      simp [hidden] at unreserved
  rw [(unhidden_name_parts (Bool.not_eq_true _ ▸ invalid) shown).1]
  exact List.splitOn_ne_nil '/' _

def verdict (source target : String) : Bool → List String → Verdict
  | found, [] => if found then .found else .missing
  | found, name :: rest =>
    if name = source then verdict source target true rest
    else if name = target then if found then .bothExist else .alreadyRenamed
    else verdict source target found rest

/-- The entry of a channel under its new name. A reducer of the same name follows. -/
def ManifestChannel.renamed (source target : String) (channel : ManifestChannel) :
    ManifestChannel :=
  if channel.name = source then
    { channel with
      name := target
      reducer := if channel.reducer = source then target else channel.reducer }
  else channel

namespace StoreDir

def names (store : StoreDir α) : List String :=
  store.channels.map ManifestChannel.name

def relisted (store : StoreDir α) (source target : String) : StoreDir α :=
  { store with
    main := if store.main = source then target else store.main
    channels := store.channels.map (ManifestChannel.renamed source target) }

/-- The move of the directory: how it ends, and the store after each change. -/
def moveDir (store : StoreDir α) (source target : String) :
    Except RenameFault Unit × List (StoreDir α) :=
  if store.tree.present (channelDir source) then
    if store.tree.present (channelDir target) then (.error .targetExists, [])
    else
      let made := store.tree.mkdirs ((channelDir target).dropLast.inits.filter (· ≠ []))
      let stores := made.2.map fun tree => { store with tree }
      let last := (stores.getLast?).getD store
      if !made.1 then (.error .notDirectory, stores)
      else if channelDir source <+: channelDir target then (.error .intoItself, stores)
      else (.ok (), stores ++
        [{ last with tree := last.tree.move (channelDir source) (channelDir target) }])
  else (.ok (), [])

def relist (store : StoreDir α) (source target : String) :
    Except RenameFault Unit × List (StoreDir α) → Except RenameFault Unit × List (StoreDir α)
  | (.error fault, stores) => (.error fault, stores)
  | (.ok (), stores) =>
    (.ok (), stores ++ [((stores.getLast?).getD store).relisted source target])

/-- `RenameChannel`: how it ends, and the store after each durable change. -/
def renameChannel (source target : String) (store : StoreDir α) :
    Except RenameFault Unit × List (StoreDir α) :=
  match validChannelName source, validChannelName target with
  | .error fault, _ => (.error (.source fault), [])
  | .ok (), .error fault => (.error (.target fault), [])
  | .ok (), .ok () =>
    if source = target then (.ok (), [])
    else
      match verdict source target false store.names with
      | .alreadyRenamed => (.ok (), [])
      | .bothExist => (.error .bothExist, [])
      | .missing => (.error .noChannel, [])
      | .found => store.relist source target (store.moveDir source target)

def afterRename (source target : String) (store : StoreDir α) : StoreDir α :=
  ((store.renameChannel source target).2.getLast?).getD store

/-!
## The pass over the manifest
-/

theorem verdict_true {source target : String} (differ : source ≠ target) (names : List String) :
    verdict source target true names = if target ∈ names then .bothExist else .found := by
  induction names with
  | nil => rfl
  | cons name rest ih =>
    rw [verdict]
    by_cases old : name = source
    · rw [if_pos old, ih]
      have other : target ≠ name := by
        rw [old]
        exact differ.symm
      simp only [List.mem_cons, other, false_or]
    · rw [if_neg old]
      by_cases new : name = target
      · rw [if_pos new, if_pos rfl, if_pos (new ▸ List.mem_cons_self)]
      · rw [if_neg new, ih]
        simp only [List.mem_cons, Ne.symm new, false_or]

def Ordered (source target : String) (names : List String) : Prop :=
  source ∈ names → target ∈ names → names.idxOf source < names.idxOf target

instance (source target : String) (names : List String) : Decidable (Ordered source target names) :=
  inferInstanceAs (Decidable (_ → _ → _))

theorem verdict_false {source target : String} (differ : source ≠ target) {names : List String}
    (ordered : Ordered source target names) :
    verdict source target false names =
      if source ∈ names then (if target ∈ names then .bothExist else .found)
      else if target ∈ names then .alreadyRenamed else .missing := by
  induction names with
  | nil => rfl
  | cons name rest ih =>
    rw [verdict]
    by_cases old : name = source
    · subst old
      rw [if_pos rfl, verdict_true differ]
      simp only [List.mem_cons, differ.symm, false_or, true_or, if_true]
    · rw [if_neg old]
      by_cases new : name = target
      · subst new
        have gone : source ∉ name :: rest := by
          intro member
          have before := ordered member List.mem_cons_self
          rw [List.idxOf_cons_self] at before
          exact Nat.not_lt_zero _ before
        rw [if_pos rfl, if_neg gone, if_pos List.mem_cons_self]
        rfl
      · have later : Ordered source target rest := by
          intro first second
          have before := ordered (List.mem_cons_of_mem _ first) (List.mem_cons_of_mem _ second)
          rw [List.idxOf_cons_ne _ old, List.idxOf_cons_ne _ new] at before
          exact Nat.lt_of_succ_lt_succ before
        rw [if_neg new, ih later]
        simp only [List.mem_cons, Ne.symm old, Ne.symm new, false_or]

/-!
## The move
-/

section Moving

variable {source target : String} {start store later : StoreDir α}

/-- The manifest is the old one. The directory is where it was, or has been moved to
where nothing was. -/
structure Underway (source target : String) (start store : StoreDir α) : Prop where
  main : store.main = start.main
  channels : store.channels = start.channels
  still : start.tree.present (channelDir source) = false → store.tree = start.tree
  others : ∀ top, Apart top (channelDir source) → Apart top (channelDir target) →
    store.tree.below top = start.tree.below top
  data : store.tree.below (channelDir source) = start.tree.below (channelDir source) ∧
      store.tree.below (channelDir target) = start.tree.below (channelDir target) ∨
    FileTree.Moved (channelDir source) (channelDir target) start.tree store.tree

theorem Underway.refl (start : StoreDir α) : Underway source target start start :=
  ⟨rfl, rfl, fun _ => rfl, fun _ _ _ => rfl, Or.inl ⟨rfl, rfl⟩⟩

theorem Underway.trans (early : Underway source target start store)
    (present : store.tree.present (channelDir source) = true)
    (late : Underway source target store later) : Underway source target start later := by
  -- A directory that is still present has not been moved.
  rcases early.data with ⟨sameSource, sameTarget⟩ | moved
  · refine ⟨late.main.trans early.main, late.channels.trans early.channels, fun absent => ?_,
      fun top one two => (late.others top one two).trans (early.others top one two), ?_⟩
    · rw [FileTree.present_eq sameSource, absent] at present
      cases present
    · rcases late.data with same | ⟨_, free, gone, taken⟩
      · rw [← sameSource, ← sameTarget]
        exact .inl same
      · rw [sameSource] at taken
        rw [sameTarget] at free
        rw [FileTree.present_eq sameSource] at present
        exact .inr ⟨present, free, gone, taken⟩
  · rw [FileTree.absent_inside moved.gone (List.prefix_refl _)] at present
    cases present

theorem underway_mkdirs (outside : ¬channelDir source <+: channelDir target)
    (present : store.tree.present (channelDir source) = true) (named : channelDir target ≠ [])
    {tree : FileTree α}
    (steps : tree ∈ (store.tree.mkdirs
      ((channelDir target).dropLast.inits.filter (· ≠ []))).2) :
    Underway source target store { store with tree } ∧
      tree.below (channelDir source) = store.tree.below (channelDir source) ∧
      tree.below (channelDir target) = store.tree.below (channelDir target) := by
  have around : ∀ {dir}, dir ∈ (channelDir target).dropLast.inits.filter (· ≠ []) →
      dir <+: channelDir target ∧ dir ≠ channelDir target := by
    intro dir member
    have above := (List.mem_inits _ _).mp (List.mem_of_mem_filter member)
    refine ⟨above.trans (List.dropLast_prefix _), ?_⟩
    rintro rfl
    have longer := above.length_le
    rw [List.length_dropLast] at longer
    have := List.length_pos_iff.mpr named
    omega
  have sameSource : tree.below (channelDir source) = store.tree.below (channelDir source) := by
    apply FileTree.below_mkdirs _ steps
    exact fun dir member above => outside (above.trans (around member).1)
  have sameTarget : tree.below (channelDir target) = store.tree.below (channelDir target) := by
    apply FileTree.below_mkdirs _ steps
    intro dir member above
    exact (around member).2 ((around member).1.eq_of_length_le above.length_le)
  refine ⟨⟨rfl, rfl, fun absent => ?_, fun top _ apart => ?_, Or.inl ⟨sameSource, sameTarget⟩⟩,
    sameSource, sameTarget⟩
  · rw [present] at absent
    cases absent
  apply FileTree.below_mkdirs _ steps
  exact fun dir member above => apart.1 (above.trans (around member).1)

theorem move_underway (outside : ¬channelDir source <+: channelDir target)
    (present : store.tree.present (channelDir source) = true)
    (free : store.tree.below (channelDir target) = []) :
    Underway source target store
        { store with tree := store.tree.move (channelDir source) (channelDir target) } ∧
      (store.tree.move (channelDir source) (channelDir target)).present (channelDir source) =
        false := by
  have apart : Apart (channelDir source) (channelDir target) := by
    refine ⟨outside, fun above => ?_⟩
    rw [FileTree.absent_inside free above] at present
    cases present
  have gone := FileTree.below_move_source apart store.tree
  refine ⟨⟨rfl, rfl, fun absent => ?_, fun top one two => FileTree.below_move_apart one two _,
    Or.inr ⟨present, free, gone, FileTree.below_move_target free⟩⟩,
    FileTree.absent_inside gone (List.prefix_refl _)⟩
  rw [present] at absent
  cases absent

theorem Underway.target_free (underway : Underway source target start store)
    (rooted : start.tree.Rooted) (named : channelDir target ≠ [])
    (present : store.tree.present (channelDir source) = true)
    (absent : store.tree.present (channelDir target) = false) :
    store.tree.below (channelDir target) = [] := by
  rcases underway.data with ⟨_, same⟩ | moved
  · rw [same]
    apply FileTree.below_of_absent rooted named
    rw [← FileTree.present_eq same]
    exact absent
  · rw [FileTree.absent_inside moved.gone (List.prefix_refl _)] at present
    cases present

theorem getLast_getD_mem (stores : List (StoreDir α)) (store : StoreDir α) :
    stores.getLast?.getD store = store ∨ stores.getLast?.getD store ∈ stores := by
  cases last : stores.getLast? with
  | none => exact Or.inl rfl
  | some held => exact Or.inr (List.mem_of_getLast? last)

theorem move_dir_spec (rooted : start.tree.Rooted) (named : channelDir target ≠ [])
    (underway : Underway source target start store)
    (outside : store.tree.present (channelDir source) = true →
      ¬channelDir source <+: channelDir target) :
    (∀ later ∈ (store.moveDir source target).2, Underway source target start later) ∧
      ((store.moveDir source target).1 = .ok () →
        Underway source target start ((store.moveDir source target).2.getLast?.getD store) ∧
        ((store.moveDir source target).2.getLast?.getD store).tree.present (channelDir source) =
          false) := by
  unfold moveDir
  by_cases present : store.tree.present (channelDir source) = true
  · rw [if_pos present]
    by_cases taken : store.tree.present (channelDir target) = true
    · rw [if_pos taken]
      exact ⟨fun later member => absurd member List.not_mem_nil, nofun⟩
    · have beyond := outside present
      have free := underway.target_free rooted named present (by simpa using taken)
      dsimp only
      generalize made : store.tree.mkdirs ((channelDir target).dropLast.inits.filter (· ≠ [])) =
        result
      have stores : ∀ later ∈ result.2.map (fun tree => { store with tree }),
          Underway source target store later ∧
          later.tree.below (channelDir source) = store.tree.below (channelDir source) ∧
          later.tree.below (channelDir target) = store.tree.below (channelDir target) := by
        intro later member
        obtain ⟨tree, inside, rfl⟩ := List.mem_map.mp member
        rw [← made] at inside
        exact underway_mkdirs beyond present named inside
      have early : ∀ later ∈ result.2.map (fun tree => { store with tree }),
          Underway source target start later :=
        fun later member => underway.trans present (stores later member).1
      split_ifs
      · exact ⟨early, nofun⟩
      · generalize held : (result.2.map fun tree => { store with tree }).getLast?.getD store = last
        have steady : Underway source target store last ∧
            last.tree.below (channelDir source) = store.tree.below (channelDir source) ∧
            last.tree.below (channelDir target) = store.tree.below (channelDir target) := by
          rcases getLast_getD_mem (result.2.map fun tree => { store with tree }) store with
            same | member
          · rw [← held, same]
            exact ⟨Underway.refl store, rfl, rfl⟩
          · rw [← held]
            exact stores _ member
        have there : last.tree.present (channelDir source) = true := by
          rw [FileTree.present_eq steady.2.1]
          exact present
        obtain ⟨moved, gone⟩ :=
          @move_underway _ source target last beyond there (by rw [steady.2.2]; exact free)
        have whole := (underway.trans present steady.1).trans there moved
        refine ⟨fun later member => ?_, fun _ => ?_⟩
        · rcases List.mem_append.mp member with first | last
          · exact early later first
          · rw [List.mem_singleton.mp last]
            exact whole
        · rw [List.getLast?_append, List.getLast?_singleton]
          exact ⟨whole, gone⟩
  · rw [if_neg present]
    refine ⟨fun later member => absurd member List.not_mem_nil, fun _ => ⟨underway, ?_⟩⟩
    exact Bool.eq_false_iff.mpr present

structure Nested (source target : String) (start store : StoreDir α) : Prop where
  channels : store.channels = start.channels
  inside : channelDir source <+: channelDir target
  present : store.tree.present (channelDir source) = true

theorem present_mkdirs {dirs : List Parts} {tree other : FileTree α} {path : Parts}
    (present : tree.present path = true) (steps : other ∈ (tree.mkdirs dirs).2) :
    other.present path = true := by
  have kept : ∀ {tree : FileTree α} {dir : Parts}, tree.present path = true →
      (tree.mkdir dir).present path = true := by
    intro tree dir found
    obtain ⟨content, member⟩ := FileTree.present_iff.mp found
    exact FileTree.present_iff.mpr ⟨content, List.mem_append_left _ member⟩
  induction dirs generalizing tree with
  | nil => cases steps
  | cons dir rest ih =>
    rw [FileTree.mkdirs] at steps
    split_ifs at steps
    · cases steps
    · exact ih present steps
    · rcases List.mem_cons.mp steps with rfl | further
      · exact kept present
      · exact ih (kept present) further

theorem Nested.move_dir (nested : Nested source target start store) :
    (store.moveDir source target).1 ≠ .ok () ∧
      ∀ later ∈ (store.moveDir source target).2, Nested source target start later := by
  unfold moveDir
  rw [if_pos nested.present]
  by_cases taken : store.tree.present (channelDir target) = true
  · rw [if_pos taken]
    exact ⟨nofun, fun later member => absurd member List.not_mem_nil⟩
  · have stores : ∀ later ∈ (store.tree.mkdirs ((channelDir target).dropLast.inits.filter
        (· ≠ []))).2.map (fun tree => { store with tree }), Nested source target start later := by
      intro later member
      obtain ⟨tree, inside, rfl⟩ := List.mem_map.mp member
      exact ⟨nested.channels, nested.inside, present_mkdirs nested.present inside⟩
    dsimp only
    rw [if_pos nested.inside]
    split_ifs
    · exact ⟨nofun, stores⟩
    · exact ⟨nofun, stores⟩

def Finished (source target : String) (start store : StoreDir α) : Prop :=
  ∃ moved, Underway source target start moved ∧
    moved.tree.present (channelDir source) = false ∧ store = moved.relisted source target

inductive Stage (source target : String) (start store : StoreDir α) : Prop where
  | underway (held : Underway source target start store)
      (outside : store.tree.present (channelDir source) = true →
        ¬channelDir source <+: channelDir target)
  | nested (held : Nested source target start store)
  | finished (held : Finished source target start store)

theorem relisted_names (store : StoreDir α) : (store.relisted source target).names =
    store.names.map fun name => if name = source then target else name := by
  unfold names relisted
  rw [List.map_map, List.map_map]
  apply List.map_congr_left
  intro channel _
  unfold Function.comp ManifestChannel.renamed
  by_cases old : channel.name = source
  · simp only [old, if_true]
  · simp only [old, if_false]

theorem relisted_listed {names : List String} (differ : source ≠ target)
    (listed : source ∈ names) :
    target ∈ names.map (fun name => if name = source then target else name) ∧
      source ∉ names.map (fun name => if name = source then target else name) := by
  constructor
  · exact List.mem_map.mpr ⟨source, listed, if_pos rfl⟩
  · intro member
    obtain ⟨name, _, same⟩ := List.mem_map.mp member
    split_ifs at same with old
    · exact differ same.symm
    · exact old same

/-!
## Runs
-/

theorem rename_channel_found (named : validChannelName source = .ok () ∧
      validChannelName target = .ok ()) (differ : source ≠ target)
    (found : verdict source target false store.names = .found) :
    store.renameChannel source target =
      store.relist source target (store.moveDir source target) := by
  unfold renameChannel
  simp only [named.1, named.2, if_neg differ, found]

variable (differ : source ≠ target)
  (named : validChannelName source = .ok () ∧ validChannelName target = .ok ())
  (rooted : start.tree.Rooted) (listed : source ∈ start.names) (unlisted : target ∉ start.names)

include differ named rooted listed unlisted

/-- One run from any stage: every durable change leaves a stage, and a run that returns
nil leaves the last one. -/
theorem Stage.run (stage : Stage source target start store) :
    (∀ later ∈ (store.renameChannel source target).2, Stage source target start later) ∧
      ((store.renameChannel source target).1 = .ok () →
        Finished source target start (store.afterRename source target)) := by
  have only : ∀ {other : StoreDir α}, other.channels = start.channels →
      verdict source target false other.names = .found := by
    intro other same
    have names : other.names = start.names := by rw [names, same]; rfl
    rw [names, verdict_false differ fun _ second => absurd second unlisted, if_pos listed,
      if_neg unlisted]
  unfold afterRename
  cases stage with
  | underway held outside =>
    rw [rename_channel_found named differ (only held.channels)]
    obtain ⟨each, ends⟩ := move_dir_spec rooted (valid_channel_dir named.2) held outside
    have early : ∀ later ∈ (store.moveDir source target).2, Stage source target start later := by
      intro later member
      refine .underway (each later member) fun _ => outside ?_
      by_contra absent
      rw [moveDir, if_neg absent] at member
      cases member
    cases moved : store.moveDir source target with
    | mk result stores =>
      rw [moved] at early ends
      cases result with
      | error fault => exact ⟨early, nofun⟩
      | ok _ =>
        obtain ⟨last, gone⟩ := ends rfl
        have finished : Finished source target start
            ((stores.getLast?.getD store).relisted source target) := ⟨_, last, gone, rfl⟩
        refine ⟨fun later member => ?_, fun _ => ?_⟩
        · rcases List.mem_append.mp member with first | second
          · exact early later first
          · rw [List.mem_singleton.mp second]
            exact .finished finished
        · rw [relist, List.getLast?_append, List.getLast?_singleton]
          exact finished
  | nested held =>
    rw [rename_channel_found named differ (only held.channels)]
    obtain ⟨fails, each⟩ := held.move_dir
    cases moved : store.moveDir source target with
    | mk result stores =>
      rw [moved] at fails each
      cases result with
      | ok _ => exact absurd rfl fails
      | error fault => exact ⟨fun later member => .nested (each later member), nofun⟩
  | finished held =>
    have done := held
    obtain ⟨moved, last, _, rfl⟩ := held
    have names : moved.names = start.names := by rw [names, last.channels]; rfl
    obtain ⟨new, old⟩ := relisted_listed differ listed
    rw [← names, ← relisted_names] at new old
    have idle : (moved.relisted source target).renameChannel source target = (.ok (), []) := by
      unfold renameChannel
      simp only [named.1, named.2, if_neg differ]
      rw [verdict_false differ fun first _ => absurd first old, if_neg old, if_pos new]
    rw [idle]
    exact ⟨fun later member => absurd member List.not_mem_nil, fun _ => done⟩

end Moving

section Renaming

variable {source target : String} {start store : StoreDir α}

/-- The move, if there is one, leaves the directories of the other channels as they are. -/
def Undisturbed (store : StoreDir α) (source target : String) : Prop :=
  store.tree.present (channelDir source) = true →
    ∀ channel ∈ store.channels, channel.name ≠ source →
      FileTree.Spared (channelDir source) (channelDir target) (channelDir channel.name) store.tree

instance (store : StoreDir α) (source target : String) :
    Decidable (store.Undisturbed source target) :=
  inferInstanceAs (Decidable (_ → ∀ channel ∈ store.channels, _ → _))

end Renaming

end StoreDir

end Figwal.Xwal
