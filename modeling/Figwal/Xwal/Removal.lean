import Figwal.Xwal.ForkOps

/-!
# Removing nodes

Deleting a set of nodes that holds every descendant of its members leaves the other
nodes as they were. A rebuild reads the index back from the markers; the counter for
node ids is then the lowest one above every id in use, so ids of removed nodes are
handed out again.
-/

namespace Figwal.Xwal

open Figwal.Lib Figwal.Disk

set_option autoImplicit false

variable {β σ : Type}

namespace Index

theorem family_filter (index : Index) (gone : List String) :
    family (index.filter fun entry => entry.1 ∉ gone) = index.family.without gone := by
  rw [family, family, Family.without, List.filter_map]
  rfl

theorem keys_filter {index : Index} {gone : List String} {key : String} :
    key ∈ keys (index.filter fun entry => entry.1 ∉ gone) ↔ key ∈ index.keys ∧ key ∉ gone := by
  rw [← family_members, family_filter, Family.mem_members_without, family_members]

theorem known_filter {index : Index} {gone : List String} (rooted : "" ∉ gone) {key : String} :
    Known (index.filter fun entry => entry.1 ∉ gone) key ↔ index.Known key ∧ key ∉ gone := by
  rw [Known, keys_filter, Known]
  constructor
  · rintro (rfl | ⟨listed, kept⟩)
    · exact ⟨Or.inl rfl, rooted⟩
    · exact ⟨Or.inr listed, kept⟩
  · rintro ⟨root | listed, kept⟩
    · exact Or.inl root
    · exact Or.inr ⟨listed, kept⟩

/-- The counter that a rebuild recovers is past every node. -/
theorem seq_of_passes (index : Index) :
    0 ≤ index.seqOf ∧ ∀ key ∈ index.keys, Passes index.seqOf key := by
  have grows : ∀ (keys : List String) (seq : Int), 0 ≤ seq → seq ≤ keys.foldl bumpSeq seq ∧
      ∀ key ∈ keys, Passes (keys.foldl bumpSeq seq) key := by
    intro keys
    induction keys with
    | nil => exact fun seq _ => ⟨Int.le_refl _, fun key inside => nomatch inside⟩
    | cons newest rest ih =>
      intro seq low
      have bumped := bump_seq_le seq newest
      rcases ih (bumpSeq seq newest) (Int.le_trans low bumped) with ⟨more, passes⟩
      rw [List.foldl_cons]
      refine ⟨Int.le_trans bumped more, fun key inside => ?_⟩
      rcases List.mem_cons.mp inside with rfl | later
      · exact (bump_seq_passes low key).mono more
      · exact passes key later
  exact grows index.keys 0 (Int.le_refl 0)

end Index

namespace Trunks

section Prune

variable {state : Trunks β σ} {gone : List String} {key : String}

theorem prune_lineage (closed : Family.Closed gone state.index.family) (kept : key ∉ gone) :
    (state.prune gone).index.lineage key = state.index.lineage key := by
  change Family.lineage "" (Index.family (state.index.filter _)) key = _
  rw [Index.family_filter]
  exact Family.lineage_without closed kept

theorem lineage_kept (sound : state.Sound) (closed : Family.Closed gone state.index.family)
    (rooted : "" ∉ gone) (known : state.index.Known key) (kept : key ∉ gone) :
    ∀ above ∈ state.index.lineage key, above ∉ gone := by
  intro above member inside
  have still : above ∈ Family.lineage "" (state.index.family.without gone) key := by
    rw [Family.lineage_without closed kept]
    exact member
  have isKnown : key = "" ∨ key ∈ (state.index.family.without gone).members := by
    refine known.imp id fun listed => ?_
    rw [Family.mem_members_without, Index.family_members]
    exact ⟨listed, kept⟩
  rcases Family.known_of_mem_lineage (sound.ordered.without closed) isKnown still with
    root | listed
  · rw [root] at inside
    exact rooted inside
  · exact (Family.mem_members_without.mp listed).2 inside

theorem prune_cells {name : String} (kept : key ∉ gone) :
    (state.prune gone).cells name key = state.cells name key :=
  if_neg fun both => kept both.1

theorem prune_shown (sound : state.Sound) (closed : Family.Closed gone state.index.family)
    (rooted : "" ∉ gone) (name : String) (known : state.index.Known key) (kept : key ∉ gone) :
    (state.prune gone).shown name key = state.shown name key := by
  rw [shown, prune_lineage closed kept, shown]
  apply unfolded_congr
  intro above member
  rw [branches, branches, prune_cells (lineage_kept sound closed rooted known kept above member)]

theorem prune_sound (sound : state.Sound) (closed : Family.Closed gone state.index.family)
    (rooted : "" ∉ gone) : (state.prune gone).Sound where
  faithful := sound.faithful
  distinct := sound.distinct
  ordered := by
    change Family.Ordered "" (Index.family (state.index.filter _))
    rw [Index.family_filter]
    exact sound.ordered.without closed
  usable listed known := by
    rcases (Index.known_filter rooted).mp known with ⟨isKnown, kept⟩
    rw [prune_cells kept]
    exact sound.usable listed isKnown
  based {name key} listed known := by
    rcases (Index.known_filter rooted).mp known with ⟨isKnown, kept⟩
    rw [prune_lineage closed kept]
    apply based_congr _ (sound.based listed isKnown)
    intro above member
    rw [branches, branches, prune_cells (lineage_kept sound closed rooted isKnown kept above
      member)]

theorem prune_proper (proper : state.Proper) (closed : Family.Closed gone state.index.family)
    (rooted : "" ∉ gone) : (state.prune gone).Proper where
  sound := prune_sound proper.sound closed rooted
  main := proper.main
  numbered known := by
    rcases (Index.known_filter rooted).mp known with ⟨isKnown, kept⟩
    rw [prune_shown proper.sound closed rooted _ isKnown kept]
    exact proper.numbered isKnown
  plain member keying related known := by
    rcases (Index.known_filter rooted).mp known with ⟨isKnown, kept⟩
    rw [prune_cells kept]
    exact proper.plain member keying related isKnown
  idle listed := by
    rw [prune_cells rooted]
    exact proper.idle listed
  trunks := proper.trunks.filter _
  survives entry member := proper.survives entry (List.mem_of_mem_filter member)
  counts := proper.counts
  minted key member := proper.minted key (Index.keys_filter.mp member).1
  plan := proper.plan
  markers := by
    change state.unmarked.filter _ = []
    rw [proper.markers]
    rfl

end Prune

section Rebuild

variable {state next : Trunks β σ}

theorem rebuild_eq (proper : state.Proper) :
    state.rebuild = { state.retire with nodeSeq := state.index.seqOf } := by
  have retired := retire_retired proper.sound
  have index := retired.index
  have markers := (retired.proper proper).markers
  have same : Index.rebuild (state.retire.index.filter fun entry =>
      entry.1 ∉ state.retire.unmarked) = state.index := by
    rw [markers, index, List.filter_eq_self.mpr (by simp)]
    exact Index.rebuild_of_survives proper.survives
  rw [rebuild]
  simp only [same]
  rw [markers, index, List.nil_append]

theorem rebuild_proper (proper : state.Proper) : state.rebuild.Proper := by
  have retired := retire_retired proper.sound
  have after := retired.proper proper
  rw [rebuild_eq proper]
  obtain ⟨counts, passes⟩ := state.index.seq_of_passes
  refine ⟨⟨after.sound.faithful, after.sound.distinct, after.sound.ordered, after.sound.usable,
    after.sound.based⟩, after.main, after.numbered, after.plain, after.idle, after.trunks,
    after.survives, counts, ?_, after.plan, after.markers⟩
  rw [retired.index]
  exact passes

end Rebuild

/-- Some nodes were deleted; `kept` are those of the others that lost nothing. -/
structure Removed (before after : Trunks β σ) (gone : List String) (kept : String → Prop) :
    Prop where
  index : after.index = before.index.filter fun entry => entry.1 ∉ gone
  channels : after.channels = before.channels
  main : after.main = before.main
  strays : after.strays = before.strays
  proper : after.Proper
  rooted : "" ∉ gone
  deleted : ∀ {name node}, name ∈ before.names → node ∈ gone → after.cells name node = Cell.fresh 0
  idle : ∀ {name node}, (before.cells name node).pend = [] → after.cells name node =
      Cell.fresh 0 ∨ after.cells name node = (before.cells name node).close
  marker : ∀ name {node}, node ∉ gone → (after.cells name node).handle.forkBase =
    (before.cells name node).handle.forkBase
  same : ∀ {name node}, name ∈ before.names → before.index.Known node → node ∉ gone → kept node →
    after.shown name node = before.shown name node

section Remove

variable {state next : Trunks β σ}

/-- Deleting a closed set of nodes from a retired store, and reading the index back. -/
theorem prune_removed {middle : Trunks β σ} {kept : String → Prop} {gone : List String}
    (staged : Staged state middle kept) (idle : ∀ name node, (middle.cells name node).pend = [])
    (shut : ∀ {name node}, (state.cells name node).pend = [] →
      middle.cells name node = (state.cells name node).close)
    (closed : Family.Closed gone middle.index.family) (rooted : "" ∉ gone) :
    Removed state (middle.prune gone).rebuild gone kept := by
  have pruned := prune_proper staged.proper closed rooted
  have retired := retire_retired pruned.sound
  have still : ∀ name node, ((middle.prune gone).cells name node).pend = [] := by
    intro name node
    change (if _ then _ else _ : Cell β σ).pend = []
    split_ifs
    · rfl
    · exact idle name node
  have proper := rebuild_proper pruned
  rw [rebuild_eq pruned] at proper ⊢
  have cells : ∀ name node, (middle.prune gone).retire.cells name node =
      ((middle.prune gone).cells name node).close :=
    fun name node => retired.blank (still name node)
  refine ⟨?_, ?_, ?_, ?_, proper, rooted, ?_, ?_, ?_, ?_⟩
  · rw [retired.index, ← staged.index]
    rfl
  · rw [retired.channels, ← staged.channels]
    rfl
  · rw [retired.main, ← staged.main]
    rfl
  · rw [retired.frame]
    change middle.strays = _
    rw [staged.frame]
  · intro name node listed inside
    rw [cells]
    change (if _ then _ else _ : Cell β σ).close = _
    rw [if_pos ⟨inside, by rw [staged.channels]; exact listed⟩]
    rfl
  · intro name node quiet
    rw [cells]
    change (if _ then _ else _ : Cell β σ).close = _ ∨ (if _ then _ else _ : Cell β σ).close = _
    split_ifs
    · exact Or.inl rfl
    · rw [shut quiet]
      exact Or.inr rfl
  · intro name node outside
    rw [cells, prune_cells outside]
    exact staged.marker name node
  · intro name node listed known outside lost
    have isKnown : middle.index.Known node := by
      rw [staged.index]
      exact known
    have knownPruned : (middle.prune gone).index.Known node :=
      (Index.known_filter rooted).mpr ⟨isKnown, outside⟩
    have listedPruned : name ∈ (middle.prune gone).names := by
      change name ∈ middle.names
      rw [staged.names]
      exact listed
    change (middle.prune gone).retire.shown name node = _
    rw [retired.shown_of_empty pruned.sound listedPruned knownPruned
      (Cell.waiting_of_idle (still name node)),
      prune_shown staged.proper.sound closed rooted name isKnown outside,
      staged.same listed known lost]

inductive RemoveEnd {Answer : Type} (state next : Trunks β σ) (kept : String → Prop)
    (doomed : List String → Prop) (spares : Prop) : Except Fault Answer → Prop
  | refused (fault : Fault) (synced : Synced state next) (proper : next.Proper) :
      RemoveEnd state next kept doomed spares (.error fault)
  | failed (fault : Fault) (isSpared : spares) (staged : Staged state next kept) :
      RemoveEnd state next kept doomed spares (.error fault)
  | removed (answer : Answer) (gone : List String) (isDoomed : doomed gone)
      (removed : Removed state next gone kept) :
      RemoveEnd state next kept doomed spares (.ok answer)

theorem begin_retire (proper : state.Proper) {synced : Trunks β σ}
    (begun : state.beginMutation = (.ok (), synced)) :
    Staged state synced.retire (fun node => ∀ channel ∈ state.channels,
        state.Flushable channel node) ∧
      (∀ name node, (synced.retire.cells name node).pend = []) ∧
      ∀ {name node}, (state.cells name node).pend = [] →
        synced.retire.cells name node = (state.cells name node).close := by
  rcases begin_mutation_spec proper begun with ⟨kept, properSynced, admitted⟩
  have whole := (admitted rfl).2
  have retired := retire_retired properSynced.sound
  refine ⟨?_, retired.idle, ?_⟩
  · apply (retire_staged whole).weaken
    intro node known fine
    exact ⟨trivial, fun channel member => kept.flushable member known (fine channel member)⟩
  · intro name node still
    have same := kept.settled.idle still
    rw [retired.blank (by rw [same]; exact still), same]

theorem remove_end (proper : state.Proper) {trunk : String} {recursive : Bool}
    {result : Except Fault (List String)} (done : state.remove trunk recursive = (result, next)) :
    RemoveEnd state next (fun node => ∀ channel ∈ state.channels, state.Flushable channel node)
      (fun gone => ∃ top, state.foundingNode trunk = some top ∧
        gone = Family.subtree top state.index.family)
      (recursive = true → trunk = "" ∨ state.foundingNode trunk = none) result := by
  rw [remove] at done
  rcases begin_mutation_cases proper with
    ⟨fault, synced, begun, kept, properSynced⟩ | ⟨synced, begun, _⟩
  · rw [begun] at done
    cases done
    exact .refused fault kept properSynced
  · rw [begun] at done
    rcases begin_retire proper begun with ⟨staged, idle, shut⟩
    simp only at done
    by_cases root : trunk = ""
    · rw [if_pos root] at done
      cases done
      exact .failed _ (fun _ => Or.inl root) staged
    · rw [if_neg root] at done
      have founding : synced.retire.foundingNode trunk = state.foundingNode trunk := by
        rw [foundingNode, staged.index]
        rfl
      cases found : state.foundingNode trunk with
      | none =>
        rw [founding, found] at done
        cases done
        exact .failed _ (fun _ => Or.inr rfl) staged
      | some top =>
        simp only [founding, found] at done
        split_ifs at done with branches
        · cases done
          exact .failed _ (fun all => absurd (branches.2.symm.trans all) (by decide)) staged
        · cases done
          refine .removed _ _ ⟨top, rfl, by rw [staged.index]⟩
            (prune_removed staged idle shut ?_ ?_)
          · exact Family.subtree_closed staged.proper.sound.ordered
          · intro inside
            exact staged.proper.sound.ordered.root_unlisted (Family.subtree_subset inside)

theorem remove_stump_end (proper : state.Proper) {name : String} {result : Except Fault Unit}
    (done : state.removeStump name = (result, next)) :
    RemoveEnd state next (fun node => ∀ channel ∈ state.channels, state.Flushable channel node)
      (fun gone => gone = [name]) True result := by
  rw [removeStump] at done
  rcases begin_mutation_cases proper with
    ⟨fault, synced, begun, kept, properSynced⟩ | ⟨synced, begun, _⟩
  · rw [begun] at done
    cases done
    exact .refused fault kept properSynced
  · rw [begun] at done
    rcases begin_retire proper begun with ⟨staged, idle, shut⟩
    cases found : stumpKey name synced.retire with
    | error fault =>
      simp only [found] at done
      cases done
      exact .failed _ trivial staged
    | ok stump =>
      simp only [found] at done
      by_cases children : synced.retire.index.childrenOf stump ≠ []
      · rw [if_pos children] at done
        cases done
        exact .failed _ trivial staged
      · rw [if_neg children] at done
        cases done
        have same := (stump_key_finds rfl found).2
        subst same
        rw [not_not] at children
        refine .removed _ _ rfl (prune_removed staged idle shut ?_ ?_)
        · intro member up listed inside
          exfalso
          rw [List.mem_singleton.mp inside] at listed
          rcases List.mem_map.mp listed with ⟨entry, isEntry, pair⟩
          have child : entry.1 ∈ synced.retire.index.childrenOf stump := by
            refine List.mem_map.mpr ⟨entry, List.mem_filter.mpr ⟨isEntry, ?_⟩, rfl⟩
            simpa using (Prod.mk.inj pair).2
          rw [children] at child
          cases child
        · intro inside
          rw [← List.mem_singleton.mp inside] at found
          rw [stumpKey] at found
          cases found

end Remove

end Trunks

end Figwal.Xwal
