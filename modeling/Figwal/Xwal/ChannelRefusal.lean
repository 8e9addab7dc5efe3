import Figwal.Xwal.ChannelSpec
import Figwal.Xwal.Isolation

/-!
# Refused channels

`ensureChannel` with all the checks of a spec. Whatever is refused before the plan is
written leaves the store as a flush leaves it. Once the plan is written, nothing fails
if the spec agrees with the manifest about keying and the directories of the channel
can be completed. So under that condition a refused call leaves no plan.
-/

namespace Figwal.Xwal

open Figwal.Lib Figwal.Disk

set_option autoImplicit false

variable {β σ : Type}

def Channel.manifest (channel : Channel β σ) : ManifestChannel where
  name := channel.name
  kind := if channel.reducible then "reducible" else "log"
  reducer := channel.reducer
  isOpaque := channel.isOpaque
  unkeyed := channel.unkeyed

/-- The caller's reducers, and the channel that a spec stands for with them. -/
structure ChannelConfig (β σ : Type) where
  registry : Registry
  channel : ChannelSpec → Channel β σ
  name : ∀ spec, (channel spec).name = spec.name
  reducer : ∀ spec, (channel spec).reducer = spec.reducer
  isOpaque : ∀ spec, (channel spec).isOpaque = spec.isOpaque
  unkeyed : ∀ spec, (channel spec).unkeyed = spec.unkeyed
  reducible : ∀ spec, (channel spec).reducible = decide (spec.kind = .reducible)

inductive ChannelFault where
  | spec (fault : SpecFault)
  | openHeads
  | store (fault : Fault)
  deriving DecidableEq, Repr

namespace Trunks

/-- `ensureChannel`. `isFile` says that the channel's path is taken by a file, `busy`
that the wait for open heads ran out. -/
def ensureChannelSpec (config : ChannelConfig β σ) (isFile busy : Bool) (state : Trunks β σ)
    (spec : ChannelSpec) : Except ChannelFault Unit × Trunks β σ :=
  match state.beginMutation with
  | (.error fault, next) => (.error (.store fault), next)
  | (.ok (), synced) =>
    match synced.recover with
    | (.error fault, next) => (.error (.store fault), next)
    | (.ok (), opened) =>
      match validateChannelSpec config.registry (opened.channels.map Channel.manifest) isFile
          spec with
      | .error fault => (.error (.spec fault), opened)
      | .ok () =>
        if busy then (.error .openHeads, opened)
        else
          match { opened.retire with plan := some (config.channel spec) }.recover with
          | (.error fault, next) => (.error (.store fault), next)
          | (.ok (), next) => (.ok (), next.rebuild)

/-!
## Flushing changes nothing but cells
-/

def Framed (before after : Trunks β σ) : Prop :=
  after = { before with cells := after.cells }

theorem Framed.refl (state : Trunks β σ) : Framed state state :=
  rfl

theorem Framed.trans {first second third : Trunks β σ} (early : Framed first second)
    (late : Framed second third) : Framed first third := by
  unfold Framed at *
  rw [late, early]

section Frames

variable {state : Trunks β σ}

theorem framed_with_log {Answer : Type} (channel : Channel β σ) (node : String)
    (change : Log (Record β) σ → List (Log (Record β) σ) → Cell β σ →
      Except Err Answer × Cell β σ) : Framed state (state.withLog channel node change).2 := by
  unfold withLog
  split <;> rfl

theorem framed_flush (channel : Channel β σ) (node : String) (target : Nat) :
    Framed state (state.flush channel node target).2 :=
  framed_with_log channel node _

theorem framed_sync_related (node : String) (mainTail : Nat) (channels : List (Channel β σ)) :
    Framed state (syncRelated node mainTail channels state).2 := by
  induction channels generalizing state with
  | nil => exact Framed.refl state
  | cons channel rest ih =>
    unfold syncRelated
    by_cases main : channel.name = state.main
    · rw [if_pos main]
      exact ih
    · rw [if_neg main]
      dsimp only
      split
      · exact Framed.refl state
      · split
        · rename_i done
          exact congrArg Prod.snd done ▸ framed_flush channel node _
        · rename_i next done
          have here := congrArg (fun pair => Framed state pair.2) done
          exact Framed.trans (here.mp (framed_flush channel node _)) ih

theorem framed_sync_coherent (node : String) : Framed state (state.syncCoherent node).2 := by
  unfold syncCoherent
  split
  · exact Framed.refl state
  · rename_i main _
    have here : Framed state (state.sync main node).2 := framed_flush main node _
    split
    · rename_i done
      rw [done] at here
      exact here
    · rename_i done
      rw [done] at here
      exact here.trans (framed_sync_related node _ _)

theorem framed_sync_nodes (nodes : List String) : Framed state (syncNodes nodes state).2 := by
  induction nodes generalizing state with
  | nil => exact Framed.refl state
  | cons node rest ih =>
    have all := (@framed_sync_coherent _ _ state node).trans ih
    unfold syncNodes
    dsimp only
    split <;> exact all

theorem framed_begin : Framed state state.beginMutation.2 := by
  have flushed : Framed state state.syncHot.2 := framed_sync_nodes _
  unfold beginMutation
  split
  · rename_i done
    rw [done] at flushed
    exact flushed
  · rename_i done
    rw [done] at flushed
    exact flushed

end Frames

end Trunks

/-!
## Completing directories that may be incomplete
-/

def Cell.ownBase (cell : Cell β σ) : Nat :=
  if 0 < cell.handle.forkBase then cell.handle.forkBase else cell.firstSegmentBase.getD 1

namespace Channel

variable {channel : Channel β σ} {root : Log (Record β) σ}

/-- The base `ensureBackfillFork` takes for a directory without marker and segments,
from the records of the channel's root. -/
def freshBase (channel : Channel β σ) (records : List (Record β)) (mainForkBase : Nat) :
    Except Fault Nat :=
  match records.getLast? with
  | none => .ok 1
  | some record =>
    if mainForkBase = 0 then .error (.disk .notFound)
    else if mainForkBase ≤ record.mainLT then .error (.topologyIncomplete channel.name)
    else .ok (records.length + 1)

theorem missing_base_eq (faithful : channel.Faithful) (tidy : root.Tidy)
    (rooted : root.firstWritable = 1)
    (mainForkBase : Nat) :
    channel.missingBase root mainForkBase = channel.freshBase root.own mainForkBase := by
  have last := Log.last_index_eq tidy.numbered
  rw [rooted] at last
  unfold missingBase freshBase
  cases ends : root.own.getLast? with
  | none =>
    have empty : root.own = [] := List.getLast?_eq_none_iff.mp ends
    rw [empty] at last
    rw [if_pos (by simpa using last)]
  | some record =>
    have filled : root.own ≠ [] := by
      intro empty
      rw [empty] at ends
      cases ends
    have positive : 0 < root.own.length := List.length_pos_iff.mpr filled
    have count : root.lastIndex = root.own.length := by omega
    have found : Disk.read [root] root.lastIndex = .ok record := by
      apply (LogOp.read_ok_iff tidy.numbered [] root.lastIndex record).mpr
      rw [if_neg (by simp), rooted, count]
      refine ⟨positive, ?_⟩
      rw [← List.getLast?_eq_getElem?]
      exact ends
    rw [if_neg (by omega), faithful.bind_decode, found]
    simp only [count]

theorem fresh_base_le {records : List (Record β)} {mainForkBase base : Nat}
    (found : channel.freshBase records mainForkBase = .ok base) :
    0 < base ∧ base ≤ records.length + 1 := by
  unfold freshBase at found
  split at found
  · cases found
    exact ⟨Nat.one_pos, Nat.le_add_left 1 _⟩
  · split_ifs at found
    cases found
    exact ⟨Nat.succ_pos _, Nat.le_refl _⟩

theorem marked_base {cell : Cell β σ} {base : Nat} (positive : 0 < base) :
    (cell.marked base).base = base := by
  change firstWritableAt base = base
  rw [firstWritableAt, if_pos positive]

/-- Nothing fails at a node whose directory can be read under the base it shows. -/
theorem ensure_backfill_fork_ok (faithful : channel.Faithful) (tidy : root.Tidy)
    (rooted : root.firstWritable = 1) {cell : Cell β σ}
    (shut : cell.handle.close = cell.handle) (sound : (cell.marked cell.ownBase).Sound)
    (pend : cell.pend = [])
    (accounted : channel.Accounted root cell.ownBase) {mainForkBase : Nat}
    (covered : cell.handle.forkBase = 0 → cell.handle.files = [] →
      ∃ base, channel.freshBase root.own mainForkBase = .ok base) :
    ∃ next, channel.ensureBackfillFork root mainForkBase cell = .ok next := by
  have last := Log.last_index_eq tidy.numbered
  rw [rooted] at last
  rw [ensureBackfillFork]
  unfold Cell.ownBase at sound accounted
  by_cases marked : 0 < cell.handle.forkBase
  · rw [if_pos marked] at sound accounted
    have base := @marked_base _ _ cell _ marked
    obtain ⟨next, done, _⟩ := backfill_watermark_spec faithful.steady tidy rooted sound pend
      (by rw [base]; exact accounted)
    rw [if_neg (by omega)]
    simp only [if_pos marked]
    rw [base] at done
    exact ⟨next, done⟩
  · rw [if_neg marked] at sound accounted
    have zero : cell.handle.forkBase = 0 := by omega
    cases first : cell.firstSegmentBase with
    | none =>
      have empty : cell.handle.files = [] := by
        unfold Cell.firstSegmentBase at first
        simpa using first
      obtain ⟨base, fresh⟩ := covered zero empty
      obtain ⟨positive, bound⟩ := fresh_base_le fresh
      have own := @marked_base _ _ cell _ positive
      have blank : (cell.marked base).Sound := by
        refine ⟨?_, fun busy => absurd pend busy, fun busy => absurd pend busy⟩
        change Stacked (firstWritableAt base) cell.handle.files
        rw [empty]
        exact ⟨[], none, rfl, trivial, by simp⟩
      obtain ⟨next, done, _⟩ := @backfill_watermark_spec _ _ channel faithful.steady _ tidy rooted _
        blank pend (by rw [own]; intro _; omega)
      rw [own] at done
      rw [if_neg (by simp), if_neg marked]
      simp only [missing_base_eq faithful tidy rooted, fresh]
      exact ⟨next, done⟩
    | some base =>
      rw [first] at sound accounted
      change (cell.marked base).Sound at sound
      have present : cell.handle.files ≠ [] := by
        intro empty
        rw [Cell.firstSegmentBase, empty] at first
        cases first
      have lowest : (cell.handle.files.map Segment.baseIndex).min? =
          some (firstWritableAt base) := sound.usable.stacked.min_base present
      have own : firstWritableAt base = base :=
        Option.some.inj (lowest.symm.trans first)
      by_cases starts : base = 1
      · subst starts
        have usable : cell.Sound := by
          refine ⟨?_, fun busy => absurd pend busy, fun busy => absurd pend busy⟩
          rw [← shut]
          change Stacked (firstWritableAt cell.handle.forkBase) cell.handle.files
          rw [zero]
          exact sound.usable
        obtain ⟨next, done, _⟩ := @seed_initial_spec _ _ channel faithful.steady _ usable pend
          (by rw [Cell.base, zero]; rfl)
        rw [if_pos ⟨zero, rfl⟩]
        exact ⟨next, done⟩
      · have shown : (cell.marked base).base = base := own
        obtain ⟨next, done, _⟩ := backfill_watermark_spec faithful.steady tidy rooted sound pend
          (by rw [shown]; exact accounted)
        rw [if_neg (by simp [starts]), if_neg marked]
        rw [shown] at done
        exact ⟨next, done⟩

end Channel

namespace Trunks

section Completing

variable {state : Trunks β σ} {channel : Channel β σ}

structure Fillable (state : Trunks β σ) (channel : Channel β σ) (records : List (Record β))
    (node : String) : Prop where
  shut : (state.cells channel.name node).handle.close = (state.cells channel.name node).handle
  sound : ((state.cells channel.name node).marked (state.cells channel.name node).ownBase).Sound
  pend : (state.cells channel.name node).pend = []
  accounted : channel.reducible = true →
    (state.cells channel.name node).ownBase ≤ records.length + 1
  covered : (state.cells channel.name node).handle.forkBase = 0 →
    (state.cells channel.name node).handle.files = [] →
      ∃ base, channel.freshBase records (state.cells state.main node).handle.forkBase = .ok base

theorem Fillable.congr {other : Trunks β σ} {records : List (Record β)} {node : String}
    (ready : state.Fillable channel records node) (main : other.main = state.main)
    (same : ∀ name, other.cells name node = state.cells name node) :
    other.Fillable channel records node := by
  constructor
  · rw [same]
    exact ready.shut
  · rw [same]
    exact ready.sound
  · rw [same]
    exact ready.pend
  · rw [same]
    exact ready.accounted
  · rw [same, main, same]
    exact ready.covered

theorem framed_set_cell (name node : String) (cell : Cell β σ) :
    Framed state (state.setCell name node cell) :=
  rfl

theorem backfill_nodes_ok (faithful : channel.Faithful) {root : Log (Record β) σ}
    (tidy : root.Tidy) (rooted : root.firstWritable = 1) {nodes : List String}
    (distinct : nodes.Nodup)
    (fillable : ∀ node ∈ nodes, state.Fillable channel root.own node) :
    ∃ next, backfillNodes channel root nodes state = (.ok (), next) ∧ Framed state next := by
  have last := Log.last_index_eq tidy.numbered
  rw [rooted] at last
  induction nodes generalizing state with
  | nil => exact ⟨state, rfl, Framed.refl state⟩
  | cons node rest ih =>
    obtain ⟨apart, later⟩ := List.nodup_cons.mp distinct
    have here := fillable node List.mem_cons_self
    obtain ⟨cell, done⟩ := Channel.ensure_backfill_fork_ok faithful tidy rooted here.shut
      here.sound here.pend (fun mode => by have := here.accounted mode; omega) here.covered
    have others : ∀ {name key}, key ∈ rest →
        (state.setCell channel.name node cell).cells name key = state.cells name key := by
      intro name key inside
      apply set_cell_other
      rintro ⟨_, rfl⟩
      exact apart inside
    obtain ⟨next, walked, framed⟩ := @ih (state.setCell channel.name node cell) later
      (fun key inside => (fillable key (List.mem_cons_of_mem _ inside)).congr rfl
        fun name => others inside)
    refine ⟨next, ?_, (framed_set_cell _ _ cell).trans framed⟩
    rw [backfillNodes, done]
    exact walked

theorem backfill_channel_ok (faithful : channel.Faithful)
    (sound : (state.cells channel.name "").Sound)
    (pend : (state.cells channel.name "").pend = [])
    (starts : (state.cells channel.name "").base = 1)
    (distinct : ("" :: (state.index.keys ++ state.strays)).Nodup)
    (fillable : ∀ node ∈ state.index.keys ++ state.strays,
      state.Fillable channel (state.cells channel.name "").handle.records node) :
    ∃ next, state.backfillChannel channel = (.ok (), next) ∧ Framed state next := by
  obtain ⟨apart, later⟩ := List.nodup_cons.mp distinct
  obtain ⟨cell, seeded, alike, _⟩ := @Channel.seed_initial_spec _ _ channel faithful.steady _ sound
    pend starts
  obtain ⟨root, opens⟩ := alike.sound.opens faithful.steady
  have base : cell.base = 1 := (congrArg Branch.base alike.branch).trans starts
  have records : root.own = (state.cells channel.name "").handle.records :=
    opens.own.trans (congrArg Branch.own alike.branch)
  have others : ∀ {name key}, key ∈ state.index.keys ++ state.strays →
      (state.setCell channel.name "" cell).cells name key = state.cells name key := by
    intro name key inside
    apply set_cell_other
    rintro ⟨_, rfl⟩
    exact apart inside
  obtain ⟨next, walked, framed⟩ := @backfill_nodes_ok _ _ (state.setCell channel.name "" cell)
    channel faithful root opens.tidy (opens.first_writable.trans base) _ later
    (by
      rw [records]
      exact fun node inside => (fillable node inside).congr rfl fun name => others inside)
  refine ⟨next, ?_, (framed_set_cell _ _ cell).trans framed⟩
  rw [backfillChannel, seeded]
  simp only [opens.usable]
  exact walked

end Completing

/-- The directories of a channel can be completed, and the manifest agrees with it
about keying. A directory of a node and channel the store does not have is one that
something left behind. -/
structure Addable (state : Trunks β σ) (channel : Channel β σ) : Prop where
  faithful : channel.Faithful
  keyed : ∀ existing, state.channel channel.name = some existing →
    existing.unkeyed = channel.unkeyed
  distinct : ("" :: (state.index.keys ++ state.strays)).Nodup
  still : (state.cells channel.name "").pend = []
  root : channel.name ∈ state.names ∨
    (state.cells channel.name "").Sound ∧ (state.cells channel.name "").base = 1
  readable : ∀ node ∈ state.index.keys ++ state.strays,
    channel.name ∈ state.names ∧ state.index.Known node ∨
      (state.cells channel.name node).pend = [] ∧
        ((state.cells channel.name node).marked (state.cells channel.name node).ownBase).Sound
  accounted : channel.reducible = true → ∀ node ∈ state.index.keys ++ state.strays,
    (state.cells channel.name node).ownBase ≤
      (state.cells channel.name "").handle.records.length + 1
  covered : ∀ node ∈ state.index.keys ++ state.strays,
    (state.cells channel.name node).handle.forkBase = 0 →
      (state.cells channel.name node).handle.records = [] →
        (state.cells channel.name node).handle.files = [] ∨
          (state.cells channel.name node).pend ≠ [] →
        ∃ base, channel.freshBase (state.cells channel.name "").handle.records
          (state.cells state.main node).handle.forkBase = .ok base

end Trunks

theorem Cell.Sound.own_base {cell : Cell β σ} (sound : cell.Sound) : cell.ownBase = cell.base := by
  unfold ownBase Cell.base firstWritableAt
  split_ifs with marked
  · rfl
  · have one : cell.base = 1 := by
      rw [Cell.base, firstWritableAt, if_neg marked]
    by_cases empty : cell.handle.files = []
    · rw [firstSegmentBase, empty]
      rfl
    · rw [Cell.first_segment_base sound empty, one]
      rfl

theorem Cell.Sound.marked_own {cell : Cell β σ} (sound : cell.Sound) (pend : cell.pend = []) :
    (cell.marked cell.ownBase).Sound := by
  refine ⟨?_, fun busy => absurd pend busy, fun busy => absurd pend busy⟩
  change Stacked (firstWritableAt cell.ownBase) cell.handle.files
  have stacked := sound.usable.stacked
  have base : firstWritableAt cell.ownBase = firstWritableAt cell.handle.forkBase := by
    rw [sound.own_base]
    change firstWritableAt (firstWritableAt _) = firstWritableAt _
    unfold firstWritableAt
    split_ifs <;> omega
  rw [base]
  exact stacked

namespace Trunks

variable {isFile : Bool} {config : ChannelConfig β σ} {spec : ChannelSpec} {state : Trunks β σ}

section Retiring

variable {state synced : Trunks β σ} {channel : Channel β σ}

theorem retire_shut (state : Trunks β σ) (name node : String) :
    (state.retire.cells name node).handle.close = (state.retire.cells name node).handle :=
  rfl

/-- What can be added to a store can be added once everything is flushed and closed. -/
theorem Addable.retired (addable : state.Addable channel) (proper : state.Proper)
    (settled : Settled state synced) :
    (synced.retire.cells channel.name "").Sound ∧
      (synced.retire.cells channel.name "").base = 1 ∧
      ∀ node ∈ state.index.keys ++ state.strays, synced.retire.Fillable channel
        (synced.retire.cells channel.name "").handle.records node := by
  have retired := retire_retired (settled.sound proper.sound)
  have names : synced.retire.names = state.names := retired.names.trans settled.names
  have index : synced.retire.index = state.index := retired.index.trans settled.index
  have main : synced.retire.main = state.main := retired.main.trans settled.main
  have marker : ∀ name node, (synced.retire.cells name node).handle.forkBase =
      (state.cells name node).handle.forkBase :=
    fun name node => (retired.marker name node).trans (settled.marker name node)
  have closed : ∀ {name node}, (state.cells name node).pend = [] →
      synced.retire.cells name node = (state.cells name node).close := by
    intro name node empty
    have same := settled.idle empty
    rw [retired.blank (by rw [same]; exact empty), same]
  have root := @closed channel.name "" addable.still
  have records : (synced.retire.cells channel.name "").handle.records =
      (state.cells channel.name "").handle.records := by
    rw [root]
    rfl
  have usable : ∀ {node}, channel.name ∈ state.names → state.index.Known node →
      (synced.retire.cells channel.name node).Sound := by
    intro node listed known
    exact retired.sound.usable (by rw [names]; exact listed) (by rw [index]; exact known)
  refine ⟨?_, ?_, ?_⟩
  · rcases addable.root with listed | ⟨sound, _⟩
    · exact usable listed (Or.inl rfl)
    · rw [root]
      exact sound.close.1
  · rcases addable.root with listed | ⟨_, base⟩
    · exact retired.sound.root_base (by rw [names]; exact listed)
    · rw [root]
      exact base
  · intro node inside
    have covered := addable.covered node inside
    have accounted := fun mode => addable.accounted mode node inside
    rcases addable.readable node inside with ⟨listed, known⟩ | ⟨empty, sound⟩
    · have after := usable listed known
      have before := proper.sound.usable listed known
      have base : (synced.retire.cells channel.name node).ownBase =
          (state.cells channel.name node).ownBase := by
        rw [after.own_base, before.own_base, Cell.base, Cell.base, marker]
      refine ⟨retire_shut synced _ _, after.marked_own (retired.idle _ _), retired.idle _ _, ?_, ?_⟩
      · intro mode
        rw [base, records]
        exact accounted mode
      · intro zero none
        rw [records, main, marker]
        rw [marker] at zero
        have early := (settled.settles channel.name node).extension.grown
        have late := (retired.grown channel.name node).grown
        have gone : (synced.retire.cells channel.name node).handle.records = [] := by
          rw [Handle.records, none]
          rfl
        have unwritten : (state.cells channel.name node).handle.records = [] := by
          have grown := early.trans late
          change (state.cells channel.name node).handle.records <+:
            (synced.retire.cells channel.name node).handle.records at grown
          rw [gone] at grown
          exact List.prefix_nil.mp grown
        apply covered zero unwritten
        by_cases quiet : (state.cells channel.name node).pend = []
        · rw [closed quiet] at none
          exact Or.inl none
        · exact Or.inr quiet
    · have same := closed empty
      have base : (synced.retire.cells channel.name node).ownBase =
          (state.cells channel.name node).ownBase := by rw [same]; rfl
      refine ⟨retire_shut synced _ _, ?_, retired.idle _ _, ?_, ?_⟩
      · rw [base, same]
        exact ⟨sound.usable, fun busy => absurd rfl busy, fun busy => absurd rfl busy⟩
      · intro mode
        rw [base, records]
        exact accounted mode
      · intro zero none
        rw [records, main, marker]
        rw [same] at zero none
        have unwritten : (state.cells channel.name node).handle.records = [] := by
          change joined Segment.payloads (state.cells channel.name node).handle.files = []
          change (state.cells channel.name node).handle.files = [] at none
          rw [none]
          rfl
        exact covered zero unwritten (Or.inl none)

end Retiring

/-- A spec that passes agrees with the channel of its name in all that is compared. -/
theorem validated_shape {channels : List (Channel β σ)}
    (valid : validateChannelSpec config.registry (channels.map Channel.manifest) isFile spec
      = .ok ()) {existing : Channel β σ} (member : existing ∈ channels)
    (name : existing.name = spec.name) : existing.sameShape (config.channel spec) = true := by
  have compared := validate_existing_of_ok valid existing.manifest (List.mem_map_of_mem member) name
  obtain ⟨kind, reducer, hidden⟩ := compared
  have mode : existing.reducible = (config.channel spec).reducible := by
    rw [config.reducible]
    change (if existing.reducible then "reducible" else "log") = spec.kind.text at kind
    rw [Kind.text_eq] at kind
    by_cases asked : spec.kind = .reducible
    · rw [if_pos asked] at kind
      cases held : existing.reducible with
      | true => exact (decide_eq_true asked).symm
      | false =>
        rw [held] at kind
        exact absurd kind (by decide)
    · rw [if_neg asked] at kind
      cases held : existing.reducible with
      | true =>
        rw [held] at kind
        exact absurd kind (by decide)
      | false => exact (decide_eq_false asked).symm
  change existing.reducer = spec.reducer at reducer
  change existing.isOpaque = spec.isOpaque at hidden
  simp [Channel.sameShape, mode, reducer, hidden, config.reducer, config.isOpaque]

/-- For a spec that passes, this is the addition of the channel it stands for. -/
theorem ensure_channel_spec_eq (idle : state.plan = none)
    (valid : validateChannelSpec config.registry (state.channels.map Channel.manifest) isFile spec
      = .ok ()) : state.ensureChannelSpec config isFile false spec =
      ((state.ensureChannel (config.channel spec)).1.mapError .store,
        (state.ensureChannel (config.channel spec)).2) := by
  have framed := @framed_begin _ _ state
  unfold ensureChannelSpec ensureChannel
  cases begun : state.beginMutation with
  | mk answer synced =>
    rw [begun] at framed
    change Framed state synced at framed
    have plan : synced.plan = none := by
      rw [framed]
      exact idle
    have channels : synced.channels = state.channels := by rw [framed]
    cases answer with
    | error fault => rfl
    | ok _ =>
      have alike : ¬(synced.channel (config.channel spec).name).any
          (fun existing => !existing.sameShape (config.channel spec)) = true := by
        cases found : synced.channel (config.channel spec).name with
        | none => exact Bool.false_ne_true
        | some existing =>
          have member := channel_mem found
          rw [channels] at member
          have shape := validated_shape valid member
            ((channel_name found).trans (config.name spec))
          simp [shape]
      simp only [recover_idle plan, channels, valid, alike, if_false, Bool.false_eq_true]
      cases { synced.retire with plan := some (config.channel spec) }.recover with
      | mk result next => cases result <;> rfl

/-- Once the plan of a channel that can be added is written, it is completed. -/
theorem Addable.completes {synced : Trunks β σ} (addable : state.Addable (config.channel spec))
    (proper : state.Proper) (settled : Settled state synced)
    (valid : validateChannelSpec config.registry (state.channels.map Channel.manifest) isFile spec
      = .ok ()) :
    ∃ last, { synced.retire with plan := some (config.channel spec) }.recover = (.ok (), last) := by
  have retired := retire_retired (settled.sound proper.sound)
  have index : synced.retire.index = state.index := retired.index.trans settled.index
  have strays : synced.retire.strays = state.strays := by rw [retired.frame, settled.frame]
  have channels : synced.retire.channels = state.channels :=
    retired.channels.trans settled.channels
  obtain ⟨sound, base, fillable⟩ := addable.retired proper settled
  obtain ⟨grown, walked, framed⟩ := @backfill_channel_ok _ _
    { synced.retire with plan := some (config.channel spec) } (config.channel spec)
    addable.faithful sound (retired.idle _ _) base
    (by
      rw [index, strays]
      exact addable.distinct)
    (by
      rw [index, strays]
      exact fun node inside => (fillable node inside).congr rfl fun _ => rfl)
  rw [recover]
  simp only [walked]
  have listed : grown.channels = synced.retire.channels := by rw [framed]
  have same : grown.channel (config.channel spec).name =
      state.channel (config.channel spec).name := by
    rw [channel, channel, listed, channels]
  cases found : state.channel (config.channel spec).name with
  | none =>
    rw [found] at same
    simp only [same]
    exact ⟨_, rfl⟩
  | some existing =>
    have name := channel_name found
    have shape := validated_shape valid (channel_mem found) (name.trans (config.name spec))
    have keyed := addable.keyed existing found
    have agrees : existing.sameManifest (config.channel spec) = true := by
      simp only [Channel.sameShape, Bool.and_eq_true, beq_iff_eq] at shape
      simp [Channel.sameManifest, name, shape.1.1, shape.1.2, shape.2, keyed]
    rw [found] at same
    simp only [same, agrees, if_true]
    exact ⟨_, rfl⟩

def sampleConfig : ChannelConfig Nat Nat where
  registry := ⟨[("zero", ⟨true, true⟩)], []⟩
  channel spec := {
    name := spec.name
    reducer := spec.reducer
    isOpaque := spec.isOpaque
    unkeyed := spec.unkeyed
    opts := ⟨sampleCodec, 20, if spec.kind = .reducible then some fun _ _ => .ok 0 else none⟩
    frameBytes := fun _ => 1
    decodes := fun _ => true }
  name _ := rfl
  reducer _ := rfl
  isOpaque _ := rfl
  unkeyed _ := rfl
  reducible spec := by
    by_cases kind : spec.kind = .reducible <;> simp [Channel.reducible, kind]

end Trunks

end Figwal.Xwal
