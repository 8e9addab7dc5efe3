import Figwal.Xwal.Isolation

/-!
# The fork boundary of a channel that gave up its keys

A keyed channel that the caller declares unkeyed is switched when the store is opened. Its old
records keep their main LTs, the new ones have none, and main records written before the switch
carry no stamp for it. What an old main record saw of the channel is then the part up to its
last old record keyed at or below it.

`CursorAt` finds that part only in two cases. In a store that came through `Flatten` it scans
the channel from its end, and takes the first new record for one keyed at or below. In any
other store it does not scan at all and answers 0.
-/

namespace Figwal.Xwal

open Figwal.Lib Figwal.Disk List

set_option autoImplicit false

variable {β σ : Type}

/-!
## Records kept through a main LT
-/

theorem kept_through_zero {mainLT : Nat} {records : List (Record β)} :
    keptThrough mainLT records = 0 ↔ ∀ record ∈ records, mainLT < record.mainLT := by
  constructor
  · intro none
    rcases kept_through_spec mainLT records with ⟨kept, rest, rfl, length, above, _⟩
    rw [length, length_eq_zero_iff] at none
    rw [none]
    exact above
  · intro above
    have none := @kept_through_append β mainLT [] records above
    rw [nil_append] at none
    rw [none]
    rfl

namespace Trunks

/-!
## The switch
-/

theorem reconcile_unkeyed {declared : List (String × Bool)} {list channels : List (Channel β σ)}
    {name : String} (declares : declared.lookup name = some true)
    (done : reconcile declared list = .ok channels) :
    ∀ channel ∈ channels, channel.name = name → channel.unkeyed = true := by
  intro channel member same
  rw [reconcile_eq done] at member
  rcases mem_map.mp member with ⟨old, _, rfl⟩
  change old.name = name at same
  simp [same, declares]

/-- The store was opened by a caller that declares a keyed channel unkeyed. -/
structure Switched (start : Trunks β σ) (declared : List (String × Bool)) (name : String)
    (switched : Trunks β σ) : Prop where
  proper : start.Proper
  related : name ≠ start.main
  keyed : ∃ channel, start.channel name = some channel ∧ channel.unkeyed = false
  declares : declared.lookup name = some true
  done : start.reopen declared = (.ok (), switched)

section Switch

variable {start switched state next : Trunks β σ} {declared : List (String × Bool)}
  {name node : String} {mainLT : Nat}

structure Fresh (switched : Trunks β σ) (name : String) : Prop where
  proper : switched.Proper
  related : name ≠ switched.main
  unkeyed : ∃ channel, switched.channel name = some channel ∧ channel.unkeyed = true
  idle : ∀ other key, (switched.cells other key).pend = []

theorem Switched.fresh (switch : Switched start declared name switched) : switched.Fresh name := by
  have proper := switch.proper
  have retired := retire_retired proper.sound
  have kept := retired.proper proper
  have done := switch.done
  rw [reopen, recover_idle kept.plan] at done
  cases reconciled : reconcile declared start.retire.channels with
  | error fault =>
    simp only [reconciled] at done
    cases done
  | ok channels =>
    simp only [reconciled] at done
    cases done
    have properLater := reconcile_proper proper reconciled
    have shape := rebuild_idle properLater retired.idle
    refine ⟨rebuild_proper properLater, ?_, ?_, fun _ _ => rfl⟩
    · rw [shape]
      change name ≠ start.retire.main
      rw [retired.main]
      exact switch.related
    · have listed : name ∈ channels.map Channel.name := by
        rcases switch.keyed with ⟨channel, found, _⟩
        have member := name_mem (channel_mem found)
        rw [channel_name found, ← retired.names] at member
        rw [reconcile_names reconciled]
        exact member
      have inNames : name ∈ ({ start.retire with channels := channels } :
          Trunks β σ).rebuild.names := by
        rw [shape]
        exact listed
      rcases channel_exists inNames with ⟨channel, found⟩
      refine ⟨channel, found, ?_⟩
      have member := channel_mem found
      rw [shape] at member
      exact reconcile_unkeyed switch.declares reconciled channel member (channel_name found)

/-!
## Appending after the switch
-/

/-- What appends leave of the store after the switch: the channel's old records, all of them on
disk, with unkeyed ones behind them, and the old main records. -/
structure Since (switched : Trunks β σ) (name : String) (state : Trunks β σ) : Prop where
  proper : state.Proper
  frame : state = { switched with cells := state.cells }
  added : ∀ {node}, switched.index.Known node → ∃ plain, state.shown name node =
    switched.shown name node ++ plain ∧ ∀ record ∈ plain, record.mainLT = 0
  durable : ∀ {node}, switched.index.Known node →
    switched.shown name node <+: state.settled name node
  older : ∀ {node}, switched.index.Known node →
    switched.shown switched.main node <+: state.shown switched.main node

theorem Fresh.since (fresh : switched.Fresh name) : switched.Since name switched where
  proper := fresh.proper
  frame := rfl
  added _ := ⟨[], (append_nil _).symm, fun record member => nomatch member⟩
  durable := by
    intro node _
    have all := shown_eq switched name node
    rw [Cell.waiting_of_idle (fresh.idle _ _), append_nil] at all
    exact all ▸ List.prefix_refl _
  older _ := List.prefix_refl _

theorem Since.append_end (fresh : switched.Fresh name) (since : switched.Since name state)
    {trunk : String} (ends : AppendEnd state trunk next) : switched.Since name next := by
  cases ends with
  | failed same =>
    rw [same]
    exact since
  | appended channelName target record listed head appended plain proper =>
    have index : state.index = switched.index := by rw [since.frame]
    have channels : state.channels = switched.channels := by rw [since.frame]
    have main : state.main = switched.main := by rw [since.frame]
    have sound := since.proper.sound
    rcases fresh.unkeyed with ⟨channel, found, unkeyed⟩
    have member := channel_mem found
    rw [← channels] at member
    have listedName : name ∈ state.names := by
      rw [← channel_name found]
      exact name_mem member
    refine ⟨proper, ?_, ?_, ?_, ?_⟩
    · rw [appended.frame]
      conv_lhs => rw [since.frame]
    · intro node known
      have knownNow : state.index.Known node := index ▸ known
      rcases since.added known with ⟨old, shown, zeros⟩
      by_cases here : name = channelName ∧ node = target
      · rcases here with ⟨rfl, rfl⟩
        refine ⟨old ++ [record], ?_, fun other inside => ?_⟩
        · rw [appended.shown_here sound listed knownNow, shown, append_assoc]
        · rcases mem_append.mp inside with earlier | last
          · exact zeros other earlier
          · rw [mem_singleton.mp last]
            exact plain channel member (channel_name found) unkeyed (main ▸ fresh.related)
      · exact ⟨old, by rw [appended.shown_elsewhere sound listedName knownNow here, shown],
          zeros⟩
    · intro node known
      have knownNow : state.index.Known node := index ▸ known
      refine (since.durable known).trans ?_
      rw [settled, settled, appended.index]
      exact durable_longer (sound.based listedName knownNow)
        fun other _ => appended.extended name other
    · intro node known
      have knownNow : state.index.Known node := index ▸ known
      refine (since.older known).trans ?_
      have listedMain : switched.main ∈ state.names := main ▸ since.proper.main
      by_cases here : switched.main = channelName ∧ node = target
      · rcases here with ⟨rfl, rfl⟩
        rw [appended.shown_here sound listed knownNow]
        exact List.prefix_append _ _
      · have same := appended.shown_elsewhere sound listedMain knownNow here
        exact same ▸ List.prefix_refl _

theorem Sound.cursor_at (sound : state.Sound) (listed : state.main ∈ state.names)
    (known : state.index.Known node) {channel : Channel β σ}
    (found : state.channel name = some channel) (positive : 1 ≤ mainLT) {record : Record β}
    (written : (state.shown state.main node)[mainLT - 1]? = some record)
    (bare : record.cursors.lookup name = none) : state.cursorAt node mainLT name =
      .ok (if state.unstamped then keptThrough mainLT (state.shown name node) else 0) := by
  rcases channel_exists listed with ⟨main, foundMain⟩
  have read := (sound.read_at known foundMain mainLT record).mpr ⟨positive, written⟩
  have member := channel_mem found
  have same := channel_name found
  subst same
  rw [cursorAt, if_neg (by omega), read]
  simp only [bare]
  cases flag : state.unstamped with
  | false => rfl
  | true =>
    rcases sound.logs member known with ⟨log, parents, opened, _⟩
    rcases sound.lookup member known opened mainLT with ⟨answer, looked, kept⟩
    simp only [Bool.not_true, Bool.false_eq_true, if_false, found, opened, looked, kept, if_true]

/-- `CursorAt` can answer for an old main record: in a store that came through `Flatten` no
record was added since the switch, in any other no old record is keyed at or below. -/
def Answerable (switched state : Trunks β σ) (name node : String) (mainLT : Nat) : Prop :=
  if state.unstamped then state.shown name node = switched.shown name node
  else ∀ record ∈ switched.shown name node, mainLT < record.mainLT

instance [DecidableEq β] (switched state : Trunks β σ) (name node : String) (mainLT : Nat) :
    Decidable (Answerable switched state name node mainLT) :=
  inferInstanceAs (Decidable (ite _ _ _))

theorem Answerable.cursor (answerable : Answerable switched state name node mainLT) :
    (if state.unstamped then keptThrough mainLT (state.shown name node) else 0) =
      keptThrough mainLT (switched.shown name node) := by
  rw [Answerable] at answerable
  split_ifs at answerable ⊢ with flag
  · rw [answerable]
  · exact (kept_through_zero.mpr answerable).symm

/-- A fork of the node at a main LT, into a directory that does not exist yet, inherits the
channel up to its last old record keyed at or below. -/
def Inherits (switched state : Trunks β σ) (name node : String) (mainLT : Nat) : Prop :=
  ∀ {trunk minted head child info next}, state.Mints minted "conversation" →
    state.Bare (nodeId state.nodeSeq) →
    state.index.head trunk = some head → mainLT < state.mainTail head →
    state.forkAt trunk mainLT minted = (.ok minted, next) →
    next.index.head minted = some child → next.index.node child = some info →
    info.fromKey = node →
      next.shown name child =
        (switched.shown name node).take (keptThrough mainLT (switched.shown name node))

/-- Flushing and retiring keep the old records and, where none was added, show no others. -/
theorem Since.staged {loads : String → Prop} (since : switched.Since name state)
    (listed : name ∈ state.names) (known : switched.index.Known node)
    (staged : Staged state next loads) :
    switched.shown name node <+: next.shown name node ∧
      (state.shown name node = switched.shown name node →
        next.shown name node = switched.shown name node) := by
  have knownNow : state.index.Known node := by
    rw [since.frame]
    exact known
  have longer : state.settled name node <+: next.settled name node := by
    rw [settled, settled, staged.index]
    exact durable_longer (since.proper.sound.based listed knownNow)
      fun other _ => staged.grown name other
  have whole : switched.shown name node <+: next.shown name node := by
    rw [shown_eq next]
    exact (since.durable known).trans (longer.trans (List.prefix_append _ _))
  refine ⟨whole, fun same => ?_⟩
  have shorter := staged.shorter listed knownNow
  rw [same] at shorter
  exact shorter.eq_of_length_le whole.length_le

theorem Since.inherits (fresh : switched.Fresh name) (since : switched.Since name state)
    (known : switched.index.Known node) (positive : 1 ≤ mainLT) {record : Record β}
    (written : (switched.shown switched.main node)[mainLT - 1]? = some record)
    (bare : record.cursors.lookup name = none)
    (answerable : Answerable switched state name node mainLT) :
    Inherits switched state name node mainLT := by
  intro trunk minted head child info next mints bareNext isHead below done headChild nodeChild
    parentIs
  have main : state.main = switched.main := by rw [since.frame]
  have knownNow : state.index.Known node := by
    rw [since.frame]
    exact known
  rcases fresh.unkeyed with ⟨channel, found, unkeyed⟩
  have foundNow : state.channel name = some channel := by
    rw [since.frame]
    exact found
  have same := channel_name found
  subst same
  have member := channel_mem foundNow
  have forks := fork_at_end since.proper mints.2.2.2 bareNext (fun _ known => mints.survives known)
    (fun entry member _ => mints.2.1 entry member) done
  cases forks with
  | forked middle parent tailFork upTo staged later _ from_ forked =>
    -- The new node is the one that carries the minted trunk.
    have planted : (nodeId state.nodeSeq, (⟨minted, parent, "conversation"⟩ : NodeInfo)) ∈
        next.index := by
      rw [forked.index]
      exact mem_cons_self
    have carried := Index.head_of_mem later.trunks planted mints.1
    rw [headChild] at carried
    cases carried
    have named : nodeId state.nodeSeq ≠ "" := fun root => forked.unlisted (Or.inl root)
    rw [Index.node, if_neg named, forked.index, lookup_cons_self] at nodeChild
    cases nodeChild
    change parent = node at parentIs
    subst parentIs
    -- It lies inside, so the boundary is the cursor.
    rw [since.proper.main_tail (Index.head_known isHead)] at below
    rcases from_ with ⟨other, again, source⟩
    rw [isHead] at again
    cases again
    rcases source with ⟨atTail, _⟩ | ⟨_, _, _, rfl, point⟩
    · exfalso
      omega
    · rw [point] at forked
      rcases since.staged (name_mem member) known staged with ⟨whole, unchanged⟩
      have foundMiddle : middle.channel channel.name = some channel := by
        rw [Trunks.channel, staged.channels]
        exact foundNow
      have knownMiddle : middle.index.Known parent := by
        rw [staged.index]
        exact knownNow
      have writtenMiddle : (middle.shown middle.main parent)[mainLT - 1]? = some record := by
        rw [staged.main, staged.main_same knownNow, main]
        rcases since.older known with ⟨more, longer⟩
        rw [← longer, List.getElem?_append_left (List.getElem?_eq_some_iff.mp written).1]
        exact written
      have cursor := staged.proper.sound.cursor_at staged.proper.main knownMiddle foundMiddle
        positive writtenMiddle bare
      have flag : middle.unstamped = state.unstamped := by rw [staged.frame]
      have boundary : (if middle.unstamped then
          keptThrough mainLT (middle.shown channel.name parent) else 0) =
          keptThrough mainLT (switched.shown channel.name parent) := by
        apply Answerable.cursor
        rw [Answerable, flag]
        rw [Answerable] at answerable
        split_ifs at answerable ⊢
        · exact unchanged answerable
        · exact answerable
      rw [boundary] at cursor
      have inMiddle : channel ∈ middle.channels := by
        rw [staged.channels]
        exact member
      have related : channel.name ≠ middle.main := by
        rw [staged.main, main]
        exact fresh.related
      rcases forked.inherits channel inMiddle with ⟨base, computed, _, _, _, shown⟩
      rcases (staged.proper.sound.channel_base inMiddle knownMiddle computed).2.2.2.1 related
        unkeyed rfl with ⟨answer, answered, place⟩
      rw [cursor] at answered
      cases answered
      have short := kept_through_le mainLT (switched.shown channel.name parent)
      have fits := whole.length_le
      rw [shown, place, Nat.add_sub_cancel, Nat.min_eq_left (by omega)]
      rcases whole with ⟨more, split⟩
      rw [← split, take_append_of_le_length short]

end Switch

end Trunks

end Figwal.Xwal
