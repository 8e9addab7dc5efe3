import Figwal.Xwal.Shown

/-!
# Flushing

Every flush path moves pending records to disk and does nothing else: `Settled`
relates the states before and after. No reader notices, what could be written still
can be, and a node whose head was flushed coherently is `Quiet`: its main records
are on disk, and what is left in memory is keyed above them.
-/

namespace Figwal.Xwal

open Figwal.Lib Figwal.Disk

set_option autoImplicit false

variable {β σ : Type}

theorem open_logs_grew {opts : Options (Record β) σ} {cells changed : String → Cell β σ}
    {path : List String} {logs : List (Log (Record β) σ)}
    (opened : openLogs opts cells path = .ok logs)
    (grew : ∀ key ∈ path, ∀ log, (cells key).handle.log opts = .ok log →
      ∃ grown, (changed key).handle.log opts = .ok grown ∧ log.Grew grown) :
    ∃ others, openLogs opts changed path = .ok others ∧ List.Forall₂ Log.Grew logs others := by
  induction path generalizing logs with
  | nil => cases opened
  | cons node up ih =>
    rw [openLogs] at opened ⊢
    cases found : (cells node).handle.log opts with
    | error err =>
      rw [found] at opened
      cases opened
    | ok log =>
      rcases grew node List.mem_cons_self log found with ⟨grown, usable, longer⟩
      rw [found] at opened
      simp only [usable, longer.base] at opened ⊢
      by_cases alone : up = [] ∨ up = [""] ∧ log.forkBase = 0
      · rw [if_pos alone] at opened ⊢
        cases opened
        exact ⟨[grown], rfl, .cons longer .nil⟩
      · rw [if_neg alone] at opened ⊢
        cases above : openLogs opts cells up with
        | error err =>
          rw [above] at opened
          cases opened
        | ok parents =>
          rw [above] at opened
          cases opened
          rcases ih above fun key member => grew key (List.mem_cons_of_mem _ member) with
            ⟨others, further, all⟩
          exact ⟨grown :: others, by rw [further], .cons longer all⟩

namespace Trunks

variable {before : Trunks β σ}

structure Settled (before after : Trunks β σ) : Prop where
  frame : after = { before with cells := after.cells }
  usable : ∀ {name node}, name ∈ before.names → before.index.Known node →
    (after.cells name node).Sound
  settles : ∀ name node, Settles (before.branches name node) (after.branches name node)
  idle : ∀ {name node}, (before.cells name node).pend = [] →
    after.cells name node = before.cells name node
  marker : ∀ name node, (after.cells name node).handle.forkBase =
    (before.cells name node).handle.forkBase
  grew : ∀ {channel : Channel β σ} {node : String}, channel ∈ before.channels →
    before.index.Known node → ∀ log, (before.cells channel.name node).Opens channel.opts log →
      ∃ grown, (after.cells channel.name node).Opens channel.opts grown ∧ log.Grew grown

namespace Settled

variable {before after last : Trunks β σ}

theorem main (settled : Settled before after) : after.main = before.main := by
  rw [settled.frame]

theorem channels (settled : Settled before after) : after.channels = before.channels := by
  rw [settled.frame]

theorem names (settled : Settled before after) : after.names = before.names := by
  rw [Trunks.names, settled.channels, Trunks.names]

theorem index (settled : Settled before after) : after.index = before.index := by
  rw [settled.frame]

theorem refl (sound : before.Sound) : Settled before before where
  frame := rfl
  usable := sound.usable
  settles _ _ := Settles.refl _
  idle _ := rfl
  marker _ _ := rfl
  grew _ _ log opens := ⟨log, opens, Log.Grew.refl log⟩

theorem trans (early : Settled before after) (late : Settled after last) :
    Settled before last where
  frame := by
    have middle := early.frame
    rw [late.frame, middle]
  usable listed known :=
    late.usable (by rw [early.names]; exact listed) (by rw [early.index]; exact known)
  settles name node := (early.settles name node).trans (late.settles name node)
  idle still := by
    have same := early.idle still
    rw [late.idle (by rw [same]; exact still), same]
  marker name node := (late.marker name node).trans (early.marker name node)
  grew member known log opens := by
    rcases early.grew member known log opens with ⟨grown, more, longer⟩
    rcases late.grew (by rw [early.channels]; exact member) (by rw [early.index]; exact known)
      grown more with ⟨further, most, longest⟩
    exact ⟨further, most, longer.trans longest⟩

section

variable (settled : Settled before after)

include settled

theorem lineage (node : String) : after.index.lineage node = before.index.lineage node := by
  rw [settled.index]

theorem sound (sound : before.Sound) : after.Sound where
  faithful := by
    rw [settled.channels]
    exact sound.faithful
  distinct := by
    rw [settled.names]
    exact sound.distinct
  ordered := by
    rw [settled.index]
    exact sound.ordered
  usable listed known :=
    settled.usable (settled.names ▸ listed) (settled.index ▸ known)
  based {name node} listed known := by
    rw [settled.lineage]
    exact based_extends (sound.based (settled.names ▸ listed) (settled.index ▸ known))
      fun other _ => (settled.settles name other).extension

theorem shown (sound : before.Sound) {name node : String} (listed : name ∈ before.names)
    (known : before.index.Known node) : after.shown name node = before.shown name node := by
  rw [Trunks.shown, settled.lineage, Trunks.shown]
  exact unfolded_settles (sound.based listed known) fun other _ => settled.settles name other

theorem waiting_suffix (name node : String) :
    (after.cells name node).waiting <:+ (before.cells name node).waiting := by
  rcases (settled.settles name node).moved with ⟨moved, _, waits⟩
  exact ⟨moved, waits.symm⟩

theorem logs (sound : before.Sound) {channel : Channel β σ} (member : channel ∈ before.channels)
    {node : String} (known : before.index.Known node) {logs : List (Log (Record β) σ)}
    (opened : before.logs channel node = .ok logs) :
    ∃ others, after.logs channel node = .ok others ∧ List.Forall₂ Log.Grew logs others := by
  rw [Trunks.logs, settled.lineage]
  apply open_logs_grew opened
  intro key above log usable
  have knownKey := Index.known_lineage sound.ordered known above
  rcases (sound.usable (name_mem member) knownKey).opens
    (sound.faithful channel member).steady with ⟨other, opens⟩
  have same := opens.usable.symm.trans usable
  cases same
  rcases settled.grew member knownKey log opens with ⟨grown, more, longer⟩
  exact ⟨grown, more.usable, longer⟩

end

end Settled

/-!
## What can be written
-/

def Flushable (state : Trunks β σ) (channel : Channel β σ) (node : String) : Prop :=
  match state.logs channel node with
  | .ok (log :: parents) =>
    (state.cells channel.name node).Flushes channel.opts log parents
  | _ => False

theorem flushable_iff {state : Trunks β σ} {channel : Channel β σ} {node : String}
    {log : Log (Record β) σ} {parents : List (Log (Record β) σ)}
    (opened : state.logs channel node = .ok (log :: parents)) :
    state.Flushable channel node ↔
      (state.cells channel.name node).Flushes channel.opts log parents := by
  rw [Flushable, opened]

theorem same_above {opts : Options (Record β) σ} {log : Log (Record β) σ}
    {parents others : List (Log (Record β) σ)} (chained : Chained (log :: parents))
    (later : Chained others) (grew : List.Forall₂ Log.Grew parents others) :
    log.SameAbove opts parents others := by
  refine ⟨by cases grew <;> simp, fun nested => ?_⟩
  have fits := chained.2.1
  have base := Log.fork_base_le_first_writable log
  exact state_at_grew chained.2.2 later grew (by omega)

theorem Flushable.settled {after : Trunks β σ} (settled : Settled before after)
    (sound : before.Sound) {channel : Channel β σ} (member : channel ∈ before.channels)
    {node : String} (known : before.index.Known node)
    (keeps : ∀ log parents, before.logs channel node = .ok (log :: parents) →
      ∀ grown, (after.cells channel.name node).Opens channel.opts grown →
        (after.cells channel.name node).Flushes channel.opts grown parents) :
    after.Flushable channel node := by
  rcases sound.logs member known with ⟨log, parents, opened, _, chained, _⟩
  rcases settled.logs sound member known opened with ⟨others, reopened, grew⟩
  have memberAfter : channel ∈ after.channels := by
    rw [settled.channels]
    exact member
  have knownAfter : after.index.Known node := by
    rw [settled.index]
    exact known
  rcases (settled.sound sound).logs memberAfter knownAfter with
    ⟨grown, uppers, again, opens, chainedAfter, _⟩
  have same := again.symm.trans reopened
  cases same
  cases grew with
  | cons longer above =>
    have flushes := keeps log parents opened grown opens
    have fits : Chained (grown :: parents) := by
      refine ⟨opens.tidy, ?_, chained.2.2⟩
      have first : grown.firstWritable = log.firstWritable := by
        rw [Log.firstWritable, longer.base, Log.firstWritable]
      rw [first]
      exact chained.2.1
    rw [flushable_iff again, Cell.Flushes, persist_same_above
      (same_above fits chainedAfter.2.2 above) _ _ opens.tidy.numbered]
    exact flushes

structure Synced (before after : Trunks β σ) : Prop where
  settled : Settled before after
  flushable : ∀ {channel : Channel β σ} {node : String}, channel ∈ before.channels →
    before.index.Known node → before.Flushable channel node → after.Flushable channel node

theorem Synced.refl (sound : before.Sound) : Synced before before :=
  ⟨Settled.refl sound, fun _ _ flushable => flushable⟩

theorem Synced.trans {after last : Trunks β σ} (early : Synced before after)
    (late : Synced after last) : Synced before last := by
  refine ⟨early.settled.trans late.settled, fun member known flushable => ?_⟩
  apply late.flushable
  · rw [early.settled.channels]
    exact member
  · rw [early.settled.index]
    exact known
  · exact early.flushable member known flushable

/-!
## The flush paths
-/

section Paths

variable {state next : Trunks β σ} {channel : Channel β σ} {node : String}
  {result : Except Err Unit}

theorem flush_spec (sound : state.Sound) (member : channel ∈ state.channels)
    (known : state.index.Known node) {target : Nat}
    (done : state.flush channel node target = (result, next)) : Synced state next ∧
      (result = .ok () → (next.cells channel.name node).waiting =
        (state.cells channel.name node).waiting.drop (target + 1 -
          ((state.cells channel.name node).base +
            (state.cells channel.name node).handle.records.length))) ∧
      (state.Flushable channel node → result = .ok ()) := by
  have keeps := (sound.faithful channel member).keeps
  rcases sound.logs member known with ⟨log, parents, opened, opens, chained, _⟩
  have usable := sound.usable (name_mem member) known
  rw [flush, withLog, opened] at done
  cases change : (state.cells channel.name node).syncThrough channel.opts log parents target with
  | mk answer cell =>
    simp only [change] at done
    cases done
    rcases Cell.sync_through_spec keeps usable opens target change with
      ⟨kept, settles, ⟨grown, opensAfter, longer⟩, dropped⟩
    have here : (state.setCell channel.name node cell).cells channel.name node = cell :=
      if_pos ⟨rfl, rfl⟩
    have elsewhere : ∀ {name key}, ¬(name = channel.name ∧ key = node) →
        (state.setCell channel.name node cell).cells name key = state.cells name key :=
      fun other => if_neg other
    have settled : Settled state (state.setCell channel.name node cell) := by
      refine ⟨rfl, ?_, ?_, ?_, ?_, ?_⟩
      · intro name key isListed isKnown
        by_cases same : name = channel.name ∧ key = node
        · rw [same.1, same.2, here]
          exact kept
        · rw [elsewhere same]
          exact sound.usable isListed isKnown
      · intro name key
        by_cases same : name = channel.name ∧ key = node
        · rw [branches, branches, same.1, same.2, here]
          exact settles
        · rw [branches, branches, elsewhere same]
          exact Settles.refl _
      · intro name key still
        by_cases same : name = channel.name ∧ key = node
        · rw [same.1, same.2] at still ⊢
          have none : (state.cells channel.name node).batch target = 0 := by
            rw [Cell.batch, if_pos (Or.inl still)]
          rw [Cell.syncThrough, if_pos none] at change
          cases change
          exact here
        · exact elsewhere same
      · intro name key
        by_cases same : name = channel.name ∧ key = node
        · rw [same.1, same.2, here, ← opensAfter.forkBase, longer.base, opens.forkBase]
        · rw [elsewhere same]
      · intro other key isMember isKnown before opensBefore
        by_cases same : other.name = channel.name ∧ key = node
        · have isChannel := List.inj_on_of_nodup_map sound.distinct isMember member same.1
          subst isChannel
          rw [same.2] at opensBefore ⊢
          have isLog := opensBefore.usable.symm.trans opens.usable
          cases isLog
          rw [here]
          exact ⟨grown, opensAfter, longer⟩
        · rw [elsewhere same]
          exact ⟨before, opensBefore, Log.Grew.refl before⟩
    have fine : state.Flushable channel node → result = .ok () ∧
        ∀ grown, cell.Opens channel.opts grown → cell.Flushes channel.opts grown parents :=
      fun flushable => ((flushable_iff opened).mp flushable).sync_through keeps usable
        opens target change
    refine ⟨⟨settled, ?_⟩, ?_, fun flushable => (fine flushable).1⟩
    · intro other key isMember isKnown flushable
      apply Flushable.settled settled sound isMember isKnown
      intro otherLog above otherOpened further opensFurther
      by_cases same : other.name = channel.name ∧ key = node
      · have isChannel := List.inj_on_of_nodup_map sound.distinct isMember member same.1
        subst isChannel
        rw [same.2] at flushable opensFurther otherOpened ⊢
        have isLogs := otherOpened.symm.trans opened
        cases isLogs
        rw [here] at opensFurther ⊢
        exact (fine flushable).2 further opensFurther
      · rw [elsewhere same] at opensFurther ⊢
        rcases sound.logs isMember isKnown with ⟨first, rest, again, opensFirst, _⟩
        have isLogs := otherOpened.symm.trans again
        cases isLogs
        have isLog := opensFurther.usable.symm.trans opensFirst.usable
        cases isLog
        exact (flushable_iff otherOpened).mp flushable
    · intro ok
      rw [here]
      exact dropped ok

theorem waiting_past_all (cell : Cell β σ) :
    cell.waiting.drop (cell.allPending + 1 - (cell.base + cell.handle.records.length)) = [] := by
  apply List.drop_of_length_le
  rw [Cell.waiting, Cell.allPending, List.length_drop]
  omega

theorem sync_spec (sound : state.Sound) (member : channel ∈ state.channels)
    (known : state.index.Known node) (done : state.sync channel node = (result, next)) :
    Synced state next ∧ (result = .ok () → (next.cells channel.name node).waiting = []) ∧
      (state.Flushable channel node → result = .ok ()) := by
  rcases flush_spec sound member known done with ⟨synced, dropped, fine⟩
  refine ⟨synced, fun ok => ?_, fine⟩
  rw [dropped ok]
  exact waiting_past_all _

/-- The highest main LT `syncCoherent` lets a related channel reach. -/
def reach (channel : Channel β σ) (mainTail : Nat) : Nat :=
  if channel.reducible then mainTail + 1 else mainTail

/-- The related channels of one node are flushed up to what their limit allows. -/
theorem sync_related_spec {mainTail : Nat} {list : List (Channel β σ)} (sound : state.Sound)
    (members : ∀ channel ∈ list, channel ∈ state.channels) (known : state.index.Known node)
    (done : syncRelated node mainTail list state = (result, next)) :
    Synced state next ∧ (result = .ok () → ∀ channel ∈ list, channel.name ≠ state.main →
      ∀ record ∈ (next.cells channel.name node).waiting,
        reach channel mainTail < record.mainLT) := by
  induction list generalizing state with
  | nil =>
    cases done
    refine ⟨Synced.refl sound, fun _ channel inside => ?_⟩
    cases inside
  | cons channel rest ih =>
    have later : ∀ other ∈ rest, other ∈ state.channels :=
      fun other inside => members other (List.mem_cons_of_mem _ inside)
    rw [syncRelated] at done
    by_cases isMain : channel.name = state.main
    · rw [if_pos isMain] at done
      rcases ih sound later known done with ⟨synced, bounded⟩
      refine ⟨synced, fun ok other inside related => ?_⟩
      rcases List.mem_cons.mp inside with rfl | below
      · exact absurd isMain related
      · exact bounded ok other below related
    · rw [if_neg isMain] at done
      have member := members channel List.mem_cons_self
      obtain ⟨target, coherent, above⟩ := (sound.usable (name_mem member) known).coherent_target
        (sound.faithful channel member) (reach channel mainTail)
      cases flushed : state.flush channel node target with
      | mk answer middle =>
        rcases flush_spec sound member known flushed with ⟨synced, dropped, _⟩
        have same := synced.settled
        unfold reach at coherent
        simp only [coherent, flushed] at done
        cases answer with
        | error err =>
          cases done
          exact ⟨synced, nofun⟩
        | ok _ =>
          rcases ih (same.sound sound) (by rw [same.channels]; exact later)
            (by rw [same.index]; exact known) done with ⟨more, bounded⟩
          refine ⟨synced.trans more, fun ok other inside related => ?_⟩
          rcases List.mem_cons.mp inside with rfl | below
          · intro record waits
            have still := (more.settled.waiting_suffix other.name node).subset waits
            rw [dropped rfl] at still
            exact above record still
          · exact bounded ok other below (by rw [same.main]; exact related)

/-- A node's main records are on disk, and what its related channels keep in memory
is keyed above them. -/
structure Quiet (state : Trunks β σ) (node : String) : Prop where
  main : (state.cells state.main node).waiting = []
  related : ∀ channel ∈ state.channels, channel.name ≠ state.main →
    ∀ record ∈ (state.cells channel.name node).waiting,
      reach channel (state.settled state.main node).length < record.mainLT

theorem Settled.settled_length (settled : Settled state next) (sound : state.Sound) {name : String}
    (listed : name ∈ state.names) (known : state.index.Known node)
    (empty : (state.cells name node).waiting = []) :
    (next.settled name node).length = (state.settled name node).length := by
  have before := sound.settled_length listed known
  have after := (settled.sound sound).settled_length (by rw [settled.names]; exact listed)
    (by rw [settled.index]; exact known)
  have settles := settled.settles name node
  rcases settles.moved with ⟨moved, own, waits⟩
  have none : moved = [] := by
    have whole : [] = moved ++ (next.cells name node).waiting := empty.symm.trans waits
    exact (List.append_eq_nil_iff.mp whole.symm).1
  have base : (next.cells name node).base = (state.cells name node).base := settles.base
  have records : (next.cells name node).handle.records =
      (state.cells name node).handle.records := by
    rw [none, List.append_nil] at own
    exact own
  rw [base, records] at after
  omega

theorem Quiet.settled (quiet : state.Quiet node) (settled : Settled state next)
    (sound : state.Sound) (listed : state.main ∈ state.names) (known : state.index.Known node) :
    next.Quiet node := by
  constructor
  · rw [settled.main]
    have suffix := settled.waiting_suffix state.main node
    rw [quiet.main] at suffix
    exact List.suffix_nil.mp suffix
  · intro channel member related record waits
    rw [settled.channels] at member
    rw [settled.main] at related ⊢
    rw [settled.settled_length sound listed known quiet.main]
    exact quiet.related channel member related record
      ((settled.waiting_suffix channel.name node).subset waits)

section

variable (sound : state.Sound) (listed : state.main ∈ state.names)

include sound listed

theorem sync_coherent_spec (known : state.index.Known node)
    (done : state.syncCoherent node = (result, next)) :
    Synced state next ∧ (result = .ok () → next.Quiet node) := by
  rcases channel_exists listed with ⟨main, found⟩
  have member := channel_mem found
  have name := channel_name found
  rw [syncCoherent, found] at done
  cases synced : state.sync main node with
  | mk answer middle =>
    rcases sync_spec sound member known synced with ⟨first, empty, _⟩
    have same := first.settled
    have soundMiddle := same.sound sound
    simp only [synced] at done
    cases answer with
    | error err =>
      cases done
      exact ⟨first, nofun⟩
    | ok _ =>
      have knownMiddle : middle.index.Known node := by
        rw [same.index]
        exact known
      have memberMiddle : main ∈ middle.channels := by
        rw [same.channels]
        exact member
      rcases sync_related_spec soundMiddle (fun _ inside => inside) knownMiddle done with
        ⟨second, bounded⟩
      refine ⟨first.trans second, fun ok => ?_⟩
      have emptyMain : (middle.cells middle.main node).waiting = [] := by
        rw [same.main, ← name]
        exact empty rfl
      have quiet : ∀ channel ∈ middle.channels, channel.name ≠ middle.main →
          ∀ record ∈ (next.cells channel.name node).waiting,
            reach channel (middle.settled middle.main node).length < record.mainLT := by
        intro channel inside related record waits
        have above := bounded ok channel inside related record waits
        rw [soundMiddle.disk_last memberMiddle knownMiddle, name, ← same.main] at above
        exact above
      have last := second.settled
      constructor
      · have suffix := last.waiting_suffix middle.main node
        rw [emptyMain] at suffix
        rw [last.main]
        exact List.suffix_nil.mp suffix
      · intro channel inside related record waits
        rw [last.main, last.settled_length soundMiddle
          (by rw [same.main, ← name]; exact name_mem memberMiddle) knownMiddle emptyMain]
        exact quiet channel (last.channels ▸ inside) (last.main ▸ related) record waits

theorem sync_nodes_spec {nodes : List String} (known : ∀ node ∈ nodes, state.index.Known node)
    (done : syncNodes nodes state = (result, next)) :
    Synced state next ∧ (result = .ok () → ∀ node ∈ nodes, next.Quiet node) := by
  induction nodes generalizing state result next with
  | nil =>
    cases done
    refine ⟨Synced.refl sound, fun _ node inside => ?_⟩
    cases inside
  | cons node rest ih =>
    rw [syncNodes] at done
    cases here : state.syncCoherent node with
    | mk answer middle =>
      have knownHere := known node List.mem_cons_self
      rcases sync_coherent_spec sound listed knownHere here with ⟨first, quiet⟩
      have same := first.settled
      have listedMiddle : middle.main ∈ middle.names := by
        rw [same.main, same.names]
        exact listed
      cases later : syncNodes rest middle with
      | mk final last =>
        rcases ih (same.sound sound) listedMiddle
          (by
            rw [same.index]
            exact fun other inside => known other (List.mem_cons_of_mem _ inside))
          later with ⟨second, quietRest⟩
        simp only [here, later] at done
        cases answer with
        | error err =>
          cases done
          exact ⟨first.trans second, nofun⟩
        | ok _ =>
          cases done
          refine ⟨first.trans second, fun ok other inside => ?_⟩
          rcases List.mem_cons.mp inside with rfl | below
          · exact (quiet rfl).settled second.settled (same.sound sound) listedMiddle
              (by rw [same.index]; exact knownHere)
          · exact quietRest ok other below

theorem sync_hot_spec (done : state.syncHot = (result, next)) :
    Synced state next ∧ (result = .ok () → ∀ node ∈ state.index.keys, next.Quiet node) :=
  sync_nodes_spec sound listed (fun _ inside => Or.inr inside) done

end

/-!
## Retiring
-/

def closed (state : Trunks β σ) : Trunks β σ :=
  { state with cells := fun name node => (state.cells name node).close }

theorem sync_places_spec {list : List (Channel β σ × String)} (sound : state.Sound)
    (places : ∀ place ∈ list, place.1 ∈ state.channels ∧ state.index.Known place.2) :
    Synced state (syncPlaces list state) ∧ ∀ place ∈ list, state.Flushable place.1 place.2 →
      ((syncPlaces list state).cells place.1.name place.2).waiting = [] := by
  induction list generalizing state with
  | nil =>
    refine ⟨Synced.refl sound, fun place inside => ?_⟩
    cases inside
  | cons place rest ih =>
    rcases places place List.mem_cons_self with ⟨member, known⟩
    cases synced : state.sync place.1 place.2 with
    | mk answer middle =>
      rcases sync_spec sound member known synced with ⟨first, empty, fine⟩
      have same := first.settled
      have later : ∀ other ∈ rest, other.1 ∈ middle.channels ∧ middle.index.Known other.2 := by
        rw [same.channels, same.index]
        exact fun other inside => places other (List.mem_cons_of_mem _ inside)
      rcases ih (same.sound sound) later with ⟨second, emptyRest⟩
      have shape : syncPlaces (place :: rest) state = syncPlaces rest middle := by
        rw [syncPlaces, synced]
      rw [shape]
      refine ⟨first.trans second, fun other inside flushable => ?_⟩
      rcases List.mem_cons.mp inside with rfl | below
      · have suffix := second.settled.waiting_suffix other.1.name other.2
        rw [empty (fine flushable)] at suffix
        exact List.suffix_nil.mp suffix
      · rcases places other inside with ⟨isMember, isKnown⟩
        exact emptyRest other below (first.flushable isMember isKnown flushable)

theorem retire_spec (sound : state.Sound) :
    ∃ middle, Synced state middle ∧ state.retire = middle.closed ∧
      ∀ channel ∈ state.channels, ∀ node, state.index.Known node →
        state.Flushable channel node → (middle.cells channel.name node).waiting = [] := by
  have places : ∀ place ∈ state.places,
      place.1 ∈ state.channels ∧ state.index.Known place.2 := by
    intro place inside
    rcases List.mem_flatMap.mp inside with ⟨channel, member, pair⟩
    rcases List.mem_map.mp pair with ⟨node, known, rfl⟩
    exact ⟨member, List.mem_cons.mp known⟩
  rcases sync_places_spec sound places with ⟨synced, empty⟩
  refine ⟨syncPlaces state.places state, synced, rfl, fun channel member node known => ?_⟩
  apply empty (channel, node)
  exact List.mem_flatMap.mpr ⟨channel, member, List.mem_map.mpr
    ⟨node, List.mem_cons.mpr known, rfl⟩⟩

theorem closed_settled (state : Trunks β σ) (name node : String) :
    state.closed.settled name node = state.settled name node := by
  have same : ∀ key, (state.closed.branches name key).base = (state.branches name key).base ∧
      (state.closed.branches name key).own = (state.branches name key).own :=
    fun key => ⟨rfl, rfl⟩
  unfold settled
  change durable (state.closed.branches name) (state.index.lineage node) = _
  induction state.index.lineage node with
  | nil => rfl
  | cons key up ih => rw [durable, durable, ih, (same key).1, (same key).2]

theorem closed_waiting (state : Trunks β σ) (name node : String) :
    (state.closed.cells name node).waiting = [] :=
  Cell.waiting_of_idle rfl

theorem closed_shown (state : Trunks β σ) (name node : String) :
    state.closed.shown name node = state.settled name node := by
  rw [shown_eq, closed_settled, closed_waiting, List.append_nil]

theorem Sound.closed (sound : state.Sound) : state.closed.Sound where
  faithful := sound.faithful
  distinct := sound.distinct
  ordered := sound.ordered
  usable listed known := (sound.usable listed known).close.1
  based {name node} listed known := by
    apply based_extends (sound.based listed known)
    intro other _
    refine ⟨rfl, ?_⟩
    exact List.prefix_refl _

structure Retired (before after : Trunks β σ) : Prop where
  frame : after = { before with cells := after.cells }
  sound : after.Sound
  idle : ∀ name node, (after.cells name node).pend = []
  blank : ∀ {name node}, (before.cells name node).pend = [] →
    after.cells name node = (before.cells name node).close
  marker : ∀ name node, (after.cells name node).handle.forkBase =
    (before.cells name node).handle.forkBase
  grown : ∀ name node, Extends (before.branches name node) (after.branches name node)
  shorter : ∀ {name node}, name ∈ before.names → before.index.Known node →
    after.shown name node <+: before.shown name node
  same : ∀ {channel : Channel β σ} {node : String}, channel ∈ before.channels →
    before.index.Known node → before.Flushable channel node →
      after.shown channel.name node = before.shown channel.name node

theorem retire_retired (sound : state.Sound) : Retired state state.retire := by
  rcases retire_spec sound with ⟨middle, synced, shape, empty⟩
  have settled := synced.settled
  rw [shape]
  constructor
  · have frame := settled.frame
    rw [closed]
    conv_lhs => rw [frame]
  · exact (settled.sound sound).closed
  · intro name node
    rfl
  · intro name node still
    have same := settled.idle still
    rw [← same]
    rfl
  · intro name node
    exact settled.marker name node
  · intro name node
    have extended := (settled.settles name node).extension
    exact ⟨extended.base, extended.grown⟩
  · intro name node listed known
    rw [closed_shown, ← settled.shown sound listed known, shown_eq]
    exact List.prefix_append _ _
  · intro channel node member known flushable
    rw [closed_shown, ← settled.shown sound (name_mem member) known, shown_eq,
      empty channel member node known flushable, List.append_nil]

end Paths

end Trunks

end Figwal.Xwal
