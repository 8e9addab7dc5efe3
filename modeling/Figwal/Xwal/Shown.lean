import Figwal.Xwal.Operations

/-!
# What a node shows

Each channel of a store is a family of branches along the node index, one branch
per node. `shown` is what a reader of a node sees in a channel, `settled` the part
of it that descendants can borrow. In a sound store every log opens, and the code's
reads, tails and scans are reads, tails and scans of these lists.
-/

namespace Figwal.Xwal

open Figwal.Lib Figwal.Disk

set_option autoImplicit false

variable {β σ : Type}

namespace Trunks

def names (state : Trunks β σ) : List String :=
  state.channels.map Channel.name

def branches (state : Trunks β σ) (name node : String) : Branch (Record β) :=
  (state.cells name node).branch

/-- What is on disk for a node in a channel, its ancestors' part included. -/
def settled (state : Trunks β σ) (name node : String) : List (Record β) :=
  durable (state.branches name) (state.index.lineage node)

def shown (state : Trunks β σ) (name node : String) : List (Record β) :=
  unfolded (state.branches name) (state.index.lineage node)

/-- Channels have names of their own, parents precede their children, the directories
of the known nodes can be used, and each starts no later than where its parent's
records on disk end. -/
structure Sound (state : Trunks β σ) : Prop where
  faithful : ∀ channel ∈ state.channels, channel.Faithful
  distinct : state.names.Nodup
  ordered : Family.Ordered "" state.index.family
  usable : ∀ {name node}, name ∈ state.names → state.index.Known node →
    (state.cells name node).Sound
  based : ∀ {name node}, name ∈ state.names → state.index.Known node →
    Based (state.branches name) (state.index.lineage node)

theorem shown_eq (state : Trunks β σ) (name node : String) :
    state.shown name node = state.settled name node ++ (state.cells name node).waiting := by
  rcases Family.lineage_eq_cons "" state.index.family node with ⟨above, path⟩
  rw [shown, settled, Index.lineage, path, unfolded]
  rfl

theorem Sound.settled_length {state : Trunks β σ} (sound : state.Sound) {name node : String}
    (listed : name ∈ state.names) (known : state.index.Known node) :
    (state.settled name node).length + 1 =
      (state.cells name node).base + (state.cells name node).handle.records.length := by
  rcases Family.lineage_eq_cons "" state.index.family node with ⟨above, path⟩
  have based := sound.based listed known
  rw [Index.lineage, path] at based
  rw [settled, Index.lineage, path]
  exact durable_length based

/-!
## Opening
-/

/-- Along a lineage every log opens, and together they show what is on disk. -/
theorem open_logs_spec {opts : Options (Record β) σ} (steady : opts.Steady)
    {cells : String → Cell β σ} {node : String} {up : List String}
    (usable : ∀ key ∈ node :: up, (cells key).Sound) (based : Based (fun key => (cells key).branch)
      (node :: up)) :
    ∃ log parents, openLogs opts cells (node :: up) = .ok (log :: parents) ∧
      (cells node).Opens opts log ∧ Chained (log :: parents) ∧
      visible (log :: parents) = durable (fun key => (cells key).branch) (node :: up) := by
  induction up generalizing node with
  | nil =>
    rcases (usable node List.mem_cons_self).opens steady with ⟨log, opens⟩
    rw [openLogs, opens.usable]
    refine ⟨log, [], by simp, opens, ⟨opens.tidy, ?_, trivial⟩, ?_⟩
    · rw [opens.first_writable]
      exact based.2.1
    · rw [visible, opens.first_writable, opens.own]
      rfl
  | cons parent above ih =>
    rcases (usable node List.mem_cons_self).opens steady with ⟨log, opens⟩
    rcases ih (fun key above => usable key (List.mem_cons_of_mem _ above)) based.2.2 with
      ⟨upper, rest, opened, _, chained, same⟩
    rw [openLogs, opens.usable]
    by_cases alone : parent :: above = [""] ∧ log.forkBase = 0
    · have one : (cells node).base = 1 := by
        rw [Cell.base, ← opens.forkBase, alone.2]
        rfl
      have bare : splice 1 (durable (fun key => (cells key).branch) (parent :: above))
          (cells node).handle.records = splice 1 [] (cells node).handle.records := by
        simp [splice]
      refine ⟨log, [], by simp [alone], opens, ⟨opens.tidy, ?_, trivial⟩, ?_⟩
      · rw [opens.first_writable, one]
        exact Nat.le_add_left _ _
      · have starts : (cells node).branch.base = 1 := one
        rw [visible, opens.first_writable, opens.own, one]
        change _ = splice (cells node).branch.base _ (cells node).branch.own
        rw [starts]
        exact bare.symm
    · refine ⟨log, upper :: rest, ?_, opens, ⟨opens.tidy, ?_, chained⟩, ?_⟩
      · simp only [reduceCtorEq, false_or, if_neg alone, opened]
      · rw [opens.first_writable, same]
        exact based.2.1
      · rw [visible, opens.first_writable, opens.own, same]
        rfl

theorem name_mem {state : Trunks β σ} {channel : Channel β σ}
    (member : channel ∈ state.channels) : channel.name ∈ state.names :=
  List.mem_map_of_mem (f := Channel.name) member

section Opened

variable {state : Trunks β σ} {channel : Channel β σ} {name node : String}

section

variable (sound : state.Sound) (member : channel ∈ state.channels)
  (known : state.index.Known node)

include sound member known

theorem Sound.logs :
    ∃ log parents, state.logs channel node = .ok (log :: parents) ∧
      (state.cells channel.name node).Opens channel.opts log ∧ Chained (log :: parents) ∧
      visible (log :: parents) = state.settled channel.name node := by
  rcases Family.lineage_eq_cons "" state.index.family node with ⟨above, path⟩
  have listed := name_mem member
  have based := sound.based listed known
  have usable : ∀ key ∈ node :: above, (state.cells channel.name key).Sound := by
    intro key inside
    rw [← path] at inside
    exact sound.usable listed (Index.known_lineage sound.ordered known inside)
  rw [settled, Trunks.logs, Index.lineage, path]
  rw [Index.lineage, path] at based
  exact open_logs_spec (sound.faithful channel member).steady usable based

theorem Sound.last_index :
    state.lastIndex channel node = (state.shown channel.name node).length := by
  rcases sound.logs member known with ⟨log, parents, opened, opens, chained, same⟩
  rw [lastIndex, opened, shown_eq, ← same]
  exact (sound.usable (name_mem member) known).last_index opens chained

theorem Sound.disk_last :
    state.diskLast channel node = (state.settled channel.name node).length := by
  rcases sound.logs member known with ⟨log, parents, opened, opens, chained, same⟩
  have last := opens.last_index
  have length := sound.settled_length (name_mem member) known
  simp only [diskLast, opened]
  omega

end

theorem channel_name (found : state.channel name = some channel) : channel.name = name := by
  have matched := List.find?_some found
  simpa using matched

theorem channel_mem (found : state.channel name = some channel) : channel ∈ state.channels :=
  List.mem_of_find?_eq_some found

theorem channel_of_mem (names : state.names.Nodup) (member : channel ∈ state.channels) :
    state.channel channel.name = some channel := by
  unfold Trunks.channel
  cases found : state.channels.find? fun other => other.name = channel.name with
  | none =>
    have absent := List.find?_eq_none.mp found channel member
    simp at absent
  | some other =>
    have same : other.name = channel.name := by simpa using List.find?_some found
    rw [List.inj_on_of_nodup_map names (List.mem_of_find?_eq_some found) member same]

theorem channel_exists (listed : name ∈ state.names) :
    ∃ channel, state.channel name = some channel := by
  rcases List.mem_map.mp listed with ⟨channel, member, same⟩
  cases found : state.channel name with
  | some other => exact ⟨other, rfl⟩
  | none =>
    have absent := List.find?_eq_none.mp found channel member
    simp [same] at absent

theorem Sound.read_at (sound : state.Sound) (known : state.index.Known node)
    (found : state.channel name = some channel) (idx : Nat) (record : Record β) :
    state.readAt node name idx = .ok record ↔
      1 ≤ idx ∧ (state.shown name node)[idx - 1]? = some record := by
  have member := channel_mem found
  have listed := name_mem member
  have same := channel_name found
  subst same
  rcases sound.logs member known with ⟨log, parents, opened, opens, chained, same⟩
  rw [readAt, found]
  simp only [opened, (sound.faithful channel member).bind_decode]
  rw [shown_eq, ← same,
    ← (sound.usable listed known).read_ok_iff opens chained idx record]
  cases (state.cells channel.name node).read (log :: parents) idx <;> simp [Except.mapError]

theorem Sound.read (sound : state.Sound) (plan : state.plan = none) {trunk : String}
    (head : state.index.head trunk = some node) (found : state.channel name = some channel)
    (idx : Nat) (record : Record β) : state.read trunk name idx = .ok record ↔
      1 ≤ idx ∧ (state.shown name node)[idx - 1]? = some record := by
  rw [Trunks.read, atHead, head]
  simp only [recover, plan]
  exact sound.read_at (Index.head_known head) found idx record

end Opened

end Trunks

end Figwal.Xwal
