import Figwal.Xwal.Watermarked

/-!
# Adding channels and reopening

`ensureChannel` and reopening change no record: every directory stands for the branch
it stood for. A new channel is empty at every node. A channel that exists already is
gone over again, which the store survives if the plan agrees with the manifest and
the root can account for the state at every node's base.
-/

namespace Figwal.Xwal

open Figwal.Lib Figwal.Disk List

set_option autoImplicit false

variable {β σ : Type}

structure Cell.Blank (cell : Cell β σ) : Prop where
  handle : cell.handle = .closed 0 [] false
  pend : cell.pend = []

theorem Cell.fresh_blank : (Cell.fresh 0 : Cell β σ).Blank :=
  ⟨rfl, rfl⟩

variable {cell : Cell β σ}

theorem Cell.Blank.close (blank : cell.Blank) : cell.close.Blank := by
  refine ⟨?_, rfl⟩
  change cell.handle.close = _
  rw [blank.handle]
  rfl

theorem Cell.Blank.spec (blank : cell.Blank) : cell.Sound ∧ cell.branch = ⟨1, [], []⟩ := by
  refine ⟨⟨?_, fun busy => absurd blank.pend busy, fun busy => absurd blank.pend busy⟩, ?_⟩
  · rw [blank.handle]
    exact ⟨[], none, rfl, trivial, by simp⟩
  · rw [branch, waiting_of_idle blank.pend, base, blank.handle]
    rfl

theorem Cell.close_branch (pend : cell.pend = []) : cell.close.branch = cell.branch := by
  rw [branch, branch, waiting_of_idle pend, waiting_of_idle (rfl : cell.close.pend = [])]
  rfl

namespace Trunks

structure Filled (before after : Trunks β σ) (name : String) (nodes : List String) : Prop where
  frame : after = { before with cells := after.cells }
  alike : ∀ {node}, node ∈ nodes → (before.cells name node).Alike (after.cells name node)
  kept : ∀ {node}, node ∈ nodes → 0 < (before.cells name node).handle.forkBase →
    (after.cells name node).handle.forkBase = (before.cells name node).handle.forkBase
  marked : ∀ {node}, node ∈ nodes → node ≠ "" → (before.cells name node).handle.files = [] →
    0 < (after.cells name node).handle.forkBase
  elsewhere : ∀ {other key}, ¬(other = name ∧ key ∈ nodes) →
    after.cells other key = before.cells other key

structure Ready (state : Trunks β σ) (channel : Channel β σ) (node : String) : Prop where
  sound : (state.cells channel.name node).Sound
  pend : (state.cells channel.name node).pend = []
  accounted : channel.reducible = true → (state.cells channel.name node).base ≤
    (state.cells channel.name "").handle.records.length + 1
  placed : (state.cells channel.name node).handle.forkBase = 0 →
    (state.cells channel.name node).handle.files = [] →
      (state.cells channel.name "").handle.records = []

section Filling

variable {state next : Trunks β σ} {channel : Channel β σ} {name : String}

theorem set_cell_other {node : String} {cell : Cell β σ} {other key : String}
    (differs : ¬(other = name ∧ key = node)) :
    (state.setCell name node cell).cells other key = state.cells other key :=
  if_neg differs

theorem set_cell_here {node : String} {cell : Cell β σ} :
    (state.setCell name node cell).cells name node = cell :=
  if_pos ⟨rfl, rfl⟩

theorem set_cell_apart {node key : String} {rest : List String} {cell : Cell β σ}
    (apart : node ∉ rest) (inside : key ∈ rest) :
    (state.setCell name node cell).cells name key = state.cells name key := by
  apply set_cell_other
  rintro ⟨_, rfl⟩
  exact apart inside

theorem Filled.cons {node : String} {rest : List String} {cell : Cell β σ} (apart : node ∉ rest)
    (filled : Filled (state.setCell name node cell) next name rest)
    (alike : (state.cells name node).Alike cell)
    (kept : 0 < (state.cells name node).handle.forkBase →
      cell.handle.forkBase = (state.cells name node).handle.forkBase)
    (marked : node ≠ "" → (state.cells name node).handle.files = [] → 0 < cell.handle.forkBase) :
    Filled state next name (node :: rest) := by
  have here : next.cells name node = cell := by
    rw [filled.elsewhere fun both => apart both.2]
    exact set_cell_here
  refine ⟨filled.frame, ?_, ?_, ?_, ?_⟩
  · intro key inside
    rcases mem_cons.mp inside with rfl | below
    · rw [here]
      exact alike
    · rw [← set_cell_apart apart below]
      exact filled.alike below
  · intro key inside
    rcases mem_cons.mp inside with rfl | below
    · rw [here]
      exact kept
    · rw [← set_cell_apart apart below]
      exact filled.kept below
  · intro key inside proper
    rcases mem_cons.mp inside with rfl | below
    · rw [here]
      exact marked proper
    · rw [← set_cell_apart apart below]
      exact filled.marked below proper
  · intro other key outside
    have away : ¬(other = name ∧ key ∈ rest) :=
      fun both => outside ⟨both.1, mem_cons_of_mem _ both.2⟩
    have differs : ¬(other = name ∧ key = node) := by
      rintro ⟨same, rfl⟩
      exact outside ⟨same, mem_cons_self⟩
    rw [filled.elsewhere away, set_cell_other differs]

section Backfill

variable (steady : channel.opts.Steady)

include steady

theorem backfill_nodes_spec {root : Log (Record β) σ} (tidy : root.Tidy)
    (rooted : root.firstWritable = 1) {nodes : List String} (distinct : nodes.Nodup)
    (ready : ∀ node ∈ nodes, (state.cells channel.name node).Sound ∧
      (state.cells channel.name node).pend = [] ∧
      channel.Accounted root (state.cells channel.name node).base ∧
      ((state.cells channel.name node).handle.forkBase = 0 →
        (state.cells channel.name node).handle.files = [] → root.lastIndex = 0)) :
    ∃ next, backfillNodes channel root nodes state = (.ok (), next) ∧
      Filled state next channel.name nodes := by
  induction nodes generalizing state with
  | nil =>
    refine ⟨state, rfl, rfl, ?_, ?_, ?_, fun _ => rfl⟩
    · intro node inside
      cases inside
    · intro node inside
      cases inside
    · intro node inside
      cases inside
  | cons node rest ih =>
    rcases nodup_cons.mp distinct with ⟨apart, later⟩
    rcases ready node mem_cons_self with ⟨sound, pend, accounted, placed⟩
    rcases Channel.ensure_backfill_fork_spec steady tidy rooted sound pend accounted placed
      (state.cells state.main node).handle.forkBase with ⟨cell, done, alike, kept, marked⟩
    rcases @ih (state.setCell channel.name node cell) later (fun key inside => by
      rw [set_cell_apart apart inside]
      exact ready key (mem_cons_of_mem _ inside)) with ⟨next, walked, filled⟩
    refine ⟨next, ?_, filled.cons apart alike kept fun _ => marked⟩
    rw [backfillNodes, done]
    exact walked

theorem backfill_channel_spec (sound : (state.cells channel.name "").Sound)
    (pend : (state.cells channel.name "").pend = []) (starts : (state.cells channel.name "").base =
      1)
    (distinct : ("" :: (state.index.keys ++ state.strays)).Nodup)
    (ready : ∀ node ∈ state.index.keys ++ state.strays, state.Ready channel node) :
    ∃ next, state.backfillChannel channel = (.ok (), next) ∧
      Filled state next channel.name ("" :: (state.index.keys ++ state.strays)) := by
  rcases nodup_cons.mp distinct with ⟨apart, later⟩
  rcases Channel.seed_initial_spec steady sound pend starts with ⟨cell, seeded, alike, marker⟩
  rcases alike.sound.opens steady with ⟨root, opens⟩
  have base : cell.base = 1 := (congrArg Branch.base alike.branch).trans starts
  have records : cell.handle.records = (state.cells channel.name "").handle.records :=
    congrArg Branch.own alike.branch
  have rooted : root.firstWritable = 1 := opens.first_writable.trans base
  have last : root.lastIndex = (state.cells channel.name "").handle.records.length := by
    have counted := opens.last_index
    rw [base, records] at counted
    omega
  rcases @backfill_nodes_spec β σ (state.setCell channel.name "" cell) channel steady root
    opens.tidy rooted _ later (fun node inside => by
      have here := ready node inside
      rw [set_cell_apart apart inside]
      refine ⟨here.sound, here.pend, fun mode => ?_, fun zero empty => ?_⟩
      · rw [last]
        exact here.accounted mode
      · rw [last, here.placed zero empty]
        rfl) with ⟨next, walked, filled⟩
  refine ⟨next, ?_, filled.cons apart alike (fun _ => marker) fun proper => absurd rfl proper⟩
  rw [backfillChannel, seeded]
  simp only [opens.usable]
  exact walked

end Backfill

theorem Filled.branches {nodes : List String} (filled : Filled state next name nodes) :
    next.branches = state.branches := by
  funext other key
  by_cases here : other = name ∧ key ∈ nodes
  · rw [here.1]
    exact (filled.alike here.2).branch
  · rw [Trunks.branches, filled.elsewhere here]
    rfl

end Filling

/-!
## Stores without debris
-/

/-- No directory is left over: the nodes are those of the index, each has its marker
in every channel, and no other directory exists. -/
structure Clean (state : Trunks β σ) : Prop where
  strays : state.strays = []
  marked : ∀ {name node}, name ∈ state.names → node ∈ state.index.keys →
    0 < (state.cells name node).handle.forkBase
  blank : ∀ {name node}, name ∉ state.names ∨ ¬state.index.Known node →
    (state.cells name node).Blank

theorem Clean.bare {state : Trunks β σ} (clean : state.Clean) {node : String}
    (unknown : ¬state.index.Known node) : state.Bare node := by
  intro name _
  have blank : (state.cells name node).Blank := clean.blank (Or.inr unknown)
  rw [blank.handle]
  exact ⟨rfl, blank.pend⟩

section Reshape

variable {before after : Trunks β σ}

theorem Proper.reshape (proper : before.Proper) (index : after.index = before.index)
    (main : after.main = before.main) (branches : after.branches = before.branches)
    (faithful : ∀ channel ∈ after.channels, channel.Faithful) (distinct : after.names.Nodup)
    (listed : before.main ∈ after.names)
    (usable : ∀ {name node}, name ∈ after.names → before.index.Known node →
      (after.cells name node).Sound)
    (based : ∀ {name node}, name ∈ after.names → before.index.Known node →
      Based (before.branches name) (before.index.lineage node))
    (idle : ∀ name node, (after.cells name node).pend = [])
    (seq : after.nodeSeq = before.nodeSeq) (plan : after.plan = none)
    (markers : after.unmarked = []) : after.Proper where
  sound := by
    refine ⟨faithful, distinct, ?_, ?_, ?_⟩
    · rw [index]
      exact proper.sound.ordered
    · rw [index]
      exact usable
    · rw [index, branches]
      exact based
  main := by
    rw [main]
    exact listed
  numbered {node} known := by
    rw [index] at known
    rw [main, shown, branches, index]
    exact proper.numbered known
  plain {channel node} _ _ _ _ record waits := by
    rw [Cell.waiting_of_idle (idle _ _)] at waits
    cases waits
  idle _ := Cell.waiting_of_idle (idle _ _)
  trunks := by
    rw [index]
    exact proper.trunks
  survives := by
    rw [index]
    exact proper.survives
  counts := by
    rw [seq]
    exact proper.counts
  minted := by
    rw [index, seq]
    exact proper.minted
  plan := plan
  markers := markers

theorem rebuild_idle {state : Trunks β σ} (proper : state.Proper)
    (idle : ∀ name node, (state.cells name node).pend = []) :
    state.rebuild = { state with
      cells := fun name node => (state.cells name node).close
      nodeSeq := state.index.seqOf } := by
  have retired := retire_retired proper.sound
  have cells : state.retire.cells = fun name node => (state.cells name node).close := by
    funext name node
    exact retired.blank (idle name node)
  rw [rebuild_eq proper]
  conv_lhs => rw [retired.frame]
  rw [cells]

structure Renewed (before after : Trunks β σ) : Prop where
  proper : after.Proper
  clean : after.Clean
  index : after.index = before.index
  main : after.main = before.main
  branches : after.branches = before.branches
  names : ∀ {name}, name ∈ before.names → name ∈ after.names

theorem rebuild_renewed {state : Trunks β σ} (proper : state.Proper) (clean : state.Clean)
    (idle : ∀ name node, (state.cells name node).pend = []) : Renewed state state.rebuild := by
  have kept := rebuild_proper proper
  rw [rebuild_idle proper idle] at kept ⊢
  refine ⟨kept, ⟨clean.strays, fun listed inside => clean.marked listed inside,
    fun outside => (clean.blank outside).close⟩, rfl, rfl, ?_, fun listed => listed⟩
  funext name node
  exact Cell.close_branch (idle name node)

/-- A name that is listed already, or joins the others. -/
def Joins (names : List String) (name : String) (after : List String) : Prop :=
  name ∈ names ∧ after = names ∨ name ∉ names ∧ after = names ++ [name]

section Joins

variable {names later : List String} {name other : String} (joins : Joins names name later)

include joins

theorem Joins.old_or_new (inside : other ∈ later) :
    other ∈ names ∨ name ∉ names ∧ other = name := by
  rcases joins with ⟨_, rfl⟩ | ⟨fresh, rfl⟩
  · exact Or.inl inside
  · rw [mem_append, mem_singleton] at inside
    exact inside.imp id fun newest => ⟨fresh, newest⟩

theorem Joins.kept (inside : other ∈ names) : other ∈ later := by
  rcases joins with ⟨_, rfl⟩ | ⟨_, rfl⟩
  · exact inside
  · exact mem_append_left _ inside

theorem Joins.own : name ∈ later := by
  rcases joins with ⟨member, rfl⟩ | ⟨_, rfl⟩
  · exact member
  · exact mem_append_right _ (mem_singleton.mpr rfl)

theorem Joins.nodup (distinct : names.Nodup) : later.Nodup := by
  rcases joins with ⟨_, rfl⟩ | ⟨fresh, rfl⟩
  · exact distinct
  · exact distinct.append (nodup_singleton _) (disjoint_singleton.mpr fresh)

end Joins

section Finish

variable {middle grown : Trunks β σ} {spec : Channel β σ} {channels : List (Channel β σ)}
  (proper : middle.Proper) (clean : middle.Clean)
  (filled : Filled { middle with plan := some spec } grown spec.name ("" :: middle.index.keys))
  (joins : Joins middle.names spec.name (channels.map Channel.name))

include proper clean filled joins

theorem finish_proper (faithful : ∀ channel ∈ channels, channel.Faithful)
    (still : ∀ name node, (grown.cells name node).pend = []) :
    Proper { grown with channels := channels, plan := none } := by
  have frame := filled.frame
  have markers : grown.unmarked = [] := by
    rw [frame]
    exact proper.markers
  refine proper.reshape (by rw [frame]) (by rw [frame]) filled.branches faithful
    (joins.nodup proper.sound.distinct) (joins.kept proper.main) ?_ ?_ still (by rw [frame]) rfl
    markers
  · intro name node inside known
    by_cases here : name = spec.name
    · rw [here]
      exact (filled.alike (mem_cons.mpr known)).sound
    · rcases joins.old_or_new inside with old | ⟨_, newest⟩
      · have same : grown.cells name node = middle.cells name node :=
          filled.elsewhere fun both => here both.1
        rw [same]
        exact proper.sound.usable old known
      · exact absurd newest here
  · intro name node inside known
    rcases joins.old_or_new inside with old | ⟨fresh, newest⟩
    · exact proper.sound.based old known
    · apply based_of_first
      intro key _
      rw [newest, Trunks.branches, (clean.blank (Or.inl fresh)).spec.2]

theorem finish_clean : Clean { grown with channels := channels, plan := none } := by
  have index : grown.index = middle.index := by rw [filled.frame]
  have strays : grown.strays = middle.strays := by rw [filled.frame]
  refine ⟨strays.trans clean.strays, ?_, ?_⟩
  · intro name node inside member
    rw [index] at member
    have apart : node ≠ "" := by
      rintro rfl
      exact proper.sound.ordered.root_unlisted (by rw [Index.family_members]; exact member)
    by_cases here : name = spec.name
    · rw [here]
      rcases joins with ⟨old, _⟩ | ⟨fresh, _⟩
      · have positive := clean.marked old member
        have same := filled.kept (mem_cons_of_mem _ member) positive
        rw [same]
        exact positive
      · have blank : (middle.cells spec.name node).Blank := clean.blank (Or.inl fresh)
        apply filled.marked (mem_cons_of_mem _ member) apart
        rw [blank.handle]
        rfl
    · rcases joins.old_or_new inside with old | ⟨_, newest⟩
      · have same : grown.cells name node = middle.cells name node :=
          filled.elsewhere fun both => here both.1
        rw [same]
        exact clean.marked old member
      · exact absurd newest here
  · intro name node outside
    have away : ¬(name = spec.name ∧ node ∈ "" :: middle.index.keys) := by
      rintro ⟨same, inside⟩
      rcases outside with unlisted | unknown
      · exact unlisted (same ▸ joins.own)
      · apply unknown
        rw [index]
        exact mem_cons.mp inside
    rw [filled.elsewhere away]
    apply clean.blank
    rcases outside with unlisted | unknown
    · exact Or.inl fun member => unlisted (joins.kept member)
    · rw [index] at unknown
      exact Or.inr unknown

/-- A channel that has been gone over joins the manifest, or is there already. -/
theorem finish_renewed (faithful : ∀ channel ∈ channels, channel.Faithful)
    (idle : ∀ name node, (middle.cells name node).pend = []) :
    Renewed middle { grown with channels := channels, plan := none }.rebuild := by
  have still : ∀ name node, (grown.cells name node).pend = [] := by
    intro name node
    by_cases here : name = spec.name ∧ node ∈ "" :: middle.index.keys
    · rw [here.1]
      exact (filled.alike here.2).pend
    · rw [filled.elsewhere here]
      exact idle name node
  have renewed := rebuild_renewed (finish_proper proper clean filled joins faithful still)
    (finish_clean proper clean filled joins) still
  have index : grown.index = middle.index := by rw [filled.frame]
  have main : grown.main = middle.main := by rw [filled.frame]
  exact ⟨renewed.proper, renewed.clean, renewed.index.trans index, renewed.main.trans main,
    renewed.branches.trans filled.branches, fun inside => renewed.names (joins.kept inside)⟩

end Finish

end Reshape

/-- Going over `spec` again can be completed: it is new, or its kind is not the
channel's, or it is the channel and the root can account for every node's base. -/
def Completable (state : Trunks β σ) (spec : Channel β σ) : Prop :=
  ∀ existing, state.channel spec.name = some existing → existing.sameShape spec = true →
    existing.sameManifest spec = true ∧ (spec.reducible = true → ∀ node ∈ state.index.keys,
      (state.cells spec.name node).base ≤ (state.cells spec.name "").handle.records.length + 1)

section Ensure

variable {state next : Trunks β σ} {declared : List (String × Bool)}

theorem Clean.kept (clean : state.Clean) (frame : next = { state with cells := next.cells })
    (marker : ∀ name node, (next.cells name node).handle.forkBase =
      (state.cells name node).handle.forkBase)
    (blank : ∀ name node, (state.cells name node).Blank → (next.cells name node).Blank) :
    next.Clean := by
  rw [frame]
  refine ⟨clean.strays, ?_, ?_⟩
  · intro name node listed member
    exact (marker name node).symm ▸ clean.marked listed member
  · intro name node outside
    exact blank name node (clean.blank outside)

theorem Clean.staged {kept : String → Prop} (clean : state.Clean)
    (staged : Staged state next kept) : next.Clean := by
  apply clean.kept staged.frame staged.marker
  intro name node blank
  rcases staged.idle blank.pend with same | shut
  · rw [same]
    exact blank
  · rw [shut]
    exact blank.close

theorem Clean.settled (clean : state.Clean) (settled : Settled state next) : next.Clean := by
  apply clean.kept settled.frame settled.marker
  intro name node blank
  rw [settled.idle blank.pend]
  exact blank

theorem Sound.root_base (sound : state.Sound) {name : String} (listed : name ∈ state.names) :
    (state.cells name "").base = 1 := by
  have based := sound.based listed (Or.inl rfl)
  rw [Index.lineage, Family.lineage_root sound.ordered] at based
  have above : (state.cells name "").base ≤ 1 := based.2.1
  have positive := (state.cells name "").base_pos
  omega

/-- Going over a channel of a clean store in which nothing is in memory. -/
theorem complete_renewed (proper : state.Proper) (clean : state.Clean)
    (idle : ∀ name node, (state.cells name node).pend = []) {spec : Channel β σ}
    (shape : ∀ existing, state.channel spec.name = some existing →
      existing.sameShape spec = true) (faithful : spec.Faithful)
    (completable : state.Completable spec) :
    ∃ last, { state with plan := some spec }.recover = (.ok (), last) ∧
      Renewed state last.rebuild := by
  have ordered := proper.sound.ordered
  have apart : "" ∉ state.index.keys := by
    rw [← Index.family_members]
    exact ordered.root_unlisted
  have distinct : ("" :: (state.index.keys ++ state.strays)).Nodup := by
    rw [clean.strays, append_nil, nodup_cons, ← Index.family_members]
    exact ⟨ordered.root_unlisted, ordered.nodup⟩
  by_cases listed : spec.name ∈ state.names
  · rcases channel_exists listed with ⟨existing, found⟩
    rcases completable existing found (shape existing found) with ⟨manifest, accounted⟩
    have ready : ∀ node ∈ state.index.keys ++ state.strays,
        Ready { state with plan := some spec } spec node := by
      intro node inside
      rw [clean.strays, append_nil] at inside
      refine ⟨proper.sound.usable listed (Or.inr inside), idle _ _,
        fun mode => accounted mode node inside, fun zero _ => ?_⟩
      have positive := clean.marked listed inside
      change (state.cells spec.name node).handle.forkBase = 0 at zero
      omega
    rcases @backfill_channel_spec β σ { state with plan := some spec } spec
      faithful.steady (proper.sound.usable listed (Or.inl rfl)) (idle _ _)
      (proper.sound.root_base listed) distinct ready with ⟨grown, walked, filled⟩
    have nodes : "" :: (state.index.keys ++ state.strays) = "" :: state.index.keys := by
      rw [clean.strays, append_nil]
    rw [nodes] at filled
    have channels : grown.channels = state.channels := by rw [filled.frame]
    have foundLater : grown.channel spec.name = some existing := by
      rw [channel, channels]
      exact found
    refine ⟨{ grown with plan := none }, ?_, ?_⟩
    · rw [recover]
      simp only [walked, foundLater, manifest, if_true]
    · refine finish_renewed proper clean filled (Or.inl ⟨listed, by rw [channels]; rfl⟩) ?_ idle
      rw [channels]
      exact proper.sound.faithful
  · have missing : state.channel spec.name = none := by
      cases found : state.channel spec.name with
      | none => rfl
      | some existing =>
        have same := channel_name found
        exact absurd (same ▸ name_mem (channel_mem found)) listed
    have blank : ∀ node, (state.cells spec.name node).Blank :=
      fun node => clean.blank (Or.inl listed)
    have empty : (state.cells spec.name "").handle.records = [] :=
      congrArg Branch.own (blank "").spec.2
    have first : ∀ node, (state.cells spec.name node).base = 1 :=
      fun node => congrArg Branch.base (blank node).spec.2
    have ready : ∀ node ∈ state.index.keys ++ state.strays,
        Ready { state with plan := some spec } spec node := by
      intro node _
      refine ⟨(blank node).spec.1, idle _ _, fun _ => ?_, fun _ _ => empty⟩
      rw [first]
      exact Nat.le_add_left 1 _
    rcases @backfill_channel_spec β σ { state with plan := some spec } spec
      faithful.steady (blank "").spec.1 (idle _ _) (first "") distinct ready with
      ⟨grown, walked, filled⟩
    have nodes : "" :: (state.index.keys ++ state.strays) = "" :: state.index.keys := by
      rw [clean.strays, append_nil]
    rw [nodes] at filled
    have channels : grown.channels = state.channels := by rw [filled.frame]
    have missingLater : grown.channel spec.name = none := by
      rw [channel, channels]
      exact missing
    refine ⟨{ grown with channels := grown.channels ++ [spec], plan := none }, ?_, ?_⟩
    · rw [recover]
      simp only [walked, missingLater]
    · refine finish_renewed proper clean filled (Or.inr ⟨listed, ?_⟩) ?_ idle
      · rw [channels, map_append]
        rfl
      · rw [channels]
        exact forall_mem_append.mpr
          ⟨proper.sound.faithful, forall_mem_singleton.mpr faithful⟩

theorem Clean.retired (clean : state.Clean) (retired : Retired state next) : next.Clean := by
  apply clean.kept retired.frame retired.marker
  intro name node blank
  rw [retired.blank blank.pend]
  exact blank.close

/-- How `ensureChannel` ends. -/
inductive EnsureEnd (state next : Trunks β σ) : Except Fault Unit → Prop
  | refused (fault : Fault) (synced : Synced state next) (proper : next.Proper) :
      EnsureEnd state next (.error fault)
  | mismatch (fault : Fault) (staged : Staged state next fun _ => True) :
      EnsureEnd state next (.error fault)
  | completed (middle : Trunks β σ) (staged : Staged state middle fun node =>
    ∀ channel ∈ state.channels, state.Flushable channel node) (renewed : Renewed middle next) :
    EnsureEnd state next (.ok ())

theorem ensure_channel_end (proper : state.Proper) (clean : state.Clean) {spec : Channel β σ}
    (faithful : spec.Faithful) (completable : state.Completable spec) {result : Except Fault Unit}
    (done : state.ensureChannel spec = (result, next)) : EnsureEnd state next result := by
  rw [ensureChannel] at done
  rcases begin_mutation_cases proper with
    ⟨fault, synced, begun, kept, properSynced⟩ | ⟨synced, begun, kept, properSynced, staged⟩
  · rw [begun] at done
    cases done
    exact .refused fault kept properSynced
  · rw [begun] at done
    simp only [recover_idle properSynced.plan] at done
    have channels : synced.channel = state.channel := by
      funext name
      rw [channel, staged.channels]
      rfl
    split_ifs at done with differs
    · cases done
      exact .mismatch _ staged
    · rw [channels] at differs
      have retired := retire_retired properSynced.sound
      have stagedLater := retire_staged staged
      have sameChannel : synced.retire.channel = state.channel := by
        funext name
        rw [channel, stagedLater.channels]
        rfl
      have shape : ∀ existing, synced.retire.channel spec.name = some existing →
          existing.sameShape spec = true := by
        intro existing found
        rw [sameChannel] at found
        rw [found] at differs
        simpa using differs
      have completableLater : synced.retire.Completable spec := by
        intro existing found alike
        have foundBefore := found
        rw [sameChannel] at foundBefore
        rcases completable existing foundBefore alike with ⟨manifest, accounted⟩
        refine ⟨manifest, fun mode node member => ?_⟩
        rw [stagedLater.index] at member
        have base : (synced.retire.cells spec.name node).base =
            (state.cells spec.name node).base := stagedLater.bases spec.name node
        have early := kept.settled.settles spec.name ""
        have late := retired.grown spec.name ""
        have longer := early.extension.grown.length_le
        have longest := late.grown.length_le
        have bound := accounted mode node member
        rw [base]
        change (state.cells spec.name "").handle.records.length ≤
          (synced.cells spec.name "").handle.records.length at longer
        change (synced.cells spec.name "").handle.records.length ≤
          (synced.retire.cells spec.name "").handle.records.length at longest
        omega
      rcases complete_renewed stagedLater.proper (clean.staged stagedLater) retired.idle shape
        faithful completableLater with ⟨last, finished, renewed⟩
      simp only [finished] at done
      cases done
      refine .completed synced.retire (stagedLater.weaken fun known loads => ?_) renewed
      refine ⟨trivial, fun channel member => ?_⟩
      exact kept.flushable member known (loads channel member)

/-- Opening may declare a keyed channel unkeyed, and changes nothing else of it. -/
theorem reconcile_eq {list channels : List (Channel β σ)}
    (done : reconcile declared list = .ok channels) :
    channels = list.map fun channel =>
      { channel with unkeyed := channel.unkeyed || declared.lookup channel.name == some true } := by
  induction list generalizing channels with
  | nil =>
    cases done
    rfl
  | cons channel rest ih =>
    rw [reconcile] at done
    cases later : reconcile declared rest with
    | error fault =>
      simp only [later, Except.map] at done
      split at done
      · split_ifs at done
      · cases done
      · cases done
    | ok tail =>
      rw [map_cons, ← ih later]
      simp only [later, Except.map] at done
      split at done
      · rename_i keyed
        split_ifs at done
        cases done
        simp [keyed]
      · rename_i unkeyed
        cases done
        simp [unkeyed]
      · rename_i silent
        cases done
        simp [silent]

theorem reconcile_names {list channels : List (Channel β σ)}
    (done : reconcile declared list = .ok channels) :
    channels.map Channel.name = list.map Channel.name := by
  rw [reconcile_eq done, map_map]
  rfl

theorem reconcile_faithful {list channels : List (Channel β σ)}
    (faithful : ∀ channel ∈ list, channel.Faithful)
    (done : reconcile declared list = .ok channels) : ∀ channel ∈ channels, channel.Faithful := by
  intro channel member
  rw [reconcile_eq done] at member
  rcases mem_map.mp member with ⟨old, inside, rfl⟩
  exact ⟨(faithful old inside).keeps, (faithful old inside).decodes, (faithful old inside).steady⟩

theorem reconcile_proper (proper : state.Proper) {channels : List (Channel β σ)}
    (reconciled : reconcile declared state.retire.channels = .ok channels) :
    Proper { state.retire with channels := channels } := by
  have retired := retire_retired proper.sound
  have kept := retired.proper proper
  have names := reconcile_names reconciled
  refine kept.reshape rfl rfl rfl (reconcile_faithful kept.sound.faithful reconciled) ?_ ?_ ?_ ?_
    retired.idle rfl kept.plan kept.markers
  · change (channels.map Channel.name).Nodup
    rw [names]
    exact kept.sound.distinct
  · change _ ∈ channels.map Channel.name
    rw [names]
    exact kept.main
  · intro name node inside known
    change name ∈ channels.map Channel.name at inside
    rw [names] at inside
    exact kept.sound.usable inside known
  · intro name node inside known
    change name ∈ channels.map Channel.name at inside
    rw [names] at inside
    exact kept.sound.based inside known

theorem reconcile_clean (proper : state.Proper) (clean : state.Clean)
    {channels : List (Channel β σ)}
    (reconciled : reconcile declared state.retire.channels = .ok channels) :
    Clean { state.retire with channels := channels } := by
  have cleanLater := clean.retired (retire_retired proper.sound)
  have names := reconcile_names reconciled
  refine ⟨cleanLater.strays, ?_, ?_⟩
  · intro name node inside member
    change name ∈ channels.map Channel.name at inside
    rw [names] at inside
    exact cleanLater.marked inside member
  · intro name node outside
    change name ∉ channels.map Channel.name ∨ _ at outside
    rw [names] at outside
    exact cleanLater.blank outside

/-- Closing drops what cannot be flushed. Opening again finds what was closed. -/
theorem reopen_end (proper : state.Proper) (clean : state.Clean) {result : Except Fault Unit}
    (done : state.reopen declared = (result, next)) :
    ∃ middle, Retired state middle ∧ Renewed middle next := by
  have retired := retire_retired proper.sound
  have kept := retired.proper proper
  have cleanLater := clean.retired retired
  rw [reopen, recover_idle kept.plan] at done
  cases reconciled : reconcile declared state.retire.channels with
  | error fault =>
    simp only [reconciled] at done
    cases done
    exact ⟨state.retire, retired, kept, cleanLater, rfl, rfl, rfl, fun inside => inside⟩
  | ok channels =>
    simp only [reconciled] at done
    cases done
    have renewed := rebuild_renewed (reconcile_proper proper reconciled)
      (reconcile_clean proper clean reconciled) retired.idle
    refine ⟨state.retire, retired, renewed.proper, renewed.clean, renewed.index, renewed.main,
      renewed.branches, fun inside => renewed.names ?_⟩
    change _ ∈ channels.map Channel.name
    rw [reconcile_names reconciled]
    exact inside

end Ensure

end Trunks

end Figwal.Xwal
