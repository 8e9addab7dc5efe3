import Figwal.Lib.Runs
import Figwal.Xwal.Founding

/-!
# Sharing and isolation over whole runs

Every operation keeps a store proper and clean, whatever it answers. What a trunk
shows is therefore numbered without gaps in every reachable state, a fork shows what
its trunk showed up to the fork point, and an operation on one trunk leaves the
others alone, unless it retires the hot store while another trunk holds a record the
disk does not take.
-/

namespace Figwal.Xwal

open Figwal.Lib Figwal.Disk

set_option autoImplicit false

variable {β σ : Type}

/-- The channel that an operation declares, if it declares one, is faithful. -/
def TrunkOp.Faithful : TrunkOp β σ → Prop
  | .ensureChannel spec => spec.Faithful
  | _ => True

namespace Trunks

/-!
## Clean stores stay clean
-/

section Clean

variable {state next : Trunks β σ}

theorem Clean.minting (clean : state.Clean) : state.minting.Clean :=
  ⟨clean.strays, clean.marked, clean.blank⟩

theorem Clean.forked {parent child : String} {info : NodeInfo} {tailFork : Bool} {upTo : Nat}
    (clean : state.Clean) (forked : Forked state next parent child info tailFork upTo) :
    next.Clean := by
  have names : next.names = state.names := by
    rw [Trunks.names, forked.channels]
    rfl
  refine ⟨?_, ?_, ?_⟩
  · rw [forked.strays, clean.strays]
    rfl
  · intro name node listed member
    rw [names] at listed
    rw [forked.index] at member
    by_cases same : node = child
    · rw [same]
      exact forked.marked listed
    · rw [forked.cells name same]
      exact clean.marked listed ((List.mem_cons.mp member).resolve_left same)
  · intro name node outside
    rw [names, forked.index] at outside
    by_cases same : node = child
    · rw [same]
      rcases outside with unlisted | unknown
      · rw [forked.outside unlisted]
        exact clean.blank (Or.inl unlisted)
      · exact absurd (Or.inr (same ▸ List.mem_cons_self)) unknown
    · rw [forked.cells name same]
      refine clean.blank (outside.imp id fun unknown known => unknown ?_)
      exact known.imp id fun member => List.mem_cons_of_mem _ member

theorem Clean.appended {name node : String} {record : Record β} (clean : state.Clean)
    (listed : name ∈ state.names) (known : state.index.Known node)
    (appended : Appended state next name node record) : next.Clean := by
  refine ⟨?_, ?_, ?_⟩
  · rw [appended.frame]
    exact clean.strays
  · intro other key isListed member
    rw [appended.names] at isListed
    rw [appended.index] at member
    by_cases same : other = name ∧ key = node
    · rw [same.1, same.2, appended.marker, ← same.1, ← same.2]
      exact clean.marked isListed member
    · rw [appended.elsewhere same]
      exact clean.marked isListed member
  · intro other key outside
    rw [appended.names, appended.index] at outside
    have apart : ¬(other = name ∧ key = node) := by
      rintro ⟨rfl, rfl⟩
      rcases outside with unlisted | unknown
      · exact unlisted listed
      · exact unknown known
    rw [appended.elsewhere apart]
    exact clean.blank outside

theorem Clean.removed {gone : List String} {kept : String → Prop} (clean : state.Clean)
    (removed : Removed state next gone kept) : next.Clean := by
  have names : next.names = state.names := by
    rw [Trunks.names, removed.channels]
    rfl
  have known : ∀ {node}, next.index.Known node ↔ state.index.Known node ∧ node ∉ gone := by
    intro node
    rw [removed.index]
    exact Index.known_filter removed.rooted
  refine ⟨?_, ?_, ?_⟩
  · rw [removed.strays]
    exact clean.strays
  · intro name node listed member
    rw [names] at listed
    rcases known.mp (Or.inr member) with ⟨old, outside⟩
    rw [removed.marker name outside]
    apply clean.marked listed
    rcases old with root | inside
    · exfalso
      apply removed.proper.sound.ordered.root_unlisted
      rw [Index.family_members, ← root]
      exact member
    · exact inside
  · intro name node outside
    rw [names, known] at outside
    by_cases deleted : name ∈ state.names ∧ node ∈ gone
    · rw [removed.deleted deleted.1 deleted.2]
      exact Cell.fresh_blank
    · have blank : (state.cells name node).Blank := by
        apply clean.blank
        rcases outside with unlisted | unknown
        · exact Or.inl unlisted
        · by_cases listed : name ∈ state.names
          · exact Or.inr fun isKnown => unknown ⟨isKnown, fun inside => deleted ⟨listed, inside⟩⟩
          · exact Or.inl listed
      rcases removed.idle blank.pend with fresh | shut
      · rw [fresh]
        exact Cell.fresh_blank
      · rw [shut]
        exact blank.close

end Clean

structure Kept (state : Trunks β σ) : Prop where
  proper : state.Proper
  clean : state.Clean

section Kept

variable {state next : Trunks β σ} {trunk : String} {loads : String → Prop}

theorem Kept.settled (kept : state.Kept) (settled : Settled state next) : next.Kept :=
  ⟨settled.proper kept.proper, kept.clean.settled settled⟩

theorem Kept.staged (kept : state.Kept) (staged : Staged state next loads) : next.Kept :=
  ⟨staged.proper, kept.clean.staged staged⟩

theorem Kept.fork_end {info : String → NodeInfo} {child : String}
    {source : String → Bool → Nat → Prop} {result : Except Fault String} (kept : state.Kept)
    (ends : ForkEnd state next loads info child source result) : next.Kept := by
  cases ends with
  | refused fault synced proper => exact kept.settled synced.settled
  | failed fault middle staged same proper =>
    have middleKept := kept.staged staged
    rcases same with rfl | rfl
    · exact middleKept
    · exact ⟨proper, middleKept.clean.minting⟩
  | forked middle parent tailFork upTo staged proper known from_ forked =>
    exact ⟨proper, (kept.clean.staged staged).forked forked⟩

theorem Kept.remove_end {Answer : Type} {doomed : List String → Prop} {spares : Prop}
    {result : Except Fault Answer} (kept : state.Kept)
    (ends : RemoveEnd state next loads doomed spares result) : next.Kept := by
  cases ends with
  | refused fault synced proper => exact kept.settled synced.settled
  | failed fault isSpared staged => exact kept.staged staged
  | removed answer gone isDoomed removed => exact ⟨removed.proper, kept.clean.removed removed⟩

theorem Kept.ensure_end {result : Except Fault Unit} (kept : state.Kept)
    (ends : EnsureEnd state next result) : next.Kept := by
  cases ends with
  | refused fault synced proper => exact kept.settled synced.settled
  | mismatch fault staged => exact kept.staged staged
  | completed middle staged renewed => exact ⟨renewed.proper, renewed.clean⟩

/-- How an append to a trunk ends: without a trace, or with one record more at its head. -/
inductive AppendEnd (state : Trunks β σ) (trunk : String) (next : Trunks β σ) : Prop
  | failed (same : next = state)
  | appended (name node : String) (record : Record β) (listed : name ∈ state.names)
      (head : state.index.head trunk = some node)
      (appended : Appended state next name node record)
      (plain : ∀ channel ∈ state.channels, channel.name = name → channel.unkeyed = true →
        name ≠ state.main → record.mainLT = 0)
      (proper : next.Proper)

theorem append_end (proper : state.Proper) {body : β} {extra : List (String × Nat)}
    {result : Except Fault Nat} (done : state.append trunk body extra = (result, next)) :
    AppendEnd state trunk next := by
  rw [append, atHead] at done
  cases head : state.index.head trunk with
  | none =>
    rw [head] at done
    cases done
    exact .failed rfl
  | some node =>
    simp only [head, recover_idle proper.plan] at done
    rcases append_main_spec proper.sound proper.main (Index.head_known head) done with
      ⟨_, _, same⟩ | appended
    · exact .failed same
    · have plain : ∀ channel ∈ state.channels, channel.name = state.main →
          channel.unkeyed = true → state.main ≠ state.main →
          (state.shown state.main node).length + 1 = 0 :=
        fun channel _ _ _ related => absurd rfl related
      exact .appended state.main node _ proper.main head appended plain
        (appended.proper proper proper.main (Index.head_key head) (fun _ => rfl) plain)

theorem append_channel_end (proper : state.Proper) {name : String} {mainLT : Nat} {body : β}
    {result : Except Fault Nat} (done : state.appendChannel trunk name mainLT body =
      (result, next)) :
    AppendEnd state trunk next := by
  rw [appendChannel, atHead] at done
  cases head : state.index.head trunk with
  | none =>
    rw [head] at done
    cases done
    exact .failed rfl
  | some node =>
    simp only [head, recover_idle proper.plan] at done
    rcases append_related_spec proper.sound (Index.head_known head) done with
      ⟨_, _, same⟩ | ⟨channel, key, found, related, appended, plain, _⟩
    · exact .failed same
    · have listed := name_mem (channel_mem found)
      rw [channel_name found] at listed
      have unkeyed : ∀ other ∈ state.channels, other.name = name → other.unkeyed = true →
          name ≠ state.main → key = 0 := by
        intro other isMember sameName keying _
        have again := channel_of_mem proper.sound.distinct isMember
        rw [sameName, found] at again
        cases again
        exact plain keying
      exact .appended name node _ listed head appended unkeyed
        (appended.proper proper listed (Index.head_key head) (fun same => absurd same related)
          unkeyed)

theorem Kept.append_end (kept : state.Kept) (ends : AppendEnd state trunk next) : next.Kept := by
  cases ends with
  | failed same =>
    rw [same]
    exact kept
  | appended name node record listed head appended _ proper =>
    exact ⟨proper, kept.clean.appended listed (Index.head_known head) appended⟩

end Kept

/-!
## Runs
-/

/-- A minted trunk id is new, the marker of its node survives its text form, and the counter of
the nodes does not wrap. -/
def Mints (state : Trunks β σ) (minted kind : String) : Prop :=
  minted ≠ "" ∧ (∀ entry ∈ state.index, minted ≠ entry.2.trunk) ∧
    (∀ node ∈ "" :: state.index.keys, (⟨minted, node, kind⟩ : NodeInfo).Survives) ∧
    state.nodeSeq < maxInt

instance (state : Trunks β σ) (minted kind : String) : Decidable (state.Mints minted kind) :=
  inferInstanceAs (Decidable (_ ∧ _ ∧ _ ∧ _))

def Lawful (state : Trunks β σ) : TrunkOp β σ → Prop
  | .forkAt _ _ minted => state.Mints minted "conversation"
  | .forkTail _ minted => state.Mints minted "conversation"
  | .spawnChildKind _ kind minted => state.Mints minted kind
  | .spawnUnderRootKind kind minted => state.Mints minted kind
  | .spawnUnderStumpKind _ kind minted => state.Mints minted kind
  | _ => True

/-- What is waiting at the heads of the other trunks can be written, except at those
that are deleted. -/
def OthersFlush (state : Trunks β σ) (trunk : String) (deleted : String → Prop) : Prop :=
  ∀ entry ∈ state.index, entry.2.trunk ≠ "" → entry.2.trunk ≠ trunk → ¬deleted entry.1 →
    ∀ channel ∈ state.channels, state.Flushable channel entry.1

def Deletes (state : Trunks β σ) (trunk : String) (recursive : Bool) (node : String) : Prop :=
  recursive = true ∧ trunk ≠ "" ∧
    ∃ top ∈ state.foundingNode trunk, node ∈ Family.subtree top state.index.family

/-- Operations on a trunk that retire the hot store find nothing at another trunk that
the disk refuses, and a channel that is added can be completed. A mutation that the
flush of the hot store refuses retires nothing. -/
def Sheltered (state : Trunks β σ) : TrunkOp β σ → Prop
  | .forkAt trunk mainLT _ => state.syncHot.1 = .ok () → state.ForkRetires trunk mainLT →
      state.OthersFlush trunk fun _ => False
  | .remove trunk recursive => state.syncHot.1 = .ok () →
      state.OthersFlush trunk (state.Deletes trunk recursive)
  | .ensureChannel spec => state.Completable spec
  | _ => True

instance (state : Trunks β σ) (op : TrunkOp β σ) : Decidable (state.Lawful op) := by
  cases op <;> (unfold Lawful; infer_instance)

instance (state : Trunks β σ) (channel : Channel β σ) (node : String) :
    Decidable (state.Flushable channel node) := by
  unfold Flushable Cell.Flushes
  split <;> infer_instance

instance (state : Trunks β σ) (trunk : String) (recursive : Bool) (node : String) :
    Decidable (state.Deletes trunk recursive node) :=
  inferInstanceAs (Decidable (_ ∧ _ ∧ _))

instance (state : Trunks β σ) (trunk : String) (deleted : String → Prop)
    [∀ node, Decidable (deleted node)] : Decidable (state.OthersFlush trunk deleted) := by
  unfold OthersFlush
  infer_instance

instance (state : Trunks β σ) (trunk : String) (mainLT : Nat) :
    Decidable (state.ForkRetires trunk mainLT) := by
  unfold ForkRetires
  split <;> infer_instance

instance (state : Trunks β σ) (spec : Channel β σ) : Decidable (state.Completable spec) := by
  unfold Completable
  infer_instance

instance (state : Trunks β σ) (op : TrunkOp β σ) : Decidable (state.Sheltered op) := by
  cases op <;> (unfold Sheltered; infer_instance)

/-- A live trunk's main records are those from 1 to the tail, each keyed by its index. -/
def Whole (state : Trunks β σ) : Prop :=
  ∀ trunk node, state.index.head trunk = some node → ∀ idx,
    ((∃ record, state.read trunk state.main idx = .ok record) ↔
      1 ≤ idx ∧ idx ≤ state.mainTail node) ∧
    ∀ record, state.read trunk state.main idx = .ok record → record.mainLT = idx

def Untouched (before after : Trunks β σ) (trunk : String) : Prop :=
  ∀ name idx record,
    before.read trunk name idx = .ok record ↔ after.read trunk name idx = .ok record

section Step

variable {state next : Trunks β σ} {mainLT : Nat} {child minted node other trunk : String}
  {loads : String → Prop} {op : TrunkOp β σ}

theorem Proper.whole (proper : state.Proper) : state.Whole := by
  intro trunk node head idx
  have known := Index.head_known head
  rcases channel_exists proper.main with ⟨main, found⟩
  have read := proper.sound.read proper.plan head found idx
  rw [proper.main_tail known]
  constructor
  · constructor
    · rintro ⟨record, done⟩
      rcases (read record).mp done with ⟨positive, shown⟩
      have inside := (List.getElem?_eq_some_iff.mp shown).1
      exact ⟨positive, by omega⟩
    · rintro ⟨positive, bound⟩
      have inside : idx - 1 < (state.shown state.main node).length := by omega
      exact ⟨_, (read _).mpr ⟨positive, List.getElem?_eq_getElem inside⟩⟩
  · intro record done
    rcases (read record).mp done with ⟨positive, shown⟩
    have keyed := proper.numbered known _ _ shown
    omega

theorem untouched_of_shown (proper : state.Proper) (later : next.Proper)
    (names : next.names = state.names) (head : state.index.head trunk = some node)
    (headLater : next.index.head trunk = some node)
    (same : ∀ {name}, name ∈ state.names → next.shown name node = state.shown name node) :
    Untouched state next trunk := by
  intro name idx record
  by_cases listed : name ∈ state.names
  · rcases channel_exists listed with ⟨channel, found⟩
    have listedLater : name ∈ next.names := names ▸ listed
    rcases channel_exists listedLater with ⟨other, foundLater⟩
    rw [proper.sound.read proper.plan head found, later.sound.read later.plan headLater foundLater,
      same listed]
  · have missing : ∀ {store : Trunks β σ}, store.names = state.names → store.channel name =
        none := by
      intro store sameNames
      cases found : store.channel name with
      | none => rfl
      | some channel =>
        have member := name_mem (channel_mem found)
        rw [channel_name found, sameNames] at member
        exact absurd member listed
    have nothing : ∀ {store : Trunks β σ}, store.plan = none → store.names = state.names →
        store.index.head trunk = some node → store.read trunk name idx ≠ .ok record := by
      intro store plan sameNames isHead done
      rw [Trunks.read, atHead, isHead] at done
      simp only [recover_idle plan, readAt, missing sameNames] at done
      cases done
    exact ⟨fun done => absurd done (nothing proper.plan rfl head),
      fun done => absurd done (nothing later.plan names headLater)⟩

theorem head_kept (later : next.Proper) (grows : ∀ entry ∈ state.index, entry ∈ next.index)
    (head : state.index.head trunk = some node) : next.index.head trunk = some node := by
  rcases Index.head_mem head with ⟨info, member, rfl, carries⟩
  exact Index.head_of_mem later.trunks (grows _ member) carries

theorem Untouched.of_staged (proper : state.Proper) (staged : Staged state next loads)
    (head : state.index.head trunk = some node) (loaded : loads node) :
    Untouched state next trunk := by
  refine untouched_of_shown proper staged.proper staged.names head ?_ fun listed =>
    staged.same listed (Index.head_known head) loaded
  rw [staged.index]
  exact head

theorem Untouched.of_settled (proper : state.Proper) (settled : Settled state next)
    (head : state.index.head trunk = some node) : Untouched state next trunk := by
  refine untouched_of_shown proper (settled.proper proper) settled.names head ?_ fun listed =>
    settled.shown proper.sound listed (Index.head_known head)
  rw [settled.index]
  exact head

/-- The outcome of an operation for one trunk: it is still there, and reads the same. -/
def Spared (state next : Trunks β σ) (trunk : String) : Prop :=
  next.index.head trunk ≠ none ∧ Untouched state next trunk

theorem Spared.of_staged (proper : state.Proper) (staged : Staged state next loads)
    (head : state.index.head trunk = some node) (loaded : loads node) :
    Spared state next trunk := by
  refine ⟨?_, Untouched.of_staged proper staged head loaded⟩
  rw [staged.index, head]
  exact nofun

theorem Spared.of_settled (proper : state.Proper) (settled : Settled state next)
    (head : state.index.head trunk = some node) : Spared state next trunk := by
  refine ⟨?_, Untouched.of_settled proper settled head⟩
  rw [settled.index, head]
  exact nofun

theorem ForkEnd.spares {info : String → NodeInfo} {source : String → Bool → Nat → Prop}
    {result : Except Fault String} (proper : state.Proper)
    (ends : ForkEnd state next loads info child source result)
    (head : state.index.head trunk = some node) (loaded : loads node) :
    Spared state next trunk := by
  have known := Index.head_known head
  cases ends with
  | refused fault synced _ => exact Spared.of_settled proper synced.settled head
  | failed fault middle staged same later =>
    rcases same with rfl | rfl
    · exact Spared.of_staged proper staged head loaded
    · have headMiddle : middle.minting.index.head trunk = some node := by
        change middle.index.head trunk = some node
        rw [staged.index]
        exact head
      refine ⟨by rw [headMiddle]; exact nofun, ?_⟩
      exact untouched_of_shown proper later staged.names head headMiddle
        fun listed => staged.same listed known loaded
  | forked middle parent tailFork upTo staged later _ _ forked =>
    have names : next.names = state.names := by
      rw [Trunks.names, forked.channels]
      exact staged.names
    have headNext : next.index.head trunk = some node := by
      refine head_kept later ?_ head
      intro entry member
      rw [forked.index, staged.index]
      exact List.mem_cons_of_mem _ member
    refine ⟨by rw [headNext]; exact nofun, ?_⟩
    refine untouched_of_shown proper later names head headNext fun listed => ?_
    rw [forked.shown staged.proper.sound _ (by rw [staged.index]; exact known)]
    exact staged.same listed known loaded

theorem RemoveEnd.spares {Answer : Type} {doomed : List String → Prop} {spares : Prop}
    {result : Except Fault Answer} (proper : state.Proper)
    (ends : RemoveEnd state next loads doomed spares result)
    (head : state.index.head trunk = some node) (alive : next.index.head trunk ≠ none)
    (fine : spares → loads node) (survives : ∀ gone, doomed gone → node ∉ gone → loads node) :
    Untouched state next trunk := by
  have known := Index.head_known head
  cases ends with
  | refused fault synced _ => exact Untouched.of_settled proper synced.settled head
  | failed fault isSpared staged => exact Untouched.of_staged proper staged head (fine isSpared)
  | removed answer gone isDoomed removed =>
    have names : next.names = state.names := by
      rw [Trunks.names, removed.channels]
      rfl
    rcases Option.ne_none_iff_exists'.mp alive with ⟨other, headNext⟩
    rcases Index.head_mem headNext with ⟨info, member, carried, carries⟩
    rw [removed.index, List.mem_filter] at member
    have same : state.index.head trunk = some other := by
      rw [← carried]
      exact Index.head_of_mem proper.trunks member.1 (carried ▸ carries)
    have isNode : other = node := by
      rw [head] at same
      exact (Option.some.inj same).symm
    rw [isNode] at headNext member
    have outside : node ∉ gone := by simpa using member.2
    exact untouched_of_shown proper removed.proper names head headNext fun listed =>
      removed.same listed known outside (survives gone isDoomed outside)

theorem AppendEnd.spares (proper : state.Proper) (ends : AppendEnd state trunk next)
    (apart : other ≠ trunk) (head : state.index.head other = some node) :
    Spared state next other := by
  cases ends with
  | failed same =>
    rw [same]
    exact ⟨by rw [head]; exact nofun, fun _ _ _ => Iff.rfl⟩
  | appended name target record listed headTarget appended _ later =>
    have headNext : next.index.head other = some node := by
      rw [appended.index]
      exact head
    refine ⟨by rw [headNext]; exact nofun, ?_⟩
    refine untouched_of_shown proper later appended.names head headNext fun isListed => ?_
    apply appended.shown_elsewhere proper.sound isListed (Index.head_known head)
    rintro ⟨_, rfl⟩
    exact apart (Index.head_injective proper.sound.ordered head headTarget)

theorem Mints.survives {kind : String} (mints : state.Mints minted kind)
    (known : state.index.Known node) : (⟨minted, node, kind⟩ : NodeInfo).Survives :=
  mints.2.2.1 node (List.mem_cons.mpr known)

theorem Kept.next_bare (kept : state.Kept) (room : state.nodeSeq < maxInt) :
    state.Bare (nodeId state.nodeSeq) :=
  kept.clean.bare (kept.proper.next_unlisted room)

theorem Kept.fork_at (kept : state.Kept) {trunk minted : String} {mainLT : Nat}
    (mints : state.Mints minted "conversation") :
    ForkEnd state (state.forkAt trunk mainLT minted).2
      (fun node => state.ForkRetires trunk mainLT →
        ∀ channel ∈ state.channels, state.Flushable channel node)
      (fun node => ⟨minted, node, "conversation"⟩) (nodeId state.nodeSeq)
      (state.ForkSource trunk mainLT) (state.forkAt trunk mainLT minted).1 :=
  fork_at_end kept.proper mints.2.2.2 (kept.next_bare mints.2.2.2) (fun _ known => mints.survives
    known)
    (fun entry member _ => mints.2.1 entry member) rfl

theorem Kept.spawn (kept : state.Kept) {anchor : Trunks β σ → Except Fault String} {kind : String}
    {anchors : String → Prop}
    (finds : ∀ {middle : Trunks β σ} {node}, middle.index = state.index →
      anchor middle = .ok node → state.index.Known node ∧ anchors node)
    (mints : state.Mints minted kind) :
    ForkEnd state (state.spawn anchor kind minted).2 (fun _ => True)
      (fun node => ⟨minted, node, kind⟩) (nodeId state.nodeSeq) (state.TailSource anchors)
      (state.spawn anchor kind minted).1 :=
  spawn_end kept.proper mints.2.2.2 finds (kept.next_bare mints.2.2.2)
    (fun _ known => mints.survives known)
    (fun entry member _ => mints.2.1 entry member) rfl

theorem Kept.create_stump (kept : state.Kept) (name : String) :
    ForkEnd state (state.createStump name).2 (fun _ => True) (fun node => ⟨"", node, "loadout"⟩)
      name (state.TailSource fun node => node = "") (state.createStump name).1 :=
  create_stump_end kept.proper (fun unknown => kept.clean.bare unknown) rfl

theorem root_finds {middle : Trunks β σ} (_ : middle.index = state.index)
    (found : (.ok "" : Except Fault String) = .ok node) : state.index.Known node ∧ node = "" := by
  cases found
  exact ⟨Or.inl rfl, rfl⟩

theorem step_kept (kept : state.Kept) (faithful : op.Faithful) (lawful : state.Lawful op)
    (completable : ∀ spec, op = .ensureChannel spec → state.Completable spec) :
    (state.step op).Kept := by
  cases op with
  | append trunk body extra => exact kept.append_end (append_end kept.proper rfl)
  | appendChannel trunk channel mainLT body => exact kept.append_end (append_channel_end kept.proper
      rfl)
  | forkAt trunk mainLT minted => exact kept.fork_end (kept.fork_at lawful)
  | forkTail trunk minted => exact kept.fork_end (kept.spawn head_key_finds lawful)
  | spawnChildKind trunk kind minted => exact kept.fork_end (kept.spawn anchor_of_finds lawful)
  | spawnUnderRootKind kind minted => exact kept.fork_end (kept.spawn root_finds lawful)
  | spawnUnderStumpKind stump kind minted =>
    exact kept.fork_end (kept.spawn stump_key_finds lawful)
  | createStump name => exact kept.fork_end (kept.create_stump name)
  | remove trunk recursive => exact kept.remove_end (remove_end kept.proper rfl)
  | removeStump name => exact kept.remove_end (remove_stump_end kept.proper rfl)
  | ensureChannel spec =>
    exact kept.ensure_end
      (ensure_channel_end kept.proper kept.clean faithful (completable spec rfl) rfl)
  | reopen declared =>
    rcases reopen_end kept.proper kept.clean (rfl : state.reopen declared = (_, _)) with
      ⟨middle, _, renewed⟩
    exact ⟨renewed.proper, renewed.clean⟩

theorem Sheltered.completable (sheltered : state.Sheltered op) :
    ∀ spec, op = .ensureChannel spec → state.Completable spec := by
  intro spec isEnsure
  subst isEnsure
  exact sheltered

theorem OthersFlush.head {deleted : String → Prop} (flush : state.OthersFlush trunk deleted)
    (apart : other ≠ trunk) (head : state.index.head other = some node) (stays : ¬deleted node) :
    ∀ channel ∈ state.channels, state.Flushable channel node := by
  rcases Index.head_mem head with ⟨info, member, rfl, carries⟩
  exact flush _ member carries apart stays

theorem Kept.run (kept : state.Kept) {run : List (TrunkOp β σ)}
    (declares : ∀ op ∈ run, op.Faithful) (lawful : EveryStep step Lawful state run)
    (sheltered : EveryStep step Sheltered state run) : (run.foldl step state).Kept :=
  invariant_after step Kept
    (fun _ _ kept (all : _ ∧ _ ∧ _) => step_kept kept all.1 all.2.1 all.2.2.completable) kept
    (every_step_and _ (every_step_of_forall _ declares) (every_step_and _ lawful sheltered))

end Step

def sampleCodec : Codec (Record Nat) Nat where
  fileExt := ".wal"
  stored record := record
  frameLen _ record := some record.body
  storedHeader header := header
  headerLen _ := some 1
  nilHeader := 0
  stored_stored _ := rfl
  storedHeader_storedHeader _ := rfl
  headerLen_pos frames := by
    cases frames
    exact Nat.one_pos

def sampleChannel (name : String) : Channel Nat Nat where
  name := name
  reducer := ""
  isOpaque := false
  unkeyed := false
  opts := ⟨sampleCodec, 20, none⟩
  frameBytes _ := 1
  decodes _ := true

theorem sample_channel_faithful (name : String) : (sampleChannel name).Faithful where
  keeps _ := rfl
  decodes _ := rfl
  steady _ mode := by cases mode

theorem sample_channels_faithful :
    ∀ channel ∈ [sampleChannel "ir", sampleChannel "tr"], channel.Faithful := by
  simp [sample_channel_faithful]

set_option maxRecDepth 4000 in
def sampleStore : Trunks Nat Nat :=
  (create "ir" 1000 [sampleChannel "ir", sampleChannel "tr"] 1 0).toOption.get (by decide)

theorem sample_store_created :
    create "ir" 1000 [sampleChannel "ir", sampleChannel "tr"] 1 0 = .ok sampleStore := by
  have answers : ∀ (answer : Except Fault (Trunks Nat Nat)) (fine : answer.toOption.isSome),
      answer = .ok (answer.toOption.get fine) := by
    intro answer
    cases answer with
    | error fault => exact nofun
    | ok store => exact fun _ => rfl
  exact answers _ _

end Trunks

end Figwal.Xwal
