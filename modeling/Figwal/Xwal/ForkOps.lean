import Figwal.Xwal.Forks

/-!
# Operations that fork

Before a node is forked the loaded heads are flushed, and a fork point above the
head's own records retires the hot store as well. `Staged` is what either does: the
nodes for which everything could be written show what they showed, the others may
have lost what was pending. The fork itself then adds one node.
-/

namespace Figwal.Xwal

open Figwal.Lib Figwal.Disk

set_option autoImplicit false

variable {β σ : Type}

namespace Trunks

structure Staged (before after : Trunks β σ) (kept : String → Prop) : Prop where
  frame : after = { before with cells := after.cells }
  proper : after.Proper
  quiet : ∀ {node}, before.index.Known node → after.Quiet node
  bases : ∀ name node, (after.branches name node).base = (before.branches name node).base
  idle : ∀ {name node}, (before.cells name node).pend = [] →
    after.cells name node = before.cells name node ∨
      after.cells name node = (before.cells name node).close
  marker : ∀ name node, (after.cells name node).handle.forkBase =
    (before.cells name node).handle.forkBase
  main_same : ∀ {node}, before.index.Known node →
    after.shown before.main node = before.shown before.main node
  same : ∀ {name node}, name ∈ before.names → before.index.Known node → kept node →
    after.shown name node = before.shown name node
  grown : ∀ name node, Extends (before.branches name node) (after.branches name node)
  shorter : ∀ {name node}, name ∈ before.names → before.index.Known node →
    after.shown name node <+: before.shown name node

namespace Staged

variable {before after : Trunks β σ} {kept : String → Prop}

section

variable (staged : Staged before after kept)

include staged

theorem index : after.index = before.index := by
  rw [staged.frame]

theorem channels : after.channels = before.channels := by
  rw [staged.frame]

theorem names : after.names = before.names := by
  rw [Trunks.names, staged.channels, Trunks.names]

theorem main : after.main = before.main := by
  rw [staged.frame]

theorem nodeSeq : after.nodeSeq = before.nodeSeq := by
  rw [staged.frame]

theorem weaken {fewer : String → Prop}
    (fine : ∀ {node}, before.index.Known node → fewer node → kept node) :
    Staged before after fewer :=
  { staged with same := fun listed known few => staged.same listed known (fine known few) }

theorem bare {node : String} (bare : before.Bare node) : after.Bare node := by
  intro name listed
  rw [staged.names] at listed
  rcases bare name listed with ⟨files, pend⟩
  rcases staged.idle pend with same | shut
  · rw [same]
    exact ⟨files, pend⟩
  · rw [shut]
    exact ⟨files, rfl⟩

end

end Staged

section Stages

variable {state next : Trunks β σ} {mainLT : Nat} {node owner : String}

theorem Proper.quiet_root (proper : state.Proper) : state.Quiet "" := by
  constructor
  · exact proper.idle proper.main
  · intro channel member _ record waits
    rw [proper.idle (name_mem member)] at waits
    cases waits

/-- A refused mutation has flushed what it could, an admitted one everything that is
keyed by main records. -/
theorem begin_mutation_spec (proper : state.Proper) {result : Except Fault Unit}
    (done : state.beginMutation = (result, next)) :
    Synced state next ∧ next.Proper ∧ (result = .ok () → state.syncHot.1 = .ok () ∧
      Staged state next fun _ => True) := by
  rw [beginMutation] at done
  cases flushed : state.syncHot with
  | mk answer synced =>
    rcases sync_hot_spec proper.sound proper.main flushed with ⟨kept, quiet⟩
    have settled := kept.settled
    have after := settled.proper proper
    rw [flushed] at done
    cases answer with
    | error err =>
      cases done
      exact ⟨kept, after, nofun⟩
    | ok _ =>
      cases done
      refine ⟨kept, after, fun _ => ⟨rfl, settled.frame, after, ?_, ?_, ?_, ?_, ?_, ?_,
        fun name node => (settled.settles name node).extension, ?_⟩⟩
      · rintro node (rfl | listed)
        · exact after.quiet_root
        · exact quiet rfl node listed
      · intro name node
        exact (settled.settles name node).base
      · intro name node still
        exact Or.inl (settled.idle still)
      · exact settled.marker
      · intro node known
        exact settled.shown proper.sound proper.main known
      · intro name node listed known _
        exact settled.shown proper.sound listed known
      · intro name node listed known
        have same := settled.shown proper.sound listed known
        exact same ▸ List.prefix_refl _

/-- A mutation is refused by the flush of the hot store, or finds the store staged. -/
theorem begin_mutation_cases (proper : state.Proper) :
    (∃ fault synced, state.beginMutation = (.error fault, synced) ∧ Synced state synced ∧
      synced.Proper) ∨
    ∃ synced, state.beginMutation = (.ok (), synced) ∧ Synced state synced ∧ synced.Proper ∧
      Staged state synced fun _ => True := by
  cases begun : state.beginMutation with
  | mk answer synced =>
    obtain ⟨kept, properSynced, admitted⟩ := begin_mutation_spec proper begun
    cases answer with
    | error fault => exact .inl ⟨fault, synced, rfl, kept, properSynced⟩
    | ok _ => exact .inr ⟨synced, rfl, kept, properSynced, (admitted rfl).2⟩

theorem Retired.shown_of_empty (retired : Retired state next) (sound : state.Sound)
    {name : String} (listed : name ∈ state.names) (known : state.index.Known node)
    (empty : (state.cells name node).waiting = []) :
    next.shown name node = state.shown name node := by
  have shorter := retired.shorter listed known
  have longer : state.settled name node <+: next.settled name node := by
    rw [settled, settled, retired.index]
    exact durable_longer (sound.based listed known) fun other _ => retired.grown name other
  rw [shown_eq, retired.waiting, List.append_nil] at shorter ⊢
  rw [shown_eq, empty, List.append_nil] at shorter ⊢
  exact shorter.eq_of_length_le longer.length_le

theorem retire_staged {kept : String → Prop} (staged : Staged state next kept) :
    Staged state next.retire fun node => kept node ∧
      ∀ channel ∈ state.channels, next.Flushable channel node := by
  have retired := retire_retired staged.proper.sound
  refine ⟨?_, retired.proper staged.proper, fun _ => retired.quiet _, ?_, ?_, ?_, ?_, ?_,
    fun name node => (staged.grown name node).trans (retired.grown name node), ?_⟩
  · exact retired.frame.trans (congrArg (fun base : Trunks β σ =>
      { base with cells := next.retire.cells }) staged.frame)
  · intro name node
    exact (retired.grown name node).base.trans (staged.bases name node)
  · intro name node still
    have idle : (next.cells name node).pend = [] := by
      rcases staged.idle still with same | shut
      · rw [same]
        exact still
      · rw [shut]
        rfl
    rw [retired.blank idle]
    rcases staged.idle still with same | shut
    · rw [same]
      exact Or.inr rfl
    · rw [shut]
      exact Or.inr rfl
  · intro name node
    exact (retired.marker name node).trans (staged.marker name node)
  · intro node known
    have knownNext : next.index.Known node := by
      rw [staged.index]
      exact known
    have kept := retired.shown_of_empty staged.proper.sound staged.proper.main knownNext
      (staged.quiet known).main
    rw [staged.main] at kept
    exact kept.trans (staged.main_same known)
  · intro name node listed known fine
    rcases List.mem_map.mp listed with ⟨channel, member, rfl⟩
    rw [retired.same (staged.channels ▸ member) (by rw [staged.index]; exact known)
      (fine.2 channel member), staged.same listed known fine.1]
  · intro name node listed known
    exact (retired.shorter (by rw [staged.names]; exact listed)
      (by rw [staged.index]; exact known)).trans (staged.shorter listed known)

/-- `owner` is the nearest node from `node` up whose own main records start at or
before `mainLT`, or the root. -/
def Owns (state : Trunks β σ) (node owner : String) (mainLT : Nat) : Prop :=
  ∃ lower upper, state.index.lineage node = lower ++ owner :: upper ∧
    (∀ key ∈ lower, mainLT + 1 ≤ (state.branches state.main key).base) ∧
    (owner = "" ∨ (state.branches state.main owner).base ≤ mainLT)

/-- Below an owner the lineage has no records of its own up to `mainLT`. -/
theorem owner_of_spec {path : List String} (done : state.ownerOf mainLT path = .ok owner) :
    (∃ lower upper, path = lower ++ owner :: upper ∧
        (∀ key ∈ lower, mainLT + 1 ≤ (state.branches state.main key).base) ∧
        (owner = "" ∨ (state.branches state.main owner).base ≤ mainLT)) ∨
      ∀ key ∈ path, mainLT + 1 ≤ (state.branches state.main key).base := by
  induction path with
  | nil =>
    refine Or.inr fun key inside => ?_
    cases inside
  | cons node up ih =>
    rw [ownerOf] at done
    by_cases root : node = ""
    · rw [if_pos root] at done
      cases done
      exact Or.inl ⟨[], up, by rw [root]; rfl, (fun key inside => nomatch inside), Or.inl rfl⟩
    · rw [if_neg root] at done
      by_cases unmarked : (state.cells state.main node).handle.forkBase = 0
      · rw [if_pos unmarked] at done
        cases done
      · rw [if_neg unmarked] at done
        by_cases covers : (state.cells state.main node).handle.forkBase ≤ mainLT
        · rw [if_pos covers] at done
          cases done
          refine Or.inl ⟨[], up, rfl, (fun key inside => nomatch inside), Or.inr ?_⟩
          change firstWritableAt _ ≤ mainLT
          unfold firstWritableAt
          split_ifs <;> omega
        · rw [if_neg covers] at done
          have here : mainLT + 1 ≤ (state.branches state.main node).base := by
            change mainLT + 1 ≤ firstWritableAt _
            unfold firstWritableAt
            split_ifs <;> omega
          rcases ih done with ⟨lower, upper, split, below, starts⟩ | below
          · refine Or.inl ⟨node :: lower, upper, by rw [split]; rfl, fun key inside => ?_, starts⟩
            rcases List.mem_cons.mp inside with rfl | deeper
            · exact here
            · exact below key deeper
          · refine Or.inr fun key inside => ?_
            rcases List.mem_cons.mp inside with rfl | deeper
            · exact here
            · exact below key deeper

theorem Sound.above {lower upper : List String} (sound : state.Sound)
    (known : state.index.Known node) (path : state.index.lineage node = lower ++ owner :: upper) :
    state.index.Known owner ∧ state.index.lineage owner = owner :: upper := by
  constructor
  · apply Index.known_lineage sound.ordered known
    rw [path]
    exact List.mem_append_right _ List.mem_cons_self
  · exact Family.lineage_suffix sound.ordered (by rw [Index.family_members]; exact known) path

/-- The owner of a main LT is a known node that has that record on disk, and shares
the main records up to it with the node below. -/
theorem Sound.owns (sound : state.Sound) (listed : state.main ∈ state.names)
    (known : state.index.Known node) (inside : mainLT ≤ (state.settled state.main node).length)
    (owns : state.Owns node owner mainLT) :
    state.index.Known owner ∧ mainLT ≤ (state.settled state.main owner).length ∧
      (state.settled state.main owner).take mainLT =
        (state.settled state.main node).take mainLT := by
  have based := sound.based listed known
  rcases owns with ⟨lower, upper, path, below, _⟩
  obtain ⟨knownOwner, above⟩ := sound.above known path
  have cut : (state.settled state.main owner).take mainLT =
      (state.settled state.main node).take mainLT := by
    rw [settled, settled, above, path]
    rw [path] at based
    exact (durable_take based below).symm
  refine ⟨knownOwner, ?_, cut⟩
  have length := congrArg List.length cut
  rw [List.length_take, List.length_take] at length
  omega

theorem Sound.owner_of (sound : state.Sound) (listed : state.main ∈ state.names)
    (known : state.index.Known node) (positive : 0 < mainLT)
    (inside : mainLT ≤ (state.settled state.main node).length)
    (done : state.ownerOf mainLT (state.index.lineage node) = .ok owner) :
    state.Owns node owner mainLT := by
  rcases owner_of_spec done with found | below
  · exact found
  · exfalso
    have whole : state.index.lineage node ++ [] = state.index.lineage node := List.append_nil _
    have based : Based (state.branches state.main) (state.index.lineage node ++ []) := by
      rw [whole]
      exact sound.based listed known
    have none := durable_take based below
    rw [whole] at none
    have length := congrArg List.length none
    rw [List.length_take] at length
    change min mainLT (state.settled state.main node).length = _ at length
    simp only [durable, List.take_nil, List.length_nil] at length
    omega

end Stages

/-!
## Outcomes
-/

/-- How an operation that forks ends. `source` says which node is forked, whether at
its tail, and up to which main LT. -/
inductive ForkEnd (state next : Trunks β σ) (kept : String → Prop) (info : String → NodeInfo)
    (child : String) (source : String → Bool → Nat → Prop) : Except Fault String → Prop
  | refused (fault : Fault) (synced : Synced state next) (proper : next.Proper) :
      ForkEnd state next kept info child source (.error fault)
  | failed (fault : Fault) (middle : Trunks β σ) (staged : Staged state middle kept)
      (same : next = middle ∨ next = middle.minting) (proper : next.Proper) :
      ForkEnd state next kept info child source (.error fault)
  | forked (middle : Trunks β σ) (parent : String) (tailFork : Bool) (upTo : Nat)
      (staged : Staged state middle kept) (proper : next.Proper)
      (known : state.index.Known parent) (from_ : source parent tailFork upTo)
      (forked : Forked middle next parent child (info parent) tailFork upTo) :
      ForkEnd state next kept info child source (.ok (info parent).trunk)

section Ends

variable {state next : Trunks β σ} {result : Except Fault String} {minted node trunk : String}
  {middle : Trunks β σ}

theorem Staged.fork_flat {kept : String → Prop} (staged : Staged state middle kept)
    (room : state.nodeSeq < maxInt) {parent kind : String} {mainLT : Nat}
    (known : state.index.Known parent)
    (inside : mainLT ≤ (middle.settled middle.main parent).length)
    (bare : state.Bare (nodeId state.nodeSeq))
    (survives : (⟨minted, parent, kind⟩ : NodeInfo).Survives)
    (fresh : ∀ entry ∈ state.index, minted ≠ "" → minted ≠ entry.2.trunk)
    {source : String → Bool → Nat → Prop}
    (from_ : source parent (decide (mainLT = 0)) (middle.forkPoint parent mainLT))
    (done : middle.forkFlat parent kind minted mainLT = (result, next)) :
    ForkEnd state next kept (fun node => ⟨minted, node, kind⟩) (nodeId state.nodeSeq) source
      result := by
  have isKnown : middle.index.Known parent := by
    rw [staged.index]
    exact known
  have isBare : middle.Bare (nodeId middle.nodeSeq) := by
    rw [staged.nodeSeq]
    exact staged.bare bare
  have isFresh : ∀ entry ∈ middle.index, minted ≠ "" → minted ≠ entry.2.trunk := by
    rw [staged.index]
    exact fresh
  have roomMiddle : middle.nodeSeq < maxInt := by
    rw [staged.nodeSeq]
    exact room
  rcases fork_flat_spec staged.proper roomMiddle isKnown (staged.quiet known) inside isBare survives
    isFresh done with ⟨fault, failed, same⟩ | ⟨fine, proper, forked⟩
  · rw [failed]
    exact .failed fault middle staged (Or.inr same) (same ▸ staged.proper.minting roomMiddle)
  · rw [staged.nodeSeq] at forked
    rw [fine]
    exact .forked middle parent _ _ staged proper known from_ forked

theorem own_first_idx (state : Trunks β σ) (node : String) :
    state.ownFirstIdx node = (state.branches state.main node).base := rfl

theorem Staged.main_tail {kept : String → Prop} (staged : Staged state middle kept)
    (known : state.index.Known node) :
    middle.mainTail node = (state.shown state.main node).length := by
  rw [staged.proper.main_tail (by rw [staged.index]; exact known), staged.main,
    staged.main_same known]

/-- The fork point lies in the main records before the head's own, so that `ForkAt`
retires the hot store. -/
def ForkRetires (state : Trunks β σ) (trunk : String) (mainLT : Nat) : Prop :=
  match state.index.head trunk with
  | some head => 0 < mainLT ∧ mainLT < state.mainTail head ∧ mainLT < state.ownFirstIdx head
  | none => False

/-- Which node `ForkAt` forks: the head at its tail, or the owner of the fork point. -/
def ForkSource (state : Trunks β σ) (trunk : String) (mainLT : Nat) (parent : String)
    (tailFork : Bool) (upTo : Nat) : Prop :=
  ∃ head, state.index.head trunk = some head ∧
    ((mainLT = 0 ∨ (state.shown state.main head).length ≤ mainLT) ∧ parent = head ∧
        tailFork = true ∧ upTo = (state.shown state.main head).length ∨
      0 < mainLT ∧ mainLT < (state.shown state.main head).length ∧
        state.Owns head parent mainLT ∧ tailFork = false ∧ upTo = mainLT)

theorem fork_at_end (proper : state.Proper) (room : state.nodeSeq < maxInt) {mainLT : Nat}
    (bare : state.Bare (nodeId state.nodeSeq))
    (survives : ∀ node, state.index.Known node →
      (⟨minted, node, "conversation"⟩ : NodeInfo).Survives)
    (fresh : ∀ entry ∈ state.index, minted ≠ "" → minted ≠ entry.2.trunk)
    (done : state.forkAt trunk mainLT minted = (result, next)) :
    ForkEnd state next (fun node => state.ForkRetires trunk mainLT →
        ∀ channel ∈ state.channels, state.Flushable channel node)
      (fun node => ⟨minted, node, "conversation"⟩) (nodeId state.nodeSeq)
      (state.ForkSource trunk mainLT) result := by
  rw [forkAt] at done
  rcases begin_mutation_cases proper with
    ⟨fault, synced, begun, kept, properSynced⟩ | ⟨synced, begun, kept, properSynced, whole⟩
  · rw [begun] at done
    cases done
    exact .refused fault kept properSynced
  · rw [begun] at done
    have staged : Staged state synced fun node => state.ForkRetires trunk mainLT →
        ∀ channel ∈ state.channels, state.Flushable channel node :=
      whole.weaken fun _ _ => trivial
    simp only [whole.index] at done
    cases head : state.index.head trunk with
    | none =>
      rw [head] at done
      cases done
      exact .failed _ _ staged (Or.inl rfl) staged.proper
    | some node =>
      have known := Index.head_known head
      have tail := whole.main_tail known
      have knownSynced : synced.index.Known node := by
        rw [whole.index]
        exact known
      simp only [head, recover_idle properSynced.plan] at done
      by_cases atTail : mainLT = 0 ∨ synced.mainTail node ≤ mainLT
      · rw [if_pos atTail] at done
        rw [tail] at atTail
        apply staged.fork_flat room known (Nat.zero_le _) bare (survives node known) fresh _ done
        exact ⟨node, head, Or.inl ⟨atTail, rfl, rfl, tail⟩⟩
      · rw [if_neg atTail] at done
        rw [tail, not_or] at atTail
        have positive : 0 < mainLT := Nat.pos_of_ne_zero atTail.1
        have short : mainLT < (state.shown state.main node).length :=
          Nat.lt_of_not_le atTail.2
        have onDisk : mainLT ≤ (synced.settled synced.main node).length := by
          rw [← (whole.quiet known).shown_main, whole.main, whole.main_same known]
          omega
        by_cases below : mainLT < synced.ownFirstIdx node
        · rw [if_pos below] at done
          have retires : state.ForkRetires trunk mainLT := by
            rw [own_first_idx, whole.main, whole.bases, ← own_first_idx] at below
            rw [ForkRetires, head]
            exact ⟨positive, by rw [proper.main_tail known]; exact short, below⟩
          have retired : Staged state synced.retire fun node =>
              state.ForkRetires trunk mainLT →
                ∀ channel ∈ state.channels, state.Flushable channel node :=
            (retire_staged whole).weaken fun isKnown fine => ⟨trivial,
              fun channel member =>
                kept.flushable member isKnown (fine retires channel member)⟩
          have onDiskRetired : mainLT ≤
              (synced.retire.settled synced.retire.main node).length := by
            rw [← (retired.quiet known).shown_main, retired.main, retired.main_same known]
            omega
          cases owner : synced.retire.ownerOf mainLT
              (synced.retire.index.lineage node) with
          | error fault =>
            simp only [owner] at done
            cases done
            exact .failed fault _ retired (Or.inl rfl) retired.proper
          | ok parent =>
            simp only [owner] at done
            have owns := retired.proper.sound.owner_of retired.proper.main
              (by rw [retired.index]; exact known) positive onDiskRetired owner
            rcases retired.proper.sound.owns retired.proper.main
              (by rw [retired.index]; exact known) onDiskRetired owns with
              ⟨knownParent, inside, _⟩
            rw [retired.index] at knownParent
            apply retired.fork_flat room knownParent inside bare
              (survives parent knownParent) fresh _ done
            refine ⟨node, head, Or.inr ⟨positive, short, ?_, ?_, ?_⟩⟩
            · rcases owns with ⟨lower, upper, path, high, starts⟩
              rw [retired.index] at path
              simp only [retired.main, retired.bases] at high starts
              exact ⟨lower, upper, path, high, starts⟩
            · simpa using atTail.1
            · rw [forkPoint, if_neg atTail.1]
        · rw [if_neg below] at done
          apply staged.fork_flat room known onDisk bare (survives node known) fresh _ done
          refine ⟨node, head, Or.inr ⟨positive, short, ?_, ?_, ?_⟩⟩
          · rcases Family.lineage_eq_cons "" state.index.family node with ⟨above, path⟩
            rw [own_first_idx, whole.main, whole.bases] at below
            exact ⟨[], above, path, (fun key inside => nomatch inside),
              Or.inr (Nat.le_of_not_lt below)⟩
          · simpa using atTail.1
          · rw [forkPoint, if_neg atTail.1]

/-- A tail fork of one of the nodes in `anchors`. -/
def TailSource (state : Trunks β σ) (anchors : String → Prop) (parent : String)
    (tailFork : Bool) (upTo : Nat) : Prop :=
  anchors parent ∧ tailFork = true ∧ upTo = (state.shown state.main parent).length

theorem spawn_end (proper : state.Proper) (room : state.nodeSeq < maxInt)
    {anchor : Trunks β σ → Except Fault String} {kind : String} {anchors : String → Prop}
    (finds : ∀ {middle : Trunks β σ} {node}, middle.index = state.index →
      anchor middle = .ok node → state.index.Known node ∧ anchors node)
    (bare : state.Bare (nodeId state.nodeSeq))
    (survives : ∀ node, state.index.Known node → (⟨minted, node, kind⟩ : NodeInfo).Survives)
    (fresh : ∀ entry ∈ state.index, minted ≠ "" → minted ≠ entry.2.trunk)
    (done : state.spawn anchor kind minted = (result, next)) :
    ForkEnd state next (fun _ => True) (fun node => ⟨minted, node, kind⟩)
      (nodeId state.nodeSeq) (state.TailSource anchors) result := by
  rw [spawn] at done
  rcases begin_mutation_cases proper with
    ⟨fault, synced, begun, kept, properSynced⟩ | ⟨synced, begun, kept, properSynced, staged⟩
  · rw [begun] at done
    cases done
    exact .refused fault kept properSynced
  · rw [begun] at done
    cases found : anchor synced with
    | error fault =>
      simp only [found] at done
      cases done
      exact .failed _ _ staged (Or.inl rfl) staged.proper
    | ok node =>
      simp only [found] at done
      rcases finds staged.index found with ⟨known, anchored⟩
      apply staged.fork_flat room known (Nat.zero_le _) bare (survives node known) fresh _ done
      exact ⟨anchored, rfl, staged.main_tail known⟩

theorem head_key_finds (index : middle.index = state.index)
    (found : headKey trunk middle = .ok node) :
    state.index.Known node ∧ state.index.head trunk = some node := by
  rw [headKey, index] at found
  cases head : state.index.head trunk with
  | none =>
    rw [head] at found
    cases found
  | some other =>
    rw [head] at found
    cases found
    exact ⟨Index.head_known head, rfl⟩

theorem anchor_of_finds (index : middle.index = state.index)
    (found : anchorOf trunk middle = .ok node) : state.index.Known node ∧
      (trunk = "" ∧ node = "" ∨ state.index.head trunk = some node) := by
  rw [anchorOf] at found
  split_ifs at found with none
  · cases found
    exact ⟨Or.inl rfl, Or.inl ⟨none, rfl⟩⟩
  · rcases head_key_finds index found with ⟨known, head⟩
    exact ⟨known, Or.inr head⟩

theorem known_of_node {key : String} {info : NodeInfo} (found : state.index.node key = some info) :
    state.index.Known key := by
  unfold Index.node at found
  split_ifs at found with root
  · exact Or.inl root
  · rcases List.lookup_eq_some_iff.mp found with ⟨before, after, split, _⟩
    refine Or.inr (List.mem_map.mpr ⟨(key, info), ?_, rfl⟩)
    rw [split]
    exact List.mem_append_right _ List.mem_cons_self

theorem stump_key_finds {name : String} (index : middle.index = state.index)
    (found : stumpKey name middle = .ok node) : state.index.Known node ∧ node = name := by
  rw [stumpKey, index] at found
  cases listed : state.index.node name with
  | none =>
    rw [listed] at found
    cases found
  | some info =>
    simp only [listed] at found
    split_ifs at found
    cases found
    exact ⟨known_of_node listed, rfl⟩

theorem unknown_of_node {key : String} (missing : state.index.node key = none) :
    ¬state.index.Known key := by
  unfold Index.node at missing
  split_ifs at missing with root
  rintro (same | listed)
  · exact root same
  · rcases List.mem_map.mp listed with ⟨entry, member, rfl⟩
    rw [List.lookup_eq_none_iff] at missing
    simpa using missing entry member

theorem create_stump_end (proper : state.Proper) {name : String}
    (bare : ¬state.index.Known name → state.Bare name)
    (done : state.createStump name = (result, next)) :
    ForkEnd state next (fun _ => True) (fun node => ⟨"", node, "loadout"⟩) name
      (state.TailSource fun node => node = "") result := by
  rw [createStump] at done
  rcases begin_mutation_cases proper with
    ⟨fault, synced, begun, kept, properSynced⟩ | ⟨synced, begun, kept, properSynced, staged⟩
  · rw [begun] at done
    cases done
    exact .refused fault kept properSynced
  · rw [begun] at done
    simp only at done
    by_cases invalid : invalidStump name = true
    · rw [if_pos invalid] at done
      cases done
      exact .failed _ _ staged (Or.inl rfl) staged.proper
    · rw [if_neg invalid] at done
      by_cases exists_ : (synced.index.node name).isSome = true
      · rw [if_pos exists_] at done
        cases done
        exact .failed _ _ staged (Or.inl rfl) staged.proper
      · rw [if_neg exists_] at done
        have missing : ¬synced.index.Known name := by
          apply unknown_of_node
          simpa using exists_
        have unlisted : ¬state.index.Known name := by
          rw [← staged.index]
          exact missing
        have survives : (⟨"", "", "loadout"⟩ : NodeInfo).Survives := by decide
        rw [forkFlatNamed] at done
        rcases fork_into_spec properSynced (Or.inl rfl) properSynced.quiet_root
          (Nat.zero_le _) missing (staged.bare (bare unlisted)) survives
          (fun _ _ carries => absurd rfl carries) done with
          ⟨fault, failed, same⟩ | ⟨fine, after, forked⟩
        · rw [failed]
          exact .failed fault _ staged (Or.inl same) (same ▸ properSynced)
        · rw [fine]
          exact .forked synced "" _ _ staged after (Or.inl rfl)
            ⟨rfl, rfl, staged.main_tail (Or.inl rfl)⟩ forked

end Ends

end Trunks

end Figwal.Xwal
