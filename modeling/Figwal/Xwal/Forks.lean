import Figwal.Xwal.Proper

/-!
# Forks

What a fork of a quiet node does: a new node appears whose channels show the part of
the parent's up to the computed bases, and nothing else changes. The directories the
new node takes over must not hold segment files.
-/

namespace Figwal.Xwal

open Figwal.Lib Figwal.Disk

set_option autoImplicit false

variable {β σ : Type}

namespace Trunks

variable {state : Trunks β σ}

def Bare (state : Trunks β σ) (node : String) : Prop :=
  ∀ name ∈ state.names, (state.cells name node).handle.files = [] ∧
    (state.cells name node).pend = []

section Bases

variable {state : Trunks β σ} {node : String} {tailFork : Bool} {upTo : Nat}

theorem bases_of_cons {newest : Channel β σ} {rest : List (Channel β σ)}
    {bases : List (String × Nat)}
    (done : state.basesOf node tailFork upTo (newest :: rest) = .ok bases) :
    ∃ base others, state.channelBase node tailFork upTo newest = .ok base ∧
      state.basesOf node tailFork upTo rest = .ok others ∧
      bases = (newest.name, base) :: others := by
  rw [basesOf] at done
  cases first : state.channelBase node tailFork upTo newest with
  | error fault =>
    rw [first] at done
    cases done
  | ok base =>
    rw [first] at done
    cases later : state.basesOf node tailFork upTo rest with
    | error fault =>
      simp only [later] at done
      cases done
    | ok others =>
      simp only [later] at done
      cases done
      exact ⟨base, others, rfl, rfl, rfl⟩

theorem bases_of_spec {list : List (Channel β σ)} (distinct : (list.map Channel.name).Nodup)
    {bases : List (String × Nat)} (done : state.basesOf node tailFork upTo list = .ok bases) :
    ∀ channel ∈ list, ∃ base, bases.lookup channel.name = some base ∧
      state.channelBase node tailFork upTo channel = .ok base := by
  induction list generalizing bases with
  | nil =>
    intro channel inside
    cases inside
  | cons newest rest ih =>
    rcases List.nodup_cons.mp distinct with ⟨apart, later⟩
    obtain ⟨base, others, first, tail, rfl⟩ := bases_of_cons done
    intro channel inside
    rcases List.mem_cons.mp inside with rfl | below
    · exact ⟨base, List.lookup_cons_self, first⟩
    · rcases ih later tail channel below with ⟨found, looked, computed⟩
      have differs : (channel.name == newest.name) = false := by
        rw [beq_eq_false_iff_ne]
        intro same
        exact apart (same ▸ List.mem_map_of_mem (f := Channel.name) below)
      refine ⟨found, ?_, computed⟩
      rw [List.lookup_cons, differs]
      exact looked

theorem bases_of_outside {list : List (Channel β σ)} {bases : List (String × Nat)}
    (done : state.basesOf node tailFork upTo list = .ok bases) {name : String}
    (unlisted : name ∉ list.map Channel.name) : bases.lookup name = none := by
  induction list generalizing bases with
  | nil =>
    cases done
    rfl
  | cons newest rest ih =>
    rw [List.map_cons, List.mem_cons, not_or] at unlisted
    obtain ⟨base, others, _, tail, rfl⟩ := bases_of_cons done
    have differs : (name == newest.name) = false := beq_eq_false_iff_ne.mpr unlisted.1
    rw [List.lookup_cons, differs]
    exact ih tail unlisted.2

def forkPoint (state : Trunks β σ) (node : String) (mainLT : Nat) : Nat :=
  if mainLT = 0 then state.mainTail node else mainLT

theorem Proper.main_tail (proper : state.Proper) (known : state.index.Known node) :
    state.mainTail node = (state.shown state.main node).length := by
  rcases channel_exists proper.main with ⟨main, found⟩
  rw [mainTail, found]
  simp only [proper.sound.last_index (channel_mem found) known, channel_name found]

theorem Quiet.shown_main (quiet : state.Quiet node) :
    state.shown state.main node = state.settled state.main node := by
  rw [shown_eq, quiet.main, List.append_nil]

end Bases

theorem marked_spec {cell : Cell β σ} (files : cell.handle.files = []) (pend : cell.pend = [])
    {base : Nat} (positive : 1 ≤ base) :
    (cell.marked base).Sound ∧ (cell.marked base).branch = ⟨base, [], []⟩ := by
  have starts : firstWritableAt base = base := by
    unfold firstWritableAt
    split_ifs <;> omega
  have records : (cell.marked base).handle.records = [] := by
    change joined Segment.payloads cell.handle.files = []
    rw [files]
    rfl
  have empty : (cell.marked base).waiting = [] := Cell.waiting_of_idle pend
  refine ⟨⟨?_, fun busy => absurd pend busy, fun busy => absurd pend busy⟩, ?_⟩
  · change Stacked (firstWritableAt base) cell.handle.files
    rw [files]
    exact ⟨[], none, rfl, trivial, by simp⟩
  · rw [Cell.branch, empty, records]
    exact congrArg (fun start => (⟨start, [], []⟩ : Branch (Record β))) starts

/-- A node was forked off `parent` and nothing else changed. -/
structure Forked (before after : Trunks β σ) (parent child : String) (info : NodeInfo)
    (tailFork : Bool) (upTo : Nat) : Prop where
  index : after.index = (child, info) :: before.index
  channels : after.channels = before.channels
  main : after.main = before.main
  strays : after.strays = before.strays.filter (· ≠ child)
  unlisted : ¬before.index.Known child
  sound : after.Sound
  inherits : ∀ channel ∈ before.channels, ∃ base,
    before.channelBase parent tailFork upTo channel = .ok base ∧ 1 ≤ base ∧
      base ≤ (before.settled channel.name parent).length + 1 ∧
      after.branches channel.name child = ⟨base, [], []⟩ ∧
      after.shown channel.name child = (before.shown channel.name parent).take (base - 1)
  marked : ∀ {name}, name ∈ before.names → 0 < (after.cells name child).handle.forkBase
  cells : ∀ name {key}, key ≠ child → after.cells name key = before.cells name key
  outside : ∀ {name}, name ∉ before.names → after.cells name child = before.cells name child

namespace Forked

variable {before after : Trunks β σ} {parent child : String} {info : NodeInfo} {tailFork : Bool}
  {upTo : Nat}

theorem lineage (forked : Forked before after parent child info tailFork upTo) {key : String}
    (known : before.index.Known key) :
    after.index.lineage key = before.index.lineage key := by
  have apart : key ≠ child := by
    rintro rfl
    exact forked.unlisted known
  rw [Index.lineage, forked.index]
  exact Family.lineage_cons_of_ne apart

theorem shown (forked : Forked before after parent child info tailFork upTo)
    (sound : before.Sound) (name : String) {key : String} (known : before.index.Known key) :
    after.shown name key = before.shown name key := by
  rw [Trunks.shown, forked.lineage known, Trunks.shown]
  apply unfolded_congr
  intro other above
  have isKnown := Index.known_lineage sound.ordered known above
  have apart : other ≠ child := by
    rintro rfl
    exact forked.unlisted isKnown
  rw [branches, branches, forked.cells name apart]

end Forked

section Plant

variable {state : Trunks β σ} {parent child : String} {info : NodeInfo} {mainLT : Nat}

theorem known_planted {bases : List (String × Nat)} {key : String}
    (known : (state.plant child info bases).index.Known key) :
    key = child ∨ state.index.Known key := by
  rcases known with root | listed
  · exact Or.inr (Or.inl root)
  · exact (List.mem_cons.mp listed).imp id Or.inr

theorem planted_cells {bases : List (String × Nat)} (name : String) {key : String}
    (apart : key ≠ child) : (state.plant child info bases).cells name key = state.cells name key :=
  if_neg apart

theorem planted_lineage {bases : List (String × Nat)} (origin : info.fromKey = parent) :
    (state.plant child info bases).index.lineage child = child :: state.index.lineage parent := by
  change Family.lineage "" ((child, info.fromKey) :: state.index.family) child = _
  rw [Family.lineage_cons_self, origin]
  rfl

theorem planted_branches {bases : List (String × Nat)} (sound : state.Sound)
    (unlisted : ¬state.index.Known child) (name : String) {key : String}
    (known : state.index.Known key) : ∀ other ∈ state.index.lineage key,
      (state.plant child info bases).branches name other = state.branches name other := by
  intro other member
  have apart : other ≠ child := by
    rintro rfl
    exact unlisted (Index.known_lineage sound.ordered known member)
  rw [branches, branches, planted_cells name apart]

/-- A channel of the new node starts at the base computed for it, with nothing of its own. -/
structure Seated (state planted : Trunks β σ) (parent child : String) (mainLT : Nat)
    (channel : Channel β σ) (base : Nat) : Prop where
  computed : state.channelBase parent (decide (mainLT = 0)) (state.forkPoint parent mainLT)
    channel = .ok base
  positive : 1 ≤ base
  fits : base ≤ (state.settled channel.name parent).length + 1
  usable : (planted.cells channel.name child).Sound
  marker : (planted.cells channel.name child).handle.forkBase = base
  shape : planted.branches channel.name child = ⟨base, [], []⟩

section

variable (proper : state.Proper) (known : state.index.Known parent) (quiet : state.Quiet parent)
  (inside : mainLT ≤ (state.settled state.main parent).length) (bare : state.Bare child)
  {bases : List (String × Nat)} (done : state.channelBases parent mainLT = .ok bases)

include proper known quiet inside bare done

theorem plant_seated {channel : Channel β σ} (member : channel ∈ state.channels) :
    ∃ base, Seated state (state.plant child info bases) parent child mainLT channel base := by
  have sound := proper.sound
  have within : state.forkPoint parent mainLT ≤ (state.settled state.main parent).length := by
    unfold forkPoint
    split_ifs
    · rw [proper.main_tail known, quiet.shown_main]
    · exact inside
  rcases bases_of_spec sound.distinct done channel member with ⟨base, looked, result⟩
  have fits := sound.base_fits quiet (fun other isMember keying related =>
    proper.plain isMember keying related known) member known within result
  have positive := (sound.channel_base member known result).1
  rcases bare channel.name (name_mem member) with ⟨files, pend⟩
  have cell : (state.plant child info bases).cells channel.name child =
      (state.cells channel.name child).marked base := by
    change (if child = child then _ else _) = _
    rw [if_pos rfl, looked]
  rcases marked_spec files pend positive with ⟨usable, shape⟩
  refine ⟨base, result, positive, fits, ?_, ?_, ?_⟩
  · rw [cell]
    exact usable
  · rw [cell]
    rfl
  · rw [branches, cell]
    exact shape

variable (unlisted : ¬state.index.Known child) (origin : info.fromKey = parent)

include unlisted origin

theorem plant_sound : (state.plant child info bases).Sound := by
  have sound := proper.sound
  have apart : ∀ {key}, state.index.Known key → key ≠ child := by
    rintro key isKnown rfl
    exact unlisted isKnown
  refine ⟨sound.faithful, sound.distinct, ?_, ?_, ?_⟩
  · refine ⟨fun root => unlisted (Or.inl root), fun listed => unlisted (Or.inr ?_), ?_,
      sound.ordered⟩
    · rw [← Index.family_members]
      exact listed
    · rw [origin]
      refine known.imp id fun listed => ?_
      rw [← Index.family_members] at listed
      exact listed
  · intro name key listed isKnown
    rcases known_planted isKnown with rfl | old
    · rcases List.mem_map.mp listed with ⟨channel, member, rfl⟩
      rcases plant_seated proper known quiet inside bare done member with ⟨_, seated⟩
      exact seated.usable
    · rw [planted_cells name (apart old)]
      exact sound.usable listed old
  · intro name key listed isKnown
    rcases known_planted isKnown with rfl | old
    · rcases List.mem_map.mp listed with ⟨channel, member, rfl⟩
      rcases plant_seated proper known quiet inside bare done member with ⟨base, seated⟩
      have above := @planted_branches _ _ _ _ info bases sound unlisted channel.name _ known
      rw [planted_lineage origin, Based, seated.shape, durable_congr above]
      exact ⟨seated.positive, seated.fits,
        based_congr above (sound.based (name_mem member) known)⟩
    · have path : (state.plant child info bases).index.lineage key = state.index.lineage key :=
        Family.lineage_cons_of_ne (apart old)
      rw [path]
      exact based_congr (planted_branches sound unlisted name old) (sound.based listed old)

theorem plant_forked : Forked state (state.plant child info bases) parent child info
    (decide (mainLT = 0)) (state.forkPoint parent mainLT) := by
  refine ⟨rfl, rfl, rfl, rfl, unlisted,
    plant_sound proper known quiet inside bare done unlisted origin, ?_, ?_, planted_cells, ?_⟩
  · intro channel member
    rcases plant_seated proper known quiet inside bare done member with ⟨base, seated⟩
    refine ⟨base, seated.computed, seated.positive, seated.fits, seated.shape, ?_⟩
    have short : base - 1 ≤ (state.settled channel.name parent).length := by
      have fits := seated.fits
      omega
    rw [shown, planted_lineage origin, unfolded, durable, seated.shape,
      durable_congr (planted_branches proper.sound unlisted channel.name known), splice,
      List.append_nil, List.append_nil, shown_eq, List.take_append_of_le_length short]
    rfl
  · intro name listed
    rcases List.mem_map.mp listed with ⟨channel, member, rfl⟩
    rcases plant_seated proper known quiet inside bare done member with ⟨base, seated⟩
    rw [seated.marker]
    exact seated.positive
  · intro name unlistedName
    change (if child = child then _ else _) = _
    rw [if_pos rfl, bases_of_outside done unlistedName]

end

/-- A planted node keeps the store proper if its trunk is new and its marker survives. -/
theorem plant_proper (proper : state.Proper) (origin : state.index.Known parent)
    {tailFork : Bool} {upTo : Nat} {bases : List (String × Nat)}
    (forked : Forked state (state.plant child info bases) parent child info tailFork upTo)
    (survives : info.Survives)
    (fresh : ∀ entry ∈ state.index, info.trunk ≠ "" → info.trunk ≠ entry.2.trunk) :
    (state.plant child info bases).Proper := by
  have apart : ∀ {key}, state.index.Known key → key ≠ child := by
    rintro key isKnown rfl
    exact forked.unlisted isKnown
  refine ⟨forked.sound, proper.main, ?_, ?_, ?_, ?_, ?_,
    Int.le_trans proper.counts (bump_seq_le _ _), ?_, proper.plan, proper.markers⟩
  · intro key isKnown
    rcases known_planted isKnown with rfl | old
    · rcases List.mem_map.mp proper.main with ⟨main, member, same⟩
      rcases forked.inherits main member with ⟨base, _, _, _, _, inherited⟩
      rw [same] at inherited
      change Numbered ((state.plant key info bases).shown state.main key)
      rw [inherited]
      exact (proper.numbered origin).shorten (List.take_prefix _ _)
    · change Numbered ((state.plant child info bases).shown state.main key)
      rw [forked.shown proper.sound state.main old]
      exact proper.numbered old
  · intro channel key member keying related isKnown record waits
    rcases known_planted isKnown with rfl | old
    · rcases forked.inherits channel member with ⟨base, _, _, _, shape, _⟩
      have empty : ((state.plant key info bases).cells channel.name key).waiting = [] :=
        congrArg Branch.pend shape
      rw [empty] at waits
      cases waits
    · rw [forked.cells channel.name (apart old)] at waits
      exact proper.plain member keying related old record waits
  · intro name listed
    rw [forked.cells name (apart (Or.inl rfl))]
    exact proper.idle listed
  · exact List.pairwise_cons.mpr ⟨fun entry member carries => fresh entry member carries,
      proper.trunks⟩
  · intro entry member
    rcases List.mem_cons.mp member with rfl | old
    · exact survives
    · exact proper.survives entry old
  · intro key member
    rcases List.mem_cons.mp member with same | old
    · have isChild : key = child := same
      rw [isChild]
      exact bump_seq_passes proper.counts child
    · exact (proper.minted key old).mono (bump_seq_le _ _)

end Plant

theorem recover_idle (plan : state.plan = none) : state.recover = (.ok (), state) := by
  rw [recover, plan]

theorem fork_into_spec {next : Trunks β σ} (proper : state.Proper)
    {parent child kind trunk : String} {mainLT : Nat} (known : state.index.Known parent)
    (quiet : state.Quiet parent) (inside : mainLT ≤ (state.settled state.main parent).length)
    (unlisted : ¬state.index.Known child) (bare : state.Bare child)
    (survives : (⟨trunk, parent, kind⟩ : NodeInfo).Survives)
    (fresh : ∀ entry ∈ state.index, trunk ≠ "" → trunk ≠ entry.2.trunk)
    {result : Except Fault String}
    (done : state.forkInto parent child kind trunk mainLT = (result, next)) :
    (∃ fault, result = .error fault ∧ next = state) ∨
      result = .ok trunk ∧ next.Proper ∧
        Forked state next parent child ⟨trunk, parent, kind⟩ (decide (mainLT = 0))
          (state.forkPoint parent mainLT) := by
  rw [forkInto, recover_idle proper.plan] at done
  cases computed : state.channelBases parent mainLT with
  | error fault =>
    simp only [computed] at done
    cases done
    exact Or.inl ⟨fault, rfl, rfl⟩
  | ok bases =>
    simp only [computed] at done
    cases done
    have origin : (⟨trunk, parent, kind⟩ : NodeInfo).fromKey = parent := rfl
    have forked := plant_forked proper known quiet inside bare computed unlisted origin
    exact Or.inr ⟨rfl, plant_proper proper known forked survives fresh, forked⟩

def minting (state : Trunks β σ) : Trunks β σ :=
  { state with nodeSeq := wrapInt (state.nodeSeq + 1) }

section

variable (proper : state.Proper) (room : state.nodeSeq < maxInt)

include proper room

theorem Proper.minting : state.minting.Proper := by
  have counts := proper.counts
  have next : wrapInt (state.nodeSeq + 1) = state.nodeSeq + 1 :=
    wrap_int_succ (by unfold minInt; omega) room
  refine ⟨⟨proper.sound.faithful, proper.sound.distinct, proper.sound.ordered, proper.sound.usable,
    proper.sound.based⟩, proper.main, proper.numbered, proper.plain, proper.idle, proper.trunks,
    proper.survives, ?_, fun key member => (proper.minted key member).mono ?_, proper.plan,
    proper.markers⟩
  · change 0 ≤ wrapInt (state.nodeSeq + 1)
    omega
  · change state.nodeSeq ≤ wrapInt (state.nodeSeq + 1)
    omega

theorem Proper.next_unlisted : ¬state.index.Known (nodeId state.nodeSeq) := by
  rintro (root | listed)
  · rw [node_id_eq proper.counts] at root
    obtain ⟨digits, shape, _⟩ := node_name_chars state.nodeSeq.toNat
    rw [root] at shape
    cases shape
  · exact node_id_unpassed proper.counts room (proper.minted _ listed)

end

theorem fork_flat_spec {next : Trunks β σ} (proper : state.Proper)
    (room : state.nodeSeq < maxInt) {parent kind trunk : String}
    {mainLT : Nat} (known : state.index.Known parent) (quiet : state.Quiet parent)
    (inside : mainLT ≤ (state.settled state.main parent).length)
    (bare : state.Bare (nodeId state.nodeSeq))
    (survives : (⟨trunk, parent, kind⟩ : NodeInfo).Survives)
    (fresh : ∀ entry ∈ state.index, trunk ≠ "" → trunk ≠ entry.2.trunk)
    {result : Except Fault String} (done : state.forkFlat parent kind trunk mainLT =
      (result, next)) :
    (∃ fault, result = .error fault ∧ next = state.minting) ∨
      result = .ok trunk ∧ next.Proper ∧
        Forked state next parent (nodeId state.nodeSeq) ⟨trunk, parent, kind⟩
          (decide (mainLT = 0)) (state.forkPoint parent mainLT) := by
  have quietMinting : state.minting.Quiet parent := ⟨quiet.main, quiet.related⟩
  rcases fork_into_spec (proper.minting room) known quietMinting inside
    (proper.next_unlisted room) bare survives fresh done with failed | ⟨fine, kept, forked⟩
  · exact Or.inl failed
  · refine Or.inr ⟨fine, kept, ?_⟩
    exact ⟨forked.index, forked.channels, forked.main, forked.strays, forked.unlisted,
      forked.sound, forked.inherits, forked.marked, forked.cells, forked.outside⟩

end Trunks

end Figwal.Xwal
