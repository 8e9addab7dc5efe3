import Figwal.Xwal.Bases

/-!
# The invariant of a store

`Proper` is what holds between operations: on top of soundness, the main records of
every node carry their own index as main LT, an unkeyed channel keeps nothing in
memory that is keyed, nothing is pending at the root, and the index is one that a
rebuild from the markers reproduces. Flushes, appends, retirements and rebuilds keep
it, and each is described by what it does to what the nodes show.
-/

namespace Figwal.Xwal

open Figwal.Lib Figwal.Disk

set_option autoImplicit false

variable {β σ : Type}

def Numbered (records : List (Record β)) : Prop :=
  ∀ idx record, records[idx]? = some record → record.mainLT = idx + 1

theorem Numbered.shorten {records longer : List (Record β)} (numbered : Numbered longer)
    (shorter : records <+: longer) : Numbered records := by
  intro idx record found
  rcases shorter with ⟨rest, rfl⟩
  have inside := (List.getElem?_eq_some_iff.mp found).1
  apply numbered idx record
  rw [List.getElem?_append_left inside]
  exact found

theorem Numbered.append {records : List (Record β)} (numbered : Numbered records)
    {record : Record β} (next : record.mainLT = records.length + 1) :
    Numbered (records ++ [record]) := by
  intro idx other found
  by_cases old : idx < records.length
  · rw [List.getElem?_append_left old] at found
    exact numbered idx other found
  · rw [List.getElem?_append_right (by omega)] at found
    have last : idx - records.length = 0 := by
      by_contra beyond
      rw [List.getElem?_eq_none (by simp; omega)] at found
      cases found
    rw [last] at found
    cases found
    omega

namespace Trunks

structure Proper (state : Trunks β σ) : Prop where
  sound : state.Sound
  main : state.main ∈ state.names
  numbered : ∀ {node}, state.index.Known node → Numbered (state.shown state.main node)
  plain : ∀ {channel : Channel β σ} {node}, channel ∈ state.channels → channel.unkeyed = true →
    channel.name ≠ state.main → state.index.Known node →
      ∀ record ∈ (state.cells channel.name node).waiting, record.mainLT = 0
  idle : ∀ {name}, name ∈ state.names → (state.cells name "").waiting = []
  trunks : state.index.Distinct
  survives : ∀ entry ∈ state.index, entry.2.Survives
  counts : 0 ≤ state.nodeSeq
  minted : ∀ key ∈ state.index.keys, Passes state.nodeSeq key
  plan : state.plan = none
  markers : state.unmarked = []

section Steps

variable {before after : Trunks β σ} {node : String} {next state : Trunks β σ}

/-- A step that changes only cells answers for what the cells hold. -/
theorem Proper.with_cells (proper : before.Proper)
    (frame : after = { before with cells := after.cells }) (sound : after.Sound)
    (numbered : ∀ {node}, before.index.Known node → Numbered (after.shown before.main node))
    (plain : ∀ {channel : Channel β σ} {node}, channel ∈ before.channels →
      channel.unkeyed = true → channel.name ≠ before.main → before.index.Known node →
        ∀ record ∈ (after.cells channel.name node).waiting, record.mainLT = 0)
    (idle : ∀ {name}, name ∈ before.names → (after.cells name "").waiting = []) :
    after.Proper := by
  obtain ⟨cells, same⟩ : ∃ cells, after = { before with cells := cells } := ⟨_, frame⟩
  clear frame
  subst same
  exact ⟨sound, proper.main, numbered, plain, idle, proper.trunks, proper.survives,
    proper.counts, proper.minted, proper.plan, proper.markers⟩

theorem Settled.proper (settled : Settled before after) (proper : before.Proper) :
    after.Proper := by
  apply proper.with_cells settled.frame (settled.sound proper.sound)
  · intro node known
    rw [settled.shown proper.sound proper.main known]
    exact proper.numbered known
  · intro channel node member keying related known record waits
    exact proper.plain member keying related known record
      ((settled.waiting_suffix channel.name node).subset waits)
  · intro name listed
    have suffix := settled.waiting_suffix name ""
    rw [proper.idle listed] at suffix
    exact List.suffix_nil.mp suffix

section

variable (retired : Retired before after)

include retired

theorem Retired.index : after.index = before.index := by
  rw [retired.frame]

theorem Retired.channels : after.channels = before.channels := by
  rw [retired.frame]

theorem Retired.names : after.names = before.names := by
  rw [Trunks.names, retired.channels, Trunks.names]

theorem Retired.main : after.main = before.main := by
  rw [retired.frame]

theorem Retired.waiting (name node : String) : (after.cells name node).waiting = [] :=
  Cell.waiting_of_idle (retired.idle name node)

theorem Retired.proper (proper : before.Proper) : after.Proper := by
  apply proper.with_cells retired.frame retired.sound
  · intro node known
    exact (proper.numbered known).shorten (retired.shorter proper.main known)
  · intro channel node _ _ _ _ record waits
    rw [retired.waiting] at waits
    cases waits
  · intro name _
    exact retired.waiting name ""

theorem Retired.quiet (node : String) : after.Quiet node := by
  constructor
  · exact retired.waiting _ _
  · intro channel _ _ record waits
    rw [retired.waiting] at waits
    cases waits

end

/-!
## Appending
-/

structure Appended (before after : Trunks β σ) (name node : String) (record : Record β) :
    Prop where
  frame : after = { before with cells := after.cells }
  usable : (after.cells name node).Sound
  here : Settles ⟨(before.cells name node).base, (before.cells name node).handle.records,
    (before.cells name node).waiting ++ [record]⟩ (after.branches name node)
  marker : (after.cells name node).handle.forkBase = (before.cells name node).handle.forkBase
  elsewhere : ∀ {other key}, ¬(other = name ∧ key = node) →
    after.cells other key = before.cells other key

namespace Appended

variable {name node : String} {record : Record β}

section

variable (appended : Appended before after name node record)

include appended

theorem index : after.index = before.index := by
  rw [appended.frame]

theorem channels : after.channels = before.channels := by
  rw [appended.frame]

theorem names : after.names = before.names := by
  rw [Trunks.names, appended.channels, Trunks.names]

theorem main : after.main = before.main := by
  rw [appended.frame]

theorem extended (other key : String) :
    Extends (before.branches other key) (after.branches other key) := by
  by_cases same : other = name ∧ key = node
  · rw [same.1, same.2]
    exact ⟨appended.here.base, appended.here.extension.grown⟩
  · rw [branches, branches, appended.elsewhere same]
    exact Extends.refl _

theorem sound (sound : before.Sound) : after.Sound where
  faithful := by
    rw [appended.channels]
    exact sound.faithful
  distinct := by
    rw [appended.names]
    exact sound.distinct
  ordered := by
    rw [appended.index]
    exact sound.ordered
  usable {other key} listed known := by
    by_cases same : other = name ∧ key = node
    · rw [same.1, same.2]
      exact appended.usable
    · rw [appended.elsewhere same]
      exact sound.usable (appended.names ▸ listed) (appended.index ▸ known)
  based {other key} listed known := by
    rw [appended.index]
    exact based_extends (sound.based (appended.names ▸ listed) (appended.index ▸ known))
      fun above _ => appended.extended other above

theorem shown_here (sound : before.Sound) (listed : name ∈ before.names)
    (known : before.index.Known node) :
    after.shown name node = before.shown name node ++ [record] := by
  have based := sound.based listed known
  rcases Family.lineage_eq_cons "" before.index.family node with ⟨above, path⟩
  rcases appended.here.moved with ⟨moved, own, pend⟩
  rw [shown, shown, appended.index]
  rw [Index.lineage, path] at based ⊢
  apply unfolded_grows based fun other _ => appended.extended name other
  change (after.branches name node).own ++ (after.branches name node).pend =
    (before.cells name node).handle.records ++ (before.cells name node).waiting ++ [record]
  rw [own, List.append_assoc, ← pend, ← List.append_assoc]

theorem shown_elsewhere (sound : before.Sound) {other key : String}
    (listed : other ∈ before.names) (known : before.index.Known key)
    (apart : ¬(other = name ∧ key = node)) : after.shown other key = before.shown other key := by
  have based := sound.based listed known
  rcases Family.lineage_eq_cons "" before.index.family key with ⟨above, path⟩
  rw [shown, shown, appended.index]
  rw [Index.lineage, path] at based ⊢
  apply unfolded_extends based fun above _ => appended.extended other above
  rw [branches, branches, appended.elsewhere apart]

theorem waiting_here :
    (after.cells name node).waiting <:+ (before.cells name node).waiting ++ [record] := by
  rcases appended.here.moved with ⟨moved, _, pend⟩
  exact ⟨moved, pend.symm⟩

/-- The store stays proper if the record is keyed as its channel demands. -/
theorem proper (proper : before.Proper) (listed : name ∈ before.names)
    (known : node ∈ before.index.keys)
    (asMain : name = before.main → record.mainLT = (before.shown name node).length + 1)
    (asPlain : ∀ channel ∈ before.channels, channel.name = name → channel.unkeyed = true →
      name ≠ before.main → record.mainLT = 0) :
    after.Proper := by
  apply proper.with_cells appended.frame (appended.sound proper.sound)
  · intro key isKnown
    by_cases same : before.main = name ∧ key = node
    · rw [same.1, same.2, appended.shown_here proper.sound listed (Or.inr known)]
      have numbered : Numbered (before.shown before.main node) := proper.numbered (Or.inr known)
      rw [same.1] at numbered
      exact numbered.append (asMain same.1.symm)
    · rw [appended.shown_elsewhere proper.sound proper.main isKnown same]
      exact proper.numbered isKnown
  · intro channel key member keying related isKnown other waits
    by_cases same : channel.name = name ∧ key = node
    · rw [same.1, same.2] at waits
      rcases List.mem_append.mp (appended.waiting_here.subset waits) with old | new
      · rw [← same.1, ← same.2] at old
        exact proper.plain member keying related isKnown other old
      · rw [List.mem_singleton.mp new]
        exact asPlain channel member same.1 keying (same.1 ▸ related)
    · rw [appended.elsewhere same] at waits
      exact proper.plain member keying related isKnown other waits
  · intro other isListed
    have rooted : "" ∉ before.index.keys := by
      rw [← Index.family_members]
      exact proper.sound.ordered.root_unlisted
    have apart : ¬(other = name ∧ "" = node) := by
      rintro ⟨_, rfl⟩
      exact rooted known
    rw [appended.elsewhere apart]
    exact proper.idle isListed

end

end Appended

theorem set_cell_self (state : Trunks β σ) (name node : String) :
    state.setCell name node (state.cells name node) = state := by
  have same : (fun other key => if other = name ∧ key = node then state.cells name node
      else state.cells other key) = state.cells := by
    funext other key
    split_ifs with place
    · rw [place.1, place.2]
    · rfl
  rw [setCell, same]

theorem write_spec {channel : Channel β σ} (sound : state.Sound)
    (member : channel ∈ state.channels) (known : state.index.Known node) {record : Record β}
    {result : Except Err Unit}
    (done : (state.withLog channel node fun log parents cell => cell.write channel state.maxLag log
      parents (state.lastIndex channel node + 1) record) = (result, next)) :
    (∃ err, result = .error err ∧ next = state) ∨
      Appended state next channel.name node record := by
  rcases sound.logs member known with ⟨log, parents, opened, opens, chained, _⟩
  rw [withLog, opened] at done
  cases change : (state.cells channel.name node).write channel state.maxLag log parents
      (state.lastIndex channel node + 1) record with
  | mk answer cell =>
    simp only [change] at done
    cases done
    have here : (state.setCell channel.name node cell).cells channel.name node = cell :=
      if_pos ⟨rfl, rfl⟩
    rcases Cell.write_spec (sound.faithful channel member) (sound.usable (name_mem member) known)
      opens _ _ _ change with
      ⟨err, failed, same⟩ | ⟨_, kept, marker, settles⟩
    · refine Or.inl ⟨err, failed, ?_⟩
      rw [same, set_cell_self]
    · refine Or.inr ⟨rfl, ?_, ?_, ?_, fun other => if_neg other⟩
      · rw [here]
        exact kept
      · rw [branches, here]
        exact settles
      · rw [here]
        exact marker

theorem Sound.tail_main (sound : state.Sound) {channel : Channel β σ}
    (member : channel ∈ state.channels) (known : state.index.Known node) :
    state.tailMain channel node =
      .ok ((state.shown channel.name node).getLast?.map Record.mainLT) := by
  rcases sound.logs member known with ⟨log, parents, opened, opens, chained, same⟩
  have usable := sound.usable (name_mem member) known
  have last := usable.last_index opens chained
  rcases usable.first_index opens chained with ⟨low, positive⟩
  have read := usable.read_ok_iff opens chained
  rw [same, ← shown_eq] at last positive read
  rw [tailMain, opened]
  simp only [last, (sound.faithful channel member).bind_decode]
  by_cases empty : state.shown channel.name node = []
  · rw [if_pos (by rw [empty, List.length_nil]; omega), empty]
    rfl
  · have filled : 0 < (state.shown channel.name node).length := List.length_pos_iff.mpr empty
    have first := positive empty
    have newest : (state.shown channel.name node)[(state.shown channel.name node).length - 1]? =
        some ((state.shown channel.name node).getLast empty) := by
      rw [← List.getLast?_eq_getElem?, List.getLast?_eq_some_getLast empty]
    rw [if_neg (by omega), (read _ _).mpr ⟨filled, newest⟩,
      List.getLast?_eq_some_getLast empty]
    rfl

/-- `AppendMain` is refused, or appends a record keyed by its own index. -/
theorem append_main_spec (sound : state.Sound) (listed : state.main ∈ state.names)
    (known : state.index.Known node) {body : β} {extra : List (String × Nat)}
    {result : Except Fault Nat} (done : state.appendMain node body extra = (result, next)) :
    (∃ fault, result = .error fault ∧ next = state) ∨
      Appended state next state.main node ⟨(state.shown state.main node).length + 1, body,
        extra ++ state.unkeyedCursors node⟩ := by
  rcases channel_exists listed with ⟨main, found⟩
  have member := channel_mem found
  have name := channel_name found
  have last := sound.last_index member known
  rw [appendMain, found] at done
  rw [← name, ← last]
  cases wrote : state.withLog main node fun log parents cell => cell.write main state.maxLag log
      parents (state.lastIndex main node + 1)
      ⟨state.lastIndex main node + 1, body, extra ++ state.unkeyedCursors node⟩ with
  | mk answer written =>
    simp only [wrote] at done
    rcases write_spec sound member known wrote with ⟨err, failed, same⟩ | appended
    · subst failed
      cases done
      exact Or.inl ⟨_, rfl, same⟩
    · cases answer with
      | error err =>
        cases done
        exact Or.inr appended
      | ok _ =>
        cases done
        exact Or.inr appended

/-- `Append` to a related channel is refused, or appends a record that is keyed no
lower than the last one, or not at all. -/
theorem append_related_spec (sound : state.Sound) (known : state.index.Known node) {name : String}
    {mainLT : Nat} {body : β} {result : Except Fault Nat}
    (done : state.appendRelated node name mainLT body = (result, next)) :
    (∃ fault, result = .error fault ∧ next = state) ∨
      ∃ channel key, state.channel name = some channel ∧ name ≠ state.main ∧
        Appended state next name node ⟨key, body, []⟩ ∧
        (channel.unkeyed = true → key = 0) ∧
        (channel.unkeyed = false → key = mainLT ∧
          ∀ last ∈ (state.shown name node).getLast?, last.mainLT ≤ key) := by
  rw [appendRelated] at done
  cases found : state.channel name with
  | none =>
    rw [found] at done
    cases done
    exact Or.inl ⟨_, rfl, rfl⟩
  | some channel =>
    have member := channel_mem found
    have same := channel_name found
    simp only [found] at done
    by_cases isMain : name = state.main
    · rw [if_pos isMain] at done
      cases done
      exact Or.inl ⟨_, rfl, rfl⟩
    · rw [if_neg isMain] at done
      have record : ∀ {key : Nat}, state.appendRecord channel node key body = (result, next) →
          (∃ fault, result = .error fault ∧ next = state) ∨
            Appended state next name node ⟨key, body, []⟩ := by
        intro key tried
        rw [appendRecord] at tried
        cases wrote : state.withLog channel node fun log parents cell =>
            cell.write channel state.maxLag log parents (state.lastIndex channel node + 1)
              ⟨key, body, []⟩ with
        | mk answer written =>
          simp only [wrote] at tried
          rcases write_spec sound member known wrote with
            ⟨err, failed, unchanged⟩ | appended
          · subst failed
            cases tried
            exact Or.inl ⟨_, rfl, unchanged⟩
          · rw [same] at appended
            cases answer with
            | error err =>
              cases tried
              exact Or.inr appended
            | ok _ =>
              cases tried
              exact Or.inr appended
      cases keying : channel.unkeyed with
      | true =>
        rw [keying, if_pos rfl] at done
        refine (record done).imp id fun appended => ?_
        exact ⟨channel, 0, rfl, isMain, appended, fun _ => rfl, fun keyed =>
          absurd (keying.symm.trans keyed) (by decide)⟩
      | false =>
        have tail := sound.tail_main member known
        rw [keying, if_neg Bool.false_ne_true, tail, same] at done
        have keyed : state.appendRecord channel node mainLT body = (result, next) →
            (∀ last ∈ (state.shown name node).getLast?, last.mainLT ≤ mainLT) →
            (∃ fault, result = .error fault ∧ next = state) ∨
              ∃ other key, some channel = some other ∧ name ≠ state.main ∧
                Appended state next name node ⟨key, body, []⟩ ∧
                (other.unkeyed = true → key = 0) ∧
                (other.unkeyed = false → key = mainLT ∧
                  ∀ last ∈ (state.shown name node).getLast?, last.mainLT ≤ key) := by
          intro tried ascending
          refine (record tried).imp id fun appended => ?_
          exact ⟨channel, mainLT, rfl, isMain, appended, fun plain =>
            absurd (keying.symm.trans plain) (by decide), fun _ => ⟨rfl, ascending⟩⟩
        cases newest : (state.shown name node).getLast? with
        | none =>
          rw [newest] at done keyed
          exact keyed done nofun
        | some last =>
          rw [newest] at done keyed
          simp only [Option.map_some] at done
          by_cases low : mainLT < last.mainLT
          · rw [if_pos low] at done
            cases done
            exact Or.inl ⟨_, rfl, rfl⟩
          · rw [if_neg low] at done
            apply keyed done
            intro other isLast
            cases isLast
            omega

end Steps

end Trunks

end Figwal.Xwal
