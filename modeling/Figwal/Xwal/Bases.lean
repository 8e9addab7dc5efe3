import Figwal.Xwal.Flushing

/-!
# Where a fork starts

The bases `channelBases` computes, in terms of what the forked node shows. Main
starts right after the fork point. An unkeyed channel starts where the stamp says,
or at its tail. A keyed channel starts after its last record keyed at or below the
fork point. On a quiet node all of them lie within what is on disk.
-/

namespace Figwal.Xwal

open Figwal.Lib Figwal.Disk

set_option autoImplicit false

variable {β σ : Type}

/-- The longest part of a channel that ends with a record keyed at or below `mainLT`. -/
def keptThrough (mainLT : Nat) (records : List (Record β)) : Nat :=
  match lastMatch (fun record => record.mainLT ≤ mainLT) 1 records with
  | some (_, number) => number
  | none => 0

theorem kept_through_spec (mainLT : Nat) (records : List (Record β)) :
    ∃ kept rest, records = kept ++ rest ∧ keptThrough mainLT records = kept.length ∧
      (∀ record ∈ rest, mainLT < record.mainLT) ∧
      ∀ record ∈ kept.getLast?, record.mainLT ≤ mainLT := by
  unfold keptThrough
  cases found : lastMatch (fun record : Record β => record.mainLT ≤ mainLT) 1 records with
  | none =>
    refine ⟨[], records, rfl, rfl, fun record member => ?_, fun record none => nomatch none⟩
    have above := last_match_none found record member
    simpa using above
  | some entry =>
    rcases entry with ⟨record, number⟩
    rcases last_match_some found with ⟨before, after, split, place, low, high⟩
    refine ⟨before ++ [record], after, ?_, ?_, fun later member => ?_, fun last newest => ?_⟩
    · rw [split, List.append_assoc]
      rfl
    · rw [List.length_append, place, Nat.add_comm]
      rfl
    · simpa using high later member
    · rw [List.getLast?_concat] at newest
      cases newest
      simpa using low

theorem kept_through_le (mainLT : Nat) (records : List (Record β)) :
    keptThrough mainLT records ≤ records.length := by
  rcases kept_through_spec mainLT records with ⟨kept, rest, split, length, _⟩
  rw [length, split, List.length_append]
  omega

theorem kept_through_append {mainLT : Nat} {records more : List (Record β)}
    (above : ∀ record ∈ more, mainLT < record.mainLT) :
    keptThrough mainLT (records ++ more) = keptThrough mainLT records := by
  induction more using List.reverseRecOn with
  | nil => rw [List.append_nil]
  | append_singleton rest newest ih =>
    have high := above newest (by simp)
    unfold keptThrough at ih ⊢
    rw [← List.append_assoc, last_match_snoc, if_neg (by simpa using high)]
    exact ih fun record member => above record (List.mem_append_left _ member)

namespace Trunks

section Lookup

variable {state : Trunks β σ} {channel : Channel β σ} {node : String}

theorem Sound.lookup (sound : state.Sound) (member : channel ∈ state.channels)
    (known : state.index.Known node) {log : Log (Record β) σ}
    {parents : List (Log (Record β) σ)}
    (opened : state.logs channel node = .ok (log :: parents)) (mainLT : Nat) :
    ∃ found, (state.cells channel.name node).lookupAtOrBelow channel (log :: parents)
        ((state.cells channel.name node).lastIndex log) mainLT = .ok found ∧
      found.getD 0 = keptThrough mainLT (state.shown channel.name node) := by
  rcases sound.logs member known with ⟨other, above, again, opens, chained, same⟩
  have isLogs := again.symm.trans opened
  cases isLogs
  have scan := (sound.usable (name_mem member) known).scan_from_end opens chained
  rw [same, ← shown_eq] at scan
  have taken := (sound.faithful channel member).decodes
  unfold Cell.lookupAtOrBelow
  simp only [scan, ← List.map_reverse, List.find?_map, Channel.decode, taken, if_true,
    Bool.not_true, Bool.false_or]
  unfold keptThrough lastMatch
  cases matched : ((state.shown channel.name node).zipIdx 1).reverse.find?
      (fun entry => decide (entry.1.mainLT ≤ mainLT)) with
  | none =>
    have missing : ((state.shown channel.name node).zipIdx 1).reverse.find?
        ((fun entry : Nat × Record β => decide (entry.2.mainLT ≤ mainLT)) ∘ Prod.swap) = none :=
      matched
    exact ⟨none, by rw [missing]; rfl, rfl⟩
  | some entry =>
    have present : ((state.shown channel.name node).zipIdx 1).reverse.find?
        ((fun entry : Nat × Record β => decide (entry.2.mainLT ≤ mainLT)) ∘ Prod.swap) =
        some entry := matched
    exact ⟨some entry.2, by rw [present]; rfl, rfl⟩

theorem Sound.channel_base (sound : state.Sound) (member : channel ∈ state.channels)
    (known : state.index.Known node) {tailFork : Bool} {mainLT base : Nat}
    (done : state.channelBase node tailFork mainLT channel = .ok base) :
    1 ≤ base ∧ (channel.name = state.main → base = mainLT + 1) ∧
      (channel.name ≠ state.main → channel.unkeyed = true → tailFork = true →
        base = (state.shown channel.name node).length + 1) ∧
      (channel.name ≠ state.main → channel.unkeyed = true → tailFork = false →
        ∃ cursor, state.cursorAt node mainLT channel.name = .ok cursor ∧
          base = min cursor (state.shown channel.name node).length + 1) ∧
      (channel.name ≠ state.main → channel.unkeyed = false →
        base = keptThrough mainLT (state.shown channel.name node) + 1) := by
  rcases sound.logs member known with ⟨log, parents, opened, opens, chained, _⟩
  have last : (state.cells channel.name node).lastIndex log =
      (state.shown channel.name node).length := by
    rw [← sound.last_index member known, lastIndex, opened]
  have first := ((sound.usable (name_mem member) known).first_index opens chained).1
  rw [channelBase, opened] at done
  simp only [last] at done
  by_cases isMain : channel.name = state.main
  · rw [if_pos isMain] at done
    cases done
    refine ⟨by omega, fun _ => by omega, fun related => absurd isMain related,
      fun related => absurd isMain related, fun related => absurd isMain related⟩
  · rw [if_neg isMain] at done
    cases keying : channel.unkeyed with
    | true =>
      rw [keying, if_pos rfl] at done
      cases tailFork with
      | true =>
        cases done
        refine ⟨by omega, fun main => absurd main isMain, fun _ _ _ => ?_,
          fun _ _ interior => absurd interior (by decide), fun _ keyed => absurd keyed (by decide)⟩
        omega
      | false =>
        rw [if_neg Bool.false_ne_true] at done
        cases stamp : state.cursorAt node mainLT channel.name with
        | error fault =>
          rw [stamp] at done
          cases done
        | ok cursor =>
          rw [stamp] at done
          cases done
          refine ⟨by omega, fun main => absurd main isMain,
            fun _ _ tail => absurd tail (by decide), fun _ _ _ => ?_,
            fun _ keyed => absurd keyed (by decide)⟩
          exact ⟨cursor, rfl, by omega⟩
    | false =>
      rw [keying, if_neg Bool.false_ne_true] at done
      rcases sound.lookup member known opened mainLT with ⟨found, looked, kept⟩
      have short := kept_through_le mainLT (state.shown channel.name node)
      rw [last] at looked
      simp only [looked, kept] at done
      cases done
      refine ⟨by omega, fun main => absurd main isMain,
        fun _ plain => absurd plain (by decide), fun _ plain => absurd plain (by decide),
        fun _ _ => ?_⟩
      omega

theorem Sound.base_fits (sound : state.Sound) (quiet : state.Quiet node)
    (plain : ∀ channel ∈ state.channels, channel.unkeyed = true → channel.name ≠ state.main →
      ∀ record ∈ (state.cells channel.name node).waiting, record.mainLT = 0)
    (member : channel ∈ state.channels) (known : state.index.Known node) {tailFork : Bool}
    {mainLT base : Nat} (inside : mainLT ≤ (state.settled state.main node).length)
    (done : state.channelBase node tailFork mainLT channel = .ok base) :
    base ≤ (state.settled channel.name node).length + 1 := by
  rcases sound.channel_base member known done with ⟨_, atMain, atTail, stamped, keyed⟩
  by_cases isMain : channel.name = state.main
  · rw [atMain isMain, isMain]
    omega
  · cases keying : channel.unkeyed with
    | true =>
      have empty : (state.cells channel.name node).waiting = [] := by
        apply List.eq_nil_iff_forall_not_mem.mpr
        intro record waits
        have high := quiet.related channel member isMain record waits
        rw [plain channel member keying isMain record waits] at high
        omega
      have same : state.shown channel.name node = state.settled channel.name node := by
        rw [shown_eq, empty, List.append_nil]
      rw [same] at atTail stamped
      cases tailFork with
      | true =>
        rw [atTail isMain keying rfl]
      | false =>
        rcases stamped isMain keying rfl with ⟨cursor, _, place⟩
        omega
    | false =>
      have above : ∀ record ∈ (state.cells channel.name node).waiting,
          mainLT < record.mainLT := by
        intro record waits
        have high := quiet.related channel member isMain record waits
        unfold reach at high
        split_ifs at high <;> omega
      rw [keyed isMain keying, shown_eq, kept_through_append above]
      exact Nat.succ_le_succ (kept_through_le _ _)

end Lookup

end Trunks

end Figwal.Xwal
