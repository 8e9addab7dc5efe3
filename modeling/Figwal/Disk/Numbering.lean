import Figwal.Disk.Log

/-!
# Index numbering of one log

`Write` computes the index it expects in three different ways, while the record
it appends is numbered by the base of the active segment. `NumberedFrom` is the
invariant under which the two agree: the log's own records are `own`, they are
numbered consecutively from `first`, and a log without records starts where an
empty log would.
-/

namespace Figwal.Disk

open Figwal.Lib List

set_option autoImplicit false

variable {α σ : Type}

namespace Log

def sealedSegs (log : Log α σ) : List (Segment α σ) :=
  log.sealed.map Sealed.seg

def activePayloads (log : Log α σ) : List α :=
  match log.active with
  | none => []
  | some segment => segment.payloads

def own (log : Log α σ) : List α :=
  joined Segment.payloads log.sealedSegs ++ log.activePayloads

structure NumberedFrom (first : Nat) (log : Log α σ) : Prop where
  positive : 1 ≤ first
  ranges : ∀ entry ∈ log.sealed,
    entry.last + 1 = entry.seg.baseIndex + entry.seg.count
  chain : Consecutive Segment.baseIndex Segment.payloads first log.sealedSegs
  tail : ∀ segment, log.active = some segment →
    segment.baseIndex = first + (joined Segment.payloads log.sealedSegs).length
  fresh : log.own = [] → first = log.firstWritable
  covers : log.forkBase ≤ first + log.own.length

theorem active_count_eq (log : Log α σ) :
    log.activeCount = log.activePayloads.length := by
  unfold activeCount activePayloads
  cases log.active <;> rfl

theorem sealed_segs_eq_nil (log : Log α σ) : log.sealedSegs = [] ↔ log.sealed = [] := by
  simp [sealedSegs]

section Numbered

variable {first : Nat} {log : Log α σ} {idx : Nat} {segment : Segment α σ}

section

variable (numbered : NumberedFrom first log)

include numbered

theorem filled_of_sealed (member : segment ∈ log.sealedSegs) : segment.payloads ≠ [] := by
  rcases consecutive_split _ _ numbered.chain member with ⟨_, _, _, _, filled⟩
  exact filled

theorem own_eq_nil_iff : log.own = [] ↔ log.sealed = [] ∧ log.activePayloads = [] := by
  constructor
  · intro none
    have parts := append_eq_nil_iff.mp none
    refine ⟨?_, parts.2⟩
    by_contra some
    exact joined_ne_nil_of_consecutive _ _ numbered.chain
      (fun absent => some ((sealed_segs_eq_nil log).mp absent)) parts.1
  · rintro ⟨unsealed, idle⟩
    simp [own, sealedSegs, unsealed, idle]

theorem is_empty_iff : log.isEmpty = true ↔ log.own = [] := by
  rw [own_eq_nil_iff numbered, isEmpty, Bool.and_eq_true, List.isEmpty_iff,
    beq_iff_eq, active_count_eq, List.length_eq_zero_iff]

theorem sealed_last_eq (some : log.sealed ≠ []) :
    log.sealedLast + 1 = first + (joined Segment.payloads log.sealedSegs).length := by
  obtain ⟨before, newest, split⟩ :=
    (eq_nil_or_concat' log.sealed).resolve_left some
  have chain := numbered.chain
  have range := numbered.ranges newest (by simp [split])
  simp only [sealedSegs, split, map_append, map_cons, map_nil,
    consecutive_append, Consecutive] at chain
  have base := chain.2.1
  simp only [sealedLast, split, getLast?_append, getLast?_singleton,
    sealedSegs, map_append, map_cons, map_nil, joined_append,
    joined_cons, joined_nil, length_append, append_nil, Option.some_or]
  simp only [Segment.count] at range
  omega

theorem expected_eq : log.expected = first + log.own.length := by
  unfold expected
  split_ifs with idle
  · have none := (is_empty_iff numbered).mp idle
    rw [none, ← numbered.fresh none]
    rfl
  · have occupied : log.own ≠ [] := fun none => idle ((is_empty_iff numbered).mpr none)
    unfold lastIndexLocked
    cases running : log.active with
    | none =>
      have noActive : log.activePayloads = [] := by simp [activePayloads, running]
      have some : log.sealed ≠ [] := fun none =>
        occupied ((own_eq_nil_iff numbered).mpr ⟨none, noActive⟩)
      simp only [own, noActive, append_nil]
      exact sealed_last_eq numbered some
    | some segment =>
      have base := numbered.tail segment running
      have active : log.activePayloads = segment.payloads := by
        simp [activePayloads, running]
      simp only [own, active, length_append]
      split_ifs with filled
      · simp only [Segment.lastIndex, Segment.count] at filled ⊢
        omega
      · have noActive : segment.payloads = [] := by
          simpa [Segment.count] using filled
        have some : log.sealed ≠ [] := fun none =>
          occupied ((own_eq_nil_iff numbered).mpr ⟨none, active.trans noActive⟩)
        have sealed := sealed_last_eq numbered some
        simp only [noActive, length_nil]
        omega

theorem last_index_eq : log.lastIndex + 1 = first + log.own.length := by
  have next := expected_eq numbered
  have positive := numbered.positive
  unfold expected at next
  unfold lastIndex
  by_cases idle : log.isEmpty = true
  · rw [if_pos idle] at next
    have none := (is_empty_iff numbered).mp idle
    have parts := (own_eq_nil_iff numbered).mp none
    have noLast : log.lastIndexLocked = 0 := by
      have noSealed : log.sealedLast = 0 := by simp [sealedLast, parts.1]
      unfold lastIndexLocked
      cases running : log.active with
      | none => exact noSealed
      | some segment =>
        have noPayloads : segment.payloads = [] := by
          simpa [activePayloads, running] using parts.2
        simp [Segment.count, noPayloads, noSealed]
    rw [if_neg (by omega)]
    unfold firstWritable firstWritableAt at next
    split_ifs at next ⊢ <;> omega
  · rw [if_neg idle] at next
    have occupied : log.own ≠ [] := fun none => idle ((is_empty_iff numbered).mpr none)
    have length : 0 < log.own.length := length_pos_iff.mpr occupied
    rw [if_pos (by omega)]
    exact next

theorem sealed_lasts_sorted : (log.sealed.map Sealed.last).Pairwise (· ≤ ·) := by
  rw [pairwise_map]
  have apart := consecutive_pairwise _ _ numbered.chain
  rw [sealedSegs, pairwise_map] at apart
  refine List.Pairwise.imp_of_mem ?_ apart
  intro early late early_mem late_mem gap
  have earlyRange := numbered.ranges early early_mem
  have lateRange := numbered.ranges late late_mem
  obtain ⟨_, _, _, _, filled⟩ := consecutive_split _ _ numbered.chain
    (mem_map_of_mem late_mem : late.seg ∈ log.sealedSegs)
  have length := length_pos_iff.mpr filled
  simp only [Segment.count] at earlyRange lateRange
  omega

/-- The binary search over recorded ends finds exactly the covering segment. -/
theorem sealed_for_of_mem {entry : Sealed α σ} (member : entry ∈ log.sealed)
    (low : entry.seg.baseIndex ≤ idx) (high : idx ≤ entry.last) :
    log.sealedFor idx = some entry := by
  obtain ⟨bound, below, above⟩ :=
    search_spec (log.sealed.map Sealed.last) idx (sealed_lasts_sorted numbered)
  obtain ⟨position, inside, found⟩ := mem_iff_getElem.mp member
  have ends : ∀ j (valid : j < log.sealed.length),
      (log.sealed.map Sealed.last).getD j 0 = (log.sealed[j]).last := by
    intro j valid
    rw [List.getD_eq_getElem _ _ (by simpa using valid), List.getElem_map]
  have atLeast : search (log.sealed.map Sealed.last) idx ≤ position := by
    by_contra later
    have short := below position (by omega)
    rw [ends position inside, found] at short
    omega
  have exact_position : search (log.sealed.map Sealed.last) idx = position := by
    by_contra different
    have earlier : search (log.sealed.map Sealed.last) idx < position := by omega
    have reach := above _ (Nat.le_refl _) (by simpa using Nat.lt_trans earlier inside)
    rw [ends _ (Nat.lt_trans earlier inside)] at reach
    have apart := consecutive_pairwise _ _ numbered.chain
    rw [sealedSegs, pairwise_map] at apart
    have gap := pairwise_iff_getElem.mp apart _ _
      (Nat.lt_trans earlier inside) inside earlier
    have range := numbered.ranges _ (getElem_mem (Nat.lt_trans earlier inside))
    simp only [Segment.count, found] at gap range
    omega
  unfold sealedFor searchSealed
  rw [exact_position, getElem?_eq_getElem inside, found]
  simp [low]

theorem sealed_for_mem {entry : Sealed α σ} (found : log.sealedFor idx = some entry) :
    entry ∈ log.sealed ∧ entry.seg.baseIndex ≤ idx ∧ idx ≤ entry.last := by
  obtain ⟨bound, below, above⟩ :=
    search_spec (log.sealed.map Sealed.last) idx (sealed_lasts_sorted numbered)
  unfold sealedFor searchSealed at found
  split at found
  · rename_i candidate at_search
    split_ifs at found with low
    cases found
    obtain ⟨inside, value⟩ := List.getElem?_eq_some_iff.mp at_search
    have reach := above _ (Nat.le_refl _) (by simpa using inside)
    rw [List.getD_eq_getElem _ _ (by simpa using inside), List.getElem_map, value] at reach
    exact ⟨value ▸ getElem_mem inside, low, reach⟩
  · cases found

/-- The segment a lookup returns covers the index, and its payloads are the part
of the log's records that its base says. -/
theorem find_segment_some (found : log.findSegment idx = some segment) :
    segment.baseIndex ≤ idx ∧ idx < segment.baseIndex + segment.payloads.length ∧
      ∃ before after, log.own = before ++ segment.payloads ++ after ∧
        segment.baseIndex = first + before.length := by
  unfold findSegment at found
  split at found
  · rename_i entry inSealed
    cases found
    obtain ⟨member, low, high⟩ := sealed_for_mem numbered inSealed
    have range := numbered.ranges entry member
    simp only [Segment.count] at range
    obtain ⟨before, after, split, base, _⟩ := consecutive_split _ _ numbered.chain
      (mem_map_of_mem member : entry.seg ∈ log.sealedSegs)
    refine ⟨low, by omega, before, after ++ log.activePayloads, ?_, base⟩
    rw [own, split]
    simp only [append_assoc]
  · split at found
    · rename_i running active
      split_ifs at found with covers
      cases found
      simp only [Segment.lastIndex, Segment.count] at covers
      refine ⟨covers.2.1, by omega, joined Segment.payloads log.sealedSegs, [], ?_,
        numbered.tail segment active⟩
      simp [own, activePayloads, active]
    · cases found

theorem find_segment_mem (found : log.findSegment idx = some segment) :
    segment ∈ log.sealedSegs ++ log.active.toList := by
  unfold findSegment at found
  split at found
  · rename_i entry inSealed
    cases found
    rcases sealed_for_mem numbered inSealed with ⟨member, _⟩
    exact mem_append_left _ (mem_map_of_mem member)
  · split at found
    · rename_i running active
      split_ifs at found
      cases found
      simp [active]
    · cases found

theorem find_segment_none (missing : log.findSegment idx = none) :
    idx < first ∨ first + log.own.length ≤ idx := by
  by_contra inside
  rw [not_or, Nat.not_lt, Nat.not_le] at inside
  obtain ⟨low, high⟩ := inside
  by_cases old : idx < first + (joined Segment.payloads log.sealedSegs).length
  · obtain ⟨segment, member, base, bound⟩ :=
      exists_block_of_covered _ _ numbered.chain low old
    obtain ⟨entry, entry_mem, rfl⟩ := mem_map.mp member
    have range := numbered.ranges entry entry_mem
    simp only [Segment.count] at range
    have routed := sealed_for_of_mem numbered entry_mem base (by omega)
    simp [findSegment, routed] at missing
  · rw [own, length_append] at high
    unfold findSegment at missing
    split at missing
    · cases missing
    · cases active : log.active with
      | none =>
        simp only [activePayloads, active, length_nil] at high
        omega
      | some segment =>
        have base := numbered.tail segment active
        simp only [activePayloads, active] at high
        rw [active] at missing
        simp only at missing
        split_ifs at missing with covers
        simp only [Segment.lastIndex, Segment.count] at covers
        omega

theorem read_own_ok_iff (idx : Nat) (payload : α) :
    log.readOwn idx = .ok payload ↔
      first ≤ idx ∧ log.own[idx - first]? = some payload := by
  unfold readOwn
  split_ifs with idle
  · have none := (is_empty_iff numbered).mp idle
    simp [none]
  · cases found : log.findSegment idx with
    | none =>
      have outside := find_segment_none numbered found
      constructor
      · intro impossible
        cases impossible
      · rintro ⟨low, value⟩
        have bound := (List.getElem?_eq_some_iff.mp value).1
        omega
    | some segment =>
      obtain ⟨base, bound, before, after, split, start⟩ := find_segment_some numbered found
      have value : log.own[idx - first]? = segment.payloads[idx - segment.baseIndex]? := by
        rw [split, getElem?_append_left (by rw [length_append]; omega),
          getElem?_append_right (by omega)]
        congr 1
        omega
      have low : first ≤ idx := by omega
      simp only [Segment.readIndex, value]
      cases segment.payloads[idx - segment.baseIndex]? with
      | none => simp
      | some held => simp [low]

end

end Numbered

end Log

end Figwal.Disk
