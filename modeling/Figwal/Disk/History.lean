import Mathlib.Data.List.TakeWhile
import Figwal.Lib.Splice
import Figwal.Disk.Open

/-!
# What a handle shows

A handle and its ancestors show one history, numbered from 1: each log borrows
the part below its base from the history above it. `visible` is that history.
`Read`, `LastIndex`, `FirstIndex` and `Range` are shown to agree with it.
-/

namespace Figwal.Disk

open Figwal.Lib List

set_option autoImplicit false

variable {α σ : Type} {logs parents : List (Log α σ)} {log : Log α σ} {first : Nat}

def visible : List (Log α σ) → List α
  | [] => []
  | log :: parents => splice log.firstWritable (visible parents) log.own

/-- Every log of the chain is tidy and starts no later than its parent's end. -/
def Chained : List (Log α σ) → Prop
  | [] => True
  | log :: parents =>
    log.Tidy ∧ log.firstWritable ≤ (visible parents).length + 1 ∧ Chained parents

/-- Items `start` and later of a history numbered from 1, with their numbers. -/
def listing (history : List α) (start : Nat) : List (Nat × α) :=
  ((history.drop (start - 1)).zipIdx (max start 1)).map Prod.swap

theorem first_writable_of_le (low : log.firstWritable ≤ 1) :
    log.firstWritable = 1 ∧ log.forkBase ≤ 1 := by
  have positive := Log.first_writable_pos log
  have base := Log.fork_base_le_first_writable log
  omega

theorem visible_length (chained : Chained (log :: parents)) :
    (visible (log :: parents)).length + 1 = log.firstWritable + log.own.length :=
  splice_length (Log.first_writable_pos log) chained.2.1

theorem read_visible (chained : Chained logs) (idx : Nat) (payload : α) :
    read logs idx = .ok payload ↔ 1 ≤ idx ∧ (visible logs)[idx - 1]? = some payload := by
  induction logs with
  | nil => simp [read, visible]
  | cons log parents ih =>
    obtain ⟨tidy, fits, upper⟩ := chained
    have positive := Log.first_writable_pos log
    rw [LogOp.read_ok_iff tidy.numbered, visible]
    by_cases own : log.firstWritable ≤ idx
    · have base := Log.fork_base_le_first_writable log
      rw [if_neg (by omega), splice_get_own positive fits own]
      have counted : 1 ≤ idx := Nat.le_trans positive own
      simp [own, counted]
    · by_cases fork : 0 < log.forkBase
      · have same : log.firstWritable = log.forkBase := by
          simp [Log.firstWritable, firstWritableAt, fork]
        by_cases root : parents = []
        · subst root
          have low := (first_writable_of_le fits).1
          have none : idx = 0 := by omega
          simp [none, low]
        · rw [if_pos ⟨root, by omega⟩, ih upper]
          constructor
          · rintro ⟨counted, held⟩
            rw [splice_get_borrowed fits counted (by omega)]
            exact ⟨counted, held⟩
          · rintro ⟨counted, held⟩
            rw [splice_get_borrowed fits counted (by omega)] at held
            exact ⟨counted, held⟩
      · have first : log.firstWritable = 1 := by
          simp [Log.firstWritable, firstWritableAt, fork]
        have none : idx = 0 := by omega
        have root : log.forkBase = 0 := by omega
        simp [none, first, root]

theorem last_index_visible (chained : Chained (log :: parents)) :
    log.lastIndex = (visible (log :: parents)).length := by
  have last := Log.last_index_eq chained.1.numbered
  have length := visible_length chained
  omega

theorem Log.first_index_locked_eq (numbered : log.NumberedFrom first) :
    log.firstIndexLocked = if log.own = [] then 0 else first := by
  unfold Log.firstIndexLocked
  cases sealed : log.sealed with
  | cons head rest =>
    have chain := numbered.chain
    rw [Log.sealedSegs, sealed] at chain
    have occupied : log.own ≠ [] := fun none => by
      have parts := (Log.own_eq_nil_iff numbered).mp none
      rw [sealed] at parts
      cases parts.1
    simpa [occupied] using chain.1
  | nil =>
    cases active : log.active with
    | none =>
      have none : log.own = [] := by
        simp [Log.own, Log.sealedSegs, sealed, Log.activePayloads, active]
      simp [none]
    | some segment =>
      have base := numbered.tail segment active
      have held : log.own = segment.payloads := by
        simp [Log.own, Log.sealedSegs, sealed, Log.activePayloads, active]
      have start : segment.baseIndex = first := by
        simpa [Log.sealedSegs, sealed] using base
      simp only [held, Segment.count, length_pos_iff, start]
      by_cases empty : segment.payloads = [] <;> simp [empty]

/-- `FirstIndex` is 1 wherever a record is visible. It may also be 1 without one:
a fork based at 1 answers with its parent's first index. -/
theorem first_index_visible (chained : Chained logs) :
    firstIndex logs ≤ 1 ∧ (visible logs ≠ [] → firstIndex logs = 1) := by
  induction logs with
  | nil => exact ⟨Nat.zero_le _, fun some => absurd rfl some⟩
  | cons log parents ih =>
    obtain ⟨tidy, fits, upper⟩ := chained
    obtain ⟨low, shown⟩ := ih upper
    rw [firstIndex]
    by_cases above : 0 < firstIndex parents
    · rw [if_pos above]
      exact ⟨low, fun _ => by omega⟩
    · have none : visible parents = [] := by
        by_contra some
        have one := shown some
        omega
      rw [none] at fits
      have first := (first_writable_of_le fits).1
      rw [if_neg above, Log.first_index_locked_eq tidy.numbered, visible, none, first]
      by_cases idle : log.own = [] <;> simp [splice, idle]

/-- The loop of `Range` shows exactly the records from `cur` on and ends. -/
theorem Log.range_loop_spec {last : Nat} (numbered : log.NumberedFrom first)
    (ends : last + 1 = first + log.own.length) (fuel cur : Nat) (some : 0 < fuel)
    (enough : last + 2 ≤ cur + fuel) (low : first ≤ cur) : log.rangeLoop last fuel cur =
      ⟨((log.own.drop (cur - first)).zipIdx cur).map Prod.swap, .done⟩ := by
  induction fuel generalizing cur with
  | zero => exact absurd some (Nat.lt_irrefl 0)
  | succ fuel ih =>
    rw [Log.rangeLoop]
    by_cases live : cur ≤ last
    · rw [if_pos live]
      cases found : log.findSegment cur with
      | none =>
        have outside := Log.find_segment_none numbered found
        omega
      | some segment =>
        obtain ⟨base, bound, before, after, split, start⟩ :=
          Log.find_segment_some numbered found
        have length : log.own.length =
            before.length + segment.payloads.length + after.length := by
          rw [split, length_append, length_append]
        have segEnd : min segment.lastIndex last =
            segment.baseIndex + segment.payloads.length - 1 := by
          rw [Segment.lastIndex, Segment.count]
          omega
        have here : (log.own.drop (cur - first)) =
            segment.payloads.drop (cur - segment.baseIndex) ++ after := by
          rw [split, append_assoc, drop_append, drop_of_length_le (by omega),
            nil_append, drop_append_of_le_length (by omega)]
          congr 2
          omega
        have later : log.own.drop (segment.baseIndex + segment.payloads.length - first) =
            after := by
          rw [split, drop_append, drop_of_length_le (by
            rw [length_append]
            omega), nil_append, length_append]
          have whole : segment.baseIndex + segment.payloads.length - first -
              (before.length + segment.payloads.length) = 0 := by omega
          rw [whole, drop_zero]
        have next : segment.baseIndex + segment.payloads.length - 1 + 1 =
            segment.baseIndex + segment.payloads.length := by omega
        have rest := ih (segment.baseIndex + segment.payloads.length)
          (by omega) (by omega) (by omega)
        simp only [segEnd, next, rest, later, here, Segment.items]
        have all : (segment.payloads.drop (cur - segment.baseIndex)).take
            (segment.baseIndex + segment.payloads.length - cur) =
            segment.payloads.drop (cur - segment.baseIndex) := by
          rw [take_of_length_le]
          rw [length_drop]
          omega
        rw [all, zipIdx_append, map_append, length_drop]
        congr 4
        omega
    · have none : log.own.drop (cur - first) = [] := drop_of_length_le (by omega)
      rw [if_neg live, none]
      rfl

theorem Log.range_own_spec (numbered : log.NumberedFrom first) (start : Nat) : log.rangeOwn start =
      ⟨((log.own.drop (start - first)).zipIdx (max start first)).map Prod.swap, .done⟩ := by
  unfold Log.rangeOwn
  split_ifs with idle
  · simp [(Log.is_empty_iff numbered).mp idle]
  · have occupied : log.own ≠ [] := fun none => idle ((Log.is_empty_iff numbered).mpr none)
    have last : log.lastIndexLocked + 1 = first + log.own.length := by
      have next := Log.expected_eq numbered
      rwa [Log.expected, if_neg idle] at next
    rw [Log.first_index_locked_eq numbered, if_neg occupied]
    rw [Log.range_loop_spec numbered last _ _ (Nat.succ_pos _) (by omega)
      (Nat.le_max_right _ _)]
    congr 4
    omega

theorem listing_take_while (items : List α) (start bound : Nat) :
    ((items.zipIdx start).map Prod.swap).takeWhile (fun item => item.1 < bound) =
      ((items.take (bound - start)).zipIdx start).map Prod.swap := by
  induction items generalizing start with
  | nil => simp
  | cons item rest ih =>
    by_cases below : start < bound
    · have more : bound - start = bound - (start + 1) + 1 := by omega
      simp [below, ih, more]
    · have none : bound - start = 0 := by omega
      simp [below, none]

theorem cut_at_done (bound : Nat) (seen : List (Nat × α)) :
    (Scan.mk seen .done).cutAt bound =
      ⟨seen.takeWhile fun item => item.1 < bound, .done⟩ := by
  unfold Scan.cutAt
  split_ifs with all
  · rw [takeWhile_eq_self_iff.mpr]
    intro item member
    simpa using all_eq_true.mp all item member
  · rfl

theorem range_visible (chained : Chained logs) (start : Nat) :
    range logs start = ⟨listing (visible logs) start, .done⟩ := by
  induction logs generalizing start with
  | nil => simp [range, visible, listing]
  | cons log parents ih =>
    obtain ⟨tidy, fits, upper⟩ := chained
    have positive := Log.first_writable_pos log
    rw [range, visible]
    by_cases inherited : parents ≠ [] ∧ start < log.forkBase
    · have base : log.firstWritable = log.forkBase := by
        simp only [Log.firstWritable, firstWritableAt]
        rw [if_pos (by omega)]
      have own := Log.range_own_spec tidy.numbered log.forkBase
      rw [base, Nat.sub_self, drop_zero, Nat.max_self] at own
      rw [if_pos inherited, ih upper]
      simp only [cut_at_done, own, listing, listing_take_while]
      have borrowed : ((visible parents).drop (start - 1)).take
          (log.forkBase - max start 1) =
          ((visible parents).take (log.forkBase - 1)).drop (start - 1) := by
        rw [drop_take]
        congr 1
        omega
      have length : ((visible parents).take (log.forkBase - 1)).length = log.forkBase - 1 := by
        rw [length_take]
        omega
      rw [borrowed, splice, base, drop_append_of_le_length (by omega), zipIdx_append,
        map_append, length_drop, length]
      congr 4
      omega
    · rw [if_neg inherited, Log.range_own_spec tidy.numbered, listing, splice]
      by_cases first : log.firstWritable = 1
      · rw [first, Nat.sub_self, take_zero, nil_append]
      · have fork : 0 < log.forkBase := by
          by_contra root
          exact first (by simp [Log.firstWritable, firstWritableAt, root])
        have base : log.firstWritable = log.forkBase := by
          simp [Log.firstWritable, firstWritableAt, fork]
        have nested : parents ≠ [] := by
          rintro rfl
          exact first (first_writable_of_le fits).1
        have above : log.firstWritable ≤ start := by
          by_contra below
          exact inherited ⟨nested, by omega⟩
        have length : ((visible parents).take (log.firstWritable - 1)).length =
            log.firstWritable - 1 := by
          rw [length_take]
          omega
        have past : ((visible parents).take (log.firstWritable - 1) ++ log.own).drop
            (start - 1) = log.own.drop (start - log.firstWritable) := by
          rw [drop_append, drop_of_length_le (by omega), nil_append, length]
          congr 1
          omega
        rw [past, Nat.max_eq_left above, Nat.max_eq_left (by omega)]

end Figwal.Disk
