import Figwal.Disk.ScanReverse

/-!
# What a handle serves

A handle without holes shows one list of records, numbered from its start, whichever way it
is read. The start is 1 for a log that was never truncated; a root that lost its front
starts later, and so do the forks of that root. Writes extend the list and keep its start.
-/

namespace Figwal.Disk

open Figwal.Lib List

set_option autoImplicit false

variable {α σ : Type}

/-- Every way of reading shows the records `items`, counted from `start`. -/
structure Serves (logs : List (Log α σ)) (start : Nat) (items : List α) : Prop where
  positive : 1 ≤ start
  read : ∀ idx payload, Disk.read logs idx = .ok payload ↔
    start ≤ idx ∧ items[idx - start]? = some payload
  range : ∀ lowest, Disk.range logs lowest =
    ⟨(numbered start items).filter fun item => lowest ≤ item.1, .done⟩
  scan : ∀ highest, scanFromEnd logs highest =
    ⟨((numbered start items).filter fun item => item.1 ≤ highest).reverse, .done⟩
  first : firstIndex logs = 0 ∨ firstIndex logs = start
  shown : items ≠ [] → firstIndex logs = start

/-- A chain without holes: every log is numbered from where it takes over, and its parent
reaches that far. Only the root may have lost its front. -/
inductive Whole : List (Log α σ) → Nat → List α → Prop
  | root {log : Log α σ} {start : Nat} (numbered : log.NumberedFrom start) :
      Whole [log] start log.own
  | fork {log : Log α σ} {parents : List (Log α σ)} {start : Nat} {upper : List α}
      (above : Whole parents start upper) (numbered : log.NumberedFrom log.firstWritable)
      (low : start ≤ log.firstWritable) (fits : log.firstWritable ≤ start + upper.length) :
      Whole (log :: parents) start (upper.take (log.firstWritable - start) ++ log.own)

section Lists

theorem numbered_append (first : Nat) (early late : List α) :
    numbered first (early ++ late) =
      numbered first early ++ numbered (first + early.length) late := by
  rw [numbered, zipIdx_append, map_append]
  rfl

theorem numbered_below {first bound : Nat} (items : List α) (positive : 1 ≤ first)
    (low : first ≤ bound) :
    numbered first (items.take (bound - first)) =
      (numbered first items).filter fun item => item.1 < bound := by
  have taken := numbered_take first (bound - 1) items
  have same : bound - 1 + 1 = bound := by omega
  rw [same] at taken
  rw [numbered, taken]
  apply filter_congr
  intro item _
  rw [decide_eq_decide]
  omega

theorem mem_numbered {first : Nat} {items : List α} {item : Nat × α} :
    item ∈ numbered first items ↔ first ≤ item.1 ∧ items[item.1 - first]? = some item.2 := by
  rw [numbered, mem_map]
  constructor
  · rintro ⟨⟨payload, idx⟩, inside, rfl⟩
    exact mk_mem_zipIdx_iff_le_and_getElem?_sub.mp inside
  · intro both
    exact ⟨(item.2, item.1), mk_mem_zipIdx_iff_le_and_getElem?_sub.mpr both, rfl⟩

end Lists

section Roots

variable {log : Log α σ} {start : Nat}

theorem Log.NumberedFrom.dense (numbered : log.NumberedFrom start) : log.Dense start where
  positive := numbered.positive
  ranges := numbered.ranges
  chain := numbered.chain
  tail := numbered.tail

theorem serves_root (numbered : log.NumberedFrom start) : Serves [log] start log.own where
  positive := numbered.positive
  read := Log.read_own_ok_iff numbered
  range := numbered.dense.range_own
  scan := by
    intro highest
    rw [scanFromEnd, if_neg (fun inherited => inherited.1 rfl), numbered.dense.scan_own]
    rfl
  first := by
    rw [firstIndex, firstIndex, if_neg (Nat.lt_irrefl 0), Log.first_index_locked_eq numbered]
    split_ifs
    · exact Or.inl rfl
    · exact Or.inr rfl
  shown := by
    intro held
    rw [firstIndex, firstIndex, if_neg (Nat.lt_irrefl 0), Log.first_index_locked_eq numbered,
      if_neg held]

end Roots

section Forks

variable {log : Log α σ} {parents : List (Log α σ)} {start : Nat} {upper : List α}

theorem Log.first_writable_of_base (log : Log α σ) :
    log.firstWritable = log.forkBase ∨ log.forkBase = 0 ∧ log.firstWritable = 1 := by
  rw [Log.firstWritable, firstWritableAt]
  split_ifs with based
  · exact Or.inl rfl
  · exact Or.inr ⟨by omega, rfl⟩

theorem numbered_fork (positive : 1 ≤ start) (low : start ≤ log.firstWritable)
    (fits : log.firstWritable ≤ start + upper.length) :
    numbered start (upper.take (log.firstWritable - start) ++ log.own) =
      (numbered start upper).filter (fun item => item.1 < log.firstWritable) ++
        numbered log.firstWritable log.own := by
  have borrowed : start + (upper.take (log.firstWritable - start)).length = log.firstWritable := by
    rw [length_take]
    omega
  rw [numbered_append, borrowed, numbered_below _ positive low]

section

variable (above : Serves parents start upper) (nested : parents ≠ [])
  (tidy : log.NumberedFrom log.firstWritable) (low : start ≤ log.firstWritable)

include above nested tidy low

theorem serves_fork_read (fits : log.firstWritable ≤ start + upper.length) (idx : Nat)
    (payload : α) :
    Disk.read (log :: parents) idx = .ok payload ↔
      start ≤ idx ∧
        (upper.take (log.firstWritable - start) ++ log.own)[idx - start]? = some payload := by
  have positive := above.positive
  have base := log.first_writable_of_base
  have borrowed : (upper.take (log.firstWritable - start)).length = log.firstWritable - start := by
    rw [length_take]
    omega
  rw [Disk.read]
  by_cases inherited : parents ≠ [] ∧ idx < log.forkBase
  · rw [if_pos inherited, above.read]
    apply and_congr_right
    intro reached
    rw [getElem?_append_left (by omega), getElem?_take_of_lt (by omega)]
  · have late : log.firstWritable ≤ idx ∨ idx = 0 := by
      by_contra early
      exact inherited ⟨nested, by omega⟩
    rw [if_neg inherited, Log.read_own_ok_iff tidy]
    by_cases zero : idx = 0
    · constructor <;> intro both <;> omega
    · have reached : log.firstWritable ≤ idx := by omega
      have place : idx - start - (upper.take (log.firstWritable - start)).length =
          idx - log.firstWritable := by omega
      rw [getElem?_append_right (by omega), place]
      exact and_congr_left fun _ => ⟨fun _ => by omega, fun _ => reached⟩

theorem serves_fork_range (fits : log.firstWritable ≤ start + upper.length) (lowest : Nat) :
    Disk.range (log :: parents) lowest =
      ⟨(numbered start (upper.take (log.firstWritable - start) ++ log.own)).filter
        fun item => lowest ≤ item.1, .done⟩ := by
  have positive := above.positive
  have base := log.first_writable_of_base
  rw [numbered_fork positive low fits, filter_append, Disk.range]
  by_cases inherited : parents ≠ [] ∧ lowest < log.forkBase
  · have ascending := (numbered_ascending start upper).filter fun item => decide (lowest ≤ item.1)
    rw [if_pos inherited, above.range, cut_at_done, take_while_ascending _ ascending]
    simp only [tidy.dense.range_own]
    congr 2
    · rw [filter_filter, filter_filter]
      apply filter_congr
      intro item _
      rw [Bool.eq_iff_iff]
      simp only [Bool.and_eq_true, decide_eq_true_eq]
      omega
    · apply filter_congr
      intro item inside
      have reached := numbered_ge inside
      rw [decide_eq_decide]
      omega
  · have none_left : ((numbered start upper).filter fun item => item.1 < log.firstWritable).filter
        (fun item => lowest ≤ item.1) = [] := by
      rw [filter_filter]
      apply filter_eq_nil_iff.mpr
      intro item inside
      have reached := numbered_ge inside
      simp only [Bool.and_eq_true, decide_eq_true_eq]
      intro both
      exact inherited ⟨nested, by omega⟩
    rw [if_neg inherited, tidy.dense.range_own, none_left, nil_append]

theorem serves_fork_scan (fits : log.firstWritable ≤ start + upper.length) (highest : Nat) :
    scanFromEnd (log :: parents) highest =
      ⟨((numbered start (upper.take (log.firstWritable - start) ++ log.own)).filter
        fun item => item.1 ≤ highest).reverse, .done⟩ := by
  have positive := above.positive
  have base := log.first_writable_of_base
  rw [numbered_fork positive low fits, filter_append, filter_filter, scanFromEnd]
  by_cases inherited : parents ≠ [] ∧ highest < log.forkBase
  · have none_left : (numbered log.firstWritable log.own).filter
        (fun item => item.1 ≤ highest) = [] := by
      apply filter_eq_nil_iff.mpr
      intro item inside
      have reached := numbered_ge inside
      rw [decide_eq_true_eq]
      omega
    rw [if_pos inherited, above.scan, none_left, append_nil]
    congr 2
    apply filter_congr
    intro item _
    rw [Bool.eq_iff_iff]
    simp only [Bool.and_eq_true, decide_eq_true_eq]
    omega
  · have reaches : log.forkBase ≤ highest := by
      by_contra early
      exact inherited ⟨nested, by omega⟩
    rw [if_neg inherited, tidy.dense.scan_own]
    simp only
    rw [if_pos nested, above.scan, ← reverse_append]
    congr 3
    apply filter_congr
    intro item inside
    have reached := numbered_ge inside
    rw [Bool.eq_iff_iff]
    simp only [Bool.and_eq_true, decide_eq_true_eq]
    omega

theorem serves_fork (fits : log.firstWritable ≤ start + upper.length) :
    Serves (log :: parents) start (upper.take (log.firstWritable - start) ++ log.own) := by
  have positive := above.positive
  have own := Log.first_index_locked_eq tidy
  have first : firstIndex (log :: parents) = 0 ∨ firstIndex (log :: parents) = start := by
    rw [firstIndex]
    by_cases held : 0 < firstIndex parents
    · rw [if_pos held]
      exact above.first
    · have none_above : upper = [] := by
        by_contra some_above
        have reached := above.shown some_above
        omega
      rw [none_above, length_nil] at fits
      rw [if_neg held, own]
      split_ifs
      · exact Or.inl rfl
      · exact Or.inr (by omega)
  refine ⟨positive, serves_fork_read above nested tidy low fits,
    serves_fork_range above nested tidy low fits, serves_fork_scan above nested tidy low fits,
    first, ?_⟩
  intro some_shown
  apply first.resolve_left
  rw [firstIndex]
  by_cases held : 0 < firstIndex parents
  · rw [if_pos held]
    omega
  · have none_above : upper = [] := by
      by_contra some_above
      have reached := above.shown some_above
      omega
    rw [none_above, take_nil, nil_append] at some_shown
    rw [if_neg held, own, if_neg some_shown]
    omega

end

end Forks

namespace Whole

variable {log : Log α σ} {parents logs : List (Log α σ)} {start : Nat} {items : List α}

theorem ne_nil (whole : Whole logs start items) : logs ≠ [] := by
  cases whole with
  | root => exact cons_ne_nil _ _
  | fork => exact cons_ne_nil _ _

theorem serves (whole : Whole logs start items) : Serves logs start items := by
  induction whole with
  | root numbered => exact serves_root numbered
  | fork above numbered low fits ih => exact serves_fork ih above.ne_nil numbered low fits

theorem last_index (whole : Whole (log :: parents) start items) :
    log.lastIndex + 1 = start + items.length := by
  cases whole with
  | root numbered => exact Log.last_index_eq numbered
  | fork above numbered low fits =>
    have last := Log.last_index_eq numbered
    rw [length_append, length_take]
    omega

/-- An acknowledged write extends what the handle serves by its record at the next index; a
refused one changes nothing of it. -/
theorem write {opts : Options α σ} {next : Log α σ} {idx : Nat} {payload : α}
    {result : Except Err Unit} (whole : Whole (log :: parents) start items)
    (done : log.write opts parents idx payload = (result, next)) :
    (∀ err, result = .error err → Whole (next :: parents) start items) ∧
      (result = .ok () → idx = start + items.length ∧
        Whole (next :: parents) start (items ++ [opts.codec.stored payload])) := by
  cases whole with
  | root numbered =>
    obtain ⟨kept, _, failed, succeeded⟩ := Log.write_spec numbered done
    constructor
    · intro err refused
      rw [← (failed err refused).1]
      exact .root kept
    · intro accepted
      obtain ⟨due, own⟩ := succeeded accepted
      rw [← own]
      exact ⟨due, .root kept⟩
  | @fork _ _ _ upper above numbered low fits =>
    obtain ⟨kept, base, failed, succeeded⟩ := Log.write_spec numbered done
    have same : next.firstWritable = log.firstWritable := by
      rw [Log.firstWritable, Log.firstWritable, base]
    rw [← same] at kept low fits
    have forked := Whole.fork above kept low fits
    rw [same] at forked
    constructor
    · intro err refused
      rw [← (failed err refused).1]
      exact forked
    · intro accepted
      obtain ⟨due, own⟩ := succeeded accepted
      rw [own, ← append_assoc] at forked
      refine ⟨?_, forked⟩
      rw [length_append, length_take]
      omega

end Whole

theorem Chained.whole {log : Log α σ} {parents : List (Log α σ)}
    (chained : Chained (log :: parents)) :
    Whole (log :: parents) 1 (visible (log :: parents)) := by
  induction parents generalizing log with
  | nil =>
    obtain ⟨tidy, fits, _⟩ := chained
    have numbered := tidy.numbered
    have shown : visible [log] = log.own := by simp [visible, splice]
    rw [(first_writable_of_le fits).1] at numbered
    rw [shown]
    exact .root numbered
  | cons parent above ih =>
    obtain ⟨tidy, fits, upper⟩ := chained
    exact .fork (ih upper) tidy.numbered (Log.first_writable_pos log) (by omega)

end Figwal.Disk
