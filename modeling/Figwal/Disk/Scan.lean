import Figwal.Disk.History

/-!
# Scanning backwards

`Log.ScanFromEnd` visits a log's records from an index down, and goes on through
the parent at the fork base. It is shown to visit the visible records below the
starting index, newest first.
-/

namespace Figwal.Disk

open Figwal.Lib List

set_option autoImplicit false

variable {α σ : Type}

/-- The loop of `ScanFromEnd` over the log's own records. Indices start at 1. -/
def Log.scanLoop (log : Log α σ) (first : Nat) : Nat → Scan α
  | 0 => ⟨[], .done⟩
  | idx + 1 =>
    if first ≤ idx + 1 then
      match log.readOwn (idx + 1) with
      | .error err => ⟨[], .failed err⟩
      | .ok payload =>
        let rest := log.scanLoop first idx
        ⟨(idx + 1, payload) :: rest.seen, rest.outcome⟩
    else ⟨[], .done⟩

def Log.scanOwn (log : Log α σ) (start : Nat) : Scan α :=
  if log.isEmpty then ⟨[], .done⟩
  else log.scanLoop log.firstIndexLocked (min start log.lastIndexLocked)

def scanFromEnd : List (Log α σ) → Nat → Scan α
  | [], _ => ⟨[], .done⟩
  | log :: parents, start =>
    if parents ≠ [] ∧ start < log.forkBase then scanFromEnd parents start
    else
      let own := log.scanOwn start
      match own.outcome with
      | .done =>
        if parents ≠ [] then
          let upper := scanFromEnd parents (log.forkBase - 1)
          ⟨own.seen ++ upper.seen, upper.outcome⟩
        else own
      | _ => own

/-- The first `count` items of a history with their numbers, the last one first. -/
def backlog (history : List α) (count : Nat) : List (Nat × α) :=
  (((history.take count).zipIdx 1).map Prod.swap).reverse

theorem numbered_snoc (items : List α) (item : α) (start : Nat) :
    (((items ++ [item]).zipIdx start).map Prod.swap).reverse =
      (start + items.length, item) :: ((items.zipIdx start).map Prod.swap).reverse := by
  rw [zipIdx_append, map_append, reverse_append]
  rfl

theorem Log.scan_loop_spec {log : Log α σ} {first : Nat} (numbered : log.NumberedFrom first)
    (idx : Nat) (inside : idx < first + log.own.length) :
    log.scanLoop first idx =
      ⟨(((log.own.take (idx + 1 - first)).zipIdx first).map Prod.swap).reverse, .done⟩ := by
  have positive := numbered.positive
  induction idx with
  | zero =>
    have none : 0 + 1 - first = 0 := by omega
    rw [Log.scanLoop, none]
    rfl
  | succ idx ih =>
    rw [Log.scanLoop]
    by_cases low : first ≤ idx + 1
    · have held : idx + 1 - first < log.own.length := by omega
      have found : log.readOwn (idx + 1) = .ok log.own[idx + 1 - first] :=
        (Log.read_own_ok_iff numbered _ _).mpr ⟨low, getElem?_eq_getElem held⟩
      have more : idx + 1 + 1 - first = (idx + 1 - first) + 1 := by omega
      rw [if_pos low, found, ih (by omega), more, ← take_concat_get' _ _ held, numbered_snoc,
        length_take, Nat.min_eq_left (Nat.le_of_lt held)]
      have here : first + (idx + 1 - first) = idx + 1 := by omega
      rw [here]
    · have none : idx + 1 + 1 - first = 0 := by omega
      rw [if_neg low, none]
      rfl

theorem Log.scan_own_spec {log : Log α σ} {first : Nat} (numbered : log.NumberedFrom first)
    (start : Nat) :
    log.scanOwn start =
      ⟨(((log.own.take (start + 1 - first)).zipIdx first).map Prod.swap).reverse, .done⟩ := by
  unfold Log.scanOwn
  split_ifs with idle
  · rw [(Log.is_empty_iff numbered).mp idle, take_nil]
    rfl
  · have occupied : log.own ≠ [] := fun none => idle ((Log.is_empty_iff numbered).mpr none)
    have last : log.lastIndexLocked + 1 = first + log.own.length := by
      have next := Log.expected_eq numbered
      rwa [Log.expected, if_neg idle] at next
    rw [Log.first_index_locked_eq numbered, if_neg occupied,
      Log.scan_loop_spec numbered _ (by omega)]
    by_cases short : start ≤ log.lastIndexLocked
    · rw [Nat.min_eq_left short]
    · rw [Nat.min_eq_right (by omega), take_of_length_le (by omega),
        take_of_length_le (by omega)]

/-- `ScanFromEnd` ends without an error and visits the visible records from
`start` down. -/
theorem scan_from_end_visible {logs : List (Log α σ)} (chained : Chained logs) (start : Nat) :
    scanFromEnd logs start = ⟨backlog (visible logs) start, .done⟩ := by
  induction logs generalizing start with
  | nil => simp [scanFromEnd, visible, backlog]
  | cons log parents ih =>
    rcases chained with ⟨tidy, fits, upper⟩
    have positive := Log.first_writable_pos log
    have base := Log.fork_base_le_first_writable log
    rw [scanFromEnd, visible]
    by_cases inherited : parents ≠ [] ∧ start < log.forkBase
    · rw [if_pos inherited, ih upper, backlog, backlog, take_splice_below (by omega) fits]
    · have start_above : log.firstWritable ≤ start + 1 := by
        by_contra below
        rcases not_and_or.mp inherited with root | above
        · rw [not_not] at root
          subst root
          have low := (first_writable_of_le fits).1
          omega
        · unfold Log.firstWritable firstWritableAt at below
          split_ifs at below <;> omega
      have borrowed : ((visible parents).take (log.firstWritable - 1)).length =
          log.firstWritable - 1 := by
        rw [length_take]
        omega
      have whole : backlog (splice log.firstWritable (visible parents) log.own) start =
          (((log.own.take (start + 1 - log.firstWritable)).zipIdx log.firstWritable).map
            Prod.swap).reverse ++ backlog (visible parents) (log.firstWritable - 1) := by
        rw [backlog, take_splice_above positive start_above fits, splice, zipIdx_append,
          map_append, reverse_append, borrowed, backlog]
        congr 5
        omega
      rw [if_neg inherited, whole]
      simp only [Log.scan_own_spec tidy.numbered]
      by_cases root : parents = []
      · subst root
        rw [if_neg (fun nested => nested rfl)]
        simp [visible, backlog]
      · rw [if_pos root, ih upper]
        by_cases fork : 0 < log.forkBase
        · have same : log.firstWritable = log.forkBase := by
            simp [Log.firstWritable, firstWritableAt, fork]
          rw [same]
        · have one : log.firstWritable = 1 := by
            simp [Log.firstWritable, firstWritableAt, fork]
          have zero : log.forkBase = 0 := by omega
          rw [one, zero]

end Figwal.Disk
