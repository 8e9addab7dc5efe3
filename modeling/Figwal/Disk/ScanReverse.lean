import Figwal.Disk.Scan

/-!
# Scanning backwards and forwards

`Open` admits more than the logs of a crash-free run: a directory may start below its fork
base, a root may have lost its front, and a parent may end before the base of its fork. On
all of these `Range` cuts the log's own records at the fork base, while `ScanFromEnd` runs
through all of them and then continues in the parent below the base. The two agree exactly
where the scan meets no records below a base.
-/

namespace Figwal.Disk

open Figwal.Lib List

set_option autoImplicit false

variable {α σ : Type}

/-- A log `Open` returns for a directory whose files hold what their names say: each but the
newest ends where the next begins. The fork base may be anything `Open` accepts. -/
def Log.Opened (log : Log α σ) : Prop :=
  ∃ (opts : Options α σ) (forkBase : Nat) (files : List (Segment α σ)) (subdirs : Bool)
    (first : Nat), 1 ≤ first ∧ Stacked first files ∧ openDir opts forkBase files subdirs = .ok log

/-- No log that the scan walks through, and that has a parent, holds records below its base. -/
def ScanClear : List (Log α σ) → Nat → Prop
  | [], _ => True
  | log :: parents, start =>
    if parents ≠ [] ∧ start < log.forkBase then ScanClear parents start
    else (parents ≠ [] → log.isEmpty = true ∨ log.forkBase ≤ log.firstIndexLocked) ∧
      ScanClear parents (log.forkBase - 1)

def ScanClear.decide : (logs : List (Log α σ)) → (start : Nat) → Decidable (ScanClear logs start)
  | [], _ => isTrue trivial
  | log :: parents, start =>
    have := ScanClear.decide parents start
    have := ScanClear.decide parents (log.forkBase - 1)
    inferInstanceAs (Decidable (if parents ≠ [] ∧ start < log.forkBase then
      ScanClear parents start
    else (parents ≠ [] → log.isEmpty = true ∨ log.forkBase ≤ log.firstIndexLocked) ∧
      ScanClear parents (log.forkBase - 1)))

instance (logs : List (Log α σ)) (start : Nat) : Decidable (ScanClear logs start) :=
  ScanClear.decide logs start

section Items

/-- Items with their numbers, counted from `first`. -/
def numbered (first : Nat) (items : List α) : List (Nat × α) :=
  (items.zipIdx first).map Prod.swap

theorem numbered_ge {first : Nat} {items : List α} {item : Nat × α}
    (inside : item ∈ numbered first items) : first ≤ item.1 := by
  obtain ⟨source, held, rfl⟩ := mem_map.mp inside
  exact (mem_zipIdx held).1

theorem numbered_ascending (first : Nat) (items : List α) :
    (numbered first items).Pairwise fun early late => early.1 < late.1 := by
  induction items generalizing first with
  | nil => exact List.Pairwise.nil
  | cons item rest ih =>
    apply List.Pairwise.cons
    · intro later inside
      have above := numbered_ge inside
      exact above
    · exact ih (first + 1)

theorem numbered_drop (first start : Nat) (items : List α) :
    ((items.drop (start - first)).zipIdx (max start first)).map Prod.swap =
      (numbered first items).filter fun item => start ≤ item.1 := by
  induction items generalizing first with
  | nil => simp [numbered]
  | cons item rest ih =>
    rw [numbered, zipIdx_cons, map_cons, filter_cons]
    by_cases low : start ≤ first
    · have all : ∀ later ∈ numbered (first + 1) rest, decide (start ≤ later.1) = true := by
        intro later inside
        have above := numbered_ge inside
        exact decide_eq_true (by omega)
      have zero : start - first = 0 := by omega
      have kept := filter_eq_self.mpr all
      rw [numbered] at kept
      simp [low, zero, kept]
    · have fewer : start - first = start - (first + 1) + 1 := by omega
      have same : max start first = max start (first + 1) := by omega
      have rest_eq := ih (first + 1)
      rw [numbered] at rest_eq
      simp [low, fewer, same, rest_eq]

theorem numbered_take (first start : Nat) (items : List α) :
    ((items.take (start + 1 - first)).zipIdx first).map Prod.swap =
      (numbered first items).filter fun item => item.1 ≤ start := by
  induction items generalizing first with
  | nil => simp [numbered]
  | cons item rest ih =>
    rw [numbered, zipIdx_cons, map_cons, filter_cons]
    by_cases low : first ≤ start
    · have more : start + 1 - first = start - first + 1 := by omega
      have rest_eq := ih (first + 1)
      rw [numbered, Nat.add_sub_add_right] at rest_eq
      simp [low, more, rest_eq]
    · have none_left : ∀ later ∈ numbered (first + 1) rest, ¬decide (later.1 ≤ start) = true := by
        intro later inside
        have above := numbered_ge inside
        rw [decide_eq_true_eq]
        omega
      have zero : start + 1 - first = 0 := by omega
      have dropped := filter_eq_nil_iff.mpr none_left
      rw [numbered] at dropped
      simp [low, zero, dropped]

end Items

section Dense

variable {first : Nat} {log : Log α σ}

theorem Log.own_of_empty (idle : log.isEmpty = true) : log.own = [] := by
  rw [Log.isEmpty, Bool.and_eq_true, List.isEmpty_iff, beq_iff_eq, Log.active_count_eq,
    List.length_eq_zero_iff] at idle
  simp [Log.own, Log.sealedSegs, idle]

/-- Own records are looked up without the fork base, so that a dense log with records reads
like a root that starts where it does. -/
theorem Log.Dense.as_root (dense : log.Dense first) (filled : log.own ≠ []) :
    ({ log with forkBase := 0 } : Log α σ).NumberedFrom first :=
  { positive := dense.positive
    ranges := dense.ranges
    chain := dense.chain
    tail := dense.tail
    fresh := fun none_held => absurd none_held filled
    covers := Nat.zero_le _ }

theorem scan_loop_base (log : Log α σ) (base start idx : Nat) :
    ({ log with forkBase := base } : Log α σ).scanLoop start idx = log.scanLoop start idx := by
  induction idx with
  | zero => rfl
  | succ idx ih =>
    rw [Log.scanLoop, Log.scanLoop, ih]
    rfl

theorem range_loop_base (log : Log α σ) (base last fuel cur : Nat) :
    ({ log with forkBase := base } : Log α σ).rangeLoop last fuel cur =
      log.rangeLoop last fuel cur := by
  induction fuel generalizing cur with
  | zero => rfl
  | succ fuel ih =>
    rw [Log.rangeLoop, Log.rangeLoop]
    simp only [ih]
    rfl

theorem Log.Dense.filled (dense : log.Dense first) (occupied : ¬log.isEmpty = true) :
    log.own ≠ [] := by
  intro none_held
  apply occupied
  have parts := append_eq_nil_iff.mp none_held
  have unsealed : log.sealedSegs = [] := by
    by_contra some_held
    exact joined_ne_nil_of_consecutive _ _ dense.chain some_held parts.1
  rw [Log.isEmpty, Bool.and_eq_true, List.isEmpty_iff, beq_iff_eq, Log.active_count_eq]
  exact ⟨(Log.sealed_segs_eq_nil log).mp unsealed, by rw [parts.2]; rfl⟩

theorem Log.Dense.scan_own (dense : log.Dense first) (start : Nat) :
    log.scanOwn start =
      ⟨((numbered first log.own).filter fun item => item.1 ≤ start).reverse, .done⟩ := by
  by_cases idle : log.isEmpty = true
  · rw [Log.scanOwn, if_pos idle, Log.own_of_empty idle]
    rfl
  · have spec := Log.scan_own_spec (dense.as_root (dense.filled idle)) start
    rw [Log.scanOwn, scan_loop_base] at spec
    rw [Log.scanOwn, ← numbered_take]
    exact spec

theorem Log.Dense.range_own (dense : log.Dense first) (start : Nat) :
    log.rangeOwn start = ⟨(numbered first log.own).filter fun item => start ≤ item.1, .done⟩ := by
  by_cases idle : log.isEmpty = true
  · rw [Log.rangeOwn, if_pos idle, Log.own_of_empty idle]
    rfl
  · have spec := Log.range_own_spec (dense.as_root (dense.filled idle)) start
    rw [Log.rangeOwn] at spec
    simp only [range_loop_base] at spec
    rw [Log.rangeOwn, ← numbered_drop]
    exact spec

theorem Log.Dense.first_index (dense : log.Dense first) (occupied : ¬log.isEmpty = true) :
    log.firstIndexLocked = first := by
  have filled := dense.filled occupied
  exact (Log.first_index_locked_eq (dense.as_root filled)).trans (if_neg filled)

end Dense

section Chains

variable {chain : List (Nat × Log α σ)} {start : Nat}

theorem take_while_ascending {items : List (Nat × α)} (bound : Nat)
    (ascending : items.Pairwise fun early late => early.1 < late.1) :
    items.takeWhile (fun item => item.1 < bound) = items.filter fun item => item.1 < bound := by
  induction items with
  | nil => rfl
  | cons item rest ih =>
    have parts := pairwise_cons.mp ascending
    rw [takeWhile_cons, filter_cons]
    by_cases low : item.1 < bound
    · simp [low, ih parts.2]
    · have none_left : ∀ later ∈ rest, ¬decide (later.1 < bound) = true := by
        intro later inside
        have above := parts.1 later inside
        rw [decide_eq_true_eq]
        omega
      simp [low, filter_eq_nil_iff.mpr none_left]

end Chains

section Opening

theorem Log.Opened.dense {log : Log α σ} (opened : log.Opened) : ∃ first, log.Dense first := by
  obtain ⟨opts, forkBase, files, subdirs, first, positive, stacked, done⟩ := opened
  have loaded : loadSegments opts forkBase files subdirs = .ok log := by
    unfold openDir at done
    split at done
    · cases done
    · rename_i found loaded
      split at done
      · split_ifs at done
        cases done
        exact loaded
      · cases done
        exact loaded
  exact ⟨first, load_segments_dense positive stacked loaded⟩

end Opening

end Figwal.Disk
