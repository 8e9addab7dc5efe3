import Mathlib.Data.List.Sort
import Figwal.Disk.Writing

/-!
# Opening a directory

`Open` opens the newest segment file only. What the sealed ones hold is read off
the file names: a sealed segment is taken to end right before the next file
begins. `Stacked` says when that is true, and `Tidy` when a live handle agrees
with what a fresh `Open` of its directory would see.
-/

namespace Figwal.Disk

open Figwal.Lib List

set_option autoImplicit false

variable {α σ : Type} {files : List (Segment α σ)} {first forkBase : Nat}

/-- The ranges `loadSegments` derives from the sorted bases. -/
def loadRanges (opts : Options α σ) :
    List (Segment α σ) → List (Sealed α σ) × Option (Segment α σ)
  | [] => ([], none)
  | [newest] => ([], some (newest.reload opts.codec opts.segmentSize))
  | segment :: next :: rest =>
    let later := loadRanges opts (next :: rest)
    (⟨next.baseIndex - 1, segment.reload opts.codec 0⟩ :: later.1, later.2)

/-- The header a rotation would have given the newest segment. The parent is not
consulted. -/
def Log.reseedHeader (log : Log α σ) (fold : Option σ → List α → Except Err σ) :
    Except Err σ :=
  match log.sealed.getLast? with
  | some newest => fold newest.seg.header newest.seg.payloads
  | none => fold none []

/-- `reseedEmptyActiveHeader`: a newest segment without any frame gets a header. -/
def reseedEmptyActiveHeader (opts : Options α σ) (log : Log α σ) :
    Except Err (Log α σ) :=
  match opts.onSegmentOpen, log.active with
  | some fold, some segment =>
    if log.readOnly ∨ segment.count ≠ 0 ∨ segment.size ≠ 0 then .ok log
    else
      match log.reseedHeader fold with
      | .error err => .error err
      | .ok header =>
        match segment.writeHeader opts.codec header with
        | .error err => .error err
        | .ok headed => .ok { log with active := some headed }
  | _, _ => .ok log

def loadSegments (opts : Options α σ) (forkBase : Nat) (files : List (Segment α σ))
    (subdirs : Bool) : Except Err (Log α σ) :=
  let sorted := files.insertionSort fun left right => left.baseIndex ≤ right.baseIndex
  let ranges := loadRanges opts sorted
  reseedEmptyActiveHeader opts
    { forkBase := forkBase
      sealed := ranges.1
      active := ranges.2
      stray := []
      readOnly := subdirs
      subdirs := subdirs }

def Log.firstBase (log : Log α σ) : Option Nat :=
  match log.sealed with
  | head :: _ => some head.seg.baseIndex
  | [] => log.active.map Segment.baseIndex

/-- `Open`, given the fork marker, the segment files and whether the directory
has subdirectories. -/
def openDir (opts : Options α σ) (forkBase : Nat) (files : List (Segment α σ))
    (subdirs : Bool) : Except Err (Log α σ) :=
  match loadSegments opts forkBase files subdirs with
  | .error err => .error err
  | .ok log =>
    match log.firstBase with
    | some base => if 0 < forkBase ∧ forkBase < base then .error .forkMismatch else .ok log
    | none => .ok log

def Options.Steady (opts : Options α σ) : Prop :=
  ∀ fold, opts.onSegmentOpen = some fold → ∀ previous payloads,
    ∃ header length, fold previous payloads = .ok header ∧
      opts.codec.headerLen header = some length

/-- Files that hold records run on from one to the next, and at most one file
without records follows where the last of them ends. -/
def Stacked (first : Nat) (files : List (Segment α σ)) : Prop :=
  ∃ (full : List (Segment α σ)) (spare : Option (Segment α σ)),
    files = full ++ spare.toList ∧
      Consecutive Segment.baseIndex Segment.payloads first full ∧
      ∀ unused ∈ spare, unused.payloads = [] ∧
        unused.baseIndex = first + (joined Segment.payloads full).length

/-- A live handle numbered from `first`, whose directory holds no file the handle
has lost but one unused segment at the end. -/
structure Log.TidyFrom (first : Nat) (log : Log α σ) : Prop where
  numbered : log.NumberedFrom first
  strays : log.stray = [] ∨ log.active = none ∧ ∃ unused, log.stray = [unused] ∧
    unused.payloads = [] ∧ unused.baseIndex = first + log.own.length

abbrev Log.Tidy (log : Log α σ) : Prop :=
  log.TidyFrom log.firstWritable

theorem Log.blank_tidy (forkBase : Nat) : (Log.blank forkBase : Log α σ).Tidy :=
  ⟨Log.blank_numbered forkBase, Or.inl rfl⟩

theorem joined_active (log : Log α σ) :
    joined Segment.payloads log.active.toList = log.activePayloads := by
  unfold Log.activePayloads
  cases log.active <;> simp

variable {base log next : Log α σ} {opts : Options α σ}

theorem Log.TidyFrom.stacked (tidy : log.TidyFrom first) :
    Stacked first log.files ∧ joined Segment.payloads log.files = log.own := by
  have numbered := tidy.numbered
  rcases tidy.strays with clean | ⟨idle, unused, stray, empty, base⟩
  · cases active : log.active with
    | none =>
      refine ⟨⟨log.sealedSegs, none, ?_, numbered.chain, by simp⟩, ?_⟩
      · simp [Log.files, clean, active, Log.sealedSegs]
      · simp [Log.files, clean, active, Log.own, Log.sealedSegs, Log.activePayloads]
    | some segment =>
      have start := numbered.tail segment active
      have same : joined Segment.payloads log.files = log.own := by
        simp [Log.files, clean, active, Log.own, Log.sealedSegs, Log.activePayloads]
      by_cases filled : segment.payloads = []
      · refine ⟨⟨log.sealedSegs, some segment, ?_, numbered.chain, ?_⟩, same⟩
        · simp [Log.files, clean, active, Log.sealedSegs]
        · intro other member
          cases member
          exact ⟨filled, start⟩
      · refine ⟨⟨log.sealedSegs ++ [segment], none, ?_, ?_, by simp⟩, same⟩
        · simp [Log.files, clean, active, Log.sealedSegs]
        · rw [consecutive_append]
          exact ⟨numbered.chain, start, filled, trivial⟩
  · have noActive : log.activePayloads = [] := by simp [Log.activePayloads, idle]
    refine ⟨⟨log.sealedSegs, some unused, ?_, numbered.chain, ?_⟩, ?_⟩
    · simp [Log.files, idle, stray, Log.sealedSegs]
    · intro other member
      cases member
      refine ⟨empty, ?_⟩
      rw [base, Log.own, noActive, append_nil]
    · simp [Log.files, idle, stray, Log.own, Log.sealedSegs, noActive, empty]

/-- A log that is clear for a fresh segment has lost no file where that segment
goes. -/
theorem Log.TidyFrom.clean (tidy : log.TidyFrom first) (cleared : log.Cleared base)
    (vacant : log.expected ∉ base.files.map Segment.baseIndex) : base.stray = [] := by
  rcases tidy.strays with clean | ⟨idle, unused, stray, _, start⟩
  · rcases cleared with ⟨_, rfl⟩ | ⟨segment, active, _, rfl⟩
    · exact clean
    · simpa [Log.sealActive, active] using clean
  · rcases cleared with ⟨_, rfl⟩ | ⟨segment, active, _, rfl⟩
    · refine absurd ?_ vacant
      rw [Log.expected_eq tidy.numbered, ← start]
      simp [Log.files, stray]
    · rw [idle] at active
      cases active

theorem Log.TidyFrom.write {parents : List (Log α σ)} {idx : Nat} {payload : α}
    {result : Except Err Unit} (tidy : log.TidyFrom first)
    (done : log.write opts parents idx payload = (result, next)) : next.TidyFrom first := by
  refine ⟨(Log.write_spec tidy.numbered done).1, ?_⟩
  cases Log.write_wrote done with
  | refused err => exact tidy.strays
  | frozen err branched => exact tidy.strays
  | landed segment grown due writable active appended =>
    rcases tidy.strays with clean | ⟨idle, _⟩
    · exact Or.inl clean
    · rw [idle] at active
      cases active
  | unopened err base strays due cleared extra =>
    obtain ⟨_, same, idle, _⟩ := Log.numbered_cleared tidy.numbered cleared
    rcases extra with none | ⟨vacant, one⟩
    · rw [none, append_nil]
      rcases cleared with ⟨_, rfl⟩ | ⟨segment, active, _, rfl⟩
      · exact tidy.strays
      · rcases tidy.strays with clean | ⟨absent, _⟩
        · left
          simpa [Log.sealActive, active] using clean
        · rw [absent] at active
          cases active
    · have free := vacant.vacant
      rw [due] at free
      have clean := tidy.clean cleared free
      refine Or.inr ⟨idle, create idx opts.segmentSize, by simp [clean, one], rfl, ?_⟩
      have start : idx = first + base.own.length := by
        rw [due, Log.expected_eq tidy.numbered, same]
      exact start
  | oversized err base fresh due cleared opened =>
    have vacant := opened.vacant
    rw [due] at vacant
    have clean := tidy.clean cleared vacant
    exact Or.inl clean
  | opened base fresh grown due writable cleared opened appended =>
    have vacant := opened.vacant
    rw [due] at vacant
    have clean := tidy.clean cleared vacant
    exact Or.inl clean

theorem Log.Tidy.write {parents : List (Log α σ)} {idx : Nat} {payload : α}
    {result : Except Err Unit} (tidy : log.Tidy)
    (done : log.write opts parents idx payload = (result, next)) : next.Tidy := by
  have first : next.firstWritable = log.firstWritable := by
    rw [Log.firstWritable, (Log.write_spec tidy.numbered done).2.1, Log.firstWritable]
  rw [Log.Tidy, first]
  exact TidyFrom.write tidy done

/-!
## What a load finds
-/

theorem load_ranges_reloaded (opts : Options α σ) (files : List (Segment α σ))
    {segment : Segment α σ}
    (member : segment ∈ (loadRanges opts files).1.map Sealed.seg ++
      (loadRanges opts files).2.toList) :
    ∃ file ∈ files, ∃ maxSize, segment = file.reload opts.codec maxSize := by
  fun_induction loadRanges opts files with
  | case1 => simp at member
  | case2 newest =>
    simp only [map_nil, nil_append, Option.toList_some,
      mem_singleton] at member
    exact ⟨newest, by simp, _, member⟩
  | case3 head next rest later ih =>
    simp only [map_cons, cons_append, mem_cons] at member
    rcases member with same | later
    · exact ⟨head, by simp, 0, same⟩
    · obtain ⟨file, inside, maxSize, shape⟩ := ih later
      exact ⟨file, mem_cons_of_mem _ inside, maxSize, shape⟩

/-- Where files are stacked, the derived ranges are the true ones and every
record is found. -/
theorem load_ranges_spec (opts : Options α σ) {full : List (Segment α σ)}
    {spare : Option (Segment α σ)}
    (chain : Consecutive Segment.baseIndex Segment.payloads first full)
    (ends : ∀ unused ∈ spare, unused.payloads = [] ∧
      unused.baseIndex = first + (joined Segment.payloads full).length) :
    (∀ entry ∈ (loadRanges opts (full ++ spare.toList)).1,
        entry.last + 1 = entry.seg.baseIndex + entry.seg.count) ∧
      Consecutive Segment.baseIndex Segment.payloads first
        ((loadRanges opts (full ++ spare.toList)).1.map Sealed.seg) ∧
      (∀ segment, (loadRanges opts (full ++ spare.toList)).2 = some segment →
        segment.baseIndex = first + (joined Segment.payloads
          ((loadRanges opts (full ++ spare.toList)).1.map Sealed.seg)).length) ∧
      joined Segment.payloads ((loadRanges opts (full ++ spare.toList)).1.map Sealed.seg) ++
        joined Segment.payloads (loadRanges opts (full ++ spare.toList)).2.toList =
          joined Segment.payloads full := by
  induction full generalizing first with
  | nil =>
    cases spare with
    | none => simp [loadRanges]
    | some unused =>
      obtain ⟨empty, base⟩ := ends unused rfl
      simpa [loadRanges, empty] using base
  | cons head rest ih =>
    obtain ⟨base, filled, tail⟩ := chain
    cases shape : rest ++ spare.toList with
    | nil =>
      have parts := append_eq_nil_iff.mp shape
      simp [parts.1, parts.2, loadRanges, base]
    | cons next more =>
      have follows : next.baseIndex = first + head.payloads.length := by
        cases rest with
        | nil =>
          cases spare with
          | none => cases shape
          | some unused =>
            obtain rfl : unused = next := (List.cons.inj shape).1
            have start := (ends unused rfl).2
            simpa using start
        | cons second others =>
          cases shape
          exact tail.1
      have endsLater : ∀ unused ∈ spare, unused.payloads = [] ∧
          unused.baseIndex = first + head.payloads.length +
            (joined Segment.payloads rest).length := by
        intro unused member
        obtain ⟨empty, start⟩ := ends unused member
        refine ⟨empty, ?_⟩
        rw [start, joined_cons, length_append, Nat.add_assoc]
      obtain ⟨ranges, linked, active, records⟩ := ih tail endsLater
      rw [shape] at ranges linked active records
      have length : 0 < head.payloads.length := length_pos_iff.mpr filled
      simp only [cons_append, shape, loadRanges, map_cons, joined_cons,
        append_assoc, records, mem_cons]
      refine ⟨?_, ⟨base, filled, linked⟩, ?_, rfl⟩
      · rintro entry (rfl | member)
        · simp only [reload_base, reload_payloads, follows, base, Segment.count]
          omega
        · exact ranges entry member
      · intro segment found
        rw [active segment found, length_append, reload_payloads, Nat.add_assoc]

theorem Stacked.sorted (stacked : Stacked first files) :
    files.Pairwise fun left right => left.baseIndex ≤ right.baseIndex := by
  obtain ⟨full, spare, shape, chain, ends⟩ := stacked
  have ordered : full.Pairwise fun left right => left.baseIndex ≤ right.baseIndex :=
    (consecutive_pairwise _ _ chain).imp fun gap => Nat.le_trans (Nat.le_add_right _ _) gap
  rw [shape, pairwise_append]
  refine ⟨ordered, ?_, ?_⟩
  · cases spare <;> simp
  · intro early member unused last
    have inSpare : unused ∈ spare := by simpa [Option.mem_toList] using last
    have bounds := consecutive_bounds _ _ chain member
    have start := (ends unused inSpare).2
    omega

/-- Files that hold the same records at the same bases stack in the same way. -/
theorem Stacked.relabel (stacked : Stacked first files) {change : Segment α σ → Segment α σ}
    (bases : ∀ file, (change file).baseIndex = file.baseIndex)
    (payloads : ∀ file, (change file).payloads = file.payloads) :
    Stacked first (files.map change) := by
  have sameBases : Segment.baseIndex ∘ change = Segment.baseIndex := funext bases
  have samePayloads : Segment.payloads ∘ change = Segment.payloads := funext payloads
  rcases stacked with ⟨full, spare, split, chain, last⟩
  refine ⟨full.map change, spare.map change, ?_, ?_, ?_⟩
  · rw [split, map_append]
    cases spare <;> rfl
  · rw [consecutive_map, sameBases, samePayloads]
    exact chain
  · intro unused member
    cases spare with
    | none => cases member
    | some file =>
      cases member
      rw [payloads, bases, joined_map, samePayloads]
      exact last file rfl

theorem Stacked.min_base (stacked : Stacked first files) (present : files ≠ []) :
    (files.map Segment.baseIndex).min? = some first := by
  have ordered := stacked.sorted
  cases files with
  | nil => exact absurd rfl present
  | cons file rest =>
    have start : file.baseIndex = first := by
      rcases stacked with ⟨full, spare, split, chain, last⟩
      cases full with
      | nil =>
        cases spare with
        | none => cases split
        | some unused =>
          cases split
          exact (last file rfl).2
      | cons other tail =>
        cases split
        exact chain.1
    rw [min?_eq_some_iff, map_cons, start]
    refine ⟨mem_cons_self, fun base member => ?_⟩
    rcases mem_cons.mp member with same | later
    · exact Nat.le_of_eq same.symm
    · rcases mem_map.mp later with ⟨other, inside, rfl⟩
      rw [← start]
      exact (pairwise_cons.mp ordered).1 other inside

/-- A reseed can only give the unused active segment a header, and it does so
unless the segment has a frame or the log takes no writes. -/
theorem reseed_spec (steady : opts.Steady) (log : Log α σ) :
    ∃ next, reseedEmptyActiveHeader opts log = .ok next ∧
      ((next = log ∧ ∀ segment, log.active = some segment →
          opts.onSegmentOpen = none ∨ log.readOnly = true ∨ segment.payloads ≠ [] ∨
            segment.size ≠ 0) ∨
        ∃ segment headed header fold, log.active = some segment ∧
          opts.onSegmentOpen = some fold ∧ segment.payloads = [] ∧ segment.size = 0 ∧
          0 < headed.size ∧ headed.baseIndex = segment.baseIndex ∧ headed.payloads =
            segment.payloads ∧
          headed.header = some header ∧ log.reseedHeader fold = .ok header ∧
          next = { log with active := some headed }) := by
  unfold reseedEmptyActiveHeader
  cases mode : opts.onSegmentOpen with
  | none => exact ⟨log, by simp, Or.inl ⟨rfl, fun _ _ => Or.inl rfl⟩⟩
  | some fold =>
    cases active : log.active with
    | none => exact ⟨log, by simp, Or.inl ⟨rfl, by simp⟩⟩
    | some segment =>
      simp only
      split_ifs with settled
      · refine ⟨log, rfl, Or.inl ⟨rfl, ?_⟩⟩
        intro other same
        cases same
        simpa [Segment.count] using settled
      · rw [not_or, not_or] at settled
        have unused : segment.payloads = [] := by
          simpa [Segment.count] using settled.2.1
        have total : ∃ header length, log.reseedHeader fold = .ok header ∧
            opts.codec.headerLen header = some length := by
          unfold Log.reseedHeader
          split
          · exact steady fold mode _ _
          · exact steady fold mode _ _
        obtain ⟨header, length, computed, framed⟩ := total
        have written : segment.writeHeader opts.codec header =
            .ok { segment with size := length, header := some header } := by
          simp [Segment.writeHeader, framed]
        rw [computed]
        simp only [written]
        exact ⟨_, rfl, Or.inr ⟨segment,
          { segment with size := length, header := some header }, header, fold, rfl, rfl,
          unused, by simpa using settled.2.2, write_header_size written, rfl, rfl, rfl,
          computed, rfl⟩⟩

structure Restored (opts : Options α σ) (files : List (Segment α σ)) (subdirs : Bool)
    (log : Log α σ) : Prop where
  older : ∀ segment ∈ log.sealedSegs, ∃ file ∈ files, ∃ maxSize,
    segment = file.reload opts.codec maxSize
  newest : ∀ segment, log.active = some segment →
    (∃ file ∈ files, ∃ maxSize, segment = file.reload opts.codec maxSize ∧
        (opts.onSegmentOpen = none ∨ subdirs = true ∨ file.payloads ≠ [] ∨ file.size ≠ 0)) ∨
      ∃ file ∈ files, ∃ fold header, opts.onSegmentOpen = some fold ∧ file.payloads = [] ∧
        file.size = 0 ∧ 0 < segment.size ∧ segment.baseIndex = file.baseIndex ∧
        segment.payloads = [] ∧ segment.header = some header ∧ log.reseedHeader fold = .ok header

/-- The recorded ranges of the log are those of its segments, and they follow on each other. -/
structure Log.Dense (first : Nat) (log : Log α σ) : Prop where
  positive : 1 ≤ first
  ranges : ∀ entry ∈ log.sealed, entry.last + 1 = entry.seg.baseIndex + entry.seg.count
  chain : Consecutive Segment.baseIndex Segment.payloads first log.sealedSegs
  tail : ∀ segment, log.active = some segment →
    segment.baseIndex = first + (joined Segment.payloads log.sealedSegs).length

theorem dense_first_base (dense : log.Dense first) {base : Nat}
    (found : log.firstBase = some base) : base = first := by
  have chain := dense.chain
  unfold Log.firstBase at found
  cases sealed : log.sealed with
  | nil =>
    rw [sealed] at found
    obtain ⟨segment, active, rfl⟩ := Option.map_eq_some_iff.mp found
    have start := dense.tail segment active
    simpa [Log.sealedSegs, sealed] using start
  | cons head rest =>
    rw [sealed] at found
    rw [Log.sealedSegs, sealed] at chain
    exact (Option.some.inj found).symm.trans chain.1

theorem reseed_keeps (done : reseedEmptyActiveHeader opts log = .ok next) :
    next.sealed = log.sealed ∧ ∀ segment, next.active = some segment →
      ∃ old, log.active = some old ∧ segment.baseIndex = old.baseIndex ∧
        segment.payloads = old.payloads := by
  unfold reseedEmptyActiveHeader at done
  split at done
  · rename_i fold old mode running
    split_ifs at done
    · cases done
      exact ⟨rfl, fun segment active => ⟨segment, active, rfl, rfl⟩⟩
    · split at done
      · cases done
      · split at done
        · cases done
        · rename_i headed written
          cases done
          have same := write_header_ok written
          refine ⟨rfl, ?_⟩
          intro segment active
          cases active
          exact ⟨old, running, same.1, same.2.1⟩
  · cases done
    exact ⟨rfl, fun segment active => ⟨segment, active, rfl, rfl⟩⟩

/-- Loading stacked files numbers them as they are, also where a header is repaired. -/
theorem load_segments_dense {subdirs : Bool} (positive : 1 ≤ first)
    (stacked : Stacked first files) (loaded : loadSegments opts forkBase files subdirs = .ok log) :
    log.Dense first := by
  have sorted : files.insertionSort (fun left right => left.baseIndex ≤ right.baseIndex) =
      files := stacked.sorted.insertionSort_eq
  obtain ⟨full, spare, shape, chain, ends⟩ := stacked
  obtain ⟨ranges, linked, active, _⟩ := load_ranges_spec opts chain ends
  rw [← shape] at ranges linked active
  simp only [loadSegments, sorted] at loaded
  obtain ⟨sealed, running⟩ := reseed_keeps loaded
  have segments : log.sealedSegs = (loadRanges opts files).1.map Sealed.seg := by
    rw [Log.sealedSegs, sealed]
  refine ⟨positive, ?_, ?_, ?_⟩
  · rw [sealed]
    exact ranges
  · rw [segments]
    exact linked
  · intro segment held
    obtain ⟨old, was, base, _⟩ := running segment held
    rw [segments, base]
    exact active old was

/-- Opening files that start no later than the base finds their records where they are. -/
theorem open_dir_dense (steady : opts.Steady) (stacked : Stacked first files)
    (positive : 1 ≤ first) (aligned : 0 < forkBase → files ≠ [] → first ≤ forkBase)
    (subdirs : Bool) :
    ∃ log, openDir opts forkBase files subdirs = .ok log ∧ log.Dense first ∧
      log.own = joined Segment.payloads files ∧ log.forkBase = forkBase ∧
      log.readOnly = subdirs ∧ log.subdirs = subdirs ∧ log.stray = [] ∧
      Restored opts files subdirs log := by
  have sorted : files.insertionSort (fun left right => left.baseIndex ≤ right.baseIndex) =
      files := stacked.sorted.insertionSort_eq
  let found : Log α σ :=
    { forkBase := forkBase
      sealed := (loadRanges opts files).1
      active := (loadRanges opts files).2
      stray := []
      readOnly := subdirs
      subdirs := subdirs }
  obtain ⟨next, reseeded, change⟩ := reseed_spec steady found
  have loaded : loadSegments opts forkBase files subdirs = .ok next := by
    simp only [loadSegments, sorted]
    exact reseeded
  have dense := load_segments_dense positive stacked loaded
  have own : found.own = joined Segment.payloads files := by
    obtain ⟨full, spare, shape, chain, ends⟩ := stacked
    have records := (load_ranges_spec opts chain ends).2.2.2
    rw [← shape] at records
    have total : joined Segment.payloads files = joined Segment.payloads full := by
      rw [shape, joined_append]
      cases spare with
      | none => simp
      | some unused => simp [(ends unused rfl).1]
    rw [total, ← records, Log.own, ← joined_active]
    rfl
  have older : ∀ segment ∈ found.sealedSegs, ∃ file ∈ files, ∃ maxSize,
      segment = file.reload opts.codec maxSize := fun segment member =>
    load_ranges_reloaded opts files (mem_append_left _ member)
  have newest : ∀ segment, found.active = some segment → ∃ file ∈ files, ∃ maxSize,
      segment = file.reload opts.codec maxSize := by
    intro segment running
    have held : (loadRanges opts files).2 = some segment := running
    exact load_ranges_reloaded opts files (mem_append_right _ (by simp [held]))
  have kept : next.own = found.own ∧ next.forkBase = forkBase ∧ next.readOnly = subdirs ∧
      next.subdirs = subdirs ∧ next.stray = [] ∧ Restored opts files subdirs next := by
    rcases change with ⟨rfl, settled⟩ | ⟨segment, headed, header, fold, running, mode, unused,
      frameless, framed, base, same, written, computed, rfl⟩
    · refine ⟨rfl, rfl, rfl, rfl, rfl, older, ?_⟩
      intro segment running
      obtain ⟨file, member, maxSize, rfl⟩ := newest segment running
      exact Or.inl ⟨file, member, maxSize, rfl,
        settled (file.reload opts.codec maxSize) running⟩
    · refine ⟨?_, rfl, rfl, rfl, rfl, older, ?_⟩
      · rw [Log.own_with_active, same, Log.own, Log.activePayloads, running]
      · intro other active
        cases active
        obtain ⟨file, member, maxSize, rfl⟩ := newest segment running
        exact Or.inr ⟨file, member, fold, header, mode, unused, frameless, framed, base,
          same.trans unused, written, computed⟩
  obtain ⟨nextOwn, fork, locked, kids, clean, restored⟩ := kept
  refine ⟨next, ?_, dense, nextOwn.trans own, fork, locked, kids, clean, restored⟩
  unfold openDir
  rw [loaded]
  simp only
  split
  · rename_i base front
    rw [if_neg]
    rintro ⟨forked, above⟩
    have start := dense_first_base dense front
    have filed : files ≠ [] := by
      rintro rfl
      obtain ⟨sealed, running⟩ := reseed_keeps reseeded
      have bare : next.sealed = [] := sealed
      rw [Log.firstBase, bare] at front
      obtain ⟨segment, held, _⟩ := Option.map_eq_some_iff.mp front
      obtain ⟨old, was, _⟩ := running segment held
      cases was
    have low := aligned forked filed
    omega
  · rfl

/-- Opening a directory of stacked files succeeds and finds exactly their
records. The files may start below the fork base, if they reach up to it. -/
theorem open_dir_from (steady : opts.Steady) (stacked : Stacked first files)
    (positive : 1 ≤ first) (low : first ≤ firstWritableAt forkBase)
    (fresh : joined Segment.payloads files = [] → first = firstWritableAt forkBase)
    (covers : forkBase ≤ first + (joined Segment.payloads files).length) (subdirs : Bool) :
    ∃ log, openDir opts forkBase files subdirs = .ok log ∧ log.TidyFrom first ∧
      log.own = joined Segment.payloads files ∧ log.forkBase = forkBase ∧
      log.readOnly = subdirs ∧ log.subdirs = subdirs ∧ log.stray = [] ∧
      Restored opts files subdirs log := by
  have aligned : 0 < forkBase → files ≠ [] → first ≤ forkBase := by
    intro forked _
    rw [firstWritableAt, if_pos forked] at low
    exact low
  obtain ⟨log, opened, dense, own, base, locked, kids, clean, restored⟩ :=
    open_dir_dense steady stacked positive aligned subdirs
  refine ⟨log, opened, ⟨⟨dense.positive, dense.ranges, dense.chain, dense.tail, ?_, ?_⟩,
    .inl clean⟩, own, base, locked, kids, clean, restored⟩
  · rw [own, Log.firstWritable, base]
    exact fresh
  · rw [own, base]
    exact covers

theorem open_dir_spec (steady : opts.Steady) (stacked : Stacked (firstWritableAt forkBase) files)
    (subdirs : Bool) : ∃ log, openDir opts forkBase files subdirs = .ok log ∧ log.Tidy ∧
      log.own = joined Segment.payloads files ∧ log.forkBase = forkBase ∧
      log.readOnly = subdirs ∧ log.subdirs = subdirs ∧ log.stray = [] ∧
      Restored opts files subdirs log := by
  have positive : 1 ≤ firstWritableAt forkBase := by
    unfold firstWritableAt
    split_ifs <;> omega
  have covers : forkBase ≤ firstWritableAt forkBase + (joined Segment.payloads files).length := by
    unfold firstWritableAt
    split_ifs <;> omega
  rcases open_dir_from steady stacked positive (Nat.le_refl _) (fun _ => rfl) covers subdirs with
    ⟨log, opened, tidy, own, base, rest⟩
  have first : firstWritableAt forkBase = log.firstWritable := by rw [Log.firstWritable, base]
  rw [first] at tidy
  exact ⟨log, opened, tidy, own, base, rest⟩

end Figwal.Disk
