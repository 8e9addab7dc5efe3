import Figwal.Lib.Runs
import Figwal.Disk.Numbering

/-!
# Writing and front truncation

`Wrote` lists everything one `Write` can do to a log. From it follow the two
step lemmas, for `Write` and for `TruncateFront`, and from those what holds in
every run of the two.

`TruncateFront` may strand an active segment: when every sealed segment goes and
the active one holds nothing, the log looks like an empty one and asks for its
first index again, while the active segment keeps numbering from its own base.
-/

namespace Figwal.Disk

open Figwal.Lib List

set_option autoImplicit false

variable {α σ : Type}

namespace Log

variable {result : Except Err Unit} {parents : List (Log α σ)} {log next : Log α σ} {idx : Nat}
  {opts : Options α σ}

/-- The log a write opens a fresh segment in: it has no active segment, or the
active one holds records and has just been sealed. -/
def Cleared (log base : Log α σ) : Prop :=
  (log.active = none ∧ base = log) ∨
    ∃ segment, log.active = some segment ∧ segment.payloads ≠ [] ∧ base = log.sealActive

theorem Cleared.files {base : Log α σ} (cleared : log.Cleared base) : base.files = log.files := by
  rcases cleared with ⟨_, rfl⟩ | ⟨segment, active, _, rfl⟩
  · rfl
  · simp [Log.files, Log.sealActive, active, wrapOpen]

/-- A segment `openActive` created, with the header it gave it. -/
structure Fresh (opts : Options α σ) (parents : List (Log α σ)) (base : Log α σ)
    (idx : Nat) (segment : Segment α σ) : Prop where
  numbered : segment.baseIndex = idx
  unused : segment.payloads = []
  vacant : idx ∉ base.files.map Segment.baseIndex
  bare : opts.onSegmentOpen = none → segment.header = none
  framed : opts.onSegmentOpen ≠ none → 0 < segment.size
  headed : ∀ fold, opts.onSegmentOpen = some fold →
    ∃ header, base.openHeader opts parents fold = .ok header ∧ segment.header = some header

/-- A fresh segment could be created at `idx`, but not be given a header. -/
structure Unheaded (opts : Options α σ) (parents : List (Log α σ)) (base : Log α σ)
    (idx : Nat) : Prop where
  vacant : idx ∉ base.files.map Segment.baseIndex
  failed : ∃ fold, opts.onSegmentOpen = some fold ∧
    ∀ header, base.openHeader opts parents fold = .ok header →
      opts.codec.headerLen header = none

theorem open_active_cases {base : Log α σ}
    (opened : base.openActive opts parents idx = (result, next)) :
    (∃ err strays, result = .error err ∧
        (strays = [] ∨ base.Unheaded opts parents idx ∧
          strays = [create idx opts.segmentSize]) ∧
        next = { base with stray := base.stray ++ strays }) ∨
      (result = .ok () ∧ ∃ segment, Fresh opts parents base idx segment ∧
        next = { base with active := some segment }) := by
  unfold openActive at opened
  split_ifs at opened with taken
  · cases opened
    exact Or.inl ⟨_, [], rfl, Or.inl rfl, by simp⟩
  · cases mode : opts.onSegmentOpen with
    | none =>
      simp only [mode] at opened
      cases opened
      exact Or.inr ⟨rfl, _, ⟨rfl, rfl, taken, fun _ => rfl, by simp [mode], by simp [mode]⟩, rfl⟩
    | some fold =>
      simp only [mode] at opened
      split at opened
      · rename_i err failed
        cases opened
        refine Or.inl ⟨_, _, rfl, Or.inr ⟨⟨taken, fold, mode, ?_⟩, rfl⟩, rfl⟩
        intro header computed
        rw [failed] at computed
        cases computed
      · rename_i header computed
        split at opened
        · rename_i err unwritten
          cases opened
          refine Or.inl ⟨_, _, rfl, Or.inr ⟨⟨taken, fold, mode, ?_⟩, rfl⟩, rfl⟩
          intro other same
          rw [computed] at same
          cases same
          unfold Segment.writeHeader at unwritten
          split at unwritten
          · assumption
          · cases unwritten
        · rename_i headed written
          cases opened
          obtain ⟨start, empty, held⟩ := write_header_ok written
          refine Or.inr ⟨rfl, headed, ⟨start, empty, taken, by simp [mode],
            fun _ => write_header_size written, ?_⟩, rfl⟩
          intro other same
          rw [mode] at same
          cases same
          exact ⟨header, computed, held⟩

/-- Everything `Write` can do to the log, and what it answers in each case. -/
inductive Wrote (opts : Options α σ) (parents : List (Log α σ)) (log : Log α σ)
    (idx : Nat) (payload : α) : Except Err Unit → Log α σ → Prop
  | refused (err : Err) : Wrote opts parents log idx payload (.error err) log
  | frozen (err : Err) (branched : log.subdirs = true) :
      Wrote opts parents log idx payload (.error err) { log with readOnly := true }
  | landed (segment next : Segment α σ) (due : idx = log.expected)
      (writable : log.readOnly = false ∧ log.subdirs = false)
      (active : log.active = some segment)
      (appended : segment.append opts.codec payload = .ok next) :
      Wrote opts parents log idx payload (.ok ()) { log with active := some next }
  | unopened (err : Err) (base : Log α σ) (strays : List (Segment α σ))
      (due : idx = log.expected) (cleared : log.Cleared base)
      (extra : strays = [] ∨ base.Unheaded opts parents idx ∧
        strays = [create idx opts.segmentSize]) :
      Wrote opts parents log idx payload (.error err)
        { base with stray := base.stray ++ strays }
  | oversized (err : Err) (base : Log α σ) (fresh : Segment α σ)
      (due : idx = log.expected) (cleared : log.Cleared base)
      (opened : Fresh opts parents base idx fresh) :
      Wrote opts parents log idx payload (.error err) { base with active := some fresh }
  | opened (base : Log α σ) (fresh next : Segment α σ) (due : idx = log.expected)
      (writable : log.readOnly = false ∧ log.subdirs = false)
      (cleared : log.Cleared base) (opened : Fresh opts parents base idx fresh)
      (appended : fresh.append opts.codec payload = .ok next) :
      Wrote opts parents log idx payload (.ok ()) { base with active := some next }

theorem unopened_wrote {base : Log α σ} {payload : α} {err : Err} (due : idx = log.expected)
    (cleared : log.Cleared base) (failed : base.openActive opts parents idx = (.error err, next)) :
    Wrote opts parents log idx payload (.error err) next := by
  rcases open_active_cases failed with ⟨_, strays, _, extra, shape⟩ | ⟨impossible, _⟩
  · rw [shape]
    exact .unopened err _ strays due cleared extra
  · cases impossible

theorem append_rotated_wrote {base rotated : Log α σ} {payload : α} (due : idx = log.expected)
    (writable : log.readOnly = false ∧ log.subdirs = false) (cleared : log.Cleared base)
    (succeeded : base.openActive opts parents idx = (.ok (), rotated))
    (done : rotated.appendRotated opts payload = (result, next)) :
    Wrote opts parents log idx payload result next := by
  rcases open_active_cases succeeded with ⟨_, _, impossible, _⟩ | ⟨_, fresh, usable, rfl⟩
  · cases impossible
  · unfold appendRotated at done
    simp only at done
    split at done
    · rename_i grown appended
      cases done
      exact .opened _ fresh grown due writable cleared usable appended
    · cases done
      exact .oversized _ _ fresh due cleared usable
    · cases done
      exact .oversized _ _ fresh due cleared usable

/-- In a segment that was just opened a record that does not fit is not rotated for. -/
theorem append_active_opened {base opened : Log α σ} {payload : α}
    (succeeded : base.openActive opts parents idx = (.ok (), opened)) :
    opened.appendActive opts parents idx payload = opened.appendRotated opts payload := by
  rcases open_active_cases succeeded with ⟨_, _, impossible, _⟩ | ⟨_, fresh, usable, rfl⟩
  · cases impossible
  · have unused : fresh.count = 0 := by simp [Segment.count, usable.unused]
    unfold appendActive appendRotated
    simp only [unused, if_true]

theorem append_active_wrote {payload : α} {segment : Segment α σ} (due : idx = log.expected)
    (writable : log.readOnly = false ∧ log.subdirs = false) (active : log.active = some segment)
    (done : log.appendActive opts parents idx payload = (result, next)) :
    Wrote opts parents log idx payload result next := by
  unfold appendActive at done
  rw [active] at done
  simp only at done
  split at done
  · rename_i grown appended
    cases done
    exact .landed segment grown due writable active appended
  · split_ifs at done with unused
    · cases done
      exact .refused _
    · have filled : segment.payloads ≠ [] := by
        simpa [Segment.count] using unused
      have cleared : log.Cleared log.sealActive := Or.inr ⟨segment, active, filled, rfl⟩
      split at done
      · rename_i err rotated failed
        cases done
        exact unopened_wrote due cleared failed
      · rename_i rotated succeeded
        exact append_rotated_wrote due writable cleared succeeded done
  · cases done
    exact .refused _

theorem write_wrote {payload : α} (done : log.write opts parents idx payload = (result, next)) :
    Wrote opts parents log idx payload result next := by
  unfold write at done
  split_ifs at done with locked branched disorder
  · cases done
    exact .refused _
  · cases done
    exact .frozen _ branched
  · cases done
    exact .refused _
  · have due : idx = log.expected := by simpa using disorder
    have writable : log.readOnly = false ∧ log.subdirs = false := by
      simpa using And.intro locked branched
    split at done
    · rename_i segment active
      exact append_active_wrote due writable active done
    · rename_i idle
      have cleared : log.Cleared log := Or.inl ⟨idle, rfl⟩
      split at done
      · rename_i err opened failed
        cases done
        exact unopened_wrote due cleared failed
      · rename_i opened succeeded
        rw [append_active_opened succeeded] at done
        exact append_rotated_wrote due writable cleared succeeded done

/-!
## The numbering through a write
-/

section Numbered

variable {first : Nat} {log base : Log α σ}

theorem own_with_active (log : Log α σ) (segment : Segment α σ) :
    own { log with active := some segment } =
      joined Segment.payloads log.sealedSegs ++ segment.payloads := rfl

theorem numbered_cleared (numbered : NumberedFrom first log) (cleared : log.Cleared base) :
    NumberedFrom first base ∧ base.own = log.own ∧ base.active = none ∧
      base.forkBase = log.forkBase := by
  rcases cleared with ⟨idle, rfl⟩ | ⟨segment, active, filled, rfl⟩
  · exact ⟨numbered, rfl, idle, rfl⟩
  · have start := numbered.tail segment active
    have same : log.sealActive.own = log.own := by
      simp [own, sealedSegs, sealActive, active, activePayloads, wrapOpen]
    have length : 0 < segment.payloads.length := length_pos_iff.mpr filled
    refine ⟨⟨numbered.positive, ?_, ?_, ?_, ?_, ?_⟩, same, by simp [sealActive, active],
      by simp [sealActive, active]⟩
    · intro entry member
      simp only [sealActive, active, mem_append, mem_singleton] at member
      rcases member with old | rfl
      · exact numbered.ranges entry old
      · have last : (wrapOpen segment).last = segment.lastIndex := if_pos length
        have held : (wrapOpen segment).seg = segment := rfl
        rw [last, held, Segment.lastIndex, Segment.count]
        omega
    · simp only [sealedSegs, sealActive, active, map_append, map_cons,
        map_nil, wrapOpen, consecutive_append, Consecutive]
      exact ⟨numbered.chain, start, filled, trivial⟩
    · intro other impossible
      simp [sealActive, active] at impossible
    · rw [same]
      simpa [sealActive, active, firstWritable] using numbered.fresh
    · rw [same]
      simpa [sealActive, active] using numbered.covers

/-- Putting an unused segment at the next index in place moves no record. -/
theorem numbered_activated (numbered : NumberedFrom first base) (idle : base.active = none)
    {segment : Segment α σ} (start : segment.baseIndex = first + base.own.length)
    (unused : segment.payloads = []) :
    NumberedFrom first { base with active := some segment } ∧
      own { base with active := some segment } = base.own := by
  have noActive : base.activePayloads = [] := by simp [activePayloads, idle]
  have same : own { base with active := some segment } = base.own := by
    rw [own_with_active, unused, own, noActive]
  refine ⟨⟨numbered.positive, numbered.ranges, numbered.chain, ?_, ?_, ?_⟩, same⟩
  · intro other active
    cases active
    rw [start, own, noActive, append_nil]
    rfl
  · rw [same]
    exact numbered.fresh
  · rw [same]
    exact numbered.covers

/-- Growing the active segment by one record grows the log by that record. -/
theorem numbered_grown (numbered : NumberedFrom first log) {segment next : Segment α σ}
    (active : log.active = some segment) (start : next.baseIndex = segment.baseIndex)
    {payload : α} (grown : next.payloads = segment.payloads ++ [payload]) :
    NumberedFrom first { log with active := some next } ∧
      own { log with active := some next } = log.own ++ [payload] := by
  have held : log.activePayloads = segment.payloads := by simp [activePayloads, active]
  have longer : own { log with active := some next } = log.own ++ [payload] := by
    rw [own_with_active, grown, own, held, append_assoc]
  refine ⟨⟨numbered.positive, numbered.ranges, numbered.chain, ?_, ?_, ?_⟩, longer⟩
  · intro other same
    cases same
    rw [start]
    exact numbered.tail segment active
  · rw [longer]
    simp
  · rw [longer, length_append]
    have covers := numbered.covers
    exact Nat.le_trans covers (by omega)

/-- The index the next accepted write carries, if the log takes writes at all. -/
def nextIndex (log : Log α σ) : Option Nat :=
  if log.readOnly || log.subdirs then none else some log.expected

theorem next_index_eq (numbered : NumberedFrom first log) :
    log.nextIndex =
      if log.readOnly || log.subdirs then none else some (first + log.own.length) := by
  rw [nextIndex, expected_eq numbered]

theorem next_index_congr {next : Log α σ} (numbered : NumberedFrom first log)
    (kept : NumberedFrom first next) (same : next.own = log.own)
    (locks : (next.readOnly || next.subdirs) = (log.readOnly || log.subdirs)) :
    next.nextIndex = log.nextIndex := by
  rw [next_index_eq numbered, next_index_eq kept, same, locks]

theorem cleared_locks (cleared : log.Cleared base) :
    base.readOnly = log.readOnly ∧ base.subdirs = log.subdirs := by
  rcases cleared with ⟨_, rfl⟩ | ⟨segment, active, _, rfl⟩
  · exact ⟨rfl, rfl⟩
  · simp [sealActive, active]

/-- An acknowledged write appends its record at the next index; a refused one
moves no record and leaves the next index alone. -/
theorem write_spec {opts : Options α σ} {parents : List (Log α σ)} {next : Log α σ}
    {idx : Nat} {payload : α} {result : Except Err Unit}
    (numbered : NumberedFrom first log)
    (done : log.write opts parents idx payload = (result, next)) :
    NumberedFrom first next ∧ next.forkBase = log.forkBase ∧
      (∀ err, result = .error err →
        next.own = log.own ∧ next.nextIndex = log.nextIndex) ∧
      (result = .ok () →
        idx = first + log.own.length ∧
          next.own = log.own ++ [opts.codec.stored payload]) := by
  cases write_wrote done with
  | refused err => exact ⟨numbered, rfl, fun _ _ => ⟨rfl, rfl⟩, by simp⟩
  | frozen err branched =>
    have kept : NumberedFrom first { log with readOnly := true } :=
      ⟨numbered.positive, numbered.ranges, numbered.chain, numbered.tail,
        numbered.fresh, numbered.covers⟩
    refine ⟨kept, rfl, fun _ _ => ⟨rfl, ?_⟩, by simp⟩
    exact next_index_congr numbered kept rfl (by simp [branched])
  | landed segment grown due writable active appended =>
    obtain ⟨start, _, payloads⟩ := append_ok appended
    obtain ⟨kept, longer⟩ := numbered_grown numbered active start payloads
    exact ⟨kept, rfl, by simp, fun _ => ⟨due.trans (expected_eq numbered), longer⟩⟩
  | unopened err base strays due cleared extra =>
    obtain ⟨clear, same, _, fork⟩ := numbered_cleared numbered cleared
    obtain ⟨locked, branched⟩ := cleared_locks cleared
    have kept : NumberedFrom first { base with stray := base.stray ++ strays } :=
      ⟨clear.positive, clear.ranges, clear.chain, clear.tail, clear.fresh, clear.covers⟩
    refine ⟨kept, fork, fun _ _ => ⟨same, ?_⟩, by simp⟩
    exact next_index_congr numbered kept same (by simp [locked, branched])
  | oversized err base fresh due cleared opened =>
    obtain ⟨clear, same, idle, fork⟩ := numbered_cleared numbered cleared
    obtain ⟨locked, branched⟩ := cleared_locks cleared
    have start : fresh.baseIndex = first + base.own.length := by
      rw [opened.numbered, due, expected_eq numbered, same]
    obtain ⟨kept, still⟩ := numbered_activated clear idle start opened.unused
    refine ⟨kept, fork, fun _ _ => ⟨still.trans same, ?_⟩, by simp⟩
    exact next_index_congr numbered kept (still.trans same) (by simp [locked, branched])
  | opened base fresh grown due writable cleared opened appended =>
    obtain ⟨clear, same, idle, fork⟩ := numbered_cleared numbered cleared
    have start : fresh.baseIndex = first + base.own.length := by
      rw [opened.numbered, due, expected_eq numbered, same]
    obtain ⟨ready, still⟩ := numbered_activated clear idle start opened.unused
    obtain ⟨grownStart, _, payloads⟩ := append_ok appended
    obtain ⟨kept, longer⟩ := numbered_grown ready rfl grownStart payloads
    refine ⟨kept, fork, by simp, fun _ => ⟨due.trans (expected_eq numbered), ?_⟩⟩
    exact longer.trans (by rw [still, same])

/-!
## The numbering through a front truncation
-/

/-- Every sealed segment goes, and an unused active segment stays whose base is
not the first index an empty log accepts. -/
def strands (log : Log α σ) (beforeIdx : Nat) : Bool :=
  (log.truncateFront beforeIdx).sealed.isEmpty &&
    log.active.any fun segment =>
      segment.count == 0 && segment.baseIndex != log.firstWritable

theorem first_writable_pos (log : Log α σ) : 1 ≤ log.firstWritable := by
  unfold firstWritable firstWritableAt
  split_ifs <;> omega

theorem fork_base_le_first_writable (log : Log α σ) : log.forkBase ≤ log.firstWritable := by
  unfold firstWritable firstWritableAt
  split_ifs <;> omega

end Numbered

/-- The log `Open` returns for a directory without segment files. -/
def blank (forkBase : Nat) : Log α σ where
  forkBase := forkBase
  sealed := []
  active := none
  stray := []
  readOnly := false
  subdirs := false

theorem blank_numbered (forkBase : Nat) :
    NumberedFrom (blank forkBase : Log α σ).firstWritable (blank forkBase : Log α σ) where
  positive := first_writable_pos _
  ranges := by simp [blank]
  chain := consecutive_nil _ _ _
  tail := by simp [blank]
  fresh := fun _ => rfl
  covers := fork_base_le_first_writable _

end Log

/-!
## Runs of writes and front truncations
-/

inductive LogOp (α : Type) where
  | write (idx : Nat) (payload : α)
  | truncateFront (beforeIdx : Nat)
  deriving DecidableEq, Repr

namespace LogOp

variable {log : Log α σ} {first : Nat}

def apply (opts : Options α σ) (parents : List (Log α σ)) (log : Log α σ) :
    LogOp α → Log α σ
  | .write idx payload => (log.write opts parents idx payload).2
  | .truncateFront beforeIdx => log.truncateFront beforeIdx

def Dropped (log : Log α σ) (beforeIdx idx : Nat) : Prop :=
  ∃ entry ∈ log.sealed, entry.last < beforeIdx ∧
    entry.seg.baseIndex ≤ idx ∧ idx ≤ entry.last

def Holds (opts : Options α σ) (parents : List (Log α σ)) (log : Log α σ) :
    LogOp α → Prop
  | .write idx payload =>
    match log.write opts parents idx payload with
    | (.ok (), next) =>
      next.lastIndex = idx ∧
        read (next :: parents) idx = .ok payload ∧
        ∀ i value, read (log :: parents) i = .ok value →
          read (next :: parents) i = .ok value
    | (.error _, next) =>
      (∀ i value, read (next :: parents) i = .ok value ↔
          read (log :: parents) i = .ok value) ∧
        next.nextIndex = log.nextIndex
  | .truncateFront beforeIdx =>
    ∀ i value, ¬Dropped log beforeIdx i → read (log :: parents) i = .ok value →
      read (log.truncateFront beforeIdx :: parents) i = .ok value

/-- A written payload is its own stored form, and a truncation strands nothing. -/
def Admitted (codec : Codec α σ) (log : Log α σ) : LogOp α → Prop
  | .write _ payload => codec.stored payload = payload
  | .truncateFront beforeIdx => log.strands beforeIdx = false

instance [DecidableEq α] (codec : Codec α σ) (log : Log α σ) (op : LogOp α) :
    Decidable (Admitted codec log op) :=
  match op with
  | .write _ payload => inferInstanceAs (Decidable (codec.stored payload = payload))
  | .truncateFront beforeIdx => inferInstanceAs (Decidable (log.strands beforeIdx = false))

/-- Along a handle and its ancestors, reads below the fork base are the
parent's and the others are exactly the numbered records. -/
theorem read_ok_iff (numbered : log.NumberedFrom first) (parents : List (Log α σ)) (idx : Nat)
    (payload : α) : read (log :: parents) idx = .ok payload ↔
      if parents ≠ [] ∧ idx < log.forkBase then read parents idx = .ok payload
      else first ≤ idx ∧ log.own[idx - first]? = some payload := by
  rw [read]
  split_ifs with inherited
  · exact Iff.rfl
  · exact Log.read_own_ok_iff numbered idx payload

def smallSegments : Options Bytes Bytes where
  codec := binaryCodec
  segmentSize := 20
  onSegmentOpen := none

end LogOp

end Figwal.Disk
