import Figwal.Lib.JsonStrings
import Figwal.Lib.Runs
import Figwal.Codec.Frames

/-!
# The payload cache

A segment file with its offsets and, while it is resident, the block of its payloads. A
block is loaded from the file, and an append to the file extends the resident block by the
bytes it was given. Blocks come and go with the budget, with sweeps and with other
segments; a read answers from the block if there is one and from the file otherwise.
-/

namespace Figwal.Codec

open Figwal.Lib List

set_option autoImplicit false

inductive SegmentErr where
  | readOnly
  | full
  | notEmpty
  | outOfRange
  | framing (err : FrameErr)
  deriving DecidableEq, Repr

structure SegmentFile where
  file : Text
  baseIndex : Nat
  maxSize : Int
  size : Nat
  offsets : List Nat
  hasHeader : Bool
  readOnly : Bool
  block : Option (List Text)
  deriving DecidableEq, Repr

namespace SegmentFile

def create (baseIndex : Nat) (maxSize : Int) : SegmentFile where
  file := []
  baseIndex := baseIndex
  maxSize := maxSize
  size := 0
  offsets := []
  hasHeader := false
  readOnly := false
  block := none

def count (segment : SegmentFile) : Nat := segment.offsets.length

variable (codec : FrameCodec)

/-- What `ReadFrame` yields from the file for an entry. -/
def readFile (segment : SegmentFile) (idx : Nat) : Except FrameErr Text :=
  codec.readFrame (sliceAt segment.file segment.offsets segment.size idx)

/-- The loop of `readAllPayloads`. -/
def readPayloads (segment : SegmentFile) : Nat → Nat → Except FrameErr (List Text)
  | 0, _ => .ok []
  | left + 1, idx =>
    match segment.readFile codec idx with
    | .error err => .error err
    | .ok payload =>
      match segment.readPayloads left (idx + 1) with
      | .error err => .error err
      | .ok later => .ok (payload :: later)

def readAllPayloads (segment : SegmentFile) : Except FrameErr (List Text) :=
  segment.readPayloads codec segment.count 0

def cachedPayloads (budget : Int) (segment : SegmentFile) : SegmentFile :=
  match segment.block with
  | some _ => segment
  | none =>
    if budget ≤ 0 then segment
    else
      match segment.readAllPayloads codec with
      | .error _ => segment
      | .ok payloads => { segment with block := some payloads }

/-- `ReadIndex` once the block has been looked for. -/
def readCached (segment : SegmentFile) (idx : Nat) : Except SegmentErr Text :=
  match segment.block.bind fun block => block[idx]? with
  | some payload => .ok payload
  | none => (segment.readFile codec idx).mapError .framing

def readIndex (budget : Int) (segment : SegmentFile) (idx : Nat) :
    Except SegmentErr Text × SegmentFile :=
  if segment.count ≤ idx then (.error .outOfRange, segment)
  else
    let loaded := segment.cachedPayloads codec budget
    (loaded.readCached codec idx, loaded)

/-- `Append`; the frame goes to the end of the frames, and the bytes as they were given
into the block. -/
def append (segment : SegmentFile) (payload : Text) : Except SegmentErr Unit × SegmentFile :=
  if segment.readOnly then (.error .readOnly, segment)
  else
    match codec.frame (segment.baseIndex + segment.count) payload with
    | .error err => (.error (.framing err), segment)
    | .ok frame =>
      if 0 < segment.maxSize ∧ segment.maxSize < (segment.size + frame.length : Nat) then
        (.error .full, segment)
      else
        (.ok (), { segment with
          file := segment.file.take segment.size ++ frame ++
            segment.file.drop (segment.size + frame.length)
          size := segment.size + frame.length
          offsets := segment.offsets ++ [segment.size]
          block := segment.block.map (· ++ [payload]) })

def dropCache (segment : SegmentFile) : SegmentFile :=
  { segment with block := none }

/-- The scan of `recover`: where the entries start, and how long each is. -/
def scanFile (segment : SegmentFile) : Nat × List Nat :=
  let lengths := scanLengths codec.nextFrame segment.file.length segment.file
  if segment.hasHeader then (lengths.headD 0, lengths.tail) else (0, lengths)

/-- `Close` and `Open`: the frames are found again, and a torn tail is cut off unless the
segment is read-only. -/
def reopen (segment : SegmentFile) : SegmentFile :=
  let found := segment.scanFile codec
  let size := found.1 + total found.2
  { segment with
    file := if segment.readOnly then segment.file else segment.file.take size
    size := size
    offsets := offsetsFrom found.1 found.2
    block := none }

end SegmentFile

/-- A segment under the budget all segments share, and how many entries were appended to
it. -/
structure CacheState where
  segment : SegmentFile
  budget : Int
  appended : Nat

inductive CacheOp where
  | append (payload : Text)
  | readIndex (idx : Nat)
  | evict
  | dropCache
  | sweepIdle (idle : Bool)
  | setBudget (bytes : Int) (evicted : Bool)
  | reopen

/-- `evict` is what other segments' blocks, or the segment's own, make the accountant do;
how a sweep or a smaller budget finds this segment is part of the operation. -/
def CacheState.step (codec : FrameCodec) (state : CacheState) : CacheOp → CacheState
  | .append payload =>
    let done := state.segment.append codec payload
    { state with
      segment := done.2
      appended := match done.1 with
        | .ok () => state.appended + 1
        | .error _ => state.appended }
  | .readIndex idx => { state with segment := (state.segment.readIndex codec state.budget idx).2 }
  | .evict => { state with segment := state.segment.dropCache }
  | .dropCache => { state with segment := state.segment.dropCache }
  | .sweepIdle idle =>
    { state with segment := if idle then state.segment.dropCache else state.segment }
  | .setBudget bytes evicted =>
    if bytes < 0 then state
    else
      { state with
        budget := bytes
        segment := if bytes = 0 ∨ evicted then state.segment.dropCache else state.segment }
  | .reopen => { state with segment := state.segment.reopen codec }

def FrameCodec.Exact (codec : FrameCodec) (idx : Nat) (payload : Text) : Prop :=
  match codec.frame idx payload with
  | .error _ => True
  | .ok frame => codec.readFrame frame = .ok payload

/-- The payload's frame is found again, and while the block is resident it is read back as
the payload. -/
def Extends (format : Format) (state : CacheState) : CacheOp → Prop
  | .append payload =>
    format.Short payload ∧ (state.segment.block ≠ none →
      format.codec.Exact (state.segment.baseIndex + state.segment.count) payload)
  | _ => True

instance (format : Format) (payload : Text) : Decidable (format.Short payload) := by
  cases format <;> unfold Format.Short <;> infer_instance

instance (codec : FrameCodec) (idx : Nat) (payload : Text) :
    Decidable (codec.Exact idx payload) := by
  unfold FrameCodec.Exact
  cases codec.frame idx payload <;> infer_instance

instance (format : Format) (state : CacheState) (op : CacheOp) :
    Decidable (Extends format state op) := by
  cases op <;> unfold Extends <;> infer_instance

def Invisible (codec : FrameCodec) (state : CacheState) : Prop :=
  state.segment.count = state.appended ∧ ∀ idx < state.appended,
    ∃ payload, state.segment.readFile codec idx = .ok payload ∧
      (state.segment.readIndex codec state.budget idx).1 = .ok payload

/-- A segment holds these frames, and its block, if there is one, what they are read back
as. -/
structure Holds (format : Format) (state : CacheState) (header : Text) (frames : List Text) :
    Prop where
  bytes : ∃ rest, state.segment.file = header ++ frames.flatten ++ rest ∧
    format.codec.nextFrame rest = none ∧ (state.segment.readOnly = false → rest = [])
  size : state.segment.size = header.length + frames.flatten.length
  offsets : state.segment.offsets = offsetsFrom header.length (frames.map List.length)
  framed : ∀ frame ∈ frames, Framed format.codec.nextFrame frame ∧
    ∃ stored, format.codec.readFrame frame = .ok stored
  headed : if state.segment.hasHeader then Framed format.codec.nextFrame header else header = []
  cached : ∀ block, state.segment.block = some block →
    block.map Except.ok = frames.map format.codec.readFrame
  counted : state.appended = frames.length

section Cache

variable {format : Format} {state : CacheState} {header : Text} {frames : List Text}

theorem format_next_nil (format : Format) : format.codec.nextFrame [] = none := by
  cases format with
  | binary => rfl
  | jsonl libraries => rfl

namespace Holds

variable {frame : Text}

section

variable (holds : Holds format state header frames)

include holds

theorem count_eq : state.segment.count = frames.length := by
  rw [SegmentFile.count, holds.offsets, offsets_length, length_map]

theorem read_file {idx : Nat} (there : frames[idx]? = some frame) :
    state.segment.readFile format.codec idx = format.codec.readFrame frame := by
  rcases holds.bytes with ⟨rest, file, _⟩
  rw [SegmentFile.readFile, file, holds.offsets, holds.size, slice_at_frame there]

theorem read_payloads {left idx : Nat} (all : idx + left = frames.length) :
    ∃ payloads, state.segment.readPayloads format.codec left idx = .ok payloads ∧
      payloads.map Except.ok = (frames.drop idx).map format.codec.readFrame := by
  induction left generalizing idx with
  | zero =>
    refine ⟨[], rfl, ?_⟩
    rw [drop_of_length_le (by omega)]
    rfl
  | succ left ih =>
    have inside : idx < frames.length := by omega
    have there : frames[idx]? = some frames[idx] := getElem?_eq_getElem inside
    rcases (holds.framed _ (getElem_mem inside)).2 with ⟨stored, read⟩
    rcases ih (by omega : idx + 1 + left = frames.length) with ⟨later, loaded, same⟩
    refine ⟨stored :: later, ?_, ?_⟩
    · rw [SegmentFile.readPayloads, holds.read_file there, read]
      simp only [loaded]
    · rw [drop_eq_getElem_cons inside, map_cons, map_cons, read, same]

theorem loaded :
    Holds format { state with
      segment := state.segment.cachedPayloads format.codec state.budget } header frames := by
  rw [SegmentFile.cachedPayloads]
  split
  · exact holds
  · split_ifs
    · exact holds
    · split
      · exact holds
      · rename_i payloads read
        rcases @read_payloads _ _ _ _ holds frames.length 0 (Nat.zero_add _) with
          ⟨stored, loaded, same⟩
        rw [SegmentFile.readAllPayloads, holds.count_eq, loaded] at read
        cases read
        refine ⟨holds.bytes, holds.size, holds.offsets, holds.framed, holds.headed, ?_,
          holds.counted⟩
        intro block resident
        cases resident
        exact same

theorem read_cached {idx : Nat} {stored : Text} (there : frames[idx]? = some frame)
    (read : format.codec.readFrame frame = .ok stored) :
    state.segment.readCached format.codec idx = .ok stored := by
  rw [SegmentFile.readCached]
  cases resident : state.segment.block with
  | none =>
    rw [holds.read_file there, read]
    rfl
  | some block =>
    have same := congrArg (fun list => list[idx]?) (holds.cached block resident)
    simp only [getElem?_map, there, Option.map_some, read] at same
    rcases Option.map_eq_some_iff.mp same with ⟨payload, inside, equal⟩
    cases equal
    simp only [Option.bind_some, inside]

theorem invisible : Invisible format.codec state := by
  refine ⟨holds.count_eq.trans holds.counted.symm, fun idx inside => ?_⟩
  rw [holds.counted] at inside
  have there : frames[idx]? = some frames[idx] := getElem?_eq_getElem inside
  rcases (holds.framed _ (getElem_mem inside)).2 with ⟨stored, read⟩
  refine ⟨stored, (holds.read_file there).trans read, ?_⟩
  rw [SegmentFile.readIndex, holds.count_eq, if_neg (by omega)]
  exact holds.loaded.read_cached there read

theorem dropped : Holds format { state with segment := state.segment.dropCache } header frames :=
  ⟨holds.bytes, holds.size, holds.offsets, holds.framed, holds.headed,
    (fun _ resident => nomatch resident), holds.counted⟩

theorem appended {payload : Text} (short : format.Short payload)
    (exactly : state.segment.block ≠ none →
      format.codec.Exact (state.segment.baseIndex + state.segment.count) payload)
    (writable : state.segment.readOnly = false)
    (framed : format.codec.frame (state.segment.baseIndex + state.segment.count) payload =
      .ok frame) : Holds format { state with
      segment := { state.segment with
        file := state.segment.file.take state.segment.size ++ frame ++
          state.segment.file.drop (state.segment.size + frame.length)
        size := state.segment.size + frame.length
        offsets := state.segment.offsets ++ [state.segment.size]
        block := state.segment.block.map (· ++ [payload]) }
      appended := state.appended + 1 } header (frames ++ [frame]) := by
  have one := format_framed short framed
  have size := holds.size
  refine ⟨⟨[], ?_, format_next_nil format, fun _ => rfl⟩, ?_, ?_, ?_, holds.headed, ?_, ?_⟩
  · rcases holds.bytes with ⟨rest, file, _, none⟩
    rw [none writable, append_nil] at file
    rw [file, size, ← length_append, take_length, drop_of_length_le (by omega)]
    simp
  · rw [size, flatten_concat, length_append, Nat.add_assoc]
  · rw [map_append, offsets_append, total_lengths, holds.offsets, size]
    rfl
  · intro other member
    rcases mem_append.mp member with old | new
    · exact holds.framed other old
    · rw [mem_singleton.mp new]
      exact one
  · intro block resident
    rcases Option.map_eq_some_iff.mp resident with ⟨before, held, rfl⟩
    have read := exactly (by rw [held]; simp)
    rw [FrameCodec.Exact, framed] at read
    rw [map_append, map_append, holds.cached before held, map_cons, map_cons,
      show format.codec.readFrame frame = .ok payload from read]
    rfl
  · rw [holds.counted, length_append]
    rfl

theorem scan_file :
    state.segment.scanFile format.codec = (header.length, frames.map List.length) := by
  rcases holds.bytes with ⟨rest, file, stops, _⟩
  have headed := holds.headed
  have each : ∀ frame ∈ frames, Framed format.codec.nextFrame frame := fun frame member =>
    (holds.framed frame member).1
  rw [SegmentFile.scanFile]
  split_ifs at headed with lead
  · have all : ∀ frame ∈ header :: frames, Framed format.codec.nextFrame frame :=
      forall_mem_cons.mpr ⟨headed, each⟩
    have long := framed_length all
    rw [← flatten_cons] at file
    have scanned := @scan_lengths_flatten _ _ _ all rest stops state.segment.file.length (by
      rw [file, length_append]
      omega)
    rw [← file] at scanned
    simp only [scanned, lead, if_true]
    rfl
  · have long := framed_length each
    rw [headed, nil_append] at file
    have scanned := @scan_lengths_flatten _ _ _ each rest stops state.segment.file.length (by
      rw [file, length_append]
      omega)
    rw [← file] at scanned
    simp only [scanned, lead, Bool.false_eq_true, if_false, headed]
    rfl

theorem reopened :
    Holds format { state with segment := state.segment.reopen format.codec } header frames := by
  have found := holds.scan_file
  have size : (state.segment.scanFile format.codec).1 + total
      (state.segment.scanFile format.codec).2 =
      header.length + frames.flatten.length := by
    rw [found, total_lengths]
  refine ⟨?_, size, ?_, holds.framed, holds.headed, (fun _ resident => nomatch resident),
    holds.counted⟩
  · rcases holds.bytes with ⟨rest, file, stops, none⟩
    by_cases locked : state.segment.readOnly = true
    · refine ⟨rest, ?_, stops, none⟩
      change (if state.segment.readOnly then _ else _) = _
      rw [if_pos locked]
      exact file
    · refine ⟨[], ?_, format_next_nil format, fun _ => rfl⟩
      change (if state.segment.readOnly then _ else _) = _
      rw [if_neg locked, size, file, ← length_append, take_left, append_nil]
  · change offsetsFrom (state.segment.scanFile format.codec).1 _ = _
    rw [found]

/-- Only an append changes the frames. -/
theorem quiet {op : CacheOp} (silent : ∀ payload, op ≠ .append payload) :
    Holds format (state.step format.codec op) header frames := by
  cases op with
  | append payload => exact absurd rfl (silent payload)
  | readIndex idx =>
    rw [CacheState.step, SegmentFile.readIndex]
    split_ifs
    · exact holds
    · exact holds.loaded
  | evict => exact holds.dropped
  | dropCache => exact holds.dropped
  | sweepIdle idle =>
    rw [CacheState.step]
    split_ifs
    · exact holds.dropped
    · exact holds
  | setBudget bytes evicted =>
    rw [CacheState.step]
    split_ifs
    · exact holds
    · exact ⟨holds.bytes, holds.size, holds.offsets, holds.framed, holds.headed,
        (fun _ resident => nomatch resident), holds.counted⟩
    · exact ⟨holds.bytes, holds.size, holds.offsets, holds.framed, holds.headed,
        holds.cached, holds.counted⟩
  | reopen => exact holds.reopened

theorem step {op : CacheOp} (extend : Extends format state op) :
    ∃ later, Holds format (state.step format.codec op) header later := by
  cases op with
  | append payload =>
    rw [CacheState.step, SegmentFile.append]
    by_cases locked : state.segment.readOnly = true
    · rw [if_pos locked]
      exact ⟨frames, holds⟩
    · rw [if_neg locked]
      cases framed : format.codec.frame (state.segment.baseIndex + state.segment.count) payload with
      | error err => exact ⟨frames, holds⟩
      | ok frame =>
        simp only
        split_ifs
        · exact ⟨frames, holds⟩
        · exact ⟨_, holds.appended extend.1 extend.2 (Bool.not_eq_true _ ▸ locked) framed⟩
  | _ => exact ⟨frames, holds.quiet nofun⟩

end

end Holds

end Cache

/-- In every history of a segment whose appends meet the condition, every entry reads as
the file has it. -/
theorem cache_invisible {format : Format} {state : CacheState} {header : Text}
    {frames : List Text} (holds : Holds format state header frames) {run : List CacheOp}
    (meets : EveryStep (CacheState.step format.codec) (Extends format) state run) :
    Invisible format.codec (run.foldl (CacheState.step format.codec) state) := by
  rcases invariant_after (CacheState.step format.codec)
    (fun state => ∃ frames, Holds format state header frames)
    (fun state op held here => held.elim fun _ now => now.step here) ⟨frames, holds⟩ meets with
    ⟨later, after⟩
  exact after.invisible

theorem created_holds (format : Format) (baseIndex : Nat) (maxSize budget : Int) :
    Holds format ⟨.create baseIndex maxSize, budget, 0⟩ [] [] where
  bytes := ⟨[], rfl, format_next_nil format, fun _ => rfl⟩
  size := rfl
  offsets := rfl
  framed := fun _ member => absurd member not_mem_nil
  headed := rfl
  cached := fun _ resident => nomatch resident
  counted := rfl

def zeroDigest : Digest where
  hashCanonical _ := List.replicate 16 48
  hash_length _ := length_replicate
  hash_plain _ := by decide

def sampleFormat : Format :=
  .jsonl ⟨byteStrings, zeroDigest⟩

def spacedRun : List CacheOp :=
  [.append (ascii "\x7b\"a\":1\x7d"), .readIndex 0, .append (ascii "\x7b \"b\": 2\x7d")]

/-- The entry reads as it was appended, until the block is gone; the file has had its
canonical form all along. -/
theorem resident_append_is_raw :
    let state := spacedRun.foldl (CacheState.step sampleFormat.codec) ⟨.create 1 0, 100, 0⟩
    (state.segment.readIndex sampleFormat.codec state.budget 1).1 =
        .ok (ascii "\x7b \"b\": 2\x7d") ∧
      state.segment.readFile sampleFormat.codec 1 = .ok (ascii "\x7b\"b\":2\x7d") ∧
      (state.segment.dropCache.readIndex sampleFormat.codec state.budget 1).1 =
        .ok (ascii "\x7b\"b\":2\x7d") ∧
      ¬Invisible sampleFormat.codec state := by
  have cached : ∀ state, state = spacedRun.foldl (CacheState.step sampleFormat.codec)
      ⟨.create 1 0, 100, 0⟩ → state.appended = 2 ∧
        (state.segment.readIndex sampleFormat.codec state.budget 1).1 =
          .ok (ascii "\x7b \"b\": 2\x7d") ∧
        state.segment.readFile sampleFormat.codec 1 = .ok (ascii "\x7b\"b\":2\x7d") ∧
        (state.segment.dropCache.readIndex sampleFormat.codec state.budget 1).1 =
          .ok (ascii "\x7b\"b\":2\x7d") := by
    rintro _ rfl
    decide +kernel
  rcases cached _ rfl with ⟨two, read, file, dropped⟩
  refine ⟨read, file, dropped, fun invisible => ?_⟩
  rcases invisible.2 1 (by rw [two]; decide) with ⟨payload, fromFile, fromCache⟩
  rw [file] at fromFile
  rw [read] at fromCache
  cases fromFile
  exact absurd fromCache (by decide)

/-- Canonical entries under a block that comes and goes, and others without one. -/
def compactRun : List CacheOp :=
  [.append (ascii "\x7b\"a\": 1\x7d"), .readIndex 0, .append (ascii "\x7b\"b\":2\x7d"), .evict,
    .append (ascii "\x7b\x7d "), .setBudget 0 false, .readIndex 1, .setBudget 50 false,
    .readIndex 2,
    .sweepIdle true, .reopen, .readIndex 0]

theorem compact_run_invisible :
    (compactRun.foldl (CacheState.step sampleFormat.codec) ⟨.create 1 0, 100, 0⟩).appended = 3 ∧
    Invisible sampleFormat.codec
      (compactRun.foldl (CacheState.step sampleFormat.codec) ⟨.create 1 0, 100, 0⟩) := by
  exact ⟨by decide +kernel, cache_invisible (created_holds sampleFormat 1 0 100)
    (by decide +kernel)⟩

end Figwal.Codec
