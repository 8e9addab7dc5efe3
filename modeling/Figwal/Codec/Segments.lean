import Figwal.Codec.Cache
import Figwal.Disk.Segment

/-!
# Segment files and the segments of a log

The log layers work with a `Disk.Segment`, which has the payloads its frames are read back
as and no block. A segment file with its offsets and a block that comes and goes answers
every call as that segment does, as long as what is appended to it is in stored form.
-/

namespace Figwal.Codec

open Figwal.Lib List

set_option autoImplicit false

/-- What a frame of the payload is read back as. -/
def Format.stored : Format → Text → Text
  | .binary, payload => payload
  | .jsonl libraries, payload =>
    match decodeJSONObject libraries payload with
    | .ok members => marshalCanonical libraries members
    | .error _ => payload

abbrev Format.Payload (format : Format) := { payload : Text // format.Short payload }

def Format.fileExt : Format → String
  | .binary => ".seg"
  | .jsonl _ => ".jsonl"

section Stored

variable {format : Format} {payload : Text}

theorem read_stored {idx : Nat} {line : Text} (short : format.Short payload)
    (framed : format.codec.frame idx payload = .ok line) :
    format.codec.readFrame line = .ok (format.stored payload) := by
  cases format with
  | binary => exact @binary_read idx _ _ short framed
  | jsonl libraries =>
    rcases frame_line framed with ⟨members, _, decoded, _⟩
    rw [Format.stored, decoded]
    exact decode_line_frame decoded framed false

theorem stored_short (short : format.Short payload) : format.Short (format.stored payload) := by
  cases format with
  | binary => exact short
  | jsonl libraries => trivial

theorem stored_stored (format : Format) (payload : Text) :
    format.stored (format.stored payload) = format.stored payload := by
  cases format with
  | binary => rfl
  | jsonl libraries =>
    cases decoded : decodeJSONObject libraries payload with
    | error err => simp only [Format.stored, decoded]
    | ok members =>
      have again := decode_marshal (decode_canonical decoded) [] (by simp [StopsNumber])
      rw [append_nil] at again
      simp only [Format.stored, decoded, again]

end Stored

namespace Format

variable (format : Format)

def frameLen (idx : Nat) (payload : format.Payload) : Option Nat :=
  (format.codec.frame idx payload.1).toOption.map length

def keep (payload : format.Payload) : format.Payload :=
  ⟨format.stored payload.1, stored_short payload.2⟩

theorem frame_len_pos {idx length : Nat} {payload : format.Payload}
    (framed : format.frameLen idx payload = some length) : 0 < length := by
  obtain ⟨line, done, rfl⟩ := Option.map_eq_some_iff.mp framed
  cases shape : format.codec.frame idx payload.1 with
  | error err =>
    rw [shape] at done
    cases done
  | ok other =>
    rw [shape] at done
    cases done
    exact (format_framed payload.2 shape).1.1

/-- The codec of a format as the log layers use it. -/
def segmentCodec : Disk.Codec format.Payload format.Payload where
  fileExt := format.fileExt
  stored := format.keep
  frameLen := format.frameLen
  storedHeader := format.keep
  headerLen := format.frameLen 0
  nilHeader := ⟨[], by cases format <;> simp [Short]⟩
  stored_stored payload := Subtype.ext (Codec.stored_stored format payload.1)
  storedHeader_storedHeader payload := Subtype.ext (Codec.stored_stored format payload.1)
  headerLen_pos := format.frame_len_pos

end Format

theorem binary_segment_codec : Format.binary.segmentCodec = Disk.binaryCodec := by
  have length : Format.binary.frameLen = fun _ payload =>
      some (Disk.headerSize + Disk.byteCount payload) := by
    funext idx payload
    exact congrArg some (@binary_frame idx payload.1 _ rfl).2
  simp only [Format.segmentCodec, length]
  rfl

/-- The file and its block stand for a segment of the log layers. -/
structure Presents (format : Format) (state : CacheState)
    (segment : Disk.Segment format.Payload format.Payload) : Prop where
  held : ∃ header frames, Holds format state header frames ∧
    frames.map format.codec.readFrame = segment.payloads.map fun payload => .ok payload.1
  baseIndex : state.segment.baseIndex = segment.baseIndex
  maxSize : state.segment.maxSize = segment.maxSize
  size : state.segment.size = segment.size
  writable : state.segment.readOnly = false

theorem created_presents (format : Format) (baseIndex : Nat) (maxSize budget : Int) :
    Presents format ⟨.create baseIndex maxSize, budget, 0⟩ (Disk.create baseIndex maxSize) :=
  ⟨⟨[], [], created_holds format baseIndex maxSize budget, rfl⟩, rfl, rfl, rfl, rfl⟩

theorem step_fixed (codec : FrameCodec) (state : CacheState) (op : CacheOp) :
    (state.step codec op).segment.baseIndex = state.segment.baseIndex ∧
      (state.step codec op).segment.maxSize = state.segment.maxSize ∧
      (state.step codec op).segment.readOnly = state.segment.readOnly := by
  cases op <;> simp only [CacheState.step, SegmentFile.append, SegmentFile.readIndex,
    SegmentFile.cachedPayloads, SegmentFile.dropCache, SegmentFile.reopen, and_self] <;>
    repeat' (first | exact ⟨rfl, rfl, rfl⟩ | split)

/-- What is appended is in stored form. -/
def CacheOp.Canonical (format : Format) : CacheOp → Prop
  | .append payload => format.Short payload ∧ format.stored payload = payload
  | _ => True

/-- Only an append changes the segment a file stands for. -/
def CacheOp.onSegment (format : Format) (segment : Disk.Segment format.Payload format.Payload) :
    CacheOp → Disk.Segment format.Payload format.Payload
  | .append payload =>
    if short : format.Short payload then
      (segment.append format.segmentCodec ⟨payload, short⟩).toOption.getD segment
    else segment
  | _ => segment

namespace Presents

variable {format : Format} {state : CacheState}
  {segment : Disk.Segment format.Payload format.Payload}

section

variable (presents : Presents format state segment)

include presents

/-- Whether a block is resident or not, an entry is read as the segment has it. -/
theorem read (idx : Nat) :
    (state.segment.readIndex format.codec state.budget idx).1.toOption =
      (segment.readIndex idx).toOption.map Subtype.val := by
  obtain ⟨header, frames, holds, same⟩ := presents.held
  have count : frames.length = segment.payloads.length := by
    simpa using congrArg List.length same
  rw [SegmentFile.readIndex, holds.count_eq, Disk.Segment.readIndex]
  by_cases inside : idx < frames.length
  · have there : frames[idx]? = some frames[idx] := getElem?_eq_getElem inside
    have listed := congrArg (fun list => list[idx]?) same
    simp only [getElem?_map, there, Option.map_some] at listed
    obtain ⟨payload, held, entry⟩ := Option.map_eq_some_iff.mp listed.symm
    have answer := holds.loaded.read_cached there entry.symm
    rw [if_neg (by omega), held]
    change (SegmentFile.readCached _ _ _).toOption = _
    rw [answer]
    rfl
  · rw [if_pos (by omega), getElem?_eq_none (by omega)]
    rfl

/-- Either both take the record, and the file stands for the segment still, or both refuse
it. -/
theorem append (payload : format.Payload) (canonical : format.stored payload.1 = payload.1) :
    (∃ next, segment.append format.segmentCodec payload = .ok next ∧
        (state.segment.append format.codec payload.1).1 = .ok () ∧
        Presents format (state.step format.codec (.append payload.1)) next) ∨
      ∃ err fault, segment.append format.segmentCodec payload = .error err ∧
        state.segment.append format.codec payload.1 = (.error fault, state.segment) := by
  obtain ⟨header, frames, holds, same⟩ := presents.held
  have count : segment.count = state.segment.count := by
    have length := congrArg List.length same
    rw [length_map, length_map] at length
    rw [holds.count_eq, length]
    rfl
  have unlocked : ¬state.segment.readOnly = true := by rw [presents.writable]; simp
  rw [CacheState.step, SegmentFile.append, if_neg unlocked, Disk.Segment.append, count,
    ← presents.baseIndex, ← presents.maxSize, ← presents.size]
  cases framed : format.codec.frame (state.segment.baseIndex + state.segment.count) payload.1 with
  | error err =>
    right
    have none : format.segmentCodec.frameLen (state.segment.baseIndex + state.segment.count)
        payload = none := by
      change (format.codec.frame _ _).toOption.map length = _
      rw [framed]
      rfl
    rw [none]
    exact ⟨_, _, rfl, rfl⟩
  | ok frame =>
    have some : format.segmentCodec.frameLen (state.segment.baseIndex + state.segment.count)
        payload = some frame.length := by
      change (format.codec.frame _ _).toOption.map length = _
      rw [framed]
      rfl
    simp only [some]
    split_ifs with full
    · exact Or.inr ⟨_, _, rfl, rfl⟩
    · have back := read_stored payload.2 framed
      have exactly : format.codec.Exact (state.segment.baseIndex + state.segment.count)
          payload.1 := by
        rw [FrameCodec.Exact, framed]
        exact canonical ▸ back
      refine Or.inl ⟨_, rfl, rfl, ?_, rfl, rfl, rfl, presents.writable⟩
      refine ⟨header, _, holds.appended payload.2 (fun _ => exactly) presents.writable framed, ?_⟩
      rw [map_append, map_append, same, map_cons, back]
      rfl

end

theorem quiet {op : CacheOp} (presents : Presents format state segment)
    (silent : ∀ payload, op ≠ .append payload) :
    Presents format (state.step format.codec op) segment := by
  obtain ⟨header, frames, holds, same⟩ := presents.held
  obtain ⟨base, most, locked⟩ := step_fixed format.codec state op
  have kept := holds.quiet silent
  exact ⟨⟨header, frames, kept, same⟩, base.trans presents.baseIndex, most.trans presents.maxSize,
    (kept.size.trans holds.size.symm).trans presents.size, locked.trans presents.writable⟩

theorem step {op : CacheOp} (presents : Presents format state segment)
    (canonical : op.Canonical format) :
    Presents format (state.step format.codec op) (op.onSegment format segment) := by
  cases op with
  | append payload =>
    rw [CacheOp.onSegment, dif_pos canonical.1]
    rcases presents.append ⟨payload, canonical.1⟩ canonical.2 with
      ⟨next, grown, _, after⟩ | ⟨err, fault, refused, failed⟩
    · rw [grown]
      exact after
    · rw [refused, CacheState.step, failed]
      exact presents
  | _ =>
    apply presents.quiet
    intro payload same
    cases same

end Presents

/-- Through every run that appends payloads in stored form, whatever comes of the block,
the file stands for the segment that took the same appends. -/
theorem segment_file_refines {format : Format} {state : CacheState}
    {segment : Disk.Segment format.Payload format.Payload}
    (presents : Presents format state segment) {run : List CacheOp}
    (canonical : ∀ op ∈ run, op.Canonical format) :
    Presents format (run.foldl (CacheState.step format.codec) state)
      (run.foldl (CacheOp.onSegment format) segment) := by
  induction run generalizing state segment with
  | nil => exact presents
  | cons op rest ih =>
    exact ih (presents.step (canonical op mem_cons_self)) fun later inside =>
      canonical later (mem_cons_of_mem _ inside)

end Figwal.Codec
