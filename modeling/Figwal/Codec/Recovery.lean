import Figwal.Codec.Cache

/-!
# Opening a segment again

A segment is created, may be given a header, and is appended to. Whatever length its file
has after a crash, opening it finds the frames that are all there, cuts the file behind the
last of them and leaves a segment that goes on like the one that was written. Bytes that
follow a cut and were never written are none of a line; for the binary format they may
make up a frame.
-/

namespace Figwal.Codec

open Figwal.Lib List

set_option autoImplicit false

/-- A segment and what `Header` returns. -/
structure OpenSegment where
  segment : SegmentFile
  header : Option Text
  deriving DecidableEq, Repr

namespace SegmentFile

def entryEnd (segment : SegmentFile) (idx : Nat) : Nat :=
  segment.offsets.getD (idx + 1) segment.size

def headerEnd (segment : SegmentFile) : Nat :=
  segment.offsets.getD 0 segment.size

def frameEnds (segment : SegmentFile) : List Nat :=
  (if segment.hasHeader then [segment.headerEnd] else []) ++
    (List.range segment.count).map segment.entryEnd

def lastEnd (segment : SegmentFile) (cut : Nat) : Nat :=
  (segment.frameEnds.filter (· ≤ cut)).foldl max 0

/-- Two segments that differ at most in what is cached and in their headers. -/
structure Alike (segment other : SegmentFile) : Prop where
  file : segment.file = other.file
  baseIndex : segment.baseIndex = other.baseIndex
  maxSize : segment.maxSize = other.maxSize
  size : segment.size = other.size
  offsets : segment.offsets = other.offsets
  readOnly : segment.readOnly = other.readOnly

end SegmentFile

namespace OpenSegment

def create (baseIndex : Nat) (maxSize : Int) : OpenSegment :=
  ⟨.create baseIndex maxSize, none⟩

variable (codec : FrameCodec)

def append (opened : OpenSegment) (payload : Text) : Except SegmentErr Unit × OpenSegment :=
  let done := opened.segment.append codec payload
  (done.1, { opened with segment := done.2 })

def appendAll (opened : OpenSegment) (payloads : List Text) : OpenSegment :=
  payloads.foldl (fun opened payload => (opened.append codec payload).2) opened

def writeHeader (opened : OpenSegment) (payload : Text) : Except SegmentErr Unit × OpenSegment :=
  if opened.segment.readOnly then (.error .readOnly, opened)
  else if opened.segment.size ≠ 0 ∨ opened.segment.count ≠ 0 then (.error .notEmpty, opened)
  else
    match codec.frame 0 payload with
    | .error err => (.error (.framing err), opened)
    | .ok frame =>
      (.ok (), {
        segment := { opened.segment with
          file := frame ++ opened.segment.file.drop frame.length
          size := frame.length
          hasHeader := true }
        header := some payload })

def start (header : Option Text) (baseIndex : Nat) (maxSize : Int) :
    Except SegmentErr OpenSegment :=
  match header with
  | none => .ok (create baseIndex maxSize)
  | some payload =>
    let done := (create baseIndex maxSize).writeHeader codec payload
    done.1.map fun _ => done.2

def openRW (file : Text) (baseIndex : Nat) (maxSize : Int) (hasHeader : Bool) :
    Except FrameErr OpenSegment :=
  let found : SegmentFile :=
    { SegmentFile.create baseIndex maxSize with file := file, hasHeader := hasHeader }
  let headerEnd := (found.scanFile codec).1
  if hasHeader ∧ 0 < headerEnd then
    match codec.readFrame (file.take headerEnd) with
    | .error err => .error err
    | .ok payload => .ok ⟨found.reopen codec, some payload⟩
  else .ok ⟨found.reopen codec, none⟩

end OpenSegment

def Binary.StartsFrame (bytes : Text) : Prop :=
  ∃ payload frame, payload.length < 4294967296 ∧ Binary.frame 0 payload = .ok frame ∧
    frame <+: bytes

/-- What opening a file that was cut finds of the segment that was written to it. -/
structure Recovers (codec : FrameCodec) (original opened : OpenSegment) (cut : Nat) : Prop where
  baseIndex : opened.segment.baseIndex = original.segment.baseIndex
  entries : ∀ idx, idx < opened.segment.count ↔
    idx < original.segment.count ∧ original.segment.entryEnd idx ≤ cut
  offsets : opened.segment.offsets <+: original.segment.offsets
  payloads : ∀ idx < opened.segment.count, ∃ stored,
    original.segment.readFile codec idx = .ok stored ∧
      opened.segment.readFile codec idx = .ok stored
  headed : original.segment.hasHeader = true → original.segment.headerEnd ≤ cut → ∃ stored,
    codec.readFrame (original.segment.file.take original.segment.headerEnd) = .ok stored ∧
      opened.header = some stored
  unheaded : ¬(original.segment.hasHeader = true ∧ original.segment.headerEnd ≤ cut) →
    opened.header = none
  size : IsGreatest {edge | (edge = 0 ∨ edge ∈ original.segment.frameEnds) ∧ edge ≤ cut}
    opened.segment.size
  truncated : opened.segment.file = original.segment.file.take opened.segment.size

/-- The segment's file is its header and these frames, and nothing is cached. -/
structure Written (format : Format) (segment : SegmentFile) (header : Text)
    (frames : List Text) : Prop where
  holds : Holds format ⟨segment, 0, frames.length⟩ header frames
  writable : segment.readOnly = false
  uncached : segment.block = none
  stored : segment.hasHeader = true → ∃ payload, format.codec.readFrame header = .ok payload

def allFrames (hasHeader : Bool) (header : Text) (frames : List Text) : List Text :=
  if hasHeader then header :: frames else frames

section Writing

variable {format : Format} {segment : SegmentFile} {header : Text} {frames : List Text}

theorem Written.file (written : Written format segment header frames) :
    segment.file = header ++ frames.flatten := by
  obtain ⟨rest, file, _, none⟩ := written.holds.bytes
  rw [none written.writable, append_nil] at file
  exact file

theorem short_of_frame {idx : Nat} {payload frame : Text}
    (framed : format.codec.frame idx payload = .ok frame) (small : frame.length < 4294967296) :
    format.Short payload := by
  cases format with
  | binary =>
    have length := (@binary_frame idx payload frame framed).2
    exact Nat.lt_of_le_of_lt (by omega) small
  | jsonl libraries => trivial

theorem append_fixed (codec : FrameCodec) (segment : SegmentFile) (payload : Text) :
    (segment.append codec payload).2.baseIndex = segment.baseIndex ∧
      (segment.append codec payload).2.maxSize = segment.maxSize ∧
      (segment.append codec payload).2.hasHeader = segment.hasHeader := by
  rw [SegmentFile.append]
  split
  · exact ⟨rfl, rfl, rfl⟩
  · split
    · exact ⟨rfl, rfl, rfl⟩
    · split
      · exact ⟨rfl, rfl, rfl⟩
      · exact ⟨rfl, rfl, rfl⟩

theorem Written.append (written : Written format segment header frames)
    {payload : Text}
    (fits : format.Short payload ∨ 0 < segment.maxSize ∧ segment.maxSize < 4294967296) :
    Written format (segment.append format.codec payload).2 header frames ∨
      ∃ frame, Written format (segment.append format.codec payload).2 header
        (frames ++ [frame]) := by
  have unlocked : ¬segment.readOnly = true := by
    rw [written.writable]
    exact Bool.false_ne_true
  rw [SegmentFile.append, if_neg unlocked]
  cases framed : format.codec.frame (segment.baseIndex + segment.count) payload with
  | error err => exact Or.inl written
  | ok frame =>
    simp only
    split_ifs with full
    · exact Or.inl written
    · refine Or.inr ⟨frame, ?_, written.writable, ?_, written.stored⟩
      · have short : format.Short payload := fits.elim id fun limited =>
          short_of_frame framed (by omega)
        have added := written.holds.appended short
          (fun resident => absurd written.uncached resident) written.writable framed
        have counted : frames.length + 1 = (frames ++ [frame]).length := by simp
        rw [← counted]
        exact added
      · simp only [written.uncached, Option.map_none]

theorem append_all_concat (codec : FrameCodec) (opened : OpenSegment) (payloads : List Text)
    (payload : Text) :
    opened.appendAll codec (payloads ++ [payload]) =
      ((opened.appendAll codec payloads).append codec payload).2 :=
  foldl_concat ..

theorem append_all_fixed (codec : FrameCodec) (opened : OpenSegment) (payloads : List Text) :
    (opened.appendAll codec payloads).segment.baseIndex = opened.segment.baseIndex ∧
      (opened.appendAll codec payloads).segment.maxSize = opened.segment.maxSize ∧
      (opened.appendAll codec payloads).segment.hasHeader = opened.segment.hasHeader := by
  induction payloads using List.reverseRecOn with
  | nil => exact ⟨rfl, rfl, rfl⟩
  | append_singleton payloads payload ih =>
    obtain ⟨base, max, headed⟩ :=
      append_fixed codec (opened.appendAll codec payloads).segment payload
    rw [append_all_concat]
    exact ⟨base.trans ih.1, max.trans ih.2.1, headed.trans ih.2.2⟩

/-- Appends add frames, one after the other: whatever frames come first were all of them at
some time. -/
theorem append_all_written {begun : OpenSegment} (written : Written format begun.segment header [])
    {payloads : List Text} (fits : ∀ payload ∈ payloads, format.Short payload ∨
      0 < begun.segment.maxSize ∧ begun.segment.maxSize < 4294967296) :
    ∃ frames, Written format (begun.appendAll format.codec payloads).segment header frames ∧
      ∀ kept, kept <+: frames → ∃ early, early <+: payloads ∧
        Written format (begun.appendAll format.codec early).segment header kept := by
  induction payloads using List.reverseRecOn with
  | nil =>
    refine ⟨[], written, fun kept leading => ⟨[], List.prefix_refl _, ?_⟩⟩
    rw [List.prefix_nil.mp leading]
    exact written
  | append_singleton payloads payload ih =>
    obtain ⟨frames, now, stages⟩ := ih fun other inside =>
      fits other (mem_append_left _ inside)
    have sooner : ∀ kept, kept <+: frames → ∃ early, early <+: payloads ++ [payload] ∧
        Written format (begun.appendAll format.codec early).segment header kept := by
      intro kept leading
      obtain ⟨early, before, held⟩ := stages kept leading
      exact ⟨early, before.trans (List.prefix_append _ _), held⟩
    have limits := (append_all_fixed format.codec begun payloads).2.1
    have next := now.append (limits ▸ fits payload mem_concat_self)
    have whole := append_all_concat format.codec begun payloads payload
    rcases next with same | ⟨frame, more⟩
    · refine ⟨frames, ?_, sooner⟩
      rw [whole]
      exact same
    · refine ⟨frames ++ [frame], ?_, fun kept leading => ?_⟩
      · rw [whole]
        exact more
      · rcases List.prefix_concat_iff.mp leading with all | some
        · refine ⟨payloads ++ [payload], List.prefix_refl _, ?_⟩
          rw [whole, all]
          exact more
        · exact sooner kept some

theorem Written.alike {other : SegmentFile} (written : Written format segment header frames)
    (same : Written format other header frames) (base : segment.baseIndex = other.baseIndex)
    (max : segment.maxSize = other.maxSize) : segment.Alike other where
  file := written.file.trans same.file.symm
  baseIndex := base
  maxSize := max
  size := written.holds.size.trans same.holds.size.symm
  offsets := written.holds.offsets.trans same.holds.offsets.symm
  readOnly := written.writable.trans same.writable.symm

end Writing

theorem SegmentFile.Alike.append {segment other : SegmentFile} (alike : segment.Alike other)
    (codec : FrameCodec) (payload : Text) :
    (segment.append codec payload).1 = (other.append codec payload).1 ∧
      ((segment.append codec payload).2).Alike (other.append codec payload).2 := by
  have count : segment.count = other.count := by
    rw [SegmentFile.count, alike.offsets, SegmentFile.count]
  simp only [SegmentFile.append, alike.readOnly, alike.baseIndex, count, alike.size, alike.maxSize]
  split
  · exact ⟨rfl, alike⟩
  · split
    · exact ⟨rfl, alike⟩
    · split
      · exact ⟨rfl, alike⟩
      · refine ⟨rfl, ?_, rfl, rfl, rfl, ?_, rfl⟩
        · simp only [alike.file]
        · simp only [alike.offsets]

section Opening

variable {format : Format} {segment : SegmentFile} {header : Text} {frames : List Text}
  {baseIndex : Nat} {maxSize : Int} {hasHeader : Bool}

theorem Written.count (written : Written format segment header frames) :
    segment.count = frames.length :=
  written.holds.count_eq

theorem Written.entry_end (written : Written format segment header frames) {idx : Nat}
    (inside : idx < frames.length) :
    segment.entryEnd idx = header.length + (frames.take (idx + 1)).flatten.length := by
  have size : segment.size = header.length + frames.flatten.length := written.holds.size
  have offsets : segment.offsets = offsetsFrom header.length (frames.map List.length) :=
    written.holds.offsets
  have ends := @offsets_end header.length idx (frames.map List.length) (by simpa using inside)
  rw [← map_take, total_lengths, total_lengths] at ends
  rw [SegmentFile.entryEnd, offsets, size]
  exact ends

theorem Written.header_end (written : Written format segment header frames) :
    segment.headerEnd = header.length := by
  have size : segment.size = header.length + frames.flatten.length := written.holds.size
  have offsets : segment.offsets = offsetsFrom header.length (frames.map List.length) :=
    written.holds.offsets
  rw [SegmentFile.headerEnd, offsets, size]
  cases frames with
  | nil => rfl
  | cons frame rest => rfl

theorem start_written {given : Option Text} {begun : OpenSegment}
    (short : ∀ payload ∈ given, format.Short payload)
    (started : OpenSegment.start format.codec given baseIndex maxSize = .ok begun) :
    ∃ first, Written format begun.segment first [] ∧ begun.segment.baseIndex = baseIndex ∧
      begun.segment.maxSize = maxSize ∧ begun.segment.hasHeader = given.isSome ∧
      ∀ payload ∈ given, format.codec.frame 0 payload = .ok first := by
  cases given with
  | none =>
    cases started
    exact ⟨[], ⟨created_holds format baseIndex maxSize 0, rfl, rfl, fun headed => nomatch headed⟩,
      rfl, rfl, rfl, fun _ held => nomatch held⟩
  | some payload =>
    rw [OpenSegment.start, OpenSegment.writeHeader] at started
    cases framed : format.codec.frame 0 payload with
    | error err =>
      rw [framed] at started
      cases started
    | ok frame =>
      rw [framed] at started
      cases started
      have one := format_framed (short payload rfl) framed
      refine ⟨frame, ⟨⟨⟨[], ?_, format_next_nil format, fun _ => rfl⟩, rfl, rfl,
        (fun _ held => nomatch held), one.1, (fun _ resident => nomatch resident), rfl⟩, rfl, rfl,
        fun _ => one.2⟩, rfl, rfl, rfl, fun _ held => Option.some.inj held ▸ framed⟩
      change frame ++ List.drop frame.length ([] : Text) = frame ++ [].flatten ++ []
      rw [drop_nil, flatten_nil, append_nil, append_nil]

/-- The bytes before the first that are no frame are found to be what they are. -/
theorem open_found {kept : List Text} {leftover : Text}
    (framed : ∀ frame ∈ kept, Framed format.codec.nextFrame frame ∧
      ∃ stored, format.codec.readFrame frame = .ok stored)
    (headed : if hasHeader then Framed format.codec.nextFrame header else header = [])
    (stored : hasHeader = true → ∃ payload, format.codec.readFrame header = .ok payload)
    (unread : format.codec.nextFrame leftover = none) :
    ∃ opened, OpenSegment.openRW format.codec (header ++ kept.flatten ++ leftover) baseIndex maxSize
        hasHeader = .ok opened ∧
      Written format opened.segment header kept ∧ opened.segment.baseIndex = baseIndex ∧
      opened.segment.maxSize = maxSize ∧
      (hasHeader = true → ∃ payload, format.codec.readFrame header = .ok payload ∧
        opened.header = some payload) ∧
      (hasHeader = false → opened.header = none) := by
  have placed : Holds format
      ⟨{ SegmentFile.create baseIndex maxSize with
        file := header ++ kept.flatten ++ leftover
        hasHeader := hasHeader
        size := header.length + kept.flatten.length
        offsets := offsetsFrom header.length (kept.map List.length)
        readOnly := true }, 0, kept.length⟩ header kept :=
    ⟨⟨leftover, rfl, unread, fun locked => nomatch locked⟩, rfl, rfl, framed, headed,
      (fun _ resident => nomatch resident), rfl⟩
  -- what is found depends on the bytes and on whether a header is expected
  have scanned : SegmentFile.scanFile format.codec
      { SegmentFile.create baseIndex maxSize with
        file := header ++ kept.flatten ++ leftover
        hasHeader := hasHeader } = (header.length, kept.map List.length) :=
    placed.scan_file
  have cut : (header ++ kept.flatten ++ leftover).take
      (header.length + total (kept.map List.length)) = header ++ kept.flatten := by
    rw [total_lengths, ← length_append, take_left]
  have written : Written format (SegmentFile.reopen format.codec
      { SegmentFile.create baseIndex maxSize with
        file := header ++ kept.flatten ++ leftover
        hasHeader := hasHeader }) header kept := by
    refine ⟨⟨⟨[], ?_, format_next_nil format, fun _ => rfl⟩, ?_, ?_, framed, headed,
      (fun _ resident => nomatch resident), rfl⟩, rfl, rfl, stored⟩
    · simp only [SegmentFile.reopen, scanned, cut, append_nil]
      rfl
    · simp only [SegmentFile.reopen, scanned, total_lengths]
    · simp only [SegmentFile.reopen, scanned]
  rw [OpenSegment.openRW]
  simp only [scanned]
  cases hasHeader with
  | false =>
    exact ⟨⟨_, none⟩, if_neg (by simp), written, rfl, rfl, (fun lead => nomatch lead),
      fun _ => rfl⟩
  | true =>
    obtain ⟨payload, read⟩ := stored rfl
    have lead : 0 < header.length := (show Framed format.codec.nextFrame header from headed).filled
    have front : (header ++ kept.flatten ++ leftover).take header.length = header := by
      rw [append_assoc, take_left]
    rw [if_pos ⟨rfl, lead⟩, front, read]
    exact ⟨_, rfl, written, rfl, rfl, fun _ => ⟨payload, rfl, rfl⟩, fun none => nomatch none⟩

/-- A header that is not all there is none, and neither is what follows it. -/
theorem open_torn {file : Text} (unread : format.codec.nextFrame file = none) :
    OpenSegment.openRW format.codec file baseIndex maxSize true =
      .ok ⟨{ SegmentFile.create baseIndex maxSize with hasHeader := true }, none⟩ := by
  have empty : scanLengths format.codec.nextFrame file.length file = [] :=
    scan_lengths_none unread _
  have scanned : SegmentFile.scanFile format.codec
      { SegmentFile.create baseIndex maxSize with file := file, hasHeader := true } = (0, []) := by
    rw [SegmentFile.scanFile]
    simp only [empty, if_true]
    rfl
  rw [OpenSegment.openRW]
  simp only [scanned, SegmentFile.reopen]
  rfl

theorem mem_frame_ends (written : Written format segment header frames) {edge : Nat}
    (inside : edge ∈ segment.frameEnds) :
    segment.hasHeader = true ∧ edge = header.length ∨
      ∃ idx < frames.length, edge = header.length + (frames.take (idx + 1)).flatten.length := by
  rcases mem_append.mp inside with first | entry
  · split_ifs at first with lead
    · rw [mem_singleton.mp first]
      exact Or.inl ⟨lead, written.header_end⟩
    · cases first
  · obtain ⟨idx, counted, same⟩ := mem_map.mp entry
    have within : idx < frames.length := by
      rw [← written.count]
      exact mem_range.mp counted
    exact Or.inr ⟨idx, within, same.symm.trans (written.entry_end within)⟩

theorem Written.header_edge (written : Written format segment header frames) :
    header.length = 0 ∨ header.length ∈ segment.frameEnds := by
  have headed := written.holds.headed
  split_ifs at headed with lead
  · have has : segment.hasHeader = true := lead
    apply Or.inr
    apply mem_append_left
    rw [if_pos has, written.header_end]
    exact mem_singleton_self _
  · rw [headed]
    exact Or.inl rfl

theorem flatten_take_mono (frames : List Text) {few many : Nat} (less : few ≤ many) :
    (frames.take few).flatten.length ≤ (frames.take many).flatten.length := by
  have leading : frames.take few <+: frames.take many := List.take_prefix_take_left less
  obtain ⟨more, whole⟩ := leading
  rw [← whole, flatten_append, length_append]
  exact Nat.le_add_right _ _

/-- The whole frames of a prefix make up the segment that is found in it. -/
theorem Written.recovers_kept {original opened : OpenSegment} {cut : Nat} {kept : List Text}
    (written : Written format original.segment header frames) (lead : header.length ≤ cut)
    (whole : wholeFrames (cut - header.length) frames = kept)
    (found : Written format opened.segment header kept)
    (base : opened.segment.baseIndex = original.segment.baseIndex)
    (headed : original.segment.hasHeader = true → ∃ payload,
      format.codec.readFrame header = .ok payload ∧ opened.header = some payload)
    (unheaded : original.segment.hasHeader = false → opened.header = none) :
    Recovers format.codec original opened cut := by
  have leading : kept <+: frames := whole ▸ whole_frames_leading (cut - header.length) frames
  have taken : kept = frames.take kept.length := List.prefix_iff_eq_take.mp leading
  have fits : kept.flatten.length ≤ cut - header.length := whole ▸ whole_frames_length frames
  have size : opened.segment.size = header.length + kept.flatten.length := found.holds.size
  have entries : ∀ idx, idx < opened.segment.count ↔
      idx < original.segment.count ∧ original.segment.entryEnd idx ≤ cut := by
    intro idx
    rw [found.count, written.count, ← whole, whole_frames_iff]
    refine and_congr_right fun inside => ?_
    rw [written.entry_end inside]
    omega
  have greatest : ∀ edge, (edge = 0 ∨ edge ∈ original.segment.frameEnds) ∧ edge ≤ cut →
      edge ≤ opened.segment.size := by
    rintro edge ⟨zero | inside, before⟩
    · omega
    · rcases mem_frame_ends written inside with ⟨_, first⟩ | ⟨idx, within, entry⟩
      · omega
      · have counted : idx < kept.length := by
          rw [← found.count]
          exact (entries idx).mpr ⟨written.count ▸ within, (written.entry_end within) ▸ entry ▸
            before⟩
        have below := flatten_take_mono frames (show idx + 1 ≤ kept.length from counted)
        rw [← taken] at below
        omega
  refine ⟨base, entries, ?_, ?_, ?_, ?_, ⟨?_, fun edge => greatest edge⟩, ?_⟩
  · obtain ⟨more, rfl⟩ := leading
    have late : original.segment.offsets = _ := written.holds.offsets
    have early : opened.segment.offsets = _ := found.holds.offsets
    rw [late, early, map_append, offsets_append]
    exact List.prefix_append _ _
  · intro idx inside
    rw [found.count] at inside
    have here : kept[idx]? = some kept[idx] := getElem?_eq_getElem inside
    have there : frames[idx]? = some kept[idx] := by
      obtain ⟨more, rfl⟩ := leading
      rw [getElem?_append_left inside]
      exact here
    obtain ⟨stored, read⟩ := (found.holds.framed _ (getElem_mem inside)).2
    exact ⟨stored, (written.holds.read_file there).trans read,
      (found.holds.read_file here).trans read⟩
  · intro has _
    rw [written.header_end, written.file, take_left]
    exact headed has
  · intro lacks
    apply unheaded
    by_contra has
    exact lacks ⟨Bool.not_eq_false _ ▸ has, written.header_end ▸ lead⟩
  · refine ⟨?_, by omega⟩
    rw [size]
    cases kept with
    | nil => exact written.header_edge
    | cons first later =>
      have last : later.length < frames.length := leading.length_le
      have entry := written.entry_end last
      rw [length_cons] at taken
      rw [taken, ← entry]
      apply Or.inr
      apply mem_append_right
      exact mem_map_of_mem (mem_range.mpr (written.count ▸ last))
  · rw [written.file, size, ← length_append]
    obtain ⟨more, rfl⟩ := leading
    rw [flatten_append, ← append_assoc, take_left]
    exact found.file

theorem Written.recovers_nothing {original : OpenSegment} {cut : Nat}
    (written : Written format original.segment header frames) (torn : cut < header.length) :
    Recovers format.codec original
      ⟨{ SegmentFile.create original.segment.baseIndex original.segment.maxSize with
        hasHeader := true }, none⟩ cut := by
  have outside : ∀ edge ∈ original.segment.frameEnds, cut < edge := by
    intro edge inside
    rcases mem_frame_ends written inside with ⟨_, first⟩ | ⟨idx, _, entry⟩
    · omega
    · omega
  refine ⟨rfl, fun idx => ⟨fun none => absurd none (Nat.not_lt_zero idx), ?_⟩, List.nil_prefix,
    fun idx none => absurd none (Nat.not_lt_zero idx), ?_, fun _ => rfl,
    ⟨⟨Or.inl rfl, Nat.zero_le _⟩, ?_⟩, rfl⟩
  · rintro ⟨within, before⟩
    rw [written.count] at within
    rw [written.entry_end within] at before
    omega
  · intro _ before
    rw [written.header_end] at before
    omega
  · rintro edge ⟨zero | inside, before⟩
    · exact Nat.le_of_eq zero
    · exact absurd before (Nat.not_le_of_lt (outside edge inside))

/-- Opening a prefix of the file, whatever unreadable bytes follow it, finds the frames that
are all there; the segment then is one that was there before. -/
theorem Written.recovers {original : OpenSegment} {cut : Nat} {tail : Text}
    (written : Written format original.segment header frames)
    (unread : format.codec.nextFrame
      (tornPart cut (allFrames original.segment.hasHeader header frames) ++ tail) = none) :
    ∃ opened, OpenSegment.openRW format.codec (original.segment.file.take cut ++ tail)
        original.segment.baseIndex original.segment.maxSize original.segment.hasHeader =
          .ok opened ∧
      Recovers format.codec original opened cut ∧
      (original.segment.file.take cut).drop opened.segment.size =
        tornPart cut (allFrames original.segment.hasHeader header frames) ∧
      (opened.segment.Alike
          (.create original.segment.baseIndex original.segment.maxSize) ∨
        ∃ kept, kept <+: frames ∧ Written format opened.segment header kept ∧
          opened.segment.baseIndex = original.segment.baseIndex ∧
          opened.segment.maxSize = original.segment.maxSize) := by
  have headed : if original.segment.hasHeader then Framed format.codec.nextFrame header
      else header = [] := written.holds.headed
  by_cases lead : header.length ≤ cut
  · have part : tornPart cut (allFrames original.segment.hasHeader header frames) =
        tornPart (cut - header.length) frames := by
      rw [allFrames]
      split_ifs at headed ⊢
      · rw [tornPart, if_pos lead]
      · rw [headed]
        rfl
    have bytes : original.segment.file.take cut ++ tail = header ++
        (wholeFrames (cut - header.length) frames).flatten ++
          (tornPart (cut - header.length) frames ++ tail) := by
      rw [written.file, take_append, take_of_length_le lead, ← whole_torn]
      simp only [append_assoc]
    have left : (original.segment.file.take cut).drop (header.length +
        (wholeFrames (cut - header.length) frames).flatten.length) =
          tornPart (cut - header.length) frames := by
      rw [written.file, take_append, take_of_length_le lead, ← whole_torn,
        ← append_assoc, ← length_append, drop_left]
    have leading := whole_frames_leading (cut - header.length) frames
    obtain ⟨opened, found, held, base, max, has, lacks⟩ :=
      @open_found format header original.segment.baseIndex original.segment.maxSize
        original.segment.hasHeader _ _
        (fun frame inside => written.holds.framed frame (leading.subset inside)) headed
        written.stored (part ▸ unread)
    rw [bytes]
    exact ⟨opened, found, written.recovers_kept lead rfl held base has lacks,
      held.holds.size.symm ▸ part.symm ▸ left, Or.inr ⟨_, leading, held, base, max⟩⟩
  · have has : original.segment.hasHeader = true := by
      by_contra lacks
      rw [if_neg lacks] at headed
      rw [headed] at lead
      exact lead (Nat.zero_le _)
    have part : tornPart cut (allFrames original.segment.hasHeader header frames) =
        original.segment.file.take cut := by
      rw [allFrames, if_pos has, tornPart, if_neg lead, written.file,
        take_append_of_le_length (by omega)]
    rw [part] at unread ⊢
    rw [has]
    exact ⟨_, open_torn unread, written.recovers_nothing (by omega), rfl,
      Or.inl ⟨rfl, rfl, rfl, rfl, rfl, rfl⟩⟩

theorem Written.all_framed (written : Written format segment header frames) :
    ∀ frame ∈ allFrames segment.hasHeader header frames,
      Framed format.codec.nextFrame frame := by
  have headed : if segment.hasHeader then Framed format.codec.nextFrame header
      else header = [] := written.holds.headed
  have each := fun frame inside => (written.holds.framed frame inside).1
  rw [allFrames]
  split_ifs at headed ⊢
  · exact forall_mem_cons.mpr ⟨headed, each⟩
  · exact each

end Opening

/-- Every prefix of a segment's file opens to the frames that are all there, and appends go
on as they did when the file had that length. -/
theorem open_prefix_recovers (format : Format) (header : Option Text) (baseIndex : Nat)
    (maxSize : Int) (limited : 0 < maxSize ∧ maxSize < 4294967296)
    (short : ∀ payload ∈ header, format.Short payload) {begun : OpenSegment}
    (started : OpenSegment.start format.codec header baseIndex maxSize = .ok begun)
    (payloads : List Text) (cut : Nat) :
    ∃ opened, OpenSegment.openRW format.codec
        ((begun.appendAll format.codec payloads).segment.file.take cut) baseIndex maxSize
        header.isSome = .ok opened ∧
      Recovers format.codec (begun.appendAll format.codec payloads) opened cut ∧
      (∀ payload ∈ header, format.codec.frame 0 payload =
        .ok ((begun.appendAll format.codec payloads).segment.file.take
          (begun.appendAll format.codec payloads).segment.headerEnd)) ∧
      ∃ earlier, (earlier = OpenSegment.create baseIndex maxSize ∨
          ∃ early, early <+: payloads ∧ earlier = begun.appendAll format.codec early) ∧
        earlier.segment.size = opened.segment.size ∧
        ∀ payload, (opened.append format.codec payload).1 =
            (earlier.append format.codec payload).1 ∧
          (opened.append format.codec payload).2.segment.Alike
            (earlier.append format.codec payload).2.segment := by
  obtain ⟨first, empty, base, limit, headed, laid⟩ := start_written short started
  obtain ⟨frames, written, stages⟩ := @append_all_written _ _ _ empty payloads
    fun _ _ => Or.inr (limit ▸ limited)
  obtain ⟨sameBase, sameMax, sameHeader⟩ := append_all_fixed format.codec begun payloads
  have unread := torn_part_unread written.all_framed (format_next_nil format) cut
  obtain ⟨opened, found, recovers, _, alike⟩ := @Written.recovers format first frames _ cut []
    written (by rw [append_nil]; exact unread)
  rw [append_nil, sameBase, sameMax, sameHeader, base, limit, headed] at found
  have framed : (begun.appendAll format.codec payloads).segment.file.take
      (begun.appendAll format.codec payloads).segment.headerEnd = first := by
    rw [written.header_end, written.file, take_left]
  refine ⟨opened, found, recovers, framed.symm ▸ laid, ?_⟩
  rw [sameBase, sameMax, base, limit] at alike
  rcases alike with new | ⟨kept, leading, held, keptBase, keptMax⟩
  · exact ⟨_, Or.inl rfl, new.size.symm, fun payload => new.append format.codec payload⟩
  · obtain ⟨early, before, reached⟩ := stages kept leading
    obtain ⟨earlyBase, earlyMax, _⟩ := append_all_fixed format.codec begun early
    have same := held.alike reached (keptBase.trans (earlyBase.trans base).symm)
      (keptMax.trans (earlyMax.trans limit).symm)
    exact ⟨_, Or.inr ⟨early, before, rfl⟩, same.size.symm,
      fun payload => same.append format.codec payload⟩

theorem cut_segment_recovers :
    ∃ begun opened, OpenSegment.start binary (some (ascii "h")) 1 100 = .ok begun ∧
      OpenSegment.openRW binary
        ((begun.appendAll binary [ascii "a", ascii "bc"]).segment.file.take 20) 1 100 true =
          .ok opened ∧
      Recovers binary (begun.appendAll binary [ascii "a", ascii "bc"]) opened 20 := by
  obtain ⟨opened, found, recovers, _⟩ := open_prefix_recovers .binary (some (ascii "h")) 1 100
    (by decide) (by rintro _ ⟨⟩; decide) rfl [ascii "a", ascii "bc"] 20
  exact ⟨_, opened, rfl, found, recovers⟩

section Zeros

variable {segment : SegmentFile} {libraries : Libraries} {bytes frame : Text}

theorem foldl_max_greatest (list : List Nat) (start : Nat) :
    IsGreatest {edge | edge = start ∨ edge ∈ list} (list.foldl max start) := by
  induction list generalizing start with
  | nil => exact ⟨Or.inl rfl, fun edge inside => inside.elim Nat.le_of_eq (nomatch ·)⟩
  | cons first rest ih =>
    obtain ⟨inside, above⟩ := ih (max start first)
    rw [foldl_cons]
    constructor
    · rcases inside with here | later
      · rw [here]
        rcases Nat.le_total start first with less | more
        · rw [Nat.max_eq_right less]
          exact Or.inr mem_cons_self
        · rw [Nat.max_eq_left more]
          exact Or.inl rfl
      · exact Or.inr (mem_cons_of_mem _ later)
    · have least : max start first ≤ rest.foldl max (max start first) := above (Or.inl rfl)
      intro edge held
      rcases held with rfl | member
      · exact (Nat.le_max_left _ _).trans least
      · rcases mem_cons.mp member with rfl | later
        · exact (Nat.le_max_right _ _).trans least
        · exact above (Or.inr later)

theorem last_end_greatest (segment : SegmentFile) (cut : Nat) :
    IsGreatest {edge | (edge = 0 ∨ edge ∈ segment.frameEnds) ∧ edge ≤ cut}
      (segment.lastEnd cut) := by
  obtain ⟨inside, above⟩ := foldl_max_greatest (segment.frameEnds.filter (· ≤ cut)) 0
  constructor
  · rcases inside with zero | held
    · rw [SegmentFile.lastEnd, zero]
      exact ⟨Or.inl rfl, Nat.zero_le _⟩
    · obtain ⟨member, before⟩ := mem_filter.mp held
      exact ⟨Or.inr member, of_decide_eq_true before⟩
  · rintro edge ⟨zero | member, before⟩
    · exact above (Or.inl zero)
    · exact above (Or.inr (mem_filter.mpr ⟨member, decide_eq_true before⟩))

theorem put_uint32 (long : 4 ≤ bytes.length) : putUint32 (uint32 bytes) = bytes.take 4 := by
  have byte : ∀ (word : Nat) (value : UInt8), word % 256 = value.toNat →
      UInt8.ofNat word = value := by
    intro word value same
    apply UInt8.toNat_inj.mp
    rw [UInt8.toNat_ofNat', same]
  match bytes with
  | a :: b :: c :: d :: rest =>
    have small := And.intro a.toNat_lt (And.intro b.toNat_lt (And.intro c.toNat_lt d.toNat_lt))
    rw [putUint32, uint32, byte _ a (by omega), byte _ b (by omega), byte _ c (by omega),
      byte _ d (by omega)]
    rfl
  | [] | [_] | [_, _] | [_, _, _] => simp at long

theorem uint32_lt (bytes : Text) : uint32 bytes < 4294967296 := by
  match bytes with
  | a :: b :: c :: d :: rest =>
    have small := And.intro a.toNat_lt (And.intro b.toNat_lt (And.intro c.toNat_lt d.toNat_lt))
    rw [uint32]
    omega
  | [] | [_] | [_, _] | [_, _, _] => exact Nat.zero_lt_succ _

theorem binary_next_sound {length : Nat} (found : Binary.nextFrame bytes = some length) :
    Binary.StartsFrame bytes := by
  rw [Binary.nextFrame] at found
  split_ifs at found with head long sum
  rw [headerSize] at head long sum
  have sized : ((bytes.drop 8).take (uint32 bytes)).length = uint32 bytes := by
    rw [length_take, length_drop]
    omega
  have word := put_uint32 (show 4 ≤ bytes.length by omega)
  have check := put_uint32 (show 4 ≤ (bytes.drop 4).length by rw [length_drop]; omega)
  refine ⟨(bytes.drop 8).take (uint32 bytes), _, sized.trans_lt (uint32_lt bytes), rfl, ?_⟩
  rw [sized, word, Decidable.not_not.mp sum, check]
  have whole : bytes.take (4 + (4 + uint32 bytes)) = bytes.take 4 ++
      ((bytes.drop 4).take 4 ++ (bytes.drop 8).take (uint32 bytes)) := by
    rw [take_add, take_add, drop_drop]
  rw [← whole]
  exact List.take_prefix _ _

theorem few_bytes_no_frame (few : bytes.length < headerSize) : ¬Binary.StartsFrame bytes := by
  intro ⟨payload, frame, _, framed, leads⟩
  have length := (@binary_frame 0 payload frame framed).2
  have fits := leads.length_le
  omega

theorem jsonl_next_none (shown : ∀ byte ∈ bytes, byte ≠ 10) :
    Jsonl.nextFrame libraries bytes = none := by
  have all : bytes.takeWhile (· != 10) = bytes :=
    takeWhile_eq_self_iff.mpr fun byte inside => bne_iff_ne.mpr (shown byte inside)
  rw [Jsonl.nextFrame]
  simp only [all, Nat.lt_irrefl, if_false]

theorem jsonl_part_shown (framed : Framed (Jsonl.nextFrame libraries) frame) {part : Nat}
    (short : part < frame.length) : ∀ byte ∈ frame.take part, byte ≠ 10 := by
  have found := framed.found []
  rw [append_nil, Jsonl.nextFrame] at found
  split_ifs at found with ends
  have length : (frame.takeWhile (· != 10)).length + 1 = frame.length := by
    split at found
    · exact Option.some.inj found
    · cases found
  have front : frame.take part <+: frame.takeWhile (· != 10) :=
    List.prefix_of_prefix_length_le (List.take_prefix _ _) (List.takeWhile_prefix _)
      (by rw [length_take]; omega)
  intro byte inside
  have other := mem_takeWhile_imp (front.subset inside)
  simpa using other

theorem jsonl_zeros_unread {frames : List Text}
    (framed : ∀ frame ∈ frames, Framed (Jsonl.nextFrame libraries) frame) (cut zeros : Nat) :
    Jsonl.nextFrame libraries (tornPart cut frames ++ List.replicate zeros 0) = none := by
  apply jsonl_next_none
  intro byte inside
  rcases mem_append.mp inside with torn | zero
  · rcases torn_part_cases cut frames with empty | ⟨frame, member, part, short, same⟩
    · rw [empty] at torn
      cases torn
    · rw [same] at torn
      exact jsonl_part_shown (framed frame member) short byte torn
  · rw [eq_of_mem_replicate zero]
    decide

theorem format_next_pos {format : Format} {length : Nat}
    (found : format.codec.nextFrame bytes = some length) : 0 < length := by
  cases format with
  | binary =>
    have read : Binary.nextFrame bytes = some length := found
    rw [Binary.nextFrame] at read
    split_ifs at read
    cases read
    exact Nat.add_pos_left (by decide) _
  | jsonl libraries =>
    have read : Jsonl.nextFrame libraries bytes = some length := found
    rw [Jsonl.nextFrame] at read
    split_ifs at read
    split at read
    · cases read
      exact Nat.succ_pos _
    · cases read

theorem open_size {codec : FrameCodec} {file : Text} {baseIndex : Nat} {maxSize : Int}
    {hasHeader : Bool} {opened : OpenSegment}
    (found : OpenSegment.openRW codec file baseIndex maxSize hasHeader = .ok opened) :
    opened.segment.size = total (scanLengths codec.nextFrame file.length file) := by
  have scanned : opened.segment.size = (SegmentFile.reopen codec
      { SegmentFile.create baseIndex maxSize with file := file, hasHeader := hasHeader }).size := by
    rw [OpenSegment.openRW] at found
    dsimp only at found
    split_ifs at found with lead
    · split at found
      · cases found
      · cases found
        rfl
    · cases found
      rfl
  rw [scanned, SegmentFile.reopen, SegmentFile.scanFile]
  cases hasHeader with
  | false => exact Nat.zero_add _
  | true =>
    cases scanLengths codec.nextFrame file.length file with
    | nil => rfl
    | cons first rest => rfl

/-- What is behind the last whole frame is not read, unless zeros complete it. -/
theorem Written.tail_unread_iff {format : Format} {header : Text} {frames : List Text}
    (written : Written format segment header frames) (cut zeros : Nat) :
    format.codec.nextFrame (tornPart cut (allFrames segment.hasHeader header frames) ++
        List.replicate zeros 0) = none ↔
      (format = .binary → ¬Binary.StartsFrame ((segment.file.take cut).drop
        (segment.lastEnd cut) ++ List.replicate zeros 0)) := by
  cases format with
  | jsonl libraries =>
    constructor
    · intro _ same
      cases same
    · intro _
      exact jsonl_zeros_unread written.all_framed cut zeros
  | binary =>
    have torn := torn_part_unread written.all_framed (format_next_nil .binary) cut
    obtain ⟨opened, _, prefixed, left, _⟩ := @Written.recovers .binary header frames
      ⟨segment, none⟩ cut [] written (by rw [append_nil]; exact torn)
    rw [← left, prefixed.size.unique (last_end_greatest segment cut)]
    constructor
    · rintro unread - ⟨payload, frame, short, framed, rest, whole⟩
      have read := (@binary_framed 0 _ _ short framed).found rest
      rw [whole] at read
      exact absurd (unread.symm.trans read) nofun
    · intro clean
      by_contra found
      obtain ⟨length, read⟩ := Option.ne_none_iff_exists'.mp found
      exact clean rfl (binary_next_sound read)

/-- A frame behind the cut is found as an entry that was not written there. -/
theorem Written.recovers_unread {original opened : OpenSegment} {format : Format}
    {header : Text} {frames : List Text} {cut : Nat} {tail : Text} {baseIndex : Nat}
    {maxSize : Int} (written : Written format original.segment header frames)
    (found : OpenSegment.openRW format.codec (original.segment.file.take cut ++ tail) baseIndex
      maxSize original.segment.hasHeader = .ok opened)
    (recovers : Recovers format.codec original opened cut) :
    format.codec.nextFrame
      (tornPart cut (allFrames original.segment.hasHeader header frames) ++ tail) = none := by
  set all := allFrames original.segment.hasHeader header frames with listed
  have flat : all.flatten = original.segment.file := by
    have headed : if original.segment.hasHeader then Framed format.codec.nextFrame header
        else header = [] := written.holds.headed
    rw [written.file, listed, allFrames]
    split_ifs at headed ⊢
    · rfl
    · rw [headed, nil_append]
  have framed : ∀ frame ∈ wholeFrames cut all, Framed format.codec.nextFrame frame :=
    fun frame inside => written.all_framed frame ((whole_frames_leading cut all).subset inside)
  have size := open_size found
  rw [← flat, ← whole_torn, append_assoc, scan_lengths_append framed _
    ((framed_length framed).trans (by rw [length_append]; omega)), total_append,
    total_lengths] at size
  -- Alone, the bytes before the cut give the same size.
  obtain ⟨plain, opens, alone, _⟩ := @Written.recovers format header frames original cut [] written
    (by rw [append_nil]; exact torn_part_unread written.all_framed (format_next_nil format) cut)
  have same := open_size opens
  rw [append_nil, ← flat, ← whole_torn, scan_lengths_flatten framed
    (torn_part_unread written.all_framed (format_next_nil format) cut)
    ((framed_length framed).trans (by rw [length_append]; omega)), total_lengths,
    alone.size.unique recovers.size] at same
  by_contra read
  obtain ⟨length, starts⟩ := Option.ne_none_iff_exists'.mp read
  obtain ⟨fuel, passes⟩ : ∃ fuel, ((wholeFrames cut all).flatten ++
    (tornPart cut all ++ tail)).length -
      (wholeFrames cut all).length = fuel + 1 := by
    have few := framed_length framed
    have filled : tornPart cut all ++ tail ≠ [] := by
      intro empty
      rw [empty, format_next_nil] at starts
      cases starts
    have some := length_pos_iff.mpr filled
    rw [length_append]
    exact ⟨_, (Nat.succ_pred_eq_of_pos (by omega)).symm⟩
  rw [passes, scanLengths, starts, total] at size
  have positive := format_next_pos starts
  omega

end Zeros

/-- Zeros behind a prefix of a segment's file add no entries: never to lines, and to binary
frames exactly as long as they do not make up one with what the cut left. -/
theorem zero_tail_recovers (format : Format) (header : Option Text) (baseIndex : Nat)
    (maxSize : Int) (short : ∀ payload ∈ header, format.Short payload) {begun : OpenSegment}
    (started : OpenSegment.start format.codec header baseIndex maxSize = .ok begun)
    {payloads : List Text} (fits : ∀ payload ∈ payloads, format.Short payload)
    (cut zeros : Nat) :
    (∃ opened, OpenSegment.openRW format.codec
        ((begun.appendAll format.codec payloads).segment.file.take cut ++
          List.replicate zeros 0) baseIndex maxSize header.isSome = .ok opened ∧
      Recovers format.codec (begun.appendAll format.codec payloads) opened cut) ↔
    (format = .binary → ¬Binary.StartsFrame
      (((begun.appendAll format.codec payloads).segment.file.take cut).drop
        ((begun.appendAll format.codec payloads).segment.lastEnd cut) ++
          List.replicate zeros 0)) := by
  obtain ⟨first, empty, base, limit, headed, _⟩ := start_written short started
  obtain ⟨frames, written, _⟩ := @append_all_written _ _ _ empty payloads
    fun payload inside => Or.inl (fits payload inside)
  obtain ⟨sameBase, sameMax, sameHeader⟩ := append_all_fixed format.codec begun payloads
  rw [← written.tail_unread_iff cut zeros]
  constructor
  · intro ⟨opened, found, recovers⟩
    rw [← headed, ← sameHeader] at found
    exact written.recovers_unread found recovers
  · intro unread
    obtain ⟨opened, found, recovers, _⟩ := written.recovers unread
    rw [sameBase, sameMax, sameHeader, base, limit, headed] at found
    exact ⟨opened, found, recovers⟩

/-- Seven zeros behind a frame. -/
theorem few_zeros_recovers :
    ∃ begun opened, OpenSegment.start binary none 1 100 = .ok begun ∧
      OpenSegment.openRW binary ((begun.appendAll binary [ascii "a"]).segment.file.take 9 ++
        List.replicate 7 0) 1 100 false = .ok opened ∧
      Recovers binary (begun.appendAll binary [ascii "a"]) opened 9 := by
  obtain ⟨opened, found, recovers⟩ := (@zero_tail_recovers .binary none 1 100
    (fun _ given => nomatch given) _ rfl [ascii "a"] (by decide) 9 7).mpr
    fun _ => few_bytes_no_frame (by decide +kernel)
  exact ⟨_, opened, rfl, found, recovers⟩

/-- Eight zeros are the frame of an empty payload: an empty segment is found to hold an
entry, and so is the one a payload of one zero byte was cut from. -/
theorem zero_tail_phantom :
    ((OpenSegment.create 1 100).segment.count = 0 ∧
        (OpenSegment.openRW binary (List.replicate 8 0) 1 100 false).toOption.map
          (fun opened => (opened.segment.count, opened.segment.readFile binary 0)) =
            some (1, .ok [])) ∧
      (OpenSegment.openRW binary
          ((((OpenSegment.create 1 100).append binary [0]).2.segment.file.take 8) ++
            List.replicate 1 0) 1 100 false).toOption.map
        (fun opened => (opened.segment.count, opened.segment.readFile binary 0)) =
          some (1, .ok [0]) := by
  decide +kernel

end Figwal.Codec
