import Figwal.Lib.Numbered

/-!
# Segments

One append-only file framed by a codec. A segment may lead with an opaque
block-0 header that is framed like a record and never counted. `payloads` holds
what `ReadFrame` gives back for each record frame, in index order, and `size`
is the length of the file in bytes.

Payloads and headers are kept abstract: all that the log layers ever ask of the
codec is how long a frame is and what a framed value reads back as. A block of cached
payloads is not kept: while one is resident, `ReadIndex` answers what `Append` was
given, which is what the file holds for payloads that are their own stored form.
-/

namespace Figwal.Disk

set_option autoImplicit false

/-- The part of `SegmentCodec` the log layers depend on, over payloads whose frames
can be read back. `frameLen` is the length of `Frame(idx, payload)` and is `none`
where `Frame` returns an error.
`nilHeader` is the nil byte slice as a header. A framed value that is read and
framed again reads back the same, and a framed header has at least one byte. -/
structure Codec (α σ : Type) where
  fileExt : String
  stored : α → α
  frameLen : Nat → α → Option Nat
  storedHeader : σ → σ
  headerLen : σ → Option Nat
  nilHeader : σ
  stored_stored : ∀ payload, stored (stored payload) = stored payload
  storedHeader_storedHeader : ∀ header,
    storedHeader (storedHeader header) = storedHeader header
  headerLen_pos : ∀ {header length}, headerLen header = some length → 0 < length

/-- Byte strings whose length fits the length word of a binary frame. The frame of a
longer one is written all the same and cannot be read back. -/
abbrev Bytes := { bytes : List UInt8 // bytes.length < 4294967296 }

/-- The bytes of a list, as many as a frame takes. -/
def bytes (list : List UInt8) : Bytes :=
  ⟨list.take 4294967295, Nat.lt_succ_of_le (List.length_take_le _ _)⟩

def byteCount (payload : Bytes) : Nat := payload.1.length

def headerSize : Nat := 8

def binaryCodec : Codec Bytes Bytes where
  fileExt := ".seg"
  stored := id
  frameLen := fun _ payload => some (headerSize + byteCount payload)
  storedHeader := id
  headerLen := fun header => some (headerSize + byteCount header)
  nilHeader := bytes []
  stored_stored := fun _ => rfl
  storedHeader_storedHeader := fun _ => rfl
  headerLen_pos := by
    intro header length framed
    cases framed
    exact Nat.lt_of_lt_of_le (by decide) (Nat.le_add_right headerSize _)

inductive Err where
  | full
  | outOfRange
  | codec
  | exists
  | callback
  | outOfOrder
  | notFound
  | empty
  | payloadTooLarge
  | readOnly
  | notHeaderMode
  | forkMismatch
  | invalidForkName
  | forkConflict
  | forkIndex
  | rename
  | io
  deriving DecidableEq, Repr

structure Segment (α σ : Type) where
  baseIndex : Nat
  maxSize : Int
  size : Nat
  payloads : List α
  header : Option σ
  deriving DecidableEq, Repr

variable {α σ : Type} {codec : Codec α σ}

def Segment.count (segment : Segment α σ) : Nat := segment.payloads.length

/-- Only meaningful when `count` is positive, as in the source. -/
def Segment.lastIndex (segment : Segment α σ) : Nat :=
  segment.baseIndex + segment.count - 1

def create (baseIndex : Nat) (maxSize : Int) : Segment α σ where
  baseIndex := baseIndex
  maxSize := maxSize
  size := 0
  payloads := []
  header := none

def Segment.append (codec : Codec α σ) (segment : Segment α σ) (payload : α) :
    Except Err (Segment α σ) :=
  match codec.frameLen (segment.baseIndex + segment.count) payload with
  | none => .error .codec
  | some length =>
    if 0 < segment.maxSize ∧ segment.maxSize < (segment.size + length : Nat) then
      .error .full
    else
      .ok { segment with
        size := segment.size + length
        payloads := segment.payloads ++ [codec.stored payload] }

/-- `WriteHeader` on a fresh segment. The handle keeps the bytes it was given;
only a reopened segment sees the codec's stored form. -/
def Segment.writeHeader (codec : Codec α σ) (segment : Segment α σ) (header : σ) :
    Except Err (Segment α σ) :=
  match codec.headerLen header with
  | none => .error .codec
  | some length => .ok { segment with size := length, header := some header }

def Segment.readIndex (segment : Segment α σ) (position : Nat) : Except Err α :=
  match segment.payloads[position]? with
  | none => .error .outOfRange
  | some payload => .ok payload

/-- A segment as a fresh `Open` sees it. -/
def Segment.reload (codec : Codec α σ) (maxSize : Int) (segment : Segment α σ) :
    Segment α σ :=
  { segment with
    maxSize := maxSize
    header := segment.header.map codec.storedHeader }

@[simp] theorem reload_base (codec : Codec α σ) (maxSize : Int) (segment : Segment α σ) :
    (segment.reload codec maxSize).baseIndex = segment.baseIndex := rfl

@[simp] theorem reload_payloads (codec : Codec α σ) (maxSize : Int)
    (segment : Segment α σ) :
    (segment.reload codec maxSize).payloads = segment.payloads := rfl

@[simp] theorem reload_count (codec : Codec α σ) (maxSize : Int)
    (segment : Segment α σ) :
    (segment.reload codec maxSize).count = segment.count := rfl

variable {next segment : Segment α σ}

theorem append_ok {payload : α} (done : segment.append codec payload = .ok next) :
    next.baseIndex = segment.baseIndex ∧ next.header = segment.header ∧
      next.payloads = segment.payloads ++ [codec.stored payload] := by
  unfold Segment.append at done
  split at done
  · cases done
  · split at done
    · cases done
    · cases done
      exact ⟨rfl, rfl, rfl⟩

theorem write_header_ok {header : σ} (done : segment.writeHeader codec header = .ok next) :
    next.baseIndex = segment.baseIndex ∧ next.payloads = segment.payloads ∧
      next.header = some header := by
  unfold Segment.writeHeader at done
  split at done
  · cases done
  · cases done
    exact ⟨rfl, rfl, rfl⟩

theorem append_size {payload : α} (done : segment.append codec payload = .ok next) :
    segment.size ≤ next.size := by
  unfold Segment.append at done
  split at done
  · cases done
  · split at done
    · cases done
    · cases done
      exact Nat.le_add_right _ _

theorem write_header_size {header : σ} (done : segment.writeHeader codec header = .ok next) :
    0 < next.size := by
  unfold Segment.writeHeader at done
  split at done
  · cases done
  · rename_i length framed
    cases done
    exact codec.headerLen_pos framed

end Figwal.Disk
