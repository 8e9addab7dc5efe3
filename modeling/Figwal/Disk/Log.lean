import Figwal.Disk.Segment

/-!
# The segmented log

`disk.Log` as its own code computes it: a list of sealed segments, at most one
active segment that takes appends, and a fork base below which reads are served
by the parent. A handle together with its ancestors is the list of their logs,
the handle itself first.

A sealed segment is routed by its recorded last index, which a rotation takes
from the segment and `loadSegments` derives from the next file's name. `stray`
lists files of the directory that the handle no longer refers to: a file whose
header could not be written, or the empty active segment a fork leaves behind.
-/

namespace Figwal.Disk

open Figwal.Lib

set_option autoImplicit false

/-- `onSegmentOpen` is present exactly in header mode. The callback receives the
previous header and the payloads of the segment just sealed. -/
structure Options (α σ : Type) where
  codec : Codec α σ
  segmentSize : Int
  onSegmentOpen : Option (Option σ → List α → Except Err σ)

structure Sealed (α σ : Type) where
  last : Nat
  seg : Segment α σ
  deriving DecidableEq, Repr

structure Log (α σ : Type) where
  forkBase : Nat
  sealed : List (Sealed α σ)
  active : Option (Segment α σ)
  stray : List (Segment α σ)
  readOnly : Bool
  subdirs : Bool
  deriving DecidableEq, Repr

variable {α σ : Type}

def wrapOpen (segment : Segment α σ) : Sealed α σ where
  last := if 0 < segment.count then segment.lastIndex else segment.baseIndex
  seg := segment

def firstWritableAt (forkBase : Nat) : Nat :=
  if 0 < forkBase then forkBase else 1

namespace Log

def activeCount (log : Log α σ) : Nat :=
  match log.active with
  | none => 0
  | some segment => segment.count

def files (log : Log α σ) : List (Segment α σ) :=
  log.sealed.map Sealed.seg ++ log.active.toList ++ log.stray

def isEmpty (log : Log α σ) : Bool :=
  log.sealed.isEmpty && log.activeCount == 0

def firstIndexLocked (log : Log α σ) : Nat :=
  match log.sealed with
  | head :: _ => head.seg.baseIndex
  | [] =>
    match log.active with
    | some segment => if 0 < segment.count then segment.baseIndex else 0
    | none => 0

def sealedLast (log : Log α σ) : Nat :=
  match log.sealed.getLast? with
  | some newest => newest.last
  | none => 0

def lastIndexLocked (log : Log α σ) : Nat :=
  match log.active with
  | some segment => if 0 < segment.count then segment.lastIndex else log.sealedLast
  | none => log.sealedLast

def lastIndex (log : Log α σ) : Nat :=
  if 0 < log.lastIndexLocked then log.lastIndexLocked
  else if 0 < log.forkBase then log.forkBase - 1 else 0

def firstWritable (log : Log α σ) : Nat :=
  firstWritableAt log.forkBase

/-- The index `Write` demands. -/
def expected (log : Log α σ) : Nat :=
  if log.isEmpty then log.firstWritable else log.lastIndexLocked + 1

def searchSealed (log : Log α σ) (idx : Nat) : Nat :=
  search (log.sealed.map Sealed.last) idx

def sealedFor (log : Log α σ) (idx : Nat) : Option (Sealed α σ) :=
  match log.sealed[log.searchSealed idx]? with
  | some found => if found.seg.baseIndex ≤ idx then some found else none
  | none => none

def findSegment (log : Log α σ) (idx : Nat) : Option (Segment α σ) :=
  match log.sealedFor idx with
  | some found => some found.seg
  | none =>
    match log.active with
    | some segment =>
      if 0 < segment.count ∧ segment.baseIndex ≤ idx ∧ idx ≤ segment.lastIndex then
        some segment
      else none
    | none => none

/-- What `Read` returns once the index is known not to be inherited. -/
def readOwn (log : Log α σ) (idx : Nat) : Except Err α :=
  if log.isEmpty then .error .empty
  else
    match log.findSegment idx with
    | none => .error .notFound
    | some segment => segment.readIndex (idx - segment.baseIndex)

/-- `TruncateFront`: drop every sealed segment that ends below `beforeIdx`. -/
def truncateFront (log : Log α σ) (beforeIdx : Nat) : Log α σ :=
  { log with sealed := log.sealed.filter fun segment => beforeIdx ≤ segment.last }

end Log

def read : List (Log α σ) → Nat → Except Err α
  | [], _ => .error .notFound
  | log :: parents, idx =>
    if parents ≠ [] ∧ idx < log.forkBase then read parents idx
    else log.readOwn idx

def firstIndex : List (Log α σ) → Nat
  | [] => 0
  | log :: parents =>
    if 0 < firstIndex parents then firstIndex parents else log.firstIndexLocked

/-- How a scan ended. `stuck` is a loop that no longer advances. -/
inductive Outcome where
  | done
  | failed (err : Err)
  | stuck
  deriving DecidableEq, Repr

structure Scan (α : Type) where
  seen : List (Nat × α)
  outcome : Outcome
  deriving DecidableEq, Repr

/-- A callback that stops the scan at the first index from `bound` on. -/
def Scan.cutAt (bound : Nat) (scan : Scan α) : Scan α :=
  if scan.seen.all fun item => item.1 < bound then scan
  else { seen := scan.seen.takeWhile fun item => item.1 < bound, outcome := .done }

/-- The records of one segment from `cur` to `segEnd`, with their indices. -/
def Segment.items (segment : Segment α σ) (cur segEnd : Nat) : List (Nat × α) :=
  (((segment.payloads.drop (cur - segment.baseIndex)).take (segEnd + 1 - cur)).zipIdx cur).map
    Prod.swap

/-- The loop of `Log.Range`. Every pass that makes progress advances `cur`, so
running out of fuel means the loop would never end. -/
def Log.rangeLoop (log : Log α σ) (last : Nat) : Nat → Nat → Scan α
  | 0, _ => ⟨[], .stuck⟩
  | fuel + 1, cur =>
    if cur ≤ last then
      match log.findSegment cur with
      | none => ⟨[], .failed .notFound⟩
      | some segment =>
        let segEnd := min segment.lastIndex last
        let rest := log.rangeLoop last fuel (segEnd + 1)
        ⟨segment.items cur segEnd ++ rest.seen, rest.outcome⟩
    else ⟨[], .done⟩

def Log.rangeOwn (log : Log α σ) (start : Nat) : Scan α :=
  if log.isEmpty then ⟨[], .done⟩
  else
    let cur := max start log.firstIndexLocked
    log.rangeLoop log.lastIndexLocked (log.lastIndexLocked + 1 - cur + 1) cur

def range : List (Log α σ) → Nat → Scan α
  | [], _ => ⟨[], .done⟩
  | log :: parents, start =>
    if parents ≠ [] ∧ start < log.forkBase then
      let upper := (range parents start).cutAt log.forkBase
      match upper.outcome with
      | .done =>
        let lower := log.rangeOwn log.forkBase
        ⟨upper.seen ++ lower.seen, lower.outcome⟩
      | _ => upper
    else log.rangeOwn start

/-- `Log.StateAt`: the header of the segment holding `idx` folded with the
payloads of that segment up to `idx`. -/
def stateAt (opts : Options α σ) : List (Log α σ) → Nat → Except Err σ
  | [], _ => .error .notFound
  | log :: parents, idx =>
    match opts.onSegmentOpen with
    | none => .error .notHeaderMode
    | some fold =>
      if parents ≠ [] ∧ idx < log.forkBase then stateAt opts parents idx
      else
        match log.findSegment idx with
        | none => .error .notFound
        | some segment =>
          if idx - segment.baseIndex < segment.count then
            fold segment.header
              (segment.payloads.take (idx - segment.baseIndex + 1))
          else .error .outOfRange

namespace Log

/-- The header a new segment starts with: folded from the newest sealed
segment, else from the parent's state at the fork point, else from nothing. -/
def openHeader (opts : Options α σ) (parents : List (Log α σ)) (log : Log α σ)
    (fold : Option σ → List α → Except Err σ) : Except Err σ :=
  match log.sealed.getLast? with
  | some newest => fold newest.seg.header newest.seg.payloads
  | none =>
    if parents ≠ [] ∧ 1 < log.forkBase then
      match stateAt opts parents (log.forkBase - 1) with
      | .error err => .error err
      | .ok state => fold (some state) []
    else fold none []

/-- `openActiveLocked`. The file is created before its header is computed, so a
failing header leaves the empty file in the directory. -/
def openActive (opts : Options α σ) (parents : List (Log α σ)) (log : Log α σ)
    (baseIndex : Nat) : Except Err Unit × Log α σ :=
  if baseIndex ∈ log.files.map Segment.baseIndex then (.error .exists, log)
  else
    let fresh : Segment α σ := create baseIndex opts.segmentSize
    match opts.onSegmentOpen with
    | none => (.ok (), { log with active := some fresh })
    | some fold =>
      match log.openHeader opts parents fold with
      | .error err => (.error err, { log with stray := log.stray ++ [fresh] })
      | .ok header =>
        match fresh.writeHeader opts.codec header with
        | .error err => (.error err, { log with stray := log.stray ++ [fresh] })
        | .ok headed => (.ok (), { log with active := some headed })

/-- The first half of `rotateLocked`: the active segment joins the sealed ones. -/
def sealActive (log : Log α σ) : Log α σ :=
  match log.active with
  | none => log
  | some segment =>
    { log with sealed := log.sealed ++ [wrapOpen segment], active := none }

def rotate (opts : Options α σ) (parents : List (Log α σ)) (log : Log α σ)
    (baseIndex : Nat) : Except Err Unit × Log α σ :=
  log.sealActive.openActive opts parents baseIndex

/-- The second attempt of `Write`, on the segment a rotation just opened. -/
def appendRotated (opts : Options α σ) (log : Log α σ) (payload : α) :
    Except Err Unit × Log α σ :=
  match log.active with
  | none => (.error .notFound, log)
  | some segment =>
    match segment.append opts.codec payload with
    | .ok next => (.ok (), { log with active := some next })
    | .error .full => (.error .payloadTooLarge, log)
    | .error err => (.error err, log)

/-- `Write` once an active segment exists: append, or rotate and append. -/
def appendActive (opts : Options α σ) (parents : List (Log α σ)) (log : Log α σ)
    (idx : Nat) (payload : α) : Except Err Unit × Log α σ :=
  match log.active with
  | none => (.error .notFound, log)
  | some segment =>
    match segment.append opts.codec payload with
    | .ok next => (.ok (), { log with active := some next })
    | .error .full =>
      if segment.count = 0 then (.error .payloadTooLarge, log)
      else
        match log.rotate opts parents idx with
        | (.error err, rotated) => (.error err, rotated)
        | (.ok (), rotated) => rotated.appendRotated opts payload
    | .error err => (.error err, log)

def write (opts : Options α σ) (parents : List (Log α σ)) (log : Log α σ)
    (idx : Nat) (payload : α) : Except Err Unit × Log α σ :=
  if log.readOnly then (.error .readOnly, log)
  else if log.subdirs then (.error .readOnly, { log with readOnly := true })
  else if idx ≠ log.expected then (.error .outOfOrder, log)
  else
    match log.active with
    | some _ => log.appendActive opts parents idx payload
    | none =>
      match log.openActive opts parents idx with
      | (.error err, opened) => (.error err, opened)
      | (.ok (), opened) => opened.appendActive opts parents idx payload

end Log

end Figwal.Disk
