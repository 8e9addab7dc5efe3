import Figwal.Disk.Persist
import Figwal.Disk.Scan
import Figwal.Lib.Runs

/-!
# The buffered log

`log.Log` over a disk that may fail: records are acknowledged into a pending buffer
and written out in order by `SyncThrough`. The buffer is trimmed only after the fsync
succeeded, so after a failed sync records are in both places.

An operation carries the call of its sync that fails, if any: call `n` is the `n`-th
inner write, and the call after the last write is the fsync. A call that fails has no
effect.
-/

namespace Figwal.Buffered

open Figwal.Lib Figwal.Disk

set_option autoImplicit false

variable {α σ : Type}

structure Buffer (α σ : Type) where
  inner : Log α σ
  first : Nat
  entries : List α
  pendingBytes : Int

def totalSize (size : α → Nat) : List α → Nat
  | [] => 0
  | record :: rest => size record + totalSize size rest

def emptyAsNotFound : Except Err α → Except Err α
  | .error .empty => .error .notFound
  | answer => answer

namespace Buffer

/-- A log as `Open` returns it. -/
def opened (inner : Log α σ) : Buffer α σ where
  inner := inner
  first := 0
  entries := []
  pendingBytes := 0

/-- `pendingView.last`. -/
def lastPending (buffer : Buffer α σ) : Nat :=
  buffer.first + buffer.entries.length - 1

def lastIndex (buffer : Buffer α σ) : Nat :=
  if buffer.entries = [] then buffer.inner.lastIndex else buffer.lastPending

/-- `pendingView.at`. -/
def pendingAt (buffer : Buffer α σ) (idx : Nat) : Option α :=
  if idx < buffer.first then none else buffer.entries[idx - buffer.first]?

def read (parents : List (Log α σ)) (buffer : Buffer α σ) (idx : Nat) : Except Err α :=
  match buffer.pendingAt idx with
  | some payload => .ok payload
  | none => emptyAsNotFound (Disk.read (buffer.inner :: parents) idx)

def pendingItems (buffer : Buffer α σ) : List (Nat × α) :=
  (buffer.entries.zipIdx buffer.first).map Prod.swap

/-- `Range`: the disk up to the first pending record, then the pending ones. -/
def range (parents : List (Log α σ)) (buffer : Buffer α σ) (start : Nat) : Scan α :=
  let walk := Disk.range (buffer.inner :: parents) start
  let below := if buffer.entries = [] then walk else walk.cutAt buffer.first
  match below.outcome with
  | .done => ⟨below.seen ++ buffer.pendingItems.filter (start ≤ ·.1), .done⟩
  | _ => below

/-- `ScanFromEnd`, which starts at the tail when asked for 0 or for more than it. -/
def scanFromEnd (parents : List (Log α σ)) (buffer : Buffer α σ) (start : Nat) : Scan α :=
  let high := if start = 0 ∨ buffer.lastIndex < start then buffer.lastIndex else start
  if high = 0 then ⟨[], .done⟩
  else if buffer.entries ≠ [] ∧ buffer.first ≤ high then
    let newest := (buffer.pendingItems.filter (·.1 ≤ high)).reverse
    if buffer.first - 1 = 0 then ⟨newest, .done⟩
    else
      let older := Disk.scanFromEnd (buffer.inner :: parents) (buffer.first - 1)
      ⟨newest ++ older.seen, older.outcome⟩
  else Disk.scanFromEnd (buffer.inner :: parents) high

/-- How many pending records `SyncThrough` takes up. -/
def batch (buffer : Buffer α σ) (target : Nat) : Nat :=
  if buffer.entries = [] ∨ target < buffer.first then 0
  else min buffer.entries.length (target - buffer.first + 1)

def due (buffer : Buffer α σ) (count : Nat) : List α :=
  (buffer.entries.take count).drop (buffer.inner.lastIndex + 1 - buffer.first)

def tried (fault : Option Nat) (due : List α) : List α :=
  match fault with
  | none => due
  | some call => due.take call

def syncThrough (opts : Options α σ) (parents : List (Log α σ)) (size : α → Nat)
    (target : Nat) (fault : Option Nat) (buffer : Buffer α σ) : Except Err Unit × Buffer α σ :=
  let count := buffer.batch target
  if count = 0 then (.ok (), buffer)
  else
    let due := buffer.due count
    match persist opts parents buffer.inner (max buffer.first (buffer.inner.lastIndex + 1))
        (tried fault due) with
    | (.error err, next) => (.error err, { buffer with inner := next })
    | (.ok (), next) =>
      if fault.any (· ≤ due.length) then (.error .io, { buffer with inner := next })
      else
        (.ok (), {
          inner := next
          first := buffer.first + count
          entries := buffer.entries.drop count
          pendingBytes := buffer.pendingBytes - totalSize size (buffer.entries.take count) })

/-- The target `Sync` passes on: past every pending record. -/
def allPending (buffer : Buffer α σ) : Nat :=
  buffer.first + buffer.entries.length

def sync (opts : Options α σ) (parents : List (Log α σ)) (size : α → Nat) (fault : Option Nat)
    (buffer : Buffer α σ) : Except Err Unit × Buffer α σ :=
  buffer.syncThrough opts parents size buffer.allPending fault

/-- What `write` does to the buffer. -/
def push (size : α → Nat) (idx : Nat) (payload : α) (buffer : Buffer α σ) : Buffer α σ :=
  { buffer with
    first := if buffer.entries = [] then idx else buffer.first
    entries := buffer.entries ++ [payload]
    pendingBytes := buffer.pendingBytes + size payload }

/-- `Write`: the record joins the pending ones, and is synced at once with all of
them when they exceed the byte bound. -/
def write (opts : Options α σ) (parents : List (Log α σ)) (size : α → Nat) (maxLag : Nat)
    (idx : Nat) (payload : α) (fault : Option Nat) (buffer : Buffer α σ) :
    Except Err Unit × Buffer α σ :=
  if buffer.inner.readOnly then (.error .readOnly, buffer)
  else if idx ≠ buffer.lastIndex + 1 then (.error .outOfOrder, buffer)
  else
    let pushed := buffer.push size idx payload
    if maxLag < pushed.pendingBytes then pushed.syncThrough opts parents size idx fault
    else (.ok (), pushed)

end Buffer

end Figwal.Buffered
