import Figwal.Xwal.Cell
import Figwal.Xwal.Index

/-!
# Trunks

A store of trunks: the manifest's channels, the node index, and a cell for every
channel of every node. Appends go to the head node of a trunk and stay in memory
until a flush. Forking makes a new node whose channels start at computed bases and
are served by the parent's directory below them. Operations that move directories
first retire the hot store, which writes out and drops everything in memory.

The directory of a node that does not exist is an empty one. Every fork makes a
directory in each channel and a new channel is filled in for each node, so the
source's fallbacks for a missing directory are not reached.
-/

namespace Figwal.Xwal

open Figwal.Lib Figwal.Disk

set_option autoImplicit false

inductive Fault where
  | disk (err : Err)
  | unknownTrunk (trunk : String)
  | unknownStump (name : String)
  | noChannel (name : String)
  | useAppendMain
  | decreasingMainLT (got last : Nat)
  | flushFailing (err : Err)
  | invalidStump (name : String)
  | stumpExists (name : String)
  | stumpHasChildren (count : Nat)
  | rootTrunk
  | liveBranches (count : Nat)
  | channelMismatch (name : String)
  | channelConflict (name : String)
  | topologyIncomplete (name : String)
  | duplicateChannel
  | noMain
  | multipleHeads (trunk previous key : String)
  | noDirectory (node : String)
  | negativeLimit (limit : Int)
  | detachRoot
  | lineageCycle (node : String)
  deriving DecidableEq, Repr

/-- `strays` are the directories of the main channel that carry no node marker: what
a fork that did not finish leaves behind. `unmarked` are nodes that the index in memory still
has and whose marker is gone. `unstamped` is the manifest's mark of a store that came through
`Flatten`. -/
structure Trunks (β σ : Type) where
  main : String
  maxLag : Nat
  unstamped : Bool
  channels : List (Channel β σ)
  index : Index
  strays : List String
  nodeSeq : Int
  plan : Option (Channel β σ)
  cells : String → String → Cell β σ
  unmarked : List String := []

variable {β σ : Type}

/-- A channel's log at a node with the logs it delegates to, given the node's
lineage. A node right below the root that has no fork marker stands alone. -/
def openLogs (opts : Options (Record β) σ) (cells : String → Cell β σ) :
    List String → Except Err (List (Log (Record β) σ))
  | [] => .error .notFound
  | node :: up =>
    match (cells node).handle.log opts with
    | .error err => .error err
    | .ok log =>
      if up = [] ∨ up = [""] ∧ log.forkBase = 0 then .ok [log]
      else
        match openLogs opts cells up with
        | .error err => .error err
        | .ok parents => .ok (log :: parents)

namespace Trunks

def channel (state : Trunks β σ) (name : String) : Option (Channel β σ) :=
  state.channels.find? fun channel => channel.name = name

def logs (state : Trunks β σ) (channel : Channel β σ) (node : String) :
    Except Err (List (Log (Record β) σ)) :=
  openLogs channel.opts (state.cells channel.name) (state.index.lineage node)

def setCell (state : Trunks β σ) (name node : String) (cell : Cell β σ) : Trunks β σ :=
  { state with
    cells := fun other key => if other = name ∧ key = node then cell else state.cells other key }

def withLog {Answer : Type} (state : Trunks β σ) (channel : Channel β σ) (node : String)
    (change : Log (Record β) σ → List (Log (Record β) σ) → Cell β σ →
      Except Err Answer × Cell β σ) : Except Err Answer × Trunks β σ :=
  match state.logs channel node with
  | .ok (log :: parents) =>
    let done := change log parents (state.cells channel.name node)
    (done.1, state.setCell channel.name node done.2)
  | .ok [] => (.error .notFound, state)
  | .error err => (.error err, state)

def flush (state : Trunks β σ) (channel : Channel β σ) (node : String) (target : Nat) :
    Except Err Unit × Trunks β σ :=
  state.withLog channel node fun log parents cell =>
    cell.syncThrough channel.opts log parents target

def sync (state : Trunks β σ) (channel : Channel β σ) (node : String) :
    Except Err Unit × Trunks β σ :=
  state.flush channel node (state.cells channel.name node).allPending

/-- `Disk().LastIndex()`. -/
def diskLast (state : Trunks β σ) (channel : Channel β σ) (node : String) : Nat :=
  match state.logs channel node with
  | .ok (log :: _) => log.lastIndex
  | _ => 0

def lastIndex (state : Trunks β σ) (channel : Channel β σ) (node : String) : Nat :=
  match state.logs channel node with
  | .ok (log :: _) => (state.cells channel.name node).lastIndex log
  | _ => 0

/-- The related channels' part of `syncCoherent`. -/
def syncRelated (node : String) (mainTail : Nat) :
    List (Channel β σ) → Trunks β σ → Except Err Unit × Trunks β σ
  | [], state => (.ok (), state)
  | channel :: rest, state =>
    if channel.name = state.main then syncRelated node mainTail rest state
    else
      let limit := if channel.reducible then mainTail + 1 else mainTail
      match (state.cells channel.name node).coherentTarget channel limit with
      | .error err => (.error err, state)
      | .ok target =>
        match state.flush channel node target with
        | (.error err, next) => (.error err, next)
        | (.ok (), next) => syncRelated node mainTail rest next

/-- `syncCoherent`: the main channel first, then each related channel up to the
last record whose main LT is on disk. -/
def syncCoherent (state : Trunks β σ) (node : String) : Except Err Unit × Trunks β σ :=
  match state.channel state.main with
  | none => (.ok (), state)
  | some main =>
    match state.sync main node with
    | (.error err, next) => (.error err, next)
    | (.ok (), next) => syncRelated node (next.diskLast main node) next.channels next

/-- `syncHot` over a list of heads: all of them are tried, the first error is
reported. A head that is not loaded has nothing pending. -/
def syncNodes : List String → Trunks β σ → Except Err Unit × Trunks β σ
  | [], state => (.ok (), state)
  | node :: rest, state =>
    let here := state.syncCoherent node
    let later := syncNodes rest here.2
    match here.1 with
    | .error err => (.error err, later.2)
    | .ok () => later

def syncHot (state : Trunks β σ) : Except Err Unit × Trunks β σ :=
  syncNodes state.index.keys state

def places (state : Trunks β σ) : List (Channel β σ × String) :=
  state.channels.flatMap fun channel => ("" :: state.index.keys).map fun node => (channel, node)

def syncPlaces : List (Channel β σ × String) → Trunks β σ → Trunks β σ
  | [], state => state
  | (channel, node) :: rest, state => syncPlaces rest (state.sync channel node).2

/-- `retireHot`: closing the store generation syncs each log, ignores the errors,
and drops what is left in memory. -/
def retire (state : Trunks β σ) : Trunks β σ :=
  let synced := syncPlaces state.places state
  { synced with cells := fun name node => (synced.cells name node).close }

/-- `rebuild` reads the index back from the markers that are there. -/
def rebuild (state : Trunks β σ) : Trunks β σ :=
  let retired := state.retire
  let read := Index.rebuild (retired.index.filter fun entry => entry.1 ∉ retired.unmarked)
  { retired with
    index := read
    strays := retired.unmarked ++ retired.strays
    unmarked := []
    nodeSeq := read.seqOf }

/-!
## Appending
-/

def unkeyedCursors (state : Trunks β σ) (node : String) : List (String × Nat) :=
  (state.channels.filter Channel.unkeyed).map fun channel =>
    (channel.name, state.lastIndex channel node)

/-- `AppendMainCursors` at a node. The caller's entries win over the stamped ones. -/
def appendMain (state : Trunks β σ) (node : String) (body : β) (extra : List (String × Nat)) :
    Except Fault Nat × Trunks β σ :=
  match state.channel state.main with
  | none => (.error .noMain, state)
  | some main =>
    let next := state.lastIndex main node + 1
    let record : Record β := ⟨next, body, extra ++ state.unkeyedCursors node⟩
    match state.withLog main node fun log parents cell =>
        cell.write main state.maxLag log parents next record with
    | (.error err, written) => (.error (.disk err), written)
    | (.ok (), written) => (.ok next, written)

def tailMain (state : Trunks β σ) (channel : Channel β σ) (node : String) :
    Except Err (Option Nat) :=
  match state.logs channel node with
  | .ok (log :: parents) =>
    let cell := state.cells channel.name node
    let first := cell.firstIndex (log :: parents)
    let last := cell.lastIndex log
    if first = 0 ∨ last < first then .ok none
    else ((cell.read (log :: parents) last).bind channel.decode).map fun record =>
      some record.mainLT
  | .ok [] => .error .notFound
  | .error err => .error err

def appendRecord (state : Trunks β σ) (channel : Channel β σ) (node : String) (mainLT : Nat)
    (body : β) : Except Fault Nat × Trunks β σ :=
  let next := state.lastIndex channel node + 1
  match state.withLog channel node fun log parents cell =>
      cell.write channel state.maxLag log parents next ⟨mainLT, body, []⟩ with
  | (.error err, written) => (.error (.disk err), written)
  | (.ok (), written) => (.ok next, written)

/-- `XWAL.Append` at a node. -/
def appendRelated (state : Trunks β σ) (node name : String) (mainLT : Nat) (body : β) :
    Except Fault Nat × Trunks β σ :=
  match state.channel name with
  | none => (.error (.noChannel name), state)
  | some channel =>
    if name = state.main then (.error .useAppendMain, state)
    else if channel.unkeyed then state.appendRecord channel node 0 body
    else
      match state.tailMain channel node with
      | .error err => (.error (.disk err), state)
      | .ok (some last) =>
        if mainLT < last then (.error (.decreasingMainLT mainLT last), state)
        else state.appendRecord channel node mainLT body
      | .ok none => state.appendRecord channel node mainLT body

/-!
## Completing a channel
-/

end Trunks

/-- `rewriteWatermark` on one file: the records are framed again as they were. -/
def reheader (opts : Options (Record β) σ) (header : σ) (file : Segment (Record β) σ) :
    Except Err (Segment (Record β) σ) :=
  match opts.codec.headerLen header with
  | none => .error .codec
  | some length =>
    .ok { file with
      maxSize := 0
      size := length + (file.size - ((file.header.bind opts.codec.headerLen).getD 0))
      header := some header }

namespace Cell

/-- `ensureWatermark`: the segment at `base` exists and starts with `header`. Writing
the header it has again changes nothing a later open sees. -/
def ensureWatermark (opts : Options (Record β) σ) (base : Nat) (header : σ) (cell : Cell β σ) :
    Except Err (Cell β σ) :=
  let files := cell.handle.files
  let rewritten :=
    if base ∈ files.map Segment.baseIndex then
      files.mapM fun file => if file.baseIndex = base then reheader opts header file else .ok file
    else (reheader opts header (create base 0)).map fun file => file :: files
  rewritten.map fun files =>
    { cell with handle := .closed cell.handle.forkBase files cell.handle.subdirs }

def firstSegmentBase (cell : Cell β σ) : Option Nat :=
  (cell.handle.files.map Segment.baseIndex).min?

def marked (base : Nat) (cell : Cell β σ) : Cell β σ :=
  { cell with handle := .closed base cell.handle.files cell.handle.subdirs }

end Cell

namespace Channel

def initial (channel : Channel β σ) : Option σ :=
  channel.opts.onSegmentOpen.bind fun fold => (fold none []).toOption

def sameManifest (left right : Channel β σ) : Bool :=
  left.name == right.name && left.reducible == right.reducible &&
    left.reducer == right.reducer && left.isOpaque == right.isOpaque &&
      left.unkeyed == right.unkeyed

/-- What `validateChannelSpec` compares with an existing channel. -/
def sameShape (left right : Channel β σ) : Bool :=
  left.reducible == right.reducible && left.reducer == right.reducer &&
    left.isOpaque == right.isOpaque

/-- The base a node without marker or segments gets: after the parent's last record,
which must belong before the node's own main records. The parent is always the
channel's root. -/
def missingBase (channel : Channel β σ) (root : Log (Record β) σ) (mainForkBase : Nat) :
    Except Fault Nat :=
  if root.lastIndex = 0 then .ok 1
  else
    match (Disk.read [root] root.lastIndex).bind channel.decode with
    | .error err => .error (.disk err)
    | .ok record =>
      if mainForkBase = 0 then .error (.disk .notFound)
      else if mainForkBase ≤ record.mainLT then .error (.topologyIncomplete channel.name)
      else .ok (root.lastIndex + 1)

def seedInitial (channel : Channel β σ) (cell : Cell β σ) : Except Fault (Cell β σ) :=
  match channel.initial with
  | none => .ok cell
  | some initial => (cell.ensureWatermark channel.opts 1 initial).mapError .disk

/-- `backfillWatermarkState` and `ensureWatermark`. -/
def backfillWatermark (channel : Channel β σ) (root : Log (Record β) σ) (base : Nat)
    (cell : Cell β σ) : Except Fault (Cell β σ) :=
  match channel.initial with
  | none => .ok cell
  | some initial =>
    match (if base ≤ 1 then .ok initial else stateAt channel.opts [root] (base - 1) :
        Except Err σ) with
    | .error err => .error (.disk err)
    | .ok header => (cell.ensureWatermark channel.opts base header).mapError .disk

def ensureBackfillFork (channel : Channel β σ) (root : Log (Record β) σ) (mainForkBase : Nat)
    (cell : Cell β σ) : Except Fault (Cell β σ) :=
  if cell.handle.forkBase = 0 ∧ cell.firstSegmentBase = some 1 then
    channel.seedInitial cell
  else
    let base : Except Fault Nat :=
      if 0 < cell.handle.forkBase then .ok cell.handle.forkBase
      else
        match cell.firstSegmentBase with
        | some base => .ok base
        | none => channel.missingBase root mainForkBase
    match base with
    | .error fault => .error fault
    | .ok base => channel.backfillWatermark root base (cell.marked base)

end Channel

namespace Trunks

def backfillNodes (channel : Channel β σ) (root : Log (Record β) σ) :
    List String → Trunks β σ → Except Fault Unit × Trunks β σ
  | [], state => (.ok (), state)
  | node :: rest, state =>
    match channel.ensureBackfillFork root (state.cells state.main node).handle.forkBase
        (state.cells channel.name node) with
    | .error fault => (.error fault, state)
    | .ok cell => backfillNodes channel root rest (state.setCell channel.name node cell)

/-- `backfillChannel` walks the directories of the main channel, with or without a
node marker. -/
def backfillChannel (state : Trunks β σ) (channel : Channel β σ) :
    Except Fault Unit × Trunks β σ :=
  match channel.seedInitial (state.cells channel.name "") with
  | .error fault => (.error fault, state)
  | .ok cell =>
    let rooted := state.setCell channel.name "" cell
    match cell.handle.log channel.opts with
    | .error err => (.error (.disk err), rooted)
    | .ok root => backfillNodes channel root (rooted.index.keys ++ rooted.strays) rooted

/-- `recoverChannelPending`: finish a channel that was being added. Opening a head
does this first, so a plan that cannot be finished keeps every head from opening. -/
def recover (state : Trunks β σ) : Except Fault Unit × Trunks β σ :=
  match state.plan with
  | none => (.ok (), state)
  | some spec =>
    match state.backfillChannel spec with
    | (.error fault, next) => (.error fault, next)
    | (.ok (), next) =>
      match next.channel spec.name with
      | none => (.ok (), { next with channels := next.channels ++ [spec], plan := none })
      | some existing =>
        if existing.sameManifest spec then (.ok (), { next with plan := none })
        else (.error (.channelConflict spec.name), next)

end Trunks

end Figwal.Xwal
