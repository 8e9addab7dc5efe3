import Figwal.Disk.World

/-!
# Forking a log

`Fork` cuts a log at an index. The segments below the cut stay, those above it
move into a subdirectory, the old future, and a boundary segment is rewritten as
two files. The child forks move along when segments do. A new subdirectory takes
the appends of the new branch.
-/

namespace Figwal.Disk

open Figwal.Lib

set_option autoImplicit false

variable {α σ : Type}

def segNameWidth : Nat := 20

/-- The file name of a segment: its base in twenty digits and the extension. -/
def segName (fileExt : String) (base : Nat) : String :=
  String.ofList (List.replicate (segNameWidth - (Nat.repr base).toList.length) '0' ++
    (Nat.repr base).toList) ++ fileExt

def validateForkName (name : String) : Bool :=
  name ≠ "" && name ≠ "." && name ≠ ".." &&
    name.toList.all fun char => char ≠ '/' && char ≠ '\\'

def isInternal (name : String) : Bool :=
  name.toList.head? = some '.'

namespace Log

/-- The range check of `forkImpl`. -/
def forkIndexValid (log : Log α σ) (atIdx : Nat) : Bool :=
  if log.isEmpty then atIdx = log.firstWritable
  else
    (log.firstIndexLocked < atIdx || (0 < log.forkBase && atIdx = log.firstIndexLocked)) &&
      atIdx ≤ log.lastIndexLocked + 1

def sealForFork (log : Log α σ) : Log α σ :=
  if 0 < log.activeCount then log.sealActive else log

/-- The state at `atIdx - 1`, which both branches start from in header mode. -/
def forkWatermark (opts : Options α σ) (parents : List (Log α σ)) (log : Log α σ)
    (atIdx : Nat) : Except Err (Option σ) :=
  match opts.onSegmentOpen with
  | none => .ok none
  | some fold =>
    if log.isEmpty then
      match log.active with
      | some segment => .ok (some (segment.header.getD opts.codec.nilHeader))
      | none =>
        if parents ≠ [] ∧ 1 < atIdx then (stateAt opts parents (atIdx - 1)).map some
        else (fold none []).map some
    else (stateAt opts (log :: parents) (atIdx - 1)).map some

end Log

/-- A segment file written afresh: a header in header mode, then the payloads. -/
def rebuild (opts : Options α σ) (baseIndex : Nat) (maxSize : Int) (header : Option σ)
    (payloads : List α) : Except Err (Segment α σ) :=
  let fresh : Segment α σ := create baseIndex maxSize
  let headed : Except Err (Segment α σ) :=
    match opts.onSegmentOpen with
    | none => .ok fresh
    | some _ => fresh.writeHeader opts.codec (header.getD opts.codec.nilHeader)
  match headed with
  | .error err => .error err
  | .ok segment => payloads.foldlM (fun grown payload => grown.append opts.codec payload) segment

inductive SegAction where
  | keep
  | move
  | split
  deriving DecidableEq, Repr

def Sealed.action (entry : Sealed α σ) (atIdx : Nat) : SegAction :=
  if entry.last < atIdx then .keep
  else if atIdx ≤ entry.seg.baseIndex then .move
  else .split

def Sealed.keptAs (entry : Sealed α σ) (atIdx : Nat) (replacement : Sealed α σ) :
    Option (Sealed α σ) :=
  match entry.action atIdx with
  | .keep => some entry
  | .move => none
  | .split => some replacement

/-- What a fork leaves in the log's directory, in the old future and in the new
child. -/
structure ForkParts (α σ : Type) where
  kept : List (Sealed α σ)
  oldFiles : List (Segment α σ)
  childFiles : List (Segment α σ)
  dataMoves : Bool
  createOld : Bool

def watermarkSegs (opts : Options α σ) (atIdx : Nat) (watermark : Option σ) :
    Except Err (List (Segment α σ)) :=
  match opts.onSegmentOpen with
  | none => .ok []
  | some _ =>
    match rebuild opts atIdx opts.segmentSize watermark [] with
    | .error err => .error err
    | .ok segment => .ok [segment]

/-- The two files a boundary segment is rewritten as: the part below the cut
with its own header, the rest with the watermark. -/
def splitFiles (opts : Options α σ) (atIdx : Nat) (watermark : Option σ)
    (boundary : Segment α σ) : Except Err (Segment α σ × Segment α σ) :=
  let cut := atIdx - boundary.baseIndex
  match rebuild opts boundary.baseIndex 0 boundary.header (boundary.payloads.take cut) with
  | .error err => .error err
  | .ok lower =>
    match rebuild opts atIdx 0 watermark (boundary.payloads.drop cut) with
    | .error err => .error err
    | .ok upper => .ok (lower, upper)

/-- The plan of `forkImpl` over the sealed segments, carried out. -/
def forkSegments (opts : Options α σ) (sealed : List (Sealed α σ)) (atIdx : Nat)
    (watermark : Option σ) (explicitOld : Bool) : Except Err (ForkParts α σ) :=
  let moved := (sealed.filter fun entry => entry.action atIdx = .move).map Sealed.seg
  let boundary := sealed.find? fun entry => entry.action atIdx = .split
  let dataMoves := !moved.isEmpty || boundary.isSome
  match watermarkSegs opts atIdx watermark with
  | .error err => .error err
  | .ok seeds =>
    match boundary with
    | none =>
      let bounded := moved.any fun segment => segment.baseIndex = atIdx
      .ok
        { kept := sealed.filter fun entry => entry.action atIdx = .keep
          oldFiles := (if bounded then [] else seeds) ++ moved
          childFiles := seeds
          dataMoves := dataMoves
          createOld := explicitOld || dataMoves }
    | some entry =>
      match splitFiles opts atIdx watermark entry.seg with
      | .error err => .error err
      | .ok (lower, upper) =>
        .ok
          { kept := sealed.filterMap fun entry =>
              entry.keptAs atIdx (wrapOpen (lower.reload opts.codec 0))
            oldFiles := upper :: moved
            childFiles := seeds
            dataMoves := dataMoves
            createOld := explicitOld || dataMoves }

namespace Log

/-- `forkImpl` as far as the log's own files go. -/
def forkParts (opts : Options α σ) (parents : List (Log α σ)) (log : Log α σ) (atIdx : Nat)
    (explicitOld : Bool) : Except Err (ForkParts α σ) :=
  match log.sealForFork.forkWatermark opts parents atIdx with
  | .error err => .error err
  | .ok watermark => forkSegments opts log.sealForFork.sealed atIdx watermark explicitOld

/-- The handle after the fork. An active segment that held no record is dropped
by the handle, but its file stays. The directory then lists the two branches,
unless their names hide them, and the forks that did not move away. -/
def forked (log : Log α σ) (child old : String) (parts : ForkParts α σ) : Log α σ :=
  { log with
    sealed := parts.kept
    active := none
    stray := log.stray ++ log.sealForFork.active.toList
    readOnly := true
    subdirs := !isInternal child || (parts.createOld && !isInternal old) ||
      (!parts.dataMoves && log.subdirs) }

end Log

/-- Directories strictly inside `home` move one level down, into `old`. What lies
in a directory that is not seen as a fork stays. -/
def relocate (home : Path) (old : String) (path : Path) : Path :=
  let depth := path.length - home.length
  if home.length < path.length ∧ path.drop depth = home ∧
      isInternal (path.getD (depth - 1) "") = false then
    path.take depth ++ old :: home
  else path

/-- A handle on a directory that moves away under it is of no use any more: it still
reads through the handle of the log that was cut. -/
def carry (home : Path) (old : String) (path : Path) (dir : Dir α σ) : Dir α σ :=
  if relocate home old path = path then dir else dir.close

namespace World

def rehome (world : World α σ) (home : Path) (old : String) : World α σ :=
  world.map fun entry => (relocate home old entry.1, carry home old entry.1 entry.2)

def taken (fileExt : String) (world : World α σ) (home : Path) (files : List (Segment α σ))
    (name : String) : Bool :=
  (world.find (name :: home)).isSome ||
    (files.map fun segment => segName fileExt segment.baseIndex).contains name

def childSubdirs (world : World α σ) (home : Path) : List String :=
  world.filterMap fun entry =>
    match entry.1 with
    | name :: up => if up = home && !isInternal name then some name else none
    | [] => none

/-- The directories after a fork of `home`. -/
def forkedWorld (world : World α σ) (home : Path) (dir : Dir α σ) (log : Log α σ) (atIdx : Nat)
    (child old : String) (parts : ForkParts α σ) : World α σ :=
  let moved := if parts.dataMoves then world.rehome home old else world
  let cut := moved.put home { dir with handle := .opened (log.forked child old parts) }
  let aged :=
    if parts.createOld then
      cut.put (old :: home)
        ⟨false, .closed atIdx parts.oldFiles
          (parts.dataMoves && !(world.childSubdirs home).isEmpty)⟩
    else cut
  aged.put (child :: home) ⟨false, .closed atIdx parts.childFiles false⟩

/-- The name of the old future; an empty one asks for the directory's own. -/
def oldFuture (home : Path) (oldFutureName : String) : String :=
  if oldFutureName = "" then home.headD "" else oldFutureName

/-- `Log.Fork` on the log of `home`. By the time the plan is made the active
segment is sealed, and it stays so when the fork is then refused. -/
def fork (opts : Options α σ) (world : World α σ) (home : Path) (atIdx : Nat)
    (childName oldFutureName : String) : Except Err Unit × World α σ :=
  match world.find home, world.chain opts home with
  | some dir, .ok (log :: parents) =>
    let old := oldFuture home oldFutureName
    if !validateForkName childName then (.error .invalidForkName, world)
    else if oldFutureName ≠ "" && !validateForkName oldFutureName then
      (.error .invalidForkName, world)
    else if childName = old then (.error .forkConflict, world)
    else if !log.forkIndexValid atIdx then (.error .forkIndex, world)
    else if world.taken opts.codec.fileExt home log.files childName then
      (.error .forkConflict, world)
    else
      let sealed := world.put home { dir with handle := .opened log.sealForFork }
      match log.forkParts opts parents atIdx (oldFutureName ≠ "") with
      | .error err => (.error err, sealed)
      | .ok parts =>
        if parts.createOld && world.taken opts.codec.fileExt home log.files old then
          (.error .forkConflict, sealed)
        else if parts.dataMoves && (world.childSubdirs home).any fun name =>
            (parts.oldFiles.map fun segment =>
              segName opts.codec.fileExt segment.baseIndex).contains name then
          (.error .rename, sealed)
        else (.ok (), world.forkedWorld home dir log atIdx childName old parts)
  | _, _ => (.error .notFound, world)

end World

end Figwal.Disk
