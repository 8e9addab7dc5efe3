import Figwal.Xwal.Trunks

/-!
# Operations on trunks

Creating a store, appending, forking, spawning, removing, adding a channel and
reopening. `TrunkOp` lists them, and `Trunks.step` is the state an operation leaves,
whether it succeeds or not. The trunk id a fork mints is part of the operation.
-/

namespace Figwal.Xwal

open Figwal.Lib Figwal.Disk

set_option autoImplicit false

variable {β σ : Type}

def Cell.lookupAtOrBelow (channel : Channel β σ) (cell : Cell β σ)
    (logs : List (Log (Record β) σ)) (last mainLT : Nat) : Except Err (Option Nat) :=
  let scan := cell.scanFromEnd logs last
  match scan.seen.find? fun entry => !channel.decodes entry.2 || entry.2.mainLT ≤ mainLT with
  | some entry => (channel.decode entry.2).map fun _ => some entry.1
  | none =>
    match scan.outcome with
    | .done => .ok none
    | .failed err => .error err
    | .stuck => .error .notFound

namespace Trunks

def mainTail (state : Trunks β σ) (node : String) : Nat :=
  match state.channel state.main with
  | some main => state.lastIndex main node
  | none => 0

def readAt (state : Trunks β σ) (node name : String) (idx : Nat) : Except Fault (Record β) :=
  match state.channel name with
  | none => .error (.noChannel name)
  | some channel =>
    match state.logs channel node with
    | .error err => .error (.disk err)
    | .ok logs =>
      (((state.cells channel.name node).read logs idx).bind channel.decode).mapError .disk

def atHead {Answer : Type} (state : Trunks β σ) (trunk : String)
    (use : Trunks β σ → String → Except Fault Answer × Trunks β σ) :
    Except Fault Answer × Trunks β σ :=
  match state.index.head trunk with
  | none => (.error (.unknownTrunk trunk), state)
  | some head =>
    match state.recover with
    | (.error fault, next) => (.error fault, next)
    | (.ok (), opened) => use opened head

def read (state : Trunks β σ) (trunk name : String) (idx : Nat) : Except Fault (Record β) :=
  (state.atHead trunk fun opened head => (opened.readAt head name idx, opened)).1

/-- `CursorAt`: the stamp of the main record, or, where the manifest says that there are records
without stamps, the last record of the channel keyed at or below it. -/
def cursorAt (state : Trunks β σ) (node : String) (mainLT : Nat) (name : String) :
    Except Fault Nat :=
  if mainLT = 0 then .ok 0
  else
    match state.readAt node state.main mainLT with
    | .error fault => .error fault
    | .ok record =>
      match record.cursors.lookup name with
      | some cursor => .ok cursor
      | none =>
        if !state.unstamped then .ok 0
        else
          match state.channel name with
          | none => .error (.noChannel name)
          | some channel =>
            match state.logs channel node with
            | .error err => .error (.disk err)
            | .ok [] => .error (.disk .notFound)
            | .ok (log :: parents) =>
              let cell := state.cells channel.name node
              match cell.lookupAtOrBelow channel (log :: parents) (cell.lastIndex log) mainLT with
              | .error err => .error (.disk err)
              | .ok found => .ok (found.getD 0)

/-!
## Forking
-/

/-- The base `channelBases` computes for one channel. -/
def channelBase (state : Trunks β σ) (node : String) (tailFork : Bool) (mainLT : Nat)
    (channel : Channel β σ) : Except Fault Nat :=
  match state.logs channel node with
  | .error err => .error (.disk err)
  | .ok [] => .error (.disk .notFound)
  | .ok (log :: parents) =>
    let cell := state.cells channel.name node
    let first := cell.firstIndex (log :: parents)
    let last := cell.lastIndex log
    if channel.name = state.main then .ok (max (mainLT + 1) first)
    else if channel.unkeyed then
      if tailFork then .ok (max (last + 1) first)
      else
        match state.cursorAt node mainLT channel.name with
        | .error fault => .error fault
        | .ok cursor => .ok (max (min (cursor + 1) (last + 1)) first)
    else
      match cell.lookupAtOrBelow channel (log :: parents) last mainLT with
      | .error err => .error (.disk err)
      | .ok found => .ok (max (min (found.getD 0 + 1) (last + 1)) first)

/-- `channelBases` over a list of channels. -/
def basesOf (state : Trunks β σ) (node : String) (tailFork : Bool) (mainLT : Nat) :
    List (Channel β σ) → Except Fault (List (String × Nat))
  | [] => .ok []
  | channel :: rest =>
    match state.channelBase node tailFork mainLT channel with
    | .error fault => .error fault
    | .ok base =>
      match state.basesOf node tailFork mainLT rest with
      | .error fault => .error fault
      | .ok bases => .ok ((channel.name, base) :: bases)

def channelBases (state : Trunks β σ) (node : String) (mainLT : Nat) :
    Except Fault (List (String × Nat)) :=
  let upTo := if mainLT = 0 then state.mainTail node else mainLT
  state.basesOf node (mainLT = 0) upTo state.channels

/-- The markers of a new node: a fork marker in every channel, and `.node`. -/
def plant (state : Trunks β σ) (child : String) (info : NodeInfo)
    (bases : List (String × Nat)) : Trunks β σ :=
  { state with
    index := (child, info) :: state.index
    strays := state.strays.filter (· ≠ child)
    nodeSeq := bumpSeq state.nodeSeq child
    cells := fun name node =>
      if node = child then
        match bases.lookup name with
        | some base => (state.cells name node).marked base
        | none => state.cells name node
      else state.cells name node }

/-- Fork `parent` into the node `child`. -/
def forkInto (state : Trunks β σ) (parent child kind trunk : String) (mainLT : Nat) :
    Except Fault String × Trunks β σ :=
  match state.recover with
  | (.error fault, next) => (.error fault, next)
  | (.ok (), next) =>
    match next.channelBases parent mainLT with
    | .error fault => (.error fault, next)
    | .ok bases => (.ok trunk, next.plant child ⟨trunk, parent, kind⟩ bases)

/-- `forkFlatAt`, and `forkFlat` for a main LT of 0. The node id is consumed even
if the fork fails. -/
def forkFlat (state : Trunks β σ) (parent kind trunk : String) (mainLT : Nat) :
    Except Fault String × Trunks β σ :=
  { state with nodeSeq := wrapInt (state.nodeSeq + 1) }.forkInto parent (nodeId state.nodeSeq)
    kind trunk mainLT

def forkFlatNamed (state : Trunks β σ) (parent name kind : String) :
    Except Fault String × Trunks β σ :=
  state.forkInto parent name kind "" 0

/-- `beginFlatCreate` and `beginTopologyMutation`: nothing is done while a flush of a
loaded head fails. -/
def beginMutation (state : Trunks β σ) : Except Fault Unit × Trunks β σ :=
  match state.syncHot with
  | (.error err, next) => (.error (.flushFailing err), next)
  | (.ok (), next) => (.ok (), next)

/-- `ownerOf`: the nearest node of a lineage whose own range covers a main LT. -/
def ownerOf (state : Trunks β σ) (mainLT : Nat) : List String → Except Fault String
  | [] => .ok ""
  | node :: up =>
    if node = "" then .ok ""
    else
      let forkBase := (state.cells state.main node).handle.forkBase
      if forkBase = 0 then .error (.disk .notFound)
      else if forkBase ≤ mainLT then .ok node
      else state.ownerOf mainLT up

def ownFirstIdx (state : Trunks β σ) (node : String) : Nat :=
  let forkBase := (state.cells state.main node).handle.forkBase
  if 0 < forkBase then forkBase else 1

def forkAt (state : Trunks β σ) (trunk : String) (mainLT : Nat) (minted : String) :
    Except Fault String × Trunks β σ :=
  match state.beginMutation with
  | (.error fault, next) => (.error fault, next)
  | (.ok (), synced) =>
    match synced.index.head trunk with
    | none => (.error (.unknownTrunk trunk), synced)
    | some head =>
      match synced.recover with
      | (.error fault, next) => (.error fault, next)
      | (.ok (), opened) =>
        if mainLT = 0 ∨ opened.mainTail head ≤ mainLT then
          opened.forkFlat head "conversation" minted 0
        else if mainLT < opened.ownFirstIdx head then
          let retired := opened.retire
          match retired.ownerOf mainLT (retired.index.lineage head) with
          | .error fault => (.error fault, retired)
          | .ok owner => retired.forkFlat owner "conversation" minted mainLT
        else opened.forkFlat head "conversation" minted mainLT

/-- `forkFlat` at the tail of a node that is looked up first. -/
def spawn (state : Trunks β σ) (anchor : Trunks β σ → Except Fault String)
    (kind minted : String) : Except Fault String × Trunks β σ :=
  match state.beginMutation with
  | (.error fault, next) => (.error fault, next)
  | (.ok (), synced) =>
    match anchor synced with
    | .error fault => (.error fault, synced)
    | .ok node => synced.forkFlat node kind minted 0

def headKey (trunk : String) (state : Trunks β σ) : Except Fault String :=
  match state.index.head trunk with
  | none => .error (.unknownTrunk trunk)
  | some node => .ok node

/-- `anchorOf`. Nodes other than heads carry no trunk; asked for no trunk, the source
takes any of them, and the root is one. -/
def anchorOf (trunk : String) (state : Trunks β σ) : Except Fault String :=
  if trunk = "" then .ok "" else headKey trunk state

def stumpKey (name : String) (state : Trunks β σ) : Except Fault String :=
  match state.index.node name with
  | none => .error (.unknownStump name)
  | some info => if info.kind = "loadout" then .ok name else .error (.unknownStump name)

def forkTail (state : Trunks β σ) (trunk minted : String) : Except Fault String × Trunks β σ :=
  state.spawn (headKey trunk) "conversation" minted

def spawnChildKind (state : Trunks β σ) (trunk kind minted : String) :
    Except Fault String × Trunks β σ :=
  state.spawn (anchorOf trunk) kind minted

def spawnUnderStumpKind (state : Trunks β σ) (name kind minted : String) :
    Except Fault String × Trunks β σ :=
  state.spawn (stumpKey name) kind minted

def spawnUnderRootKind (state : Trunks β σ) (kind minted : String) :
    Except Fault String × Trunks β σ :=
  state.spawn (fun _ => .ok "") kind minted

/-- The names `CreateStump` refuses. -/
def invalidStump (name : String) : Bool :=
  name = "" || name.toList.any (fun char => char = '/' || char = '\\') ||
    name.toList.head? = some '.'

def createStump (state : Trunks β σ) (name : String) : Except Fault String × Trunks β σ :=
  match state.beginMutation with
  | (.error fault, next) => (.error fault, next)
  | (.ok (), synced) =>
    if invalidStump name then (.error (.invalidStump name), synced)
    else if (synced.index.node name).isSome then (.error (.stumpExists name), synced)
    else synced.forkFlatNamed "" name "loadout"

/-!
## Appending to a trunk
-/

def append (state : Trunks β σ) (trunk : String) (body : β) (extra : List (String × Nat)) :
    Except Fault Nat × Trunks β σ :=
  state.atHead trunk fun opened head => opened.appendMain head body extra

def appendChannel (state : Trunks β σ) (trunk name : String) (mainLT : Nat) (body : β) :
    Except Fault Nat × Trunks β σ :=
  state.atHead trunk fun opened head =>
    let key := if mainLT = 0 then opened.mainTail head + 1 else mainLT
    opened.appendRelated head name key body

/-!
## Removing
-/

/-- `foundingNode`: a node that carries a trunk its parent does not carry. -/
def foundingNode (state : Trunks β σ) (trunk : String) : Option String :=
  (state.index.find? fun entry =>
    entry.2.trunk = trunk && (state.index.node entry.2.fromKey).all (·.trunk ≠ trunk)).map
      Prod.fst

def prune (state : Trunks β σ) (gone : List String) : Trunks β σ :=
  { state with
    index := state.index.filter fun entry => entry.1 ∉ gone
    unmarked := state.unmarked.filter (· ∉ gone)
    cells := fun name node =>
      if node ∈ gone ∧ name ∈ state.channels.map Channel.name then Cell.fresh 0
      else state.cells name node }

def remove (state : Trunks β σ) (trunk : String) (recursive : Bool) :
    Except Fault (List String) × Trunks β σ :=
  match state.beginMutation with
  | (.error fault, next) => (.error fault, next)
  | (.ok (), synced) =>
    let retired := synced.retire
    if trunk = "" then (.error .rootTrunk, retired)
    else
      match retired.foundingNode trunk with
      | none => (.error (.unknownTrunk trunk), retired)
      | some top =>
        let gone := Family.subtree top retired.index.family
        let sub := (retired.index.filter fun entry => entry.1 ∈ gone && entry.2.trunk ≠ "" &&
          entry.2.trunk ≠ trunk).map fun entry => entry.2.trunk
        if sub ≠ [] ∧ recursive = false then (.error (.liveBranches sub.length), retired)
        else (.ok (trunk :: sub), (retired.prune gone).rebuild)

def removeStump (state : Trunks β σ) (name : String) : Except Fault Unit × Trunks β σ :=
  match state.beginMutation with
  | (.error fault, next) => (.error fault, next)
  | (.ok (), synced) =>
    let retired := synced.retire
    match stumpKey name retired with
    | .error fault => (.error fault, retired)
    | .ok stump =>
      let children := retired.index.childrenOf stump
      if children ≠ [] then (.error (.stumpHasChildren children.length), retired)
      else (.ok (), (retired.prune [stump]).rebuild)

/-!
## Channels and reopening
-/

/-- `ensureChannel`. The plan is on disk before the channel is filled in, and stays
there if that fails. -/
def ensureChannel (state : Trunks β σ) (spec : Channel β σ) : Except Fault Unit × Trunks β σ :=
  match state.beginMutation with
  | (.error fault, next) => (.error fault, next)
  | (.ok (), synced) =>
    match synced.recover with
    | (.error fault, next) => (.error fault, next)
    | (.ok (), opened) =>
      if (opened.channel spec.name).any fun existing => !existing.sameShape spec then
        (.error (.channelMismatch spec.name), opened)
      else
        match { opened.retire with plan := some spec }.recover with
        | (.error fault, next) => (.error fault, next)
        | (.ok (), next) => (.ok (), next.rebuild)

/-- `reconcileChannelProps`, for the keying of the channels the caller declares. -/
def reconcile (declared : List (String × Bool)) :
    List (Channel β σ) → Except Fault (List (Channel β σ))
  | [] => .ok []
  | channel :: rest =>
    match declared.lookup channel.name with
    | some false =>
      if channel.unkeyed then .error (.channelConflict channel.name)
      else (reconcile declared rest).map (channel :: ·)
    | some true => (reconcile declared rest).map ({ channel with unkeyed := true } :: ·)
    | none => (reconcile declared rest).map (channel :: ·)

/-- `Close` and `openTrunks`. -/
def reopen (state : Trunks β σ) (declared : List (String × Bool)) :
    Except Fault Unit × Trunks β σ :=
  match state.retire.recover with
  | (.error fault, next) => (.error fault, next)
  | (.ok (), opened) =>
    match reconcile declared opened.channels with
    | .error fault => (.error fault, opened)
    | .ok channels => (.ok (), { opened with channels }.rebuild)

def prepareInitialChannels : List (Channel β σ) → Trunks β σ → Except Fault (Trunks β σ)
  | [], state => .ok state
  | channel :: rest, state =>
    match channel.seedInitial (state.cells channel.name "") with
    | .error fault => .error fault
    | .ok cell => prepareInitialChannels rest (state.setCell channel.name "" cell)

/-- The reducible channels' part of `createTrunks`. -/
def seedRelated (patch : β) : List (Channel β σ) → Trunks β σ → Except Fault (Trunks β σ)
  | [], state => .ok state
  | channel :: rest, state =>
    if channel.reducible then
      match state.appendRelated "" channel.name 1 patch with
      | (.error fault, _) => .error fault
      | (.ok _, next) => seedRelated patch rest next
    else seedRelated patch rest state

/-- `createTrunks`: a store of empty channels, with the genesis record at the root
and a patch in each reducible channel. -/
def create (main : String) (maxLag : Nat) (channels : List (Channel β σ)) (genesis patch : β) :
    Except Fault (Trunks β σ) :=
  if ¬ (channels.map Channel.name).Nodup then .error .duplicateChannel
  else if main ∉ channels.map Channel.name then .error .noMain
  else
    let empty : Trunks β σ := {
      main, maxLag, channels
      unstamped := false
      index := []
      strays := []
      nodeSeq := 0
      plan := none
      cells := fun _ _ => Cell.fresh 0 }
    match prepareInitialChannels channels empty with
    | .error fault => .error fault
    | .ok prepared =>
      match prepared.appendMain "" genesis [] with
      | (.error fault, _) => .error fault
      | (.ok _, begun) => (seedRelated patch channels begun).map rebuild

end Trunks

/-!
## Runs
-/

inductive TrunkOp (β σ : Type) where
  | append (trunk : String) (body : β) (extra : List (String × Nat))
  | appendChannel (trunk channel : String) (mainLT : Nat) (body : β)
  | forkAt (trunk : String) (mainLT : Nat) (minted : String)
  | forkTail (trunk minted : String)
  | spawnChildKind (trunk kind minted : String)
  | spawnUnderRootKind (kind minted : String)
  | spawnUnderStumpKind (stump kind minted : String)
  | createStump (name : String)
  | remove (trunk : String) (recursive : Bool)
  | removeStump (name : String)
  | ensureChannel (spec : Channel β σ)
  | reopen (declared : List (String × Bool))

def Trunks.step (state : Trunks β σ) : TrunkOp β σ → Trunks β σ
  | .append trunk body extra => (state.append trunk body extra).2
  | .appendChannel trunk channel mainLT body =>
    (state.appendChannel trunk channel mainLT body).2
  | .forkAt trunk mainLT minted => (state.forkAt trunk mainLT minted).2
  | .forkTail trunk minted => (state.forkTail trunk minted).2
  | .spawnChildKind trunk kind minted => (state.spawnChildKind trunk kind minted).2
  | .spawnUnderRootKind kind minted => (state.spawnUnderRootKind kind minted).2
  | .spawnUnderStumpKind stump kind minted => (state.spawnUnderStumpKind stump kind minted).2
  | .createStump name => (state.createStump name).2
  | .remove trunk recursive => (state.remove trunk recursive).2
  | .removeStump name => (state.removeStump name).2
  | .ensureChannel spec => (state.ensureChannel spec).2
  | .reopen declared => (state.reopen declared).2

end Figwal.Xwal
