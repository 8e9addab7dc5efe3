import Mathlib.Data.List.Sort
import Figwal.Lib.Assoc
import Figwal.Lib.Runs
import Figwal.Xwal.Marker
import Figwal.Xwal.FsName
import Figwal.Xwal.Operations

/-!
# The index in memory and the markers on disk

A `Forest` is the index a process holds together with the directory of the main
channel. Creating a node writes its marker and patches the index with what the
caller said; every other change of the forest reads the index back from the
markers. What the logs hold is left out: of a fork only the node it was made from
matters here, which is the head of the trunk or one of the nodes it descends from.

The store keeps the same index as an `Index`, which is always what the markers say. Here
the two are apart, and a `Catalog` has the maps and the counters of the source. Node ids,
markers and the reading of counters are those of the store.

Counters are machine integers, and they wrap.
-/

namespace Figwal.Xwal

open Figwal.Lib

set_option autoImplicit false

structure Node where
  info : NodeInfo
  isRoot : Bool
  deriving DecidableEq, Repr

/-- `Index`: the nodes by key, and the live head of every trunk. -/
structure Catalog where
  nodes : List (String × Node)
  heads : List (String × String)
  nodeSeq : Int
  trunkSeq : Int
  deriving DecidableEq, Repr

/-- The directories in the main channel's directory, and the text of `.node` where
there is one. -/
abbrev MainDir := List (String × Option (List Char))

namespace Catalog

def empty : Catalog := ⟨[], [], 0, 0⟩

def bumpSeqs (catalog : Catalog) (key trunk : String) : Catalog :=
  { catalog with
    nodeSeq := bumpSeq catalog.nodeSeq key
    trunkSeq := bumpInt catalog.trunkSeq trunk 't' }

def mintNode (catalog : Catalog) : String × Catalog :=
  (nodeId catalog.nodeSeq, { catalog with nodeSeq := wrapInt (catalog.nodeSeq + 1) })

def mintTrunk (catalog : Catalog) : String × Catalog :=
  ("t" ++ toString catalog.trunkSeq, { catalog with trunkSeq := wrapInt (catalog.trunkSeq + 1) })

def spawnFlat (catalog : Catalog) (parent child trunk kind : String) : Catalog :=
  { catalog with
    nodes := assign child ⟨⟨trunk, parent, kind⟩, false⟩ catalog.nodes
    heads := if trunk = "" then catalog.heads else assign trunk child catalog.heads }.bumpSeqs
      child trunk

/-- `addLocked`. A directory without marker is a fork that did not finish. -/
def addLocked (catalog : Catalog) (marker : Option (List Char)) (key : String) (isRoot : Bool) :
    Except Fault Catalog :=
  if marker = none ∧ isRoot = false then .ok catalog
  else
    let read := (marker.map readNodeMarker).getD ⟨"", "", ""⟩
    let info := if isRoot then { read with kind := "null" } else read
    let grown := { catalog with
      nodes := assign key ⟨info, isRoot⟩ catalog.nodes }.bumpSeqs key info.trunk
    if info.trunk = "" then .ok grown
    else
      match grown.heads.lookup info.trunk with
      | some previous => .error (.multipleHeads info.trunk previous key)
      | none => .ok { grown with heads := assign info.trunk key grown.heads }

/-- The loop of `RebuildFrom` over the directories. -/
def addAll (fsEncode : Bool) : MainDir → Catalog → Except Fault Catalog
  | [], catalog => .ok catalog
  | (name, marker) :: rest, catalog =>
    if name.toList.head? = some '.' then addAll fsEncode rest catalog
    else
      match catalog.addLocked marker (keyName fsEncode name) false with
      | .error fault => .error fault
      | .ok next => addAll fsEncode rest next

/-- The directories in the order of `os.ReadDir`. -/
def readDir (mainDir : MainDir) : MainDir :=
  mainDir.insertionSort fun left right => left.1 ≤ right.1

def rebuildFrom (fsEncode : Bool) (mainDir : MainDir) : Except Fault Catalog :=
  match empty.addLocked none "" true with
  | .error fault => .error fault
  | .ok rooted => addAll fsEncode (readDir mainDir) rooted

def parentOf (catalog : Catalog) (key : String) : String :=
  ((catalog.nodes.lookup key).map fun node => node.info.fromKey).getD ""

/-- The nodes `ownerOf` may climb to, the root last. -/
def climb (catalog : Catalog) : Nat → String → List String
  | 0, _ => [""]
  | hops + 1, key => if key = "" then [""] else key :: catalog.climb hops (catalog.parentOf key)

def childrenOf (catalog : Catalog) (key : String) : List String :=
  (catalog.nodes.filter fun entry => entry.2.info.fromKey = key).map Prod.fst

/-- The nodes `Remove` walks over, from a node downwards. -/
def walk (catalog : Catalog) : Nat → String → List String
  | 0, _ => []
  | depth + 1, key =>
    if (catalog.nodes.lookup key).isNone then []
    else key :: (catalog.childrenOf key).flatMap (catalog.walk depth)

def foundingNode (catalog : Catalog) (trunk : String) : Option String :=
  (catalog.nodes.find? fun entry =>
    entry.2.info.trunk = trunk &&
      (catalog.nodes.lookup entry.2.info.fromKey).all (·.info.trunk ≠ trunk)).map Prod.fst

def anchorOf (catalog : Catalog) (trunk : String) : Option String :=
  (catalog.heads.lookup trunk).or
    ((catalog.nodes.find? fun entry => entry.2.info.trunk = trunk).map Prod.fst)

end Catalog

structure Forest where
  fsEncode : Bool
  catalog : Catalog
  mainDir : MainDir
  deriving DecidableEq, Repr

inductive ForestOp where
  | createStump (name : String)
  | spawnUnderRootKind (kind minted : String)
  | spawnUnderStumpKind (name kind minted : String)
  | spawnChildKind (trunk kind minted : String)
  | forkTail (trunk minted : String)
  | forkAt (trunk owner minted : String)
  | detach (node : String)
  | remove (trunk : String) (recursive : Bool)
  | removeStump (name : String)
  deriving DecidableEq, Repr

namespace Forest

def fresh (fsEncode : Bool) : Forest where
  fsEncode := fsEncode
  catalog := ⟨[("", ⟨⟨"", "", "null"⟩, true⟩)], [], 0, 0⟩
  mainDir := []

def plant (forest : Forest) (parent child trunk kind : String) : Forest :=
  { forest with
    catalog := forest.catalog.spawnFlat parent child trunk kind
    mainDir := assign (fsName forest.fsEncode child)
      (some (writeNodeMarker ⟨trunk, parent, kind⟩)) forest.mainDir }

def forkFlat (forest : Forest) (parent kind minted : String) : Forest :=
  { forest with catalog := forest.catalog.mintNode.2 }.plant parent
    forest.catalog.mintNode.1 minted kind

def rebuild (forest : Forest) : Except Fault Forest :=
  (Catalog.rebuildFrom forest.fsEncode forest.mainDir).map fun catalog => { forest with catalog }

def stumpKey (forest : Forest) (name : String) : Except Fault String :=
  match forest.catalog.nodes.lookup name with
  | none => .error (.unknownStump name)
  | some node => if node.info.kind = "loadout" then .ok name else .error (.unknownStump name)

def createStump (forest : Forest) (name : String) : Except Fault Forest :=
  if Trunks.invalidStump name then .error (.invalidStump name)
  else if (forest.catalog.nodes.lookup name).isSome then .error (.stumpExists name)
  else .ok (forest.plant "" name "" "loadout")

/-- `forkFlat` from a node that is looked up first. -/
def spawn (forest : Forest) (anchor : Except Fault String) (kind minted : String) :
    Except Fault Forest :=
  anchor.map fun parent => forest.forkFlat parent kind minted

def headKey (forest : Forest) (trunk : String) : Except Fault String :=
  match forest.catalog.heads.lookup trunk with
  | none => .error (.unknownTrunk trunk)
  | some key => .ok key

def anchorKey (forest : Forest) (trunk : String) : Except Fault String :=
  match forest.catalog.anchorOf trunk with
  | none => .error (.unknownTrunk trunk)
  | some key => .ok key

def ownerKey (forest : Forest) (trunk owner : String) : Except Fault String :=
  match forest.headKey trunk with
  | .error fault => .error fault
  | .ok head =>
    if owner ∈ forest.catalog.climb forest.catalog.nodes.length head then .ok owner
    else .error (.disk .notFound)

def detach (forest : Forest) (node : String) : Except Fault Forest :=
  if node = "" then .error .rootTrunk
  else if (forest.mainDir.lookup (fsName forest.fsEncode node)).isNone then
    .error (.noDirectory node)
  else
    let known := forest.catalog.nodes.lookup node
    let kind := (known.map fun entry => entry.info.kind).getD ""
    let trunk := (known.map fun entry => entry.info.trunk).getD ""
    { forest with
      mainDir := assign (fsName forest.fsEncode node)
        (some (writeNodeMarker ⟨trunk, "", if kind = "" then "conversation" else kind⟩))
        forest.mainDir }.rebuild

def prune (forest : Forest) (gone : List String) : Forest :=
  { forest with
    mainDir := removeKeys (fun name => gone.any fun key => fsName forest.fsEncode key = name)
      forest.mainDir }

def remove (forest : Forest) (trunk : String) (recursive : Bool) : Except Fault Forest :=
  if trunk = "" then .error .rootTrunk
  else
    match forest.catalog.foundingNode trunk with
    | none => .error (.unknownTrunk trunk)
    | some top =>
      let gone := forest.catalog.walk (forest.catalog.nodes.length + 1) top
      let sub := gone.filterMap fun key => (forest.catalog.nodes.lookup key).bind fun node =>
        if node.info.trunk = "" ∨ node.info.trunk = trunk then none else some node.info.trunk
      if sub ≠ [] ∧ recursive = false then .error (.liveBranches sub.length)
      else (forest.prune gone).rebuild

def removeStump (forest : Forest) (name : String) : Except Fault Forest :=
  match forest.stumpKey name with
  | .error fault => .error fault
  | .ok stump =>
    let children := forest.catalog.childrenOf stump
    if children ≠ [] then .error (.stumpHasChildren children.length)
    else (forest.prune [stump]).rebuild

def step (forest : Forest) : ForestOp → Except Fault Forest
  | .createStump name => forest.createStump name
  | .spawnUnderRootKind kind minted => forest.spawn (.ok "") kind minted
  | .spawnUnderStumpKind name kind minted => forest.spawn (forest.stumpKey name) kind minted
  | .spawnChildKind trunk kind minted => forest.spawn (forest.anchorKey trunk) kind minted
  | .forkTail trunk minted => forest.spawn (forest.headKey trunk) "conversation" minted
  | .forkAt trunk owner minted => forest.spawn (forest.ownerKey trunk owner) "conversation" minted
  | .detach node => forest.detach node
  | .remove trunk recursive => forest.remove trunk recursive
  | .removeStump name => forest.removeStump name

def apply (forest : Forest) (op : ForestOp) : Forest :=
  (forest.step op).toOption.getD forest

end Forest

end Figwal.Xwal
