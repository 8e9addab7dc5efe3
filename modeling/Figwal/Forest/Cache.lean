import Mathlib
import Figwal.Lib.Assoc
import Figwal.Lib.Runs

/-!
# The forest cache and its budget

`forest.Cache` keeps runs of units that a `Source` can make again, and any number of
caches share one `Budget` of bytes. A `Pool` is the budget with all its caches. Runs
are pointers in the source: here they lie in one heap, an address is the place in the
heap, and a node of a cache is a slice of addresses.

What the program cannot see in advance is in `Env`: what the source returns at each
call, which of several equally cold runs the iteration over a map meets first, and how
far `append` grows an array.
-/

namespace Figwal.Forest

open Figwal.Lib

set_option autoImplicit false

variable {U : Type}

/-- The keys above `fromKey` up to `toKey` in one node. -/
structure Coord where
  node : String
  fromKey : Nat
  toKey : Nat
  deriving DecidableEq, Repr

/-- One step of a lineage. `base` is the first key that is the node's own. -/
structure Ref where
  node : String
  base : Nat
  deriving DecidableEq, Repr

/-- A run that is not resident is hollow: it keeps its place and has no units. -/
structure Run (U : Type) where
  coord : Coord
  units : List U
  bytes : Nat
  epoch : Int
  pinned : Bool
  resident : Bool
  deriving DecidableEq, Repr

def Run.hollow (run : Run U) : Run U := { run with units := [], resident := false }

/-- A run in memory, the cache it was made for, and whether that cache refers to it. -/
structure Entry (U : Type) where
  cache : Nat
  held : Bool
  run : Run U
  deriving DecidableEq, Repr

def Entry.evictable (entry : Entry U) : Bool :=
  entry.held && entry.run.resident && !entry.run.pinned

structure Place where
  cache : Nat
  node : String
  deriving DecidableEq, Repr

/-- The runs of a node by the start of their range, and how many more fit in the array. -/
structure Slice where
  order : List Nat
  spare : Nat
  deriving DecidableEq, Repr

/-- `source` and `choose` may answer differently each time they are asked. A fill of a
gap is followed for `rounds` chunks. -/
structure Env (U : Type) where
  size : Nat → U → Nat
  key : Nat → U → Nat
  source : Nat → Nat → Coord → Option (List U)
  choose : Nat → Nat
  grow : Nat → Nat
  rounds : Nat

def Env.weigh (env : Env U) (cache : Nat) (units : List U) : Nat :=
  (units.map (env.size cache)).sum

/-- The budget and the memory of all caches that were made over it. `owners` are those
not yet closed, `ticks` counts the answers that `Env` has given, and `recency` is what
the layers below report of their own reads. -/
structure Pool (U : Type) where
  heap : List (Entry U)
  slices : List (Place × Slice)
  owners : List Nat
  made : Nat
  limit : Int
  bytes : Int
  epoch : Int
  ticks : Nat
  recency : Nat → Coord → Option Int

namespace Pool

def fresh (limit : Int) : Pool U where
  heap := []
  slices := []
  owners := []
  made := 0
  limit := limit
  bytes := 0
  epoch := 0
  ticks := 0
  recency := fun _ _ => none

def new (pool : Pool U) : Pool U :=
  { pool with owners := pool.owners ++ [pool.made], made := pool.made + 1 }

def owned (pool : Pool U) (cache : Nat) : Bool := pool.owners.contains cache

def slice (pool : Pool U) (cache : Nat) (node : String) : Slice :=
  (pool.slices.lookup ⟨cache, node⟩).getD ⟨[], 0⟩

def update (pool : Pool U) (address : Nat) (change : Run U → Run U) : Pool U :=
  { pool with
    heap := pool.heap.modify address fun entry => { entry with run := change entry.run } }

def bump (pool : Pool U) : Pool U := { pool with epoch := pool.epoch + 1 }

def tick (pool : Pool U) : Pool U := { pool with ticks := pool.ticks + 1 }

def count (pool : Pool U) (delta : Int) : Pool U := { pool with bytes := pool.bytes + delta }

def effEpoch (pool : Pool U) (entry : Entry U) : Int :=
  match pool.recency entry.cache entry.run.coord with
  | none => entry.run.epoch
  | some last => if entry.run.epoch < last then last else entry.run.epoch

/-! ## The accountant -/

def evictables (pool : Pool U) (owns : Nat → Bool) : List Nat :=
  (List.range pool.heap.length).filter fun address =>
    pool.heap[address]?.any fun entry => owns entry.cache && entry.evictable

def coldest (pool : Pool U) (owns : Nat → Bool) : Option Int :=
  ((pool.evictables owns).filterMap fun address => pool.heap[address]?.map pool.effEpoch).min?

/-- One of the coldest runs: the order in which the maps are iterated decides. -/
def victim (env : Env U) (pool : Pool U) (owns : Nat → Bool) : Option Nat :=
  match pool.coldest owns with
  | none => none
  | some epoch =>
    let tied := (pool.evictables owns).filter fun address =>
      pool.heap[address]?.any fun entry => pool.effEpoch entry == epoch
    tied[env.choose pool.ticks % tied.length]?

def evictColdest (env : Env U) (pool : Pool U) (owns : Nat → Bool) : Nat × Pool U :=
  match pool.victim env owns with
  | none => (0, pool)
  | some address =>
    ((pool.heap[address]?.map fun entry => entry.run.bytes).getD 0,
      (pool.update address Run.hollow).tick)

def chargeLoop (env : Env U) : Nat → Pool U → Pool U
  | 0, pool => pool
  | fuel + 1, pool =>
    if pool.bytes ≤ pool.limit then pool
    else if (pool.coldest pool.owned).isNone then pool
    else
      let evicted := pool.evictColdest env pool.owned
      -- A victim that frees nothing ends the pass.
      if 0 < evicted.1 then chargeLoop env fuel (evicted.2.count (-evicted.1)) else evicted.2

def charge (env : Env U) (pool : Pool U) (delta : Int) : Pool U :=
  let charged := pool.count delta
  if charged.limit ≤ 0 then charged
  else chargeLoop env charged.heap.length charged

/-- What `TrimIdle` has done so far. -/
structure Swept (U : Type) where
  dropped : Nat
  freed : Nat
  pool : Pool U

def trimOwner (env : Env U) (cutoff : Int) (owner : Nat) : Nat → Swept U → Swept U
  | 0, swept => swept
  | fuel + 1, swept =>
    if (swept.pool.coldest (· == owner)).all fun epoch => decide (cutoff ≤ epoch) then swept
    else
      let evicted := swept.pool.evictColdest env (· == owner)
      if 0 < evicted.1 then
        trimOwner env cutoff owner fuel
          ⟨swept.dropped + 1, swept.freed + evicted.1, evicted.2.count (-evicted.1)⟩
      else { swept with pool := evicted.2 }

def trimIdle (env : Env U) (pool : Pool U) (keep : Int) : Swept U :=
  pool.owners.foldl
    (fun swept owner => trimOwner env (pool.epoch - keep) owner swept.pool.heap.length swept)
    ⟨0, 0, pool.bump⟩

/-! ## The runs of a node -/

/-- The place of the first run that starts at the key or later. The source searches
by halves, which finds the same place since the slice is ordered. -/
def seek (pool : Pool U) (order : List Nat) (fromKey : Nat) : Nat :=
  order.findIdx fun address =>
    pool.heap[address]?.any fun entry => decide (fromKey ≤ entry.run.coord.fromKey)

/-- `node.at`: the run at exactly these coordinates. -/
def locate (pool : Pool U) (cache : Nat) (coord : Coord) : Option Nat :=
  let order := (pool.slice cache coord.node).order
  order[pool.seek order coord.fromKey]?.filter fun address =>
    pool.heap[address]?.any fun entry => entry.run.coord = coord

def insert (env : Env U) (pool : Pool U) (cache : Nat) (run : Run U) : Pool U :=
  let slice := pool.slice cache run.coord.node
  let place := pool.seek slice.order run.coord.fromKey
  let order := slice.order.take place ++ pool.heap.length :: slice.order.drop place
  let spare := if slice.spare = 0 then env.grow slice.order.length else slice.spare - 1
  { pool with
    heap := pool.heap ++ [⟨cache, true, run⟩]
    slices := assign ⟨cache, run.coord.node⟩ ⟨order, spare⟩ pool.slices }

def put (env : Env U) (pool : Pool U) (cache : Nat) (coord : Coord) (units : List U)
    (pinned : Bool) : Pool U :=
  let bumped := pool.bump
  let run : Run U := ⟨coord, units, env.weigh cache units, bumped.epoch, pinned, true⟩
  match bumped.locate cache coord with
  | none => (bumped.insert env cache run).charge env run.bytes
  | some address =>
    let replaced := (bumped.heap[address]?.map fun old =>
      if old.run.resident then old.run.bytes else 0).getD 0
    (bumped.update address fun _ => run).charge env (run.bytes - replaced)

def drop (pool : Pool U) (cache : Nat) (coord : Coord) : Pool U :=
  match pool.locate cache coord with
  | none => pool
  | some address =>
    let freed := (pool.heap[address]?.map fun old =>
      if old.run.resident then old.run.bytes else 0).getD 0
    let dropped := pool.update address fun run =>
      if run.resident then { run.hollow with pinned := false } else run
    if 0 < freed then dropped.count (-freed) else dropped

def heldBytes (pool : Pool U) (cache : Nat) : Nat :=
  (pool.heap.map fun entry =>
    if entry.held && entry.cache == cache && entry.run.resident then entry.run.bytes else 0).sum

def close (pool : Pool U) (cache : Nat) : Pool U :=
  { pool with
    heap := pool.heap.map fun entry =>
      if entry.cache = cache then { entry with held := false } else entry
    slices := removeKeys (fun place => place.cache == cache) pool.slices
    bytes := pool.bytes - pool.heldBytes cache
    owners := pool.owners.filter (· != cache) }

end Pool

/-! ## Reading a range -/

/-- A slice that `range` walks. `none` is the node's own array as it is, `some` the
array it was before `append` moved the runs to a larger one. -/
abbrev View := Option (List Nat)

namespace Pool

def viewed (pool : Pool U) (cache : Nat) (node : String) (view : View) : List Nat :=
  view.getD (pool.slice cache node).order

def viewAfter (pool : Pool U) (cache : Nat) (node : String) (view : View) : View :=
  match view with
  | some order => some order
  | none =>
    let slice := pool.slice cache node
    if slice.spare = 0 then some slice.order else none

def load (env : Env U) (pool : Pool U) (cache : Nat) (coord : Coord) (units : List U) : Pool U :=
  let bumped := pool.bump
  let run : Run U := ⟨coord, units, env.weigh cache units, bumped.epoch, false, true⟩
  (bumped.insert env cache run).charge env run.bytes

/-- `materializeRunLocked` on fetched units, and the epoch its caller sets. -/
def reload (env : Env U) (pool : Pool U) (cache address : Nat) (units : List U) : Pool U :=
  let filled := pool.update address fun run =>
    { run with units := units, bytes := env.weigh cache units, resident := true }
  let bumped := (filled.charge env (env.weigh cache units)).bump
  bumped.update address fun run => { run with epoch := bumped.epoch }

def touch (pool : Pool U) (address : Nat) : Pool U :=
  pool.update address fun run => { run with epoch := pool.epoch }

end Pool

structure Served (U : Type) where
  out : List U
  pos : Nat
  failed : Bool
  view : View
  pool : Pool U

def runChunk : Nat := 64

def sliceUnits (key : U → Nat) (units : List U) (fromKey toKey : Nat) : List U :=
  (units.dropWhile fun unit => decide (key unit ≤ fromKey)).takeWhile fun unit =>
    decide (key unit ≤ toKey)

/-- `materializeLocked`: one new run for each chunk of the gap. The end of a chunk is
a `uint64`. `none` means that the loop goes on after the rounds it was followed for. -/
def materializeLocked (env : Env U) (cache : Nat) (node : String) (toKey : Nat) :
    Nat → Nat → List U → View → Pool U → Option (Served U)
  | 0, _, _, _, _ => none
  | rounds + 1, lo, all, view, pool =>
    if lo < toKey then
      let next := (lo + runChunk) % 2 ^ 64
      let hi := if toKey < next then toKey else next
      match env.source pool.ticks cache ⟨node, lo, hi⟩ with
      | none => some ⟨all, lo, true, view, pool.tick⟩
      | some units =>
        materializeLocked env cache node toKey rounds hi (all ++ units)
          (pool.viewAfter cache node view)
          (pool.tick.load env cache ⟨node, lo, hi⟩ units)
    else some ⟨all, lo, false, view, pool⟩

namespace Served

/-- Fill the gap up to a key. Nothing of it is returned when the source fails. -/
def fillGap (env : Env U) (cache : Nat) (node : String) (served : Served U) (toKey : Nat) :
    Option (Served U) :=
  if served.pos < toKey then
    (materializeLocked env cache node toKey env.rounds served.pos [] served.view
      served.pool).map fun filled =>
        { served with
          out := if filled.failed then served.out else served.out ++ filled.out
          failed := filled.failed
          view := filled.view
          pool := filled.pool }
  else some served

def reach (served : Served U) (toKey : Nat) : Nat :=
  if served.pos < toKey then toKey else served.pos

/-- The units just fetched are served, even when the charge has evicted the run again. -/
def refill (env : Env U) (cache : Nat) (toKey : Nat) (address : Nat) (coord : Coord)
    (served : Served U) : Served U :=
  match env.source served.pool.ticks cache coord with
  | none => { served with failed := true, pool := served.pool.tick }
  | some units =>
    { served with
      out := served.out ++ sliceUnits (env.key cache) units served.pos toKey
      pos := served.reach coord.toKey
      pool := served.pool.tick.reload env cache address units }

def take (env : Env U) (cache : Nat) (toKey : Nat) (address : Nat) (served : Served U) :
    Served U :=
  match served.pool.heap[address]? with
  | none => served
  | some entry =>
    if entry.run.resident then
      { served with
        out := served.out ++ sliceUnits (env.key cache) entry.run.units served.pos toKey
        pos := served.reach entry.run.coord.toKey
        pool := served.pool.touch address }
    else served.refill env cache toKey address entry.run.coord

/-- One pass of the loop in `rangeInNode`. -/
def visit (env : Env U) (cache : Nat) (coord : Coord) (address : Nat) (served : Served U) :
    Option (Served U) :=
  match served.pool.heap[address]? with
  | none => some served
  | some entry =>
    let span := entry.run.coord
    if span.toKey ≤ served.pos ∨ coord.toKey ≤ span.fromKey then some served
    else
      (served.fillGap env cache coord.node span.fromKey).map fun filled =>
        if filled.failed then filled else filled.take env cache coord.toKey address

/-- The loop runs over as many places as the slice had when it began, and reads each
place when it comes to it. -/
def visitAll (env : Env U) (cache : Nat) (coord : Coord) :
    Nat → Nat → Served U → Option (Served U)
  | 0, _, served => some served
  | left + 1, index, served =>
    match (served.pool.viewed cache coord.node served.view)[index]? with
    | none => some served
    | some address =>
      (served.visit env cache coord address).bind fun next =>
        if next.failed then some next else visitAll env cache coord left (index + 1) next

end Served

namespace Pool

def rangeInNode (env : Env U) (cache : Nat) (coord : Coord) (pool : Pool U) :
    Option (Served U) :=
  let start : Served U := ⟨[], coord.fromKey, false, none, pool⟩
  (start.visitAll env cache coord (pool.slice cache coord.node).order.length 0).bind
    fun served =>
      if served.failed then some served else served.fillGap env cache coord.node coord.toKey

end Pool

def cutEnd (rest : List Ref) (toKey : Nat) : Nat :=
  match rest with
  | [] => toKey
  | next :: _ => if 0 < next.base ∧ next.base - 1 < toKey then next.base - 1 else toKey

def split : List Ref → Nat → Nat → List Coord
  | [], _, _ => []
  | ref :: rest, lo, toKey =>
    let hi := cutEnd rest toKey
    if lo < hi then
      ⟨ref.node, lo, hi⟩ :: if toKey ≤ hi then [] else split rest hi toKey
    else if toKey ≤ lo then [] else split rest lo toKey

/-- What `Range` returns. -/
structure Answer (U : Type) where
  out : List U
  failed : Bool
  pool : Pool U

namespace Pool

def rangeCuts (env : Env U) (cache : Nat) : List Coord → Answer U → Option (Answer U)
  | [], answer => some answer
  | cut :: rest, answer =>
    (answer.pool.rangeInNode env cache cut).bind fun served =>
      if served.failed then some ⟨answer.out, true, served.pool⟩
      else rangeCuts env cache rest ⟨answer.out ++ served.out, false, served.pool⟩

def range (env : Env U) (pool : Pool U) (cache : Nat) (lineage : List Ref)
    (fromKey toKey : Nat) : Option (Answer U) :=
  if lineage = [] ∨ toKey < fromKey then some ⟨[], false, pool⟩
  else rangeCuts env cache (split lineage fromKey toKey) ⟨[], false, pool⟩

end Pool

/-! ## Histories -/

inductive Op (U : Type) where
  | new
  | put (cache : Nat) (coord : Coord) (units : List U) (pinned : Bool)
  | range (cache : Nat) (lineage : List Ref) (fromKey toKey : Nat)
  | drop (cache : Nat) (coord : Coord)
  | close (cache : Nat)
  | trimIdle (keep : Int)
  | setLimit (limit : Int)
  | stamp (recency : Nat → Coord → Option Int)

namespace Pool

/-- A `Range` that does not return leaves no state after it. -/
def apply (env : Env U) (pool : Pool U) : Op U → Pool U
  | .new => pool.new
  | .put cache coord units pinned => pool.put env cache coord units pinned
  | .range cache lineage fromKey toKey =>
    ((pool.range env cache lineage fromKey toKey).map Answer.pool).getD pool
  | .drop cache coord => pool.drop cache coord
  | .close cache => pool.close cache
  | .trimIdle keep => (pool.trimIdle env keep).pool
  | .setLimit limit => { pool with limit := limit }
  | .stamp recency => { pool with recency := recency }

end Pool

end Figwal.Forest
