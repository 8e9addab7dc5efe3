import Mathlib.Logic.Relation
import Figwal.Forest.Eviction

/-!
# What a read can do

A slice of a node only holds addresses of runs of that node, and a run keeps its cache,
its place and its coordinates as long as the cache is open. A read takes the pool
through steps: a fetch that fails, a new run, a hollow run filled again, a touch.
-/

namespace Figwal.Forest

open Figwal.Lib List

set_option autoImplicit false

variable {U : Type} {env : Env U} {pool : Pool U} {cache : Nat} {node : String}

def Entry.shape (entry : Entry U) : Nat × Bool × Coord :=
  (entry.cache, entry.held, entry.run.coord)

structure SameShape (before after : Pool U) : Prop where
  shapes : after.heap.map Entry.shape = before.heap.map Entry.shape
  slices : after.slices = before.slices
  owners : after.owners = before.owners

namespace SameShape

variable {before middle after : Pool U}

theorem refl (pool : Pool U) : SameShape pool pool := ⟨rfl, rfl, rfl⟩

theorem trans (first : SameShape before middle) (second : SameShape middle after) :
    SameShape before after :=
  ⟨second.shapes.trans first.shapes, second.slices.trans first.slices,
    second.owners.trans first.owners⟩

theorem symm (same : SameShape before after) : SameShape after before :=
  ⟨same.shapes.symm, same.slices.symm, same.owners.symm⟩

theorem slice (same : SameShape before after) (cache : Nat) (node : String) :
    after.slice cache node = before.slice cache node := by
  unfold Pool.slice
  rw [same.slices]

theorem owned (same : SameShape before after) : after.owned = before.owned := by
  funext cache
  unfold Pool.owned
  rw [same.owners]

theorem entry (same : SameShape before after) {address : Nat} {entry : Entry U}
    (found : before.heap[address]? = some entry) :
    ∃ entry', after.heap[address]? = some entry' ∧ entry'.shape = entry.shape := by
  have mapped := congrArg (fun shapes => shapes[address]?) same.shapes
  rw [getElem?_map, getElem?_map, found, Option.map_some] at mapped
  exact Option.map_eq_some_iff.mp mapped

theorem update (pool : Pool U) (address : Nat) (change : Run U → Run U)
    (kept : ∀ entry, pool.heap[address]? = some entry →
      (change entry.run).coord = entry.run.coord) :
    SameShape pool (pool.update address change) := by
  refine ⟨map_modify_same Entry.shape _ _ _ ?_, rfl, rfl⟩
  intro entry found
  unfold Entry.shape
  rw [kept entry found]

theorem evicts {owns : Nat → Bool} (evicts : Evicts owns before after) :
    SameShape before after := by
  apply evicts.invariant (SameShape before)
  · intro pool address entry same found _ _
    have hollowed := update pool address Run.hollow fun _ _ => rfl
    exact same.trans ⟨hollowed.shapes, rfl, rfl⟩
  · exact refl before

theorem charge (env : Env U) (pool : Pool U) (delta : Int) :
    SameShape pool (pool.charge env delta) := by
  have evicted := evicts (pool.charge_evicts env delta)
  exact ⟨evicted.shapes, evicted.slices, evicted.owners⟩

theorem reload (env : Env U) (pool : Pool U) (cache address : Nat) (units : List U) :
    SameShape pool (pool.reload env cache address units) := by
  unfold Pool.reload
  dsimp only
  have filled := update pool address (fun run =>
    { run with units := units, bytes := env.weigh cache units, resident := true }) fun _ _ => rfl
  have charged := charge env (pool.update address fun run =>
    { run with units := units, bytes := env.weigh cache units, resident := true })
      (env.weigh cache units)
  apply (filled.trans charged).trans
  generalize (Pool.charge _ _ _) = held
  have stamped := update held.bump address (fun run =>
    { run with epoch := held.bump.epoch }) fun _ _ => rfl
  exact ⟨stamped.shapes, stamped.slices, stamped.owners⟩

theorem touch (pool : Pool U) (address : Nat) : SameShape pool (pool.touch address) :=
  update pool address _ fun _ _ => rfl

end SameShape

namespace Pool

variable {address : Nat} {run : Run U}

def Belongs (pool : Pool U) (cache : Nat) (node : String) (address : Nat) : Prop :=
  ∃ entry, pool.heap[address]? = some entry ∧ entry.cache = cache ∧ entry.held = true ∧
    entry.run.coord.node = node

def Placed (pool : Pool U) : Prop :=
  ∀ cache node, ∀ address ∈ (pool.slice cache node).order, pool.Belongs cache node address

theorem Belongs.same {before after : Pool U} (same : SameShape before after)
    (belongs : before.Belongs cache node address) : after.Belongs cache node address := by
  obtain ⟨entry, found, hers, held, there⟩ := belongs
  obtain ⟨entry', found', shape⟩ := same.entry found
  unfold Entry.shape at shape
  rw [Prod.mk.injEq, Prod.mk.injEq] at shape
  exact ⟨entry', found', shape.1 ▸ hers, shape.2.1 ▸ held, shape.2.2 ▸ there⟩

theorem Placed.same {before after : Pool U} (same : SameShape before after)
    (placed : before.Placed) : after.Placed := by
  intro cache node address member
  rw [same.slice] at member
  exact (placed cache node address member).same same

theorem slice_insert (env : Env U) (pool : Pool U) (cache : Nat) (run : Run U) (other : Nat)
    (node : String) :
    (pool.insert env cache run).slice other node =
      if Place.mk other node = ⟨cache, run.coord.node⟩ then
        let slice := pool.slice cache run.coord.node
        let place := pool.seek slice.order run.coord.fromKey
        ⟨slice.order.take place ++ pool.heap.length :: slice.order.drop place,
          if slice.spare = 0 then env.grow slice.order.length else slice.spare - 1⟩
      else pool.slice other node := by
  unfold insert slice
  dsimp only
  rw [lookup_assign]
  split_ifs <;> rfl

theorem entry_insert {entry : Entry U} (found : pool.heap[address]? = some entry) :
    (pool.insert env cache run).heap[address]? = some entry := by
  unfold insert
  rw [List.getElem?_append_left (List.getElem?_eq_some_iff.mp found).1, found]

theorem entry_inserted (env : Env U) (pool : Pool U) (cache : Nat) (run : Run U) :
    (pool.insert env cache run).heap[pool.heap.length]? = some ⟨cache, true, run⟩ := by
  unfold insert
  rw [getElem?_append_right (Nat.le_refl _), Nat.sub_self]
  rfl

theorem Belongs.insert {other : Nat} (belongs : pool.Belongs cache node address) :
    (pool.insert env other run).Belongs cache node address := by
  obtain ⟨entry, found, rest⟩ := belongs
  exact ⟨entry, entry_insert found, rest⟩

theorem Placed.insert (env : Env U) {other : Nat} (placed : pool.Placed) :
    (pool.insert env other run).Placed := by
  intro cache node address member
  rw [slice_insert] at member
  split_ifs at member with here
  · rw [Place.mk.injEq] at here
    obtain ⟨rfl, rfl⟩ := here
    have old : ∀ address ∈ (pool.slice cache run.coord.node).order,
        (pool.insert env cache run).Belongs cache run.coord.node address :=
      fun address member => (placed cache _ address member).insert
    rcases mem_append.mp member with before | after
    · exact old address (mem_of_mem_take before)
    · rcases mem_cons.mp after with rfl | behind
      · exact ⟨_, entry_inserted env pool cache run, rfl, rfl, rfl⟩
      · exact old address (mem_of_mem_drop behind)
  · exact (placed cache node address member).insert

/-- A run found by its coordinates is a run of the cache with these coordinates. -/
theorem locate_some {coord : Coord} (placed : pool.Placed)
    (located : pool.locate cache coord = some address) :
    ∃ entry, pool.heap[address]? = some entry ∧ entry.cache = cache ∧ entry.held = true ∧
      entry.run.coord = coord := by
  obtain ⟨seen, same⟩ := Option.filter_eq_some_iff.mp located
  obtain ⟨entry, found, hers, held, _⟩ :=
    placed cache coord.node address (mem_of_getElem? seen)
  rw [found] at same
  exact ⟨entry, found, hers, held, of_decide_eq_true same⟩

theorem slice_close (pool : Pool U) (cache other : Nat) (node : String) :
    (pool.close cache).slice other node =
      if other = cache then ⟨[], 0⟩ else pool.slice other node := by
  unfold close slice
  rw [lookup_remove_keys]
  by_cases same : other = cache
  · simp [same]
  · simp [same]

end Pool

/-- One step of a read. The chunks it fetches lie below `top`. -/
inductive ReadStep (env : Env U) (cache top : Nat) : Pool U → Pool U → Prop where
  | missed (pool : Pool U) : ReadStep env cache top pool pool.tick
  | loaded {pool : Pool U} {coord : Coord} {units : List U}
      (below : coord.fromKey < top) (within : coord.toKey ≤ top)
      (ordered : coord.fromKey + runChunk < 2 ^ 64 → coord.fromKey < coord.toKey)
      (fetched : env.source pool.ticks cache coord = some units) :
      ReadStep env cache top pool (pool.tick.load env cache coord units)
  | reloaded {pool : Pool U} {address : Nat} {entry : Entry U} {units : List U}
      (found : pool.heap[address]? = some entry) (hers : entry.cache = cache)
      (held : entry.held = true) (hollow : entry.run.resident = false)
      (fetched : env.source pool.ticks cache entry.run.coord = some units) :
      ReadStep env cache top pool (pool.tick.reload env cache address units)
  | touched (pool : Pool U) (address : Nat) :
      ReadStep env cache top pool (pool.touch address)

abbrev Reads (env : Env U) (cache top : Nat) : Pool U → Pool U → Prop :=
  Relation.ReflTransGen (ReadStep env cache top)

section Reads

variable {top : Nat} {before after : Pool U}

theorem ReadStep.belongs (step : ReadStep env cache top before after) {other address : Nat}
    (belongs : before.Belongs other node address) : after.Belongs other node address := by
  cases step with
  | missed => exact belongs
  | loaded => exact Pool.Belongs.same (SameShape.charge env _ _) (Pool.Belongs.insert belongs)
  | reloaded => exact Pool.Belongs.same (SameShape.reload env before.tick _ _ _) belongs
  | touched address => exact Pool.Belongs.same (SameShape.touch before address) belongs

theorem ReadStep.placed (step : ReadStep env cache top before after) (placed : before.Placed) :
    after.Placed := by
  cases step with
  | missed => exact placed
  | loaded =>
    exact Pool.Placed.same (SameShape.charge env _ _)
      (Pool.Placed.insert env placed)
  | reloaded => exact Pool.Placed.same (SameShape.reload env before.tick _ _ _) placed
  | touched address => exact Pool.Placed.same (SameShape.touch before address) placed

theorem ReadStep.owners (step : ReadStep env cache top before after) :
    after.owners = before.owners := by
  cases step with
  | missed => rfl
  | loaded => exact (SameShape.charge env _ _).owners
  | reloaded => exact (SameShape.reload env before.tick _ _ _).owners
  | touched => rfl

theorem Reads.invariant (kept : Pool U → Prop)
    (step : ∀ {before after}, kept before → ReadStep env cache top before after → kept after)
    (reads : Reads env cache top before after) (start : kept before) : kept after := by
  induction reads with
  | refl => exact start
  | tail _ last ih => exact step ih last

end Reads

def Pool.Sighted (pool : Pool U) (cache : Nat) (node : String) (view : View) : Prop :=
  ∀ address ∈ pool.viewed cache node view, pool.Belongs cache node address

structure Walks (env : Env U) (cache top : Nat) (node : String) (start : Pool U)
    (served : Served U) : Prop where
  reads : Reads env cache top start served.pool
  placed : served.pool.Placed
  sighted : served.pool.Sighted cache node served.view

namespace Walks

variable {top : Nat} {start : Pool U} {served next : Served U} {coord : Coord} {address : Nat}
  {toKey : Nat}

theorem step (walks : Walks env cache top node start served)
    (step : ReadStep env cache top served.pool pool)
    (slice : pool.slice cache node = served.pool.slice cache node) (same : next.pool = pool)
    (view : next.view = served.view) : Walks env cache top node start next := by
  rw [← same] at step slice
  refine ⟨walks.reads.tail step, step.placed walks.placed, ?_⟩
  intro address member
  unfold Pool.viewed at member
  rw [slice, view] at member
  exact step.belongs (walks.sighted address member)

theorem load (walks : Walks env cache top node start served) {units : List U}
    (below : coord.fromKey < top) (within : coord.toKey ≤ top)
    (ordered : coord.fromKey + runChunk < 2 ^ 64 → coord.fromKey < coord.toKey)
    (fetched : env.source served.pool.ticks cache coord = some units)
    (same : next.pool = served.pool.tick.load env cache coord units)
    (view : next.view = served.pool.viewAfter cache node served.view) :
    Walks env cache top node start next := by
  have step := ReadStep.loaded below within ordered fetched
  rw [← same] at step
  have placed := step.placed walks.placed
  refine ⟨walks.reads.tail step, placed, ?_⟩
  intro address member
  rw [view] at member
  unfold Pool.viewAfter at member
  cases seen : served.view with
  | some order =>
    rw [seen] at member
    apply step.belongs
    apply walks.sighted
    rw [seen]
    exact member
  | none =>
    rw [seen] at member
    dsimp only at member
    split_ifs at member with full
    · exact step.belongs (walks.placed cache node address member)
    · exact placed cache node address member

theorem materialize {rounds lo : Nat} {all : List U} {filled : Served U} (below : toKey ≤ top)
    (walks : Walks env cache top node start served)
    (returned : materializeLocked env cache node toKey rounds lo all served.view served.pool =
      some filled) : Walks env cache top node start filled := by
  induction rounds generalizing lo all served with
  | zero => cases returned
  | succ rounds ih =>
    rw [materializeLocked] at returned
    split_ifs at returned with short
    · dsimp only at returned
      split at returned
      · cases returned
        exact walks.step (.missed _) rfl rfl rfl
      · rename_i units fetched
        apply @ih ⟨[], lo, false, _, _⟩ _ _ _ returned
        apply walks.load (Nat.lt_of_lt_of_le short below) _ _ fetched rfl rfl
        · dsimp only
          split_ifs <;> omega
        · intro small
          dsimp only at small ⊢
          rw [Nat.mod_eq_of_lt small]
          unfold runChunk
          split_ifs <;> omega
    · cases returned
      exact ⟨walks.reads, walks.placed, walks.sighted⟩

theorem fill_gap (below : toKey ≤ top) (walks : Walks env cache top node start served)
    (returned : served.fillGap env cache node toKey = some next) :
    Walks env cache top node start next := by
  unfold Served.fillGap at returned
  split_ifs at returned with gap
  · obtain ⟨filled, made, rfl⟩ := Option.map_eq_some_iff.mp returned
    have done := walks.materialize below made
    exact ⟨done.reads, done.placed, done.sighted⟩
  · cases returned
    exact walks

theorem take (walks : Walks env cache top node start served)
    (belongs : served.pool.Belongs cache node address) :
    Walks env cache top node start (served.take env cache toKey address) := by
  obtain ⟨entry, found, hers, held, _⟩ := belongs
  unfold Served.take
  rw [found]
  dsimp only
  split_ifs with resident
  · exact walks.step (.touched _ address) rfl rfl rfl
  · unfold Served.refill
    split
    · exact walks.step (.missed _) rfl rfl rfl
    · rename_i units fetched
      have hollow : entry.run.resident = false := Bool.eq_false_iff.mpr resident
      exact walks.step (.reloaded found hers held hollow fetched)
        ((SameShape.reload env _ cache address units).slice cache node) rfl rfl

theorem visit (below : coord.toKey ≤ top)
    (walks : Walks env cache top coord.node start served)
    (belongs : served.pool.Belongs cache coord.node address)
    (returned : served.visit env cache coord address = some next) :
    Walks env cache top coord.node start next := by
  obtain ⟨entry, found, _⟩ := id belongs
  unfold Served.visit at returned
  rw [found] at returned
  dsimp only at returned
  split_ifs at returned with skipped
  · cases returned
    exact walks
  · obtain ⟨filled, made, rfl⟩ := Option.map_eq_some_iff.mp returned
    obtain ⟨_, inside⟩ := not_or.mp skipped
    have ready : entry.run.coord.fromKey ≤ top := by omega
    have done := walks.fill_gap ready made
    have here : Walks env cache top coord.node served.pool served :=
      ⟨.refl, walks.placed, walks.sighted⟩
    split_ifs with failed
    · exact done
    · apply done.take
      exact (here.fill_gap ready made).reads.invariant
        (fun pool => pool.Belongs cache coord.node address)
        (fun belongs step => step.belongs belongs) belongs

theorem visit_all {left index : Nat} (below : coord.toKey ≤ top)
    (walks : Walks env cache top coord.node start served)
    (returned : served.visitAll env cache coord left index = some next) :
    Walks env cache top coord.node start next := by
  induction left generalizing index served with
  | zero =>
    cases returned
    exact walks
  | succ left ih =>
    rw [Served.visitAll] at returned
    split at returned
    · cases returned
      exact walks
    · rename_i address seen
      obtain ⟨middle, visited, later⟩ := Option.bind_eq_some_iff.mp returned
      have belongs := walks.sighted address (mem_of_getElem? seen)
      have done := walks.visit below belongs visited
      split_ifs at later with failed
      · cases later
        exact done
      · exact ih done later

theorem range_in_node (below : coord.toKey ≤ top) (placed : pool.Placed)
    (returned : pool.rangeInNode env cache coord = some next) :
    Walks env cache top coord.node pool next := by
  obtain ⟨middle, visited, later⟩ := Option.bind_eq_some_iff.mp returned
  have begun : Walks env cache top coord.node pool ⟨[], coord.fromKey, false, none, pool⟩ :=
    ⟨.refl, placed, placed cache coord.node⟩
  have done := begun.visit_all below visited
  split_ifs at later with failed
  · cases later
    exact done
  · exact done.fill_gap below later

end Walks

theorem cut_end_le (rest : List Ref) (toKey : Nat) : cutEnd rest toKey ≤ toKey := by
  unfold cutEnd
  split
  · exact Nat.le_refl _
  · split_ifs <;> omega

/-- The cuts of a lineage are the first node's, if it has any, and those that follow. -/
theorem mem_split {ref : Ref} {rest : List Ref} {lo toKey : Nat} {cut : Coord} :
    cut ∈ split (ref :: rest) lo toKey ↔
      (lo < cutEnd rest toKey ∧ cut = ⟨ref.node, lo, cutEnd rest toKey⟩) ∨
      (max lo (cutEnd rest toKey) < toKey ∧
        cut ∈ split rest (max lo (cutEnd rest toKey)) toKey) := by
  rw [split]
  split_ifs with ahead ended ended
  · rw [Nat.max_eq_right (Nat.le_of_lt ahead), mem_singleton]
    simp [ahead, Nat.not_lt.mpr ended]
  · rw [Nat.max_eq_right (Nat.le_of_lt ahead), mem_cons]
    simp [ahead, Nat.not_le.mp ended]
  · rw [Nat.max_eq_left (Nat.not_lt.mp ahead)]
    simp [ahead, Nat.not_lt.mpr ended]
  · rw [Nat.max_eq_left (Nat.not_lt.mp ahead)]
    simp [ahead, Nat.not_le.mp ended]

theorem split_to_le {lineage : List Ref} {lo toKey : Nat} {cut : Coord}
    (member : cut ∈ split lineage lo toKey) : cut.toKey ≤ toKey := by
  induction lineage generalizing lo with
  | nil => cases member
  | cons ref rest ih =>
    rcases mem_split.mp member with ⟨_, rfl⟩ | ⟨_, later⟩
    · exact cut_end_le rest toKey
    · exact ih later

namespace Pool

theorem range_cuts_reads {cuts : List Coord} {answer next : Answer U} {top : Nat}
    (below : ∀ cut ∈ cuts, cut.toKey ≤ top) (placed : answer.pool.Placed)
    (returned : rangeCuts env cache cuts answer = some next) :
    Reads env cache top answer.pool next.pool := by
  induction cuts generalizing answer with
  | nil =>
    cases returned
    exact .refl
  | cons cut rest ih =>
    obtain ⟨served, ranged, later⟩ := Option.bind_eq_some_iff.mp returned
    have walks := Walks.range_in_node (below cut mem_cons_self) placed ranged
    split_ifs at later with failed
    · cases later
      exact walks.reads
    · have rest := ih (fun cut member => below cut (mem_cons_of_mem _ member))
        walks.placed later
      exact walks.reads.trans rest

theorem range_reads {lineage : List Ref} {fromKey toKey : Nat} {answer : Answer U}
    (placed : pool.Placed)
    (returned : pool.range env cache lineage fromKey toKey = some answer) :
    Reads env cache toKey pool answer.pool := by
  unfold range at returned
  split_ifs at returned with nothing
  · cases returned
    exact .refl
  · exact range_cuts_reads (fun cut member => split_to_le member) placed returned

end Pool

end Figwal.Forest
