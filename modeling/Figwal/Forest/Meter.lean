import Figwal.Forest.Steps

/-!
# The meter of the budget

Every step that makes a run resident or hollow moves the meter by the bytes of that
run, so the meter is the bytes of all resident runs. A cache that has been closed is no
longer counted, but nothing keeps it from being used: what is put into it then, or
read through it, is charged all the same.
-/

namespace Figwal.Forest

open Figwal.Lib List

set_option autoImplicit false

variable {U : Type} {env : Env U} {pool : Pool U} {cache address : Nat} {entry : Entry U}

namespace Pool

variable {run : Run U}

def weight (pool : Pool U) (entry : Entry U) : Nat :=
  if entry.held && pool.owned entry.cache && entry.run.resident then entry.run.bytes else 0

def residentBytes (pool : Pool U) : Nat := (pool.heap.map pool.weight).sum

def Tended (pool : Pool U) : Prop :=
  ∀ (address : Nat) (entry : Entry U), pool.heap[address]? = some entry → entry.held = true →
    pool.owned entry.cache = true

structure Metered (pool : Pool U) : Prop where
  placed : pool.Placed
  tended : pool.Tended
  meter : pool.bytes = pool.residentBytes

theorem fresh_metered (limit : Int) : (fresh limit : Pool U).Metered where
  placed := fun _ _ _ member => nomatch member
  tended := fun _ _ found => nomatch found
  meter := rfl

theorem Tended.same {before after : Pool U} (same : SameShape before after)
    (tended : before.Tended) : after.Tended := by
  intro address entry found held
  obtain ⟨old, was, shape⟩ := same.symm.entry found
  unfold Entry.shape at shape
  rw [Prod.mk.injEq, Prod.mk.injEq] at shape
  rw [same.owned, ← shape.1]
  exact tended address old was (shape.2.1 ▸ held)

theorem Tended.insert (env : Env U) (tended : pool.Tended) (owned : pool.owned cache = true) :
    (pool.insert env cache run).Tended := by
  intro address entry found held
  rcases mem_append.mp (mem_of_getElem? found) with old | new
  · obtain ⟨place, was⟩ := mem_iff_getElem?.mp old
    exact tended place entry was held
  · rw [mem_singleton.mp new]
    exact owned

def runBytes (run : Run U) : Nat := if run.resident then run.bytes else 0

theorem weight_owned (owned : pool.owned cache = true) (run : Run U) :
    pool.weight ⟨cache, true, run⟩ = runBytes run := by
  unfold weight runBytes
  rw [owned]
  rfl

/-- A change of a counted run moves the total by what the run gains or loses. -/
theorem resident_bytes_update (change : Run U → Run U)
    (found : pool.heap[address]? = some entry) (held : entry.held = true)
    (owned : pool.owned entry.cache = true) :
    (pool.update address change).residentBytes + runBytes entry.run =
      pool.residentBytes + runBytes (change entry.run) := by
  obtain ⟨cache, _, run⟩ := entry
  cases held
  have total := total_modify pool.weight
    (fun entry => { entry with run := change entry.run }) found
  rw [weight_owned owned, weight_owned owned] at total
  exact total

theorem resident_bytes_insert (env : Env U) (pool : Pool U) (cache : Nat) :
    (pool.insert env cache run).residentBytes =
      pool.residentBytes + pool.weight ⟨cache, true, run⟩ := by
  change ((pool.heap ++ [_]).map pool.weight).sum = _
  rw [map_append, sum_append]
  simp [residentBytes]

theorem Metered.evict (metered : pool.Metered) (found : pool.heap[address]? = some entry)
    (evictable : entry.evictable = true) : (pool.evict address entry.run.bytes).Metered := by
  unfold Entry.evictable at evictable
  rw [Bool.and_eq_true, Bool.and_eq_true] at evictable
  obtain ⟨⟨held, resident⟩, _⟩ := evictable
  have shaped := SameShape.update pool address Run.hollow fun _ _ => rfl
  have same : SameShape pool (pool.evict address entry.run.bytes) := ⟨shaped.shapes, rfl, rfl⟩
  refine ⟨metered.placed.same same, metered.tended.same same, ?_⟩
  have total := resident_bytes_update Run.hollow found held
    (metered.tended address entry found held)
  have lost : runBytes entry.run = entry.run.bytes := if_pos resident
  have gained : runBytes entry.run.hollow = 0 := rfl
  have meter := metered.meter
  change pool.bytes + -(entry.run.bytes : Int) = (pool.update address Run.hollow).residentBytes
  omega

/-- A charge of what was added leaves the meter exact, whatever it evicts. -/
theorem charge_metered (env : Env U) {delta : Int} (counted : (pool.count delta).Metered) :
    (pool.charge env delta).Metered := by
  apply (pool.charge_evicts env delta).invariant Metered _ counted
  intro pool address entry metered found _ evictable
  exact metered.evict found evictable

section

variable (metered : pool.Metered)

include metered

theorem Metered.bump : pool.bump.Metered :=
  ⟨metered.placed, metered.tended, metered.meter⟩

theorem Metered.tick : pool.tick.Metered :=
  ⟨metered.placed, metered.tended, metered.meter⟩

theorem Metered.insert (env : Env U) (owned : pool.owned cache = true)
    (resident : run.resident = true) :
    ((pool.insert env cache run).count run.bytes).Metered := by
  refine ⟨metered.placed.insert env, metered.tended.insert env owned, ?_⟩
  have weighs : runBytes run = run.bytes := if_pos resident
  have total := @resident_bytes_insert _ run env pool cache
  have meter := metered.meter
  rw [weight_owned owned] at total
  change pool.bytes + (run.bytes : Int) = ((pool.insert env cache run).residentBytes : Int)
  omega

/-- A run of an open cache changes, and what it gains or loses is counted. -/
theorem Metered.change (found : pool.heap[address]? = some entry) (held : entry.held = true)
    (change : Run U → Run U) (kept : (change entry.run).coord = entry.run.coord) {delta : Int}
    (gain : delta = runBytes (change entry.run) - runBytes entry.run) :
    ((pool.update address change).count delta).Metered := by
  have shaped := SameShape.update pool address change (by
    intro other seen
    cases found.symm.trans seen
    exact kept)
  have total := resident_bytes_update change found held
    (metered.tended address entry found held)
  have meter := metered.meter
  have same : SameShape pool ((pool.update address change).count delta) :=
    ⟨shaped.shapes, rfl, rfl⟩
  refine ⟨metered.placed.same same, metered.tended.same same, ?_⟩
  change pool.bytes + delta = (pool.update address change).residentBytes
  omega

theorem Metered.stamp (address : Nat) (epoch : Int) :
    (pool.update address fun run => { run with epoch := epoch }).Metered := by
  have same := SameShape.update pool address (fun run => { run with epoch := epoch })
    fun _ _ => rfl
  have kept := map_modify_same pool.weight
    (fun entry => { entry with run := { entry.run with epoch := epoch } }) pool.heap address
    fun _ _ => rfl
  have total : (pool.update address fun run => { run with epoch := epoch }).residentBytes =
      pool.residentBytes := congrArg List.sum kept
  refine ⟨metered.placed.same same, metered.tended.same same, ?_⟩
  rw [total]
  exact metered.meter

theorem Metered.refill (env : Env U) (units : List U) (found : pool.heap[address]? = some entry)
    (held : entry.held = true) (hollow : entry.run.resident = false) :
    ((pool.update address fun run => { run with
      units := units, bytes := env.weigh cache units, resident := true }).count
        (env.weigh cache units)).Metered := by
  apply metered.change found held _ rfl
  rw [runBytes, runBytes, if_pos rfl, if_neg (Bool.eq_false_iff.mp hollow)]
  exact (Int.sub_zero _).symm

theorem Metered.step {top : Nat} {after : Pool U} (owned : pool.owned cache = true)
    (step : ReadStep env cache top pool after) : after.Metered := by
  cases step with
  | missed => exact metered.tick
  | loaded => exact charge_metered env (metered.tick.bump.insert env owned rfl)
  | reloaded found _ held hollow _ =>
    exact (charge_metered env (metered.tick.refill env _ found held hollow)).bump.stamp _ _
  | touched address => exact metered.stamp address pool.epoch

theorem Metered.reads {top : Nat} {reached : Pool U} (owned : pool.owned cache = true)
    (reads : Reads env cache top pool reached) :
    reached.Metered ∧ reached.owned cache = true := by
  apply reads.invariant (fun pool => pool.Metered ∧ pool.owned cache = true) _ ⟨metered, owned⟩
  rintro before after ⟨metered, owned⟩ step
  refine ⟨metered.step owned step, ?_⟩
  unfold Pool.owned at owned ⊢
  rw [step.owners]
  exact owned

theorem Metered.put (env : Env U) (coord : Coord) (units : List U) (pinned : Bool)
    (owned : pool.owned cache = true) : (pool.put env cache coord units pinned).Metered := by
  unfold Pool.put
  dsimp only
  split
  · exact charge_metered env (metered.bump.insert env owned rfl)
  · rename_i address located
    obtain ⟨entry, found, _, held, same⟩ := locate_some metered.bump.placed located
    rw [found]
    apply charge_metered env (metered.bump.change found held (fun _ =>
      ⟨coord, units, env.weigh cache units, pool.bump.epoch, pinned, true⟩) same.symm rfl)

theorem Metered.drop (cache : Nat) (coord : Coord) : (pool.drop cache coord).Metered := by
  unfold Pool.drop
  split
  · exact metered
  · rename_i address located
    obtain ⟨entry, found, _, held, _⟩ := locate_some metered.placed located
    generalize dropped : (fun run : Run U =>
      if run.resident then { run.hollow with pinned := false } else run) = hollowed
    have kept : ∀ run, (hollowed run).coord = run.coord := by
      intro run
      rw [← dropped]
      dsimp only
      split_ifs <;> rfl
    have emptied : runBytes (hollowed entry.run) = 0 := by
      rw [← dropped]
      cases resident : entry.run.resident <;> simp [runBytes, resident, Run.hollow]
    rw [found]
    change (if 0 < runBytes entry.run then _ else _ : Pool U).Metered
    split_ifs with frees
    · apply metered.change found held hollowed (kept entry.run)
      change -(runBytes entry.run : Int) = _
      omega
    · have same : (pool.update address hollowed).count 0 = pool.update address hollowed := by
        simp [count]
      rw [← same]
      apply metered.change found held hollowed (kept entry.run)
      omega

end

theorem owned_close (pool : Pool U) (cache other : Nat) :
    (pool.close cache).owned other = (pool.owned other && other != cache) := by
  unfold owned close
  rw [Bool.eq_iff_iff]
  simp

theorem weight_close (tended : pool.Tended) (cache : Nat)
    (found : pool.heap[address]? = some entry) :
    pool.weight entry =
      (if entry.held && entry.cache == cache && entry.run.resident then entry.run.bytes else 0) +
        (pool.close cache).weight
          (if entry.cache = cache then { entry with held := false } else entry) := by
  have counted := tended address entry found
  unfold weight
  by_cases same : entry.cache = cache
  · subst same
    cases held : entry.held with
    | false => simp
    | true => simp [counted held]
  · simp [same, owned_close]

theorem Metered.close (metered : pool.Metered) (cache : Nat) : (pool.close cache).Metered := by
  refine ⟨?_, ?_, ?_⟩
  · intro other node address member
    rw [slice_close] at member
    split_ifs at member with same
    · cases member
    · obtain ⟨entry, found, hers, held, there⟩ := metered.placed other node address member
      refine ⟨entry, ?_, hers, held, there⟩
      change (pool.heap.map _)[address]? = _
      rw [getElem?_map, found, Option.map_some, if_neg (hers ▸ same)]
  · intro address entry found held
    change (pool.heap.map _)[address]? = _ at found
    rw [getElem?_map] at found
    obtain ⟨old, was, rfl⟩ := Option.map_eq_some_iff.mp found
    by_cases same : old.cache = cache
    · rw [if_pos same] at held
      cases held
    · rw [if_neg same] at held ⊢
      rw [owned_close, metered.tended address old was held]
      simpa using same
  · have split : pool.residentBytes =
        pool.heldBytes cache + (pool.close cache).residentBytes := by
      unfold residentBytes heldBytes
      change _ = _ + ((pool.heap.map _).map _).sum
      rw [map_map, ← sum_map_add]
      congr 1
      apply map_congr_left
      intro entry member
      obtain ⟨address, found⟩ := mem_iff_getElem?.mp member
      exact weight_close metered.tended cache found
    have meter := metered.meter
    change pool.bytes - (pool.heldBytes cache : Int) = _
    omega

theorem Metered.new (metered : pool.Metered) : pool.new.Metered := by
  have still : ∀ cache, pool.owned cache = true → pool.new.owned cache = true := by
    intro cache opened
    change (pool.owners ++ [pool.made]).contains cache = true
    rw [contains_append]
    exact Bool.or_eq_true_iff.mpr (.inl opened)
  refine ⟨metered.placed, ?_, ?_⟩
  · intro address entry found held
    exact still _ (metered.tended address entry found held)
  · have same : pool.new.residentBytes = pool.residentBytes := by
      unfold residentBytes
      congr 1
      apply map_congr_left
      intro entry member
      obtain ⟨address, found⟩ := mem_iff_getElem?.mp member
      unfold weight
      cases held : entry.held with
      | false => rfl
      | true =>
        have owned := metered.tended address entry found held
        rw [owned, still _ owned]
    rw [same]
    exact metered.meter

/-- `Put` and `Range` are called on caches that have not been closed. -/
def OnOpen (pool : Pool U) : Op U → Prop
  | .put cache _ _ _ => pool.owned cache = true
  | .range cache _ _ _ => pool.owned cache = true
  | _ => True

instance (pool : Pool U) (op : Op U) : Decidable (pool.OnOpen op) :=
  match op with
  | .put .. => inferInstanceAs (Decidable (_ = _))
  | .range .. => inferInstanceAs (Decidable (_ = _))
  | .new | .drop .. | .close _ | .trimIdle _ | .setLimit _ | .stamp _ => .isTrue trivial

theorem Metered.apply (metered : pool.Metered) (env : Env U) (op : Op U)
    (opened : pool.OnOpen op) : (pool.apply env op).Metered := by
  cases op with
  | new => exact metered.new
  | put cache coord units pinned => exact metered.put env coord units pinned opened
  | range cache lineage fromKey toKey =>
    change (((pool.range env cache lineage fromKey toKey).map Answer.pool).getD pool).Metered
    cases returned : pool.range env cache lineage fromKey toKey with
    | none => exact metered
    | some answer => exact (metered.reads opened (range_reads metered.placed returned)).1
  | drop cache coord => exact metered.drop cache coord
  | close cache => exact metered.close cache
  | trimIdle keep =>
    exact pool.trim_idle_invariant env keep Metered
      (fun _ _ _ metered found evictable => metered.evict found evictable) metered.bump
  | setLimit limit => exact ⟨metered.placed, metered.tended, metered.meter⟩
  | stamp recency => exact ⟨metered.placed, metered.tended, metered.meter⟩

end Pool

/-- After every operation of a history that uses no cache after closing it, the meter
is the bytes of all resident runs of the caches not yet closed. -/
theorem meter_exact (env : Env U) (limit : Int) (history : List (Op U))
    (opened : EveryStep (Pool.apply env) Pool.OnOpen (Pool.fresh limit) history) :
    EveryStep (Pool.apply env)
      (fun pool op => (pool.apply env op).bytes = (pool.apply env op).residentBytes)
      (Pool.fresh limit) history := by
  apply every_step_of_invariant (Pool.apply env) Pool.Metered _ (Pool.fresh_metered limit) opened
  intro pool op metered opened
  have after := metered.apply env op opened
  exact ⟨after.meter, after⟩

/-- Units that are their own keys and weigh ten bytes each. The source has them all, and
a full array is replaced by one of twice its length. -/
def decimalEnv : Env Nat where
  size := fun _ _ => 10
  key := fun _ unit => unit
  source := fun _ _ coord =>
    some ((List.range (coord.toKey - coord.fromKey)).map (coord.fromKey + 1 + ·))
  choose := fun tick => tick
  grow := fun length => length - 1
  rounds := 4

def busyHistory : List (Op Nat) :=
  [.new, .new, .put 0 ⟨"a", 0, 2⟩ [1, 2] false, .put 0 ⟨"a", 0, 2⟩ [1, 2] true,
    .range 1 [⟨"a", 0⟩, ⟨"b", 3⟩] 0 70, .setLimit 300, .range 0 [⟨"a", 0⟩] 0 9,
    .drop 0 ⟨"a", 0, 2⟩, .trimIdle 0, .close 1]

theorem busy_history_metered :
    EveryStep (Pool.apply decimalEnv) Pool.OnOpen (Pool.fresh 0) busyHistory ∧
    EveryStep (Pool.apply decimalEnv)
      (fun pool op => (pool.apply decimalEnv op).bytes = (pool.apply decimalEnv op).residentBytes)
      (Pool.fresh 0) busyHistory :=
  ⟨by decide +kernel, meter_exact decimalEnv 0 busyHistory (by decide +kernel)⟩

/-- A run put into a closed cache stays on the meter for good. -/
theorem closed_cache_counted :
    ¬ EveryStep (Pool.apply decimalEnv)
      (fun pool op => (pool.apply decimalEnv op).bytes = (pool.apply decimalEnv op).residentBytes)
      (Pool.fresh 0) [.new, .close 0, .put 0 ⟨"a", 0, 2⟩ [1, 2] false] := by
  decide +kernel

end Figwal.Forest
