import Figwal.Forest.Meter

/-!
# What the budget enforces

`charge` and `TrimIdle` evict the coldest runs first and stop at a victim that frees
nothing. A run without bytes therefore shields every run that is not colder than it.
`Clears` and `SweepsClean` say that no run is shielded so.
-/

namespace Figwal.Forest

open Figwal.Lib List

set_option autoImplicit false

variable {U : Type} {env : Env U} {pool : Pool U} {owns : Nat → Bool} {address other : Nat}
  {entry : Entry U}

namespace Pool

variable {cutoff : Int} {after before : Pool U}

/-! ## The runs that are left -/

theorem eff_epoch_evict (pool : Pool U) (address bytes : Nat) (entry : Entry U) :
    (pool.evict address bytes).effEpoch entry = pool.effEpoch entry := rfl

theorem evictables_evict (bytes : Nat) (member : address ∈ pool.evictables owns) :
    ((pool.evict address bytes).evictables owns).length < (pool.evictables owns).length := by
  have fewer : (pool.evict address bytes).evictables owns =
      (pool.evictables owns).filter (· != address) := by
    unfold evictables
    change (List.range (pool.heap.modify address _).length).filter _ = _
    rw [length_modify, filter_filter]
    apply filter_congr
    intro other _
    change ((pool.update address Run.hollow).heap[other]?.any _) = _
    by_cases same : address = other
    · subst same
      rw [update_entry, bne_self_eq_false, Bool.false_and]
      cases pool.heap[address]? with
      | none => rfl
      | some entry =>
        rw [Option.map_some, if_pos rfl, Option.any_some, hollow_not_evictable, Bool.and_false]
    · rw [update_entry_other _ same, bne_iff_ne.mpr (Ne.symm same), Bool.true_and]
  rw [fewer]
  apply length_filter_lt_length_iff_exists.mpr
  exact ⟨address, member, by simp⟩

theorem none_evictable (few : (pool.evictables owns).length = 0)
    (found : pool.heap[address]? = some entry) (owned : owns entry.cache = true) :
    entry.evictable = false := by
  apply Bool.eq_false_iff.mpr
  intro evictable
  have member := mem_evictables.mpr ⟨entry, found, owned, evictable⟩
  rw [eq_nil_of_length_eq_zero few] at member
  cases member

/-! ## The bound -/

def colderWeight (pool : Pool U) (epoch : Int) (entry : Entry U) : Nat :=
  if pool.owned entry.cache && entry.evictable && decide (pool.effEpoch entry < epoch) then
    entry.run.bytes
  else 0

def colderBytes (pool : Pool U) (epoch : Int) : Nat :=
  (pool.heap.map (pool.colderWeight epoch)).sum

/-- Before the eviction reaches a run without bytes the budget fits, or nothing with
bytes is left to evict. -/
def Clears (pool : Pool U) : Prop :=
  ∀ empty ∈ pool.heap, pool.owned empty.cache = true → empty.evictable = true →
    empty.run.bytes = 0 →
      pool.bytes - pool.colderBytes (pool.effEpoch empty) ≤ pool.limit ∨
      ∀ entry ∈ pool.heap, pool.owned entry.cache = true → entry.evictable = true →
        0 < entry.run.bytes → pool.effEpoch entry < pool.effEpoch empty

def Bounded (pool : Pool U) : Prop :=
  pool.bytes ≤ pool.limit ∨
    ∀ entry ∈ pool.heap, entry.held = true → entry.run.resident = true → 0 < entry.run.bytes →
      entry.run.pinned = true

instance (pool : Pool U) : Decidable pool.Clears :=
  inferInstanceAs (Decidable (∀ empty ∈ pool.heap, _))

instance (pool : Pool U) : Decidable pool.Bounded := inferInstanceAs (Decidable (_ ∨ _))

theorem colder_bytes_least (epoch : Int)
    (least : ∀ (address : Nat) (entry : Entry U), pool.heap[address]? = some entry →
      pool.owned entry.cache = true → entry.evictable = true → epoch ≤ pool.effEpoch entry) :
    pool.colderBytes epoch = 0 := by
  apply sum_eq_zero
  intro weight member
  obtain ⟨entry, inside, rfl⟩ := mem_map.mp member
  obtain ⟨address, found⟩ := mem_iff_getElem?.mp inside
  apply if_neg
  rw [Bool.and_eq_true, Bool.and_eq_true, decide_eq_true_eq]
  intro ⟨⟨owned, evictable⟩, colder⟩
  exact absurd (least address entry found owned evictable) (Int.not_le.mpr colder)

theorem colder_bytes_evict (epoch : Int) (coldest : pool.Coldest pool.owned address entry) :
    (pool.evict address entry.run.bytes).colderBytes epoch + pool.colderWeight epoch entry =
      pool.colderBytes epoch := by
  have total := total_modify (pool.colderWeight epoch)
    (fun entry => { entry with run := entry.run.hollow }) coldest.found
  have nothing : pool.colderWeight epoch { entry with run := entry.run.hollow } = 0 := by
    unfold colderWeight
    rw [hollow_not_evictable, Bool.and_false, Bool.false_and]
    rfl
  rw [nothing] at total
  exact total

theorem Clears.evict (clears : pool.Clears) (full : pool.limit < pool.bytes)
    (coldest : pool.Coldest pool.owned address entry) :
    (pool.evict address entry.run.bytes).Clears := by
  intro empty member owned evictable nothing
  obtain ⟨place, found⟩ := mem_iff_getElem?.mp member
  obtain ⟨_, was⟩ := evictable_of_evict evictable found
  rcases clears empty (mem_of_getElem? was) owned evictable nothing with fits | behind
  · -- The victim is strictly colder, or the budget would fit already.
    left
    have total := colder_bytes_evict (pool.effEpoch empty) coldest
    have colder : pool.effEpoch entry < pool.effEpoch empty := by
      apply Int.not_le.mp
      intro level
      have none := colder_bytes_least (pool.effEpoch empty)
        fun other entry' found owned evictable =>
          Int.le_trans level (coldest.least other entry' found owned evictable)
      omega
    have weighs : pool.colderWeight (pool.effEpoch empty) entry = entry.run.bytes := by
      apply if_pos
      rw [coldest.owned, coldest.evictable, decide_eq_true colder]
      rfl
    change pool.bytes + -(entry.run.bytes : Int) -
      ((pool.evict address entry.run.bytes).colderBytes (pool.effEpoch empty) : Int) ≤ pool.limit
    omega
  · right
    intro heavy inside owned evictable weighs
    obtain ⟨place, found⟩ := mem_iff_getElem?.mp inside
    obtain ⟨_, was⟩ := evictable_of_evict evictable found
    exact behind heavy (mem_of_getElem? was) owned evictable weighs

/-- The loop ends with the budget met or nothing with bytes to evict: there is no other
way out of it. -/
theorem charge_loop_ends (env : Env U) {fuel : Nat}
    (enough : (pool.evictables pool.owned).length ≤ fuel) (clears : pool.Clears) :
    (chargeLoop env fuel pool).bytes ≤ (chargeLoop env fuel pool).limit ∨
      ∀ (place : Nat) (heavy : Entry U), (chargeLoop env fuel pool).heap[place]? = some heavy →
        pool.owned heavy.cache = true → heavy.evictable = true → heavy.run.bytes = 0 := by
  induction fuel generalizing pool with
  | zero =>
    right
    intro place heavy found owned evictable
    rw [none_evictable (Nat.le_zero.mp enough) found owned] at evictable
    cases evictable
  | succ fuel ih =>
    rcases charge_pass env fuel pool with ⟨why, stays⟩ | ⟨address, entry, full, coldest, goes⟩
    · rw [stays]
      rcases why with fits | cold
      · exact .inl fits
      · right
        intro place heavy found owned evictable
        have few : (pool.evictables pool.owned).length = 0 := by rw [coldest_none.mp cold]; rfl
        rw [none_evictable few found owned] at evictable
        cases evictable
    · rw [goes]
      have member := mem_evictables.mpr
        ⟨entry, coldest.found, coldest.owned, coldest.evictable⟩
      split_ifs with frees
      · have fewer := evictables_evict entry.run.bytes member
        exact @ih (pool.evict address entry.run.bytes)
          (Nat.le_of_lt_succ (Nat.lt_of_lt_of_le fewer enough))
          (clears.evict full coldest)
      · -- The victim frees nothing: the condition says what that means.
        right
        intro place heavy found owned evictable
        obtain ⟨_, was⟩ := evictable_of_evict evictable found
        rcases clears entry (mem_of_getElem? coldest.found) coldest.owned
          coldest.evictable (Nat.eq_zero_of_not_pos frees) with fits | behind
        · have none := colder_bytes_least _ coldest.least
          omega
        · apply Nat.eq_zero_of_not_pos
          intro weighs
          exact absurd (behind heavy (mem_of_getElem? was) owned evictable weighs)
            (Int.not_lt.mpr (coldest.least place heavy was owned evictable))

theorem evictables_length_le (pool : Pool U) (owns : Nat → Bool) :
    (pool.evictables owns).length ≤ pool.heap.length := by
  have bound := length_filter_le (fun address =>
    pool.heap[address]?.any fun entry => owns entry.cache && entry.evictable)
    (List.range pool.heap.length)
  rw [length_range] at bound
  exact bound

theorem evictable_of (held : entry.held = true) (resident : entry.run.resident = true)
    (loose : ¬ entry.run.pinned = true) : entry.evictable = true := by
  unfold Entry.evictable
  rw [held, resident, Bool.eq_false_iff.mpr loose]
  rfl

theorem charge_bounded (env : Env U) {delta : Int} (positive : 0 < pool.limit)
    (tended : pool.Tended) (clears : (pool.count delta).Clears) :
    (pool.charge env delta).Bounded := by
  have still := tended.same (SameShape.charge env pool delta)
  have charged : pool.charge env delta =
      chargeLoop env (pool.count delta).heap.length (pool.count delta) :=
    if_neg (Int.not_le.mpr positive)
  rcases charge_loop_ends env (evictables_length_le (pool.count delta) _) clears with fits | light
  · rw [charged]
    exact .inl fits
  · right
    intro entry member held resident weighs
    obtain ⟨place, found⟩ := mem_iff_getElem?.mp member
    have owned := still place entry found held
    rw [(SameShape.charge env pool delta).owned] at owned
    rw [charged] at found
    by_contra loose
    have nothing := light place entry found owned (evictable_of held resident loose)
    omega

/-! ## The sweep -/

/-- A run without bytes is not swept before another run of the same cache that is as
old or younger. -/
def Yields (pool : Pool U) (cutoff : Int) (empty entry : Entry U) : Prop :=
  empty.cache = entry.cache → empty.evictable = true → entry.evictable = true →
    empty.run.bytes = 0 → pool.effEpoch empty < cutoff → pool.effEpoch entry < cutoff →
      pool.effEpoch entry < pool.effEpoch empty

def SweepsClean (pool : Pool U) (cutoff : Int) : Prop :=
  pool.heap.Pairwise fun first second =>
    pool.Yields cutoff first second ∧ pool.Yields cutoff second first

def Swept.Clean (pool : Pool U) (cutoff : Int) : Prop :=
  ∀ entry ∈ pool.heap, entry.held = true → entry.run.resident = true →
    ¬ entry.run.pinned = true → cutoff ≤ pool.effEpoch entry

instance (pool : Pool U) (cutoff : Int) (empty entry : Entry U) :
    Decidable (pool.Yields cutoff empty entry) := inferInstanceAs (Decidable (_ → _))

instance (pool : Pool U) (cutoff : Int) : Decidable (pool.SweepsClean cutoff) :=
  inferInstanceAs (Decidable (List.Pairwise _ _))

instance (pool : Pool U) (cutoff : Int) : Decidable (Swept.Clean pool cutoff) :=
  inferInstanceAs (Decidable (∀ entry ∈ pool.heap, _))

structure Shrinks (before after : Pool U) : Prop where
  recency : after.recency = before.recency
  left : ∀ (address : Nat) (entry : Entry U), after.heap[address]? = some entry →
    entry.evictable = true → before.heap[address]? = some entry

theorem Shrinks.eff_epoch (shrinks : Shrinks before after) (entry : Entry U) :
    after.effEpoch entry = before.effEpoch entry := by
  unfold effEpoch
  rw [shrinks.recency]

theorem Shrinks.trans {middle : Pool U} (first : Shrinks before middle)
    (second : Shrinks middle after) : Shrinks before after where
  recency := second.recency.trans first.recency
  left := fun address entry found evictable =>
    first.left address entry (second.left address entry found evictable) evictable

theorem Shrinks.evicts (evicts : Evicts owns before after) : Shrinks before after := by
  apply evicts.invariant (Shrinks before)
  · intro pool address entry shrinks _ _ _
    exact shrinks.trans ⟨rfl, fun _ _ found evictable => (evictable_of_evict evictable found).2⟩
  · exact ⟨rfl, fun _ _ found _ => found⟩

def Ordered (pool : Pool U) (cutoff : Int) : Prop :=
  ∀ (first second : Nat) (empty entry : Entry U), first ≠ second →
    pool.heap[first]? = some empty → pool.heap[second]? = some entry →
    pool.Yields cutoff empty entry

theorem SweepsClean.ordered (clean : pool.SweepsClean cutoff) : pool.Ordered cutoff := by
  intro first second empty entry apart here there
  obtain ⟨firstBound, rfl⟩ := List.getElem?_eq_some_iff.mp here
  obtain ⟨secondBound, rfl⟩ := List.getElem?_eq_some_iff.mp there
  have pairs := List.pairwise_iff_getElem.mp clean
  rcases Nat.lt_or_gt_of_ne apart with earlier | later
  · exact (pairs first second firstBound secondBound earlier).1
  · exact (pairs second first secondBound firstBound later).2

theorem Ordered.shrinks (ordered : before.Ordered cutoff) (shrinks : Shrinks before after) :
    after.Ordered cutoff := by
  intro first second empty entry apart here there same evictable evictable' nothing
  rw [shrinks.eff_epoch, shrinks.eff_epoch]
  exact ordered first second empty entry apart (shrinks.left first empty here evictable)
    (shrinks.left second entry there evictable') same evictable evictable' nothing

/-- Nothing of the owner that is older than the cutoff may still be evicted. -/
def OwnerClean (pool : Pool U) (cutoff : Int) (owner : Nat) : Prop :=
  ∀ (address : Nat) (entry : Entry U), pool.heap[address]? = some entry → entry.cache = owner →
    entry.evictable = true → cutoff ≤ pool.effEpoch entry

theorem OwnerClean.shrinks {owner : Nat} (clean : before.OwnerClean cutoff owner)
    (shrinks : Shrinks before after) : after.OwnerClean cutoff owner := by
  intro address entry found hers evictable
  rw [shrinks.eff_epoch]
  exact clean address entry (shrinks.left address entry found evictable) hers evictable

theorem trim_owner_clean (env : Env U) {owner fuel : Nat} {swept : Swept U}
    (enough : (swept.pool.evictables (· == owner)).length ≤ fuel)
    (ordered : swept.pool.Ordered cutoff) :
    (trimOwner env cutoff owner fuel swept).pool.OwnerClean cutoff owner := by
  induction fuel generalizing swept with
  | zero =>
    intro place entry found hers evictable
    rw [none_evictable (Nat.le_zero.mp enough) found (beq_iff_eq.mpr hers)] at evictable
    cases evictable
  | succ fuel ih =>
    rcases trim_pass env cutoff owner fuel swept with
      ⟨recent, stays⟩ | ⟨address, entry, old, coldest, goes⟩
    · rw [stays]
      intro place entry found hers evictable
      have member : place ∈ swept.pool.evictables (· == owner) :=
        mem_evictables.mpr ⟨entry, found, beq_iff_eq.mpr hers, evictable⟩
      cases cold : swept.pool.coldest (· == owner) with
      | none =>
        rw [coldest_none.mp cold] at member
        cases member
      | some epoch =>
        exact Int.le_trans (recent epoch cold)
          ((coldest_some cold).2 place entry member found)
    · rw [goes]
      have member : address ∈ swept.pool.evictables (· == owner) :=
        mem_evictables.mpr ⟨entry, coldest.found, coldest.owned, coldest.evictable⟩
      split_ifs with frees
      · have fewer := evictables_evict entry.run.bytes member
        apply ih (Nat.le_of_lt_succ (Nat.lt_of_lt_of_le fewer enough))
        exact ordered.shrinks (.evicts (.evict coldest (.done _)))
      · -- The empty victim is the youngest of what is left to sweep.
        intro place later found hers evictable
        obtain ⟨apart, was⟩ := evictable_of_evict evictable found
        rw [eff_epoch_evict]
        apply Int.not_lt.mp
        intro older
        have younger := ordered address place entry later apart coldest.found was
          ((beq_iff_eq.mp coldest.owned).trans hers.symm) coldest.evictable evictable
          (Nat.eq_zero_of_not_pos frees) old older
        exact absurd younger (Int.not_lt.mpr
          (coldest.least place later was (beq_iff_eq.mpr hers) evictable))

theorem trim_owners_clean (env : Env U) {cutoff : Int} (owners : List Nat) {swept : Swept U}
    (ordered : swept.pool.Ordered cutoff) :
    Shrinks swept.pool (owners.foldl (fun swept owner =>
      trimOwner env cutoff owner swept.pool.heap.length swept) swept).pool ∧
    ∀ owner ∈ owners, (owners.foldl (fun swept owner =>
      trimOwner env cutoff owner swept.pool.heap.length swept) swept).pool.OwnerClean
        cutoff owner := by
  induction owners generalizing swept with
  | nil => exact ⟨⟨rfl, fun _ _ found _ => found⟩, fun _ member => nomatch member⟩
  | cons owner rest ih =>
    rw [foldl_cons]
    have shrinks := Shrinks.evicts
      (trim_owner_evicts env cutoff owner swept.pool.heap.length swept)
    have clean := trim_owner_clean env
      (evictables_length_le swept.pool (· == owner)) ordered
    obtain ⟨later, others⟩ := ih (ordered.shrinks shrinks)
    refine ⟨shrinks.trans later, ?_⟩
    intro one member
    rcases mem_cons.mp member with rfl | behind
    · exact clean.shrinks later
    · exact others one behind

theorem trim_idle_clean (env : Env U) {keep : Int} (tended : pool.Tended)
    (clean : pool.SweepsClean (pool.epoch - keep)) :
    Swept.Clean (pool.trimIdle env keep).pool (pool.epoch - keep) := by
  have ordered : pool.bump.Ordered (pool.epoch - keep) := clean.ordered
  obtain ⟨shrinks, owners⟩ := @trim_owners_clean _ env _ pool.owners ⟨0, 0, pool.bump⟩ ordered
  intro entry member held resident loose
  obtain ⟨place, found⟩ := mem_iff_getElem?.mp member
  have evictable := evictable_of held resident loose
  have owned := tended place entry (shrinks.left place entry found evictable) held
  exact owners entry.cache (contains_iff_mem.mp owned) place entry found rfl evictable

/-! ## Over a history -/

/-- The calls of `charge` that an operation can make, each with the state it meets and
its delta: one in a `Put`, and one for every run that a `Range` makes resident. -/
inductive Charges (env : Env U) (pool : Pool U) : Op U → Pool U → Int → Prop where
  | inserted {cache : Nat} {coord : Coord} {units : List U} {pinned : Bool}
      (absent : pool.bump.locate cache coord = none) :
      Charges env pool (.put cache coord units pinned)
        (pool.bump.insert env cache
          ⟨coord, units, env.weigh cache units, pool.bump.epoch, pinned, true⟩)
        (env.weigh cache units)
  | replaced {cache address : Nat} {coord : Coord} {units : List U} {pinned : Bool}
      {old : Entry U} (located : pool.bump.locate cache coord = some address)
      (found : pool.heap[address]? = some old) :
      Charges env pool (.put cache coord units pinned)
        (pool.bump.update address fun _ =>
          ⟨coord, units, env.weigh cache units, pool.bump.epoch, pinned, true⟩)
        (env.weigh cache units - runBytes old.run)
  | loaded {cache fromKey toKey top : Nat} {lineage : List Ref} {reached : Pool U}
      {coord : Coord} {units : List U} (reads : Reads env cache top pool reached) :
      Charges env pool (.range cache lineage fromKey toKey)
        (reached.tick.bump.insert env cache
          ⟨coord, units, env.weigh cache units, reached.tick.bump.epoch, false, true⟩)
        (env.weigh cache units)
  | reloaded {cache fromKey toKey top address : Nat} {lineage : List Ref} {reached : Pool U}
      {units : List U} (reads : Reads env cache top pool reached) :
      Charges env pool (.range cache lineage fromKey toKey)
        (reached.tick.update address fun run =>
          { run with units := units, bytes := env.weigh cache units, resident := true })
        (env.weigh cache units)

/-- No `charge` of an operation on open caches meets a run of a closed one. -/
theorem Charges.tended {op : Op U} {delta : Int} (charges : pool.Charges env op before delta)
    (metered : pool.Metered) (opened : pool.OnOpen op) : before.Tended := by
  cases charges with
  | inserted _ => exact metered.tended.insert env opened
  | replaced located _ =>
    obtain ⟨entry, found, _, _, same⟩ := locate_some metered.bump.placed located
    apply metered.bump.tended.same
    apply SameShape.update
    intro other seen
    cases found.symm.trans seen
    exact same.symm
  | loaded reads =>
    obtain ⟨metered, owned⟩ := metered.reads opened reads
    exact metered.tended.insert env owned
  | reloaded reads =>
    obtain ⟨metered, _⟩ := metered.reads opened reads
    exact metered.tended.same (SameShape.update _ _ _ fun _ _ => rfl)

/-- What the budget promises of one operation: every `charge` that it makes under a
positive limit and that no run without bytes cuts short leaves the budget met or only
pins with bytes, and a `TrimIdle` leaves nothing unpinned that is older than its cutoff. -/
structure Enforces (env : Env U) (pool : Pool U) (op : Op U) : Prop where
  charged : ∀ before delta, pool.Charges env op before delta → 0 < before.limit →
    (before.count delta).Clears → (before.charge env delta).Bounded
  swept : ∀ keep, op = .trimIdle keep → pool.SweepsClean (pool.epoch - keep) →
    Swept.Clean (pool.apply env op) (pool.epoch - keep)

theorem Metered.enforces (metered : pool.Metered) (env : Env U) {op : Op U}
    (opened : pool.OnOpen op) : pool.Enforces env op where
  charged := fun _ _ charges positive clears =>
    charge_bounded env positive (charges.tended metered opened) clears
  swept := by
    intro keep trims clean
    rw [trims]
    exact trim_idle_clean env metered.tended clean

end Pool

/-- The budget is enforced at every step of every history that uses no cache after
closing it, wherever no run without bytes shields another one. -/
theorem budget_enforced (env : Env U) (limit : Int) (history : List (Op U))
    (opened : EveryStep (Pool.apply env) Pool.OnOpen (Pool.fresh limit) history) :
    EveryStep (Pool.apply env) (Pool.Enforces env) (Pool.fresh limit) history := by
  apply every_step_of_invariant (Pool.apply env) Pool.Metered _ (Pool.fresh_metered limit) opened
  intro pool op metered opened
  exact ⟨metered.enforces env opened, metered.apply env op opened⟩

def youngEmpty : List (Op Nat) :=
  [.new, .put 0 ⟨"a", 0, 2⟩ [1, 2] false, .put 0 ⟨"a", 2, 4⟩ [3, 4] false,
    .put 0 ⟨"b", 0, 1⟩ [] false, .put 0 ⟨"c", 0, 1⟩ [1] true]

/-- The pool of `youngEmpty`: a `Put` finds its budget full and an empty run younger than
the others, and a sweep clears them all. -/
def crowded : Pool Nat := youngEmpty.foldl (Pool.apply decimalEnv) (Pool.fresh 60)

theorem young_empty_enforced :
    (crowded.put decimalEnv 0 ⟨"c", 1, 4⟩ [2, 3, 4] false).Bounded ∧
    Pool.Swept.Clean (crowded.trimIdle decimalEnv 0).pool crowded.epoch := by
  have filled := every_step_last _ (budget_enforced decimalEnv 60
    (youngEmpty ++ [.put 0 ⟨"c", 1, 4⟩ [2, 3, 4] false]) (by decide +kernel))
  have cleaned := every_step_last _ (budget_enforced decimalEnv 60
    (youngEmpty ++ [.trimIdle 0]) (by decide +kernel))
  have absent : crowded.bump.locate 0 ⟨"c", 1, 4⟩ = none := by decide +kernel
  constructor
  · have bounded := filled.charged _ _ (.inserted absent) (by decide +kernel) (by decide +kernel)
    unfold Pool.put
    simp only [absent]
    exact bounded
  · have swept := cleaned.swept 0 rfl (by decide +kernel)
    rw [Int.sub_zero] at swept
    exact swept

/-- A run without units is the coldest: the budget of ten bytes
keeps an unpinned run of twenty, and a sweep keeps a run older than its cutoff. -/
theorem empty_run_shields :
    ¬ ([.new, .put 0 ⟨"a", 0, 1⟩ [] false,
        .put 0 ⟨"a", 1, 3⟩ [2, 3] false].foldl
          (Pool.apply decimalEnv) (Pool.fresh 10)).Bounded ∧
    ¬ Pool.Swept.Clean
      (([.new, .put 0 ⟨"a", 0, 1⟩ [] false, .put 0 ⟨"a", 1, 3⟩ [2, 3] false,
        .put 0 ⟨"b", 0, 1⟩ [1] false].foldl
          (Pool.apply decimalEnv) (Pool.fresh 0)).trimIdle decimalEnv 0).pool 3 := by
  decide +kernel

end Figwal.Forest
