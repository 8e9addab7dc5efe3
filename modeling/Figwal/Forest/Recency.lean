import Figwal.Forest.Enforcement

/-!
# What the epochs say about the requests

A run gets a new epoch when it is made and the current one when it is touched, so of two
runs the one with the lower epoch was not asked for later. Two things the epochs do not
say. Runs touched between two loads have the epoch of the last load, and which of them an
eviction takes is left to the order of a map. A hollow run that is filled again is charged
for with its old epoch and gets the new one only then.
-/

namespace Figwal.Forest

open Figwal.Lib List

set_option autoImplicit false

variable {U : Type} {env : Env U} {pool before after : Pool U} {owns : Nat → Bool}
  {address : Nat} {entry : Entry U}

/-! ## The turn of a run -/

namespace Pool

/-- A run that the pass evicts was the coldest at its turn, with the budget not met. -/
theorem charge_loop_turn (env : Env U) (fuel : Nat) (found : pool.heap[address]? = some entry)
    (gone : (chargeLoop env fuel pool).heap[address]? ≠ some entry) :
    ∃ met, Evicts pool.owned pool met ∧ met.limit < met.bytes ∧
      met.Coldest pool.owned address entry ∧ Evicts pool.owned met (chargeLoop env fuel pool) := by
  induction fuel generalizing pool with
  | zero => exact absurd found gone
  | succ fuel ih =>
    have all := charge_loop_evicts env (fuel + 1) pool
    rcases charge_pass env fuel pool with ⟨_, stays⟩ | ⟨victim, first, full, coldest, goes⟩
    · rw [stays] at gone
      exact absurd found gone
    · by_cases same : victim = address
      · subst same
        cases coldest.found.symm.trans found
        exact ⟨pool, .done pool, full, coldest, all⟩
      · have still : (pool.evict victim first.run.bytes).heap[address]? = some entry :=
          (update_entry_other _ same).trans found
        rw [goes] at gone ⊢
        split_ifs at gone ⊢ with frees
        · obtain ⟨met, earlier, turn⟩ := ih still gone
          exact ⟨met, .evict coldest earlier, turn⟩
        · exact absurd still gone

/-- Evicting a run never takes more off the bytes than off those of the colder runs. -/
theorem colder_bytes_evicts (epoch : Int) (evicts : Evicts owns before after)
    (hers : before.owned = owns) :
    after.bytes - after.colderBytes epoch ≤ before.bytes - before.colderBytes epoch := by
  induction evicts with
  | done => exact Int.le_refl _
  | @evict pool after address entry coldest _ ih =>
    have later := ih hers
    rw [← hers] at coldest
    have total := colder_bytes_evict epoch coldest
    have part : pool.colderWeight epoch entry ≤ entry.run.bytes := by
      unfold colderWeight
      split_ifs <;> omega
    change _ ≤ pool.bytes + -(entry.run.bytes : Int) - _ at later
    omega

theorem charge_turn (env : Env U) (delta : Int) (found : pool.heap[address]? = some entry)
    (gone : (pool.charge env delta).heap[address]? ≠ some entry) :
    0 < pool.limit ∧
      pool.limit < pool.bytes + delta - pool.colderBytes (pool.effEpoch entry) ∧
      ∃ met, Evicts pool.owned (pool.count delta) met ∧ pool.limit < met.bytes ∧
        met.Coldest pool.owned address entry ∧ Evicts pool.owned met (pool.charge env delta) := by
  by_cases unbounded : pool.limit ≤ 0
  · have free : pool.charge env delta = pool.count delta := if_pos unbounded
    rw [free] at gone
    exact absurd found gone
  · have passes : pool.charge env delta = chargeLoop env pool.heap.length (pool.count delta) :=
      if_neg unbounded
    rw [passes] at gone ⊢
    obtain ⟨met, earlier, full, coldest, later⟩ :=
      @charge_loop_turn _ (pool.count delta) _ _ env _ found gone
    obtain ⟨limit, recency, owned⟩ := earlier.invariant
      (fun other => other.limit = pool.limit ∧ other.recency = pool.recency ∧
        other.owned = pool.owned) (fun _ _ _ same _ _ _ => same) ⟨rfl, rfl, rfl⟩
    have epoch : met.effEpoch entry = pool.effEpoch entry := by
      unfold effEpoch
      rw [recency]
    have least : met.colderBytes (pool.effEpoch entry) = 0 := by
      rw [← epoch]
      apply colder_bytes_least
      rw [owned]
      exact coldest.least
    have bound := colder_bytes_evicts (pool.effEpoch entry) earlier rfl
    change _ ≤ pool.bytes + delta - pool.colderBytes (pool.effEpoch entry) at bound
    exact ⟨Int.not_le.mp unbounded, by omega, met, earlier, by omega, coldest, later⟩

end Pool

/-! ## Requests and charges -/

/-- A pool, the number of the current request, and the last request that asked for the
run at each address. -/
structure Moment (U : Type) where
  pool : Pool U
  asked : Nat → Nat
  now : Nat

def Moment.ask (moment : Moment U) (address : Nat) : Nat → Nat :=
  fun other => if other = address then moment.now else moment.asked other

theorem Moment.ask_self (moment : Moment U) (address : Nat) :
    moment.ask address address = moment.now := if_pos rfl

theorem Moment.ask_other (moment : Moment U) {other : Nat} (apart : other ≠ address) :
    moment.ask address other = moment.asked other := if_neg apart

/-- A charge that is about to be made for a run. `again` is a hollow run that was filled. -/
structure Charging (U : Type) where
  moment : Moment U
  delta : Int
  address : Nat
  again : Bool

def Moment.facing (moment : Moment U) (pool : Pool U) (delta : Int) (address : Nat)
    (again : Bool) : Charging U :=
  ⟨{ moment with pool := pool, asked := moment.ask address }, delta, address, again⟩

def Charging.charged (env : Env U) (charging : Charging U) : Pool U :=
  charging.moment.pool.charge env charging.delta

/-- The charge is made, and its caller sets the epoch of a run that was filled again. -/
def Charging.settled (env : Env U) (charging : Charging U) : Moment U :=
  let bumped := (charging.charged env).bump
  { charging.moment with
    pool := if charging.again then
        bumped.update charging.address fun run => { run with epoch := bumped.epoch }
      else charging.charged env }

def Pool.newRun (env : Env U) (pool : Pool U) (cache : Nat) (coord : Coord) (units : List U) :
    Run U :=
  ⟨coord, units, env.weigh cache units, pool.epoch + 1, false, true⟩

def Run.refilled (env : Env U) (cache : Nat) (units : List U) (run : Run U) : Run U :=
  { run with units := units, bytes := env.weigh cache units, resident := true }

/-- The charges of `Put`, `materializeLocked` and `materializeRunLocked`. -/
inductive Makes (env : Env U) (moment : Moment U) : Charging U → Prop where
  | insert (cache : Nat) (coord : Coord) (units : List U)
      (opened : moment.pool.owned cache = true) :
      Makes env moment (moment.facing
        (moment.pool.bump.insert env cache (moment.pool.newRun env cache coord units))
        (env.weigh cache units) moment.pool.heap.length false)
  | replace {address : Nat} {entry : Entry U} (units : List U)
      (found : moment.pool.heap[address]? = some entry) (held : entry.held = true) :
      Makes env moment (moment.facing
        (moment.pool.bump.update address fun _ =>
          moment.pool.newRun env entry.cache entry.run.coord units)
        (env.weigh entry.cache units - Pool.runBytes entry.run) address false)
  | refill {address : Nat} {entry : Entry U} (units : List U)
      (found : moment.pool.heap[address]? = some entry) (held : entry.held = true)
      (hollow : entry.run.resident = false) :
      Makes env moment (moment.facing
        (moment.pool.update address (Run.refilled env entry.cache units))
        (env.weigh entry.cache units) address true)

/-- One step of a request. -/
inductive Asks (env : Env U) : Moment U → Moment U → Prop where
  | missed (moment : Moment U) : Asks env moment { moment with pool := moment.pool.tick }
  | touched (moment : Moment U) (address : Nat) :
      Asks env moment { moment with pool := moment.pool.touch address, asked := moment.ask address }
  | charged {moment : Moment U} {charging : Charging U} (makes : Makes env moment charging) :
      Asks env moment (charging.settled env)

/-- What a request has come to, from the moment it arrives. -/
def Requested (env : Env U) (first : Moment U) : Moment U → Prop :=
  Relation.ReflTransGen (Asks env) { first with now := first.now + 1 }

def Serves (env : Env U) (first last : Moment U) (op : Op U) : Prop :=
  last.pool = first.pool.apply env op ∧
    match op with
    | .put .. | .range .. => Requested env first last
    | _ => last.asked = first.asked ∧ last.now = first.now

/-- The epochs of some runs against the requests for them. -/
structure Clocked (pool : Pool U) (asked : Nat → Nat) (now : Nat) (old : Nat → Prop) : Prop where
  calm : pool.recency = fun _ _ => none
  unpinned : ∀ (address : Nat) (entry : Entry U), pool.heap[address]? = some entry →
    entry.run.pinned = false
  past : ∀ (address : Nat) (entry : Entry U), pool.heap[address]? = some entry →
    entry.run.epoch ≤ pool.epoch
  asks : ∀ address, asked address ≤ now
  order : ∀ (early late : Nat) (entry other : Entry U), old early →
    pool.heap[early]? = some entry → pool.heap[late]? = some other →
      entry.run.epoch < other.run.epoch → asked early ≤ asked late

structure Timely (moment : Moment U) : Prop where
  metered : moment.pool.Metered
  clocked : Clocked moment.pool moment.asked moment.now fun _ => True

/-- A charge is due: what it is for is resident and asked for now, and newer than all other
runs unless it was there before. -/
structure Due (charging : Charging U) : Prop where
  metered : (charging.moment.pool.count charging.delta).Metered
  clocked : Clocked charging.moment.pool charging.moment.asked charging.moment.now
    fun early => charging.again = true → early ≠ charging.address
  current : charging.moment.asked charging.address = charging.moment.now
  newest : charging.again = false → ∀ (other : Nat) (entry entry' : Entry U),
    other ≠ charging.address → charging.moment.pool.heap[charging.address]? = some entry →
      charging.moment.pool.heap[other]? = some entry' → entry'.run.epoch < entry.run.epoch

section Steps

variable {moment next : Moment U} {charging : Charging U} {asked : Nat → Nat} {now : Nat}
  {old : Nat → Prop}

/-- The run keeps the marks that an eviction goes by. -/
def Kept (pool : Pool U) (address : Nat) (entry : Entry U) : Prop :=
  ∃ was, pool.heap[address]? = some was ∧ entry.run.epoch = was.run.epoch ∧
    entry.run.pinned = was.run.pinned

theorem kept_update (change : Run U → Run U)
    (same : ∀ run, (change run).epoch = run.epoch ∧ (change run).pinned = run.pinned)
    {other : Nat} (found : (pool.update address change).heap[other]? = some entry) :
    Kept pool other entry := by
  rw [Pool.update_entry] at found
  obtain ⟨was, there, rfl⟩ := Option.map_eq_some_iff.mp found
  refine ⟨was, there, ?_⟩
  split_ifs
  · exact same was.run
  · exact ⟨rfl, rfl⟩

theorem kept_other {change : Run U → Run U} {other : Nat} (apart : other ≠ address)
    (found : (pool.update address change).heap[other]? = some entry) : Kept pool other entry := by
  rw [Pool.update_entry_other _ (Ne.symm apart)] at found
  exact ⟨entry, found, rfl, rfl⟩

theorem Clocked.eff_epoch (clocked : Clocked pool asked now old) (entry : Entry U) :
    pool.effEpoch entry = entry.run.epoch := by
  unfold Pool.effEpoch
  rw [clocked.calm]

theorem Clocked.keep (clocked : Clocked before asked now old)
    (calm : after.recency = before.recency) (later : before.epoch ≤ after.epoch)
    (kept : ∀ (address : Nat) (entry : Entry U), after.heap[address]? = some entry →
      Kept before address entry) : Clocked after asked now old := by
  refine ⟨calm.trans clocked.calm, ?_, ?_, clocked.asks, ?_⟩
  · intro address entry found
    obtain ⟨was, there, _, pinned⟩ := kept address entry found
    rw [pinned]
    exact clocked.unpinned address was there
  · intro address entry found
    obtain ⟨was, there, epoch, _⟩ := kept address entry found
    rw [epoch]
    exact Int.le_trans (clocked.past address was there) later
  · intro early late entry other held found found' colder
    obtain ⟨was, there, epoch, _⟩ := kept early entry found
    obtain ⟨was', there', epoch', _⟩ := kept late other found'
    rw [epoch, epoch'] at colder
    exact clocked.order early late was was' held there there' colder

theorem Clocked.same_heap (clocked : Clocked before asked now old)
    (calm : after.recency = before.recency) (later : before.epoch ≤ after.epoch)
    (heap : after.heap = before.heap) : Clocked after asked now old := by
  apply clocked.keep calm later
  intro address entry found
  exact ⟨entry, heap ▸ found, rfl, rfl⟩

theorem Clocked.evict (clocked : Clocked pool asked now old) (address bytes : Nat) :
    Clocked (pool.evict address bytes) asked now old := by
  refine clocked.keep ?_ ?_ ?_
  · rfl
  · exact Int.le_refl _
  · intro other entry found
    exact kept_update Run.hollow (fun _ => ⟨rfl, rfl⟩) found

theorem Clocked.evicts (clocked : Clocked before asked now old)
    (evicts : Evicts owns before after) : Clocked after asked now old :=
  evicts.invariant (Clocked · asked now old)
    (fun _ address _ clocked _ _ _ => clocked.evict address _) clocked

/-- A run that is asked for now gets the epoch of the pool. -/
theorem Clocked.stamp {asked' : Nat → Nat} (clocked : Clocked before asked now old)
    (calm : after.recency = before.recency) (later : before.epoch ≤ after.epoch)
    (own : asked' address = now) (others : ∀ other ≠ address, asked' other = asked other)
    (beside : ∀ (other : Nat) (entry : Entry U), other ≠ address →
      after.heap[other]? = some entry → old other ∧ Kept before other entry)
    (here : ∀ entry, after.heap[address]? = some entry →
      entry.run.epoch = after.epoch ∧ entry.run.pinned = false) :
    Clocked after asked' now fun _ => True := by
  have marks : ∀ (place : Nat) (entry : Entry U), after.heap[place]? = some entry →
      entry.run.epoch ≤ after.epoch ∧ entry.run.pinned = false := by
    intro place entry found
    by_cases same : place = address
    · obtain ⟨epoch, loose⟩ := here entry (same ▸ found)
      exact ⟨Int.le_of_eq epoch, loose⟩
    · obtain ⟨_, was, there, epoch, pinned⟩ := beside place entry same found
      rw [epoch, pinned]
      exact ⟨Int.le_trans (clocked.past place was there) later, clocked.unpinned place was there⟩
  have asks : ∀ place, asked' place ≤ now := by
    intro place
    by_cases same : place = address
    · exact Nat.le_of_eq (same ▸ own)
    · rw [others place same]
      exact clocked.asks place
  refine ⟨calm.trans clocked.calm, fun place entry found => (marks place entry found).2,
    fun place entry found => (marks place entry found).1, asks, ?_⟩
  intro early late entry other _ found found' colder
  by_cases last : late = address
  · rw [last, own]
    exact asks early
  · have first : early ≠ address := by
      intro same
      have top := (here entry (same ▸ found)).1
      have bound := (marks late other found').1
      omega
    rw [others early first, others late last]
    obtain ⟨held, was, there, epoch, _⟩ := beside early entry first found
    obtain ⟨_, was', there', epoch', _⟩ := beside late other last found'
    rw [epoch, epoch'] at colder
    exact clocked.order early late was was' held there there' colder

/-- A run that is new in the pool has the highest epoch. -/
theorem Timely.due_new (timely : Timely moment) {delta : Int}
    (metered : (pool.count delta).Metered)
    (calm : pool.recency = moment.pool.recency) (epoch : pool.epoch = moment.pool.epoch + 1)
    (beside : ∀ (other : Nat) (entry : Entry U), other ≠ address →
      pool.heap[other]? = some entry → moment.pool.heap[other]? = some entry)
    (found : pool.heap[address]? = some entry) (unpinned : entry.run.pinned = false)
    (stamped : entry.run.epoch = pool.epoch) : Due (moment.facing pool delta address false) := by
  have clocked : Clocked pool (moment.ask address) moment.now fun _ => True := by
    apply timely.clocked.stamp calm (by omega) (moment.ask_self address)
      fun _ => moment.ask_other
    · intro other kept apart there
      exact ⟨trivial, kept, beside other kept apart there, rfl, rfl⟩
    · intro kept there
      cases found.symm.trans there
      exact ⟨stamped, unpinned⟩
  refine ⟨metered, ⟨clocked.calm, clocked.unpinned, clocked.past, clocked.asks, ?_⟩, if_pos rfl, ?_⟩
  · intro early late kept other _
    exact clocked.order early late kept other trivial
  · intro _ other first kept apart there there'
    cases found.symm.trans there
    have past := timely.clocked.past other kept (beside other kept apart there')
    omega

theorem Timely.due (timely : Timely moment) (makes : Makes env moment charging) :
    Due charging := by
  obtain ⟨metered, clocked⟩ := id timely
  cases makes with
  | insert cache coord units opened =>
    have counted := metered.bump.insert env opened
      (show (moment.pool.newRun env cache coord units).resident = true from rfl)
    refine timely.due_new counted rfl rfl ?_
      (Pool.entry_inserted env moment.pool.bump cache _) rfl rfl
    intro other entry apart found
    change (moment.pool.heap ++ [_])[other]? = some entry at found
    have bound := (List.getElem?_eq_some_iff.mp found).1
    rw [length_append, length_singleton] at bound
    rwa [getElem?_append_left (by omega)] at found
  | @replace address entry units found held =>
    have counted := metered.bump.change found held (fun _ =>
      moment.pool.newRun env entry.cache entry.run.coord units) rfl rfl
    refine timely.due_new counted rfl rfl ?_ (Pool.update_entry_same _ found) rfl rfl
    intro other kept apart there
    rwa [Pool.update_entry_other _ (Ne.symm apart)] at there
  | @refill address entry units found held hollow =>
    -- The run has its old epoch, so nothing is known of the runs with later ones.
    have clock : Clocked (moment.pool.update address (Run.refilled env entry.cache units))
        moment.asked moment.now fun _ => True :=
      Clocked.keep clocked rfl (Int.le_refl _) fun _ _ found =>
        kept_update (Run.refilled env entry.cache units) (fun _ => ⟨rfl, rfl⟩) found
    have asks : ∀ other, moment.ask address other ≤ moment.now := by
      intro other
      unfold Moment.ask
      split_ifs
      · exact Nat.le_refl _
      · exact clocked.asks other
    refine ⟨metered.refill env units found held hollow,
      ⟨clock.calm, clock.unpinned, clock.past, asks, ?_⟩, moment.ask_self address, nofun⟩
    intro early late first other apart there there' colder
    change moment.ask address early ≤ moment.ask address late
    by_cases last : late = address
    · rw [last, moment.ask_self]
      exact asks early
    · rw [moment.ask_other (show early ≠ address from apart rfl), moment.ask_other last]
      exact clock.order early late first other trivial there there' colder

theorem stamped_entry {epoch : Int} (clocked : Clocked pool asked now old)
    (found : (pool.update address fun run => { run with epoch := epoch }).heap[address]? =
      some entry) : entry.run.epoch = epoch ∧ entry.run.pinned = false := by
  rw [Pool.update_entry] at found
  obtain ⟨was, there, rfl⟩ := Option.map_eq_some_iff.mp found
  rw [if_pos rfl]
  exact ⟨rfl, clocked.unpinned address was there⟩

theorem Due.evicted (due : Due charging)
    (evicts : Evicts owns (charging.moment.pool.count charging.delta) after) :
    Clocked after charging.moment.asked charging.moment.now
      fun early => charging.again = true → early ≠ charging.address := by
  apply Clocked.evicts _ evicts
  exact due.clocked.same_heap rfl (Int.le_refl _) rfl

theorem Due.settled (due : Due charging) (env : Env U) : Timely (charging.settled env) := by
  have evicts := charging.moment.pool.charge_evicts env charging.delta
  have metered : (charging.charged env).Metered := Pool.charge_metered env due.metered
  have clocked : Clocked (charging.charged env) _ _ _ := due.evicted evicts
  unfold Charging.settled
  cases again : charging.again with
  | false =>
    refine ⟨metered, clocked.calm, clocked.unpinned, clocked.past, clocked.asks, ?_⟩
    intro early late entry other _
    apply clocked.order
    rw [again]
    exact nofun
  | true =>
    dsimp only
    rw [if_pos rfl]
    refine ⟨metered.bump.stamp charging.address _, ?_⟩
    have bumped : Clocked (charging.charged env).bump charging.moment.asked charging.moment.now
        fun early => charging.again = true → early ≠ charging.address :=
      clocked.same_heap rfl (Int.le_of_lt (Int.lt_succ _)) rfl
    refine bumped.stamp ?_ ?_ due.current (fun _ _ => rfl) ?_ ?_
    · rfl
    · exact Int.le_refl _
    · intro other entry apart found
      exact ⟨fun _ => apart, kept_other apart found⟩
    · intro entry found
      exact stamped_entry bumped found

theorem Timely.asks (timely : Timely moment) (step : Asks env moment next) : Timely next := by
  obtain ⟨metered, clocked⟩ := id timely
  cases step with
  | missed => exact ⟨metered.tick, clocked.same_heap rfl (Int.le_refl _) rfl⟩
  | touched address =>
    refine ⟨metered.stamp address _, clocked.stamp rfl (Int.le_refl _)
      (moment.ask_self address) (fun _ => moment.ask_other) ?_ ?_⟩
    · intro other entry apart found
      exact ⟨trivial, kept_other apart found⟩
    · intro entry found
      exact stamped_entry clocked found
  | charged makes => exact (timely.due makes).settled env

theorem Timely.requested (timely : Timely moment) (requested : Requested env moment next) :
    Timely next := by
  have start : Timely { moment with now := moment.now + 1 } :=
    ⟨timely.metered, timely.clocked.calm, timely.clocked.unpinned, timely.clocked.past,
      fun address => Nat.le_succ_of_le (timely.clocked.asks address), timely.clocked.order⟩
  induction requested with
  | refl => exact start
  | tail _ step ih => exact ih.asks step

/-- No pins, no drops, no reads reported from below. -/
def Op.Plain : Op U → Prop
  | .put _ _ _ pinned => pinned = false
  | .drop .. | .stamp _ => False
  | _ => True

instance (op : Op U) : Decidable op.Plain :=
  match op with
  | .put .. => inferInstanceAs (Decidable (_ = _))
  | .drop .. | .stamp _ => .isFalse id
  | .new | .range .. | .close _ | .trimIdle _ | .setLimit _ => .isTrue trivial

theorem Timely.serves {op : Op U} (timely : Timely moment) (opened : moment.pool.OnOpen op)
    (plain : op.Plain) (serves : Serves env moment next op) : Timely next := by
  obtain ⟨last, asked, now⟩ := next
  obtain ⟨rfl, steps⟩ := serves
  have metered := timely.metered.apply env op opened
  have clocked := timely.clocked
  cases op with
  | put => exact timely.requested steps
  | range => exact timely.requested steps
  | drop => exact absurd plain id
  | stamp => exact absurd plain id
  | new =>
    obtain ⟨rfl, rfl⟩ := steps
    exact ⟨metered, clocked.same_heap rfl (Int.le_refl _) rfl⟩
  | close cache =>
    obtain ⟨rfl, rfl⟩ := steps
    refine ⟨metered, clocked.keep rfl (Int.le_refl _) ?_⟩
    intro address entry found
    change (moment.pool.heap.map _)[address]? = some entry at found
    rw [getElem?_map] at found
    obtain ⟨was, there, rfl⟩ := Option.map_eq_some_iff.mp found
    refine ⟨was, there, ?_⟩
    split_ifs <;> exact ⟨rfl, rfl⟩
  | trimIdle keep =>
    obtain ⟨rfl, rfl⟩ := steps
    refine ⟨metered, moment.pool.trim_idle_invariant env keep
      (Clocked · moment.asked moment.now fun _ => True) ?_ ?_⟩
    · intro pool address entry clocked _ _
      exact clocked.evict address entry.run.bytes
    · exact clocked.same_heap rfl (Int.le_of_lt (Int.lt_succ _)) rfl
  | setLimit limit =>
    obtain ⟨rfl, rfl⟩ := steps
    exact ⟨metered, clocked.same_heap rfl (Int.le_refl _) rfl⟩

end Steps

/-! ## Evictions by recency -/

/-- A charge under which the epochs decide as the requests do. If it has to evict, runs
with one epoch were last asked for by one request, and a run that was filled again is not
needed to come down to the limit. -/
def Charging.Fair (charging : Charging U) : Prop :=
  let pool := charging.moment.pool
  0 < pool.limit → pool.limit < pool.bytes + charging.delta →
    (∀ (early late : Nat) (entry other : Entry U), pool.heap[early]? = some entry →
      entry.evictable = true → pool.heap[late]? = some other → other.evictable = true →
        entry.run.epoch = other.run.epoch →
          charging.moment.asked early = charging.moment.asked late) ∧
    (charging.again = true → ∀ entry, pool.heap[charging.address]? = some entry →
      pool.bytes + charging.delta - pool.colderBytes entry.run.epoch ≤ pool.limit)

def Entry.Live (entry : Entry U) : Prop := entry.held = true ∧ entry.run.resident = true

/-- The run the charge is for stays if its bytes fit. -/
def Charging.Stays (env : Env U) (charging : Charging U) : Prop :=
  ∀ entry, charging.moment.pool.heap[charging.address]? = some entry →
    charging.moment.pool.limit ≤ 0 ∨ (entry.run.bytes : Int) ≤ charging.moment.pool.limit →
      (charging.charged env).heap[charging.address]? = some entry

section Evictions

variable {charging : Charging U}

theorem evictable_live (evictable : entry.evictable = true) : entry.Live := by
  unfold Entry.evictable at evictable
  rw [Bool.and_eq_true, Bool.and_eq_true] at evictable
  exact evictable.1

/-- At the turn of a run that is new nothing else is resident. -/
theorem Due.others_hollow {met : Pool U} (due : Due charging) (new : charging.again = false)
    (found : charging.moment.pool.heap[charging.address]? = some entry)
    (earlier : Evicts owns (charging.moment.pool.count charging.delta) met)
    (coldest : met.Coldest met.owned charging.address entry) :
    (met.update charging.address Run.hollow).residentBytes = 0 := by
  have clock := due.evicted earlier
  apply sum_eq_zero
  intro weight member
  obtain ⟨other, inside, rfl⟩ := mem_map.mp member
  obtain ⟨place, there⟩ := mem_iff_getElem?.mp inside
  apply if_neg
  rw [Bool.and_eq_true, Bool.and_eq_true]
  rintro ⟨⟨live, hers⟩, resides⟩
  by_cases here : place = charging.address
  · subst here
    rw [Pool.update_entry_same _ coldest.found] at there
    cases there
    cases resides
  · rw [Pool.update_entry_other _ (Ne.symm here)] at there
    have evictable := Pool.evictable_of live resides
      (Bool.eq_false_iff.mp (clock.unpinned place other there))
    have least := coldest.least place other there hers evictable
    rw [clock.eff_epoch, clock.eff_epoch] at least
    have newer := due.newest new place entry other here found
      ((Pool.Shrinks.evicts earlier).left place other there evictable)
    omega

theorem Due.stays (due : Due charging) (fair : charging.Fair) : charging.Stays env := by
  intro entry found fits
  by_contra gone
  obtain ⟨bounded, excess, met, earlier, full, coldest, _⟩ :=
    Pool.charge_turn env charging.delta found gone
  rw [due.clocked.eff_epoch] at excess
  have weight := Int.natCast_nonneg (charging.moment.pool.colderBytes entry.run.epoch)
  obtain ⟨_, spares⟩ := fair bounded (by omega)
  cases again : charging.again with
  | true =>
    have enough := spares again entry found
    omega
  | false =>
    -- All the bytes that are left are its own.
    obtain ⟨metered, owned⟩ := earlier.invariant
      (fun other => other.Metered ∧ other.owned = charging.moment.pool.owned)
      (fun _ _ _ same found _ evictable => ⟨same.1.evict found evictable, same.2⟩)
      ⟨due.metered, rfl⟩
    rw [← owned] at coldest
    obtain ⟨held, resident⟩ := evictable_live coldest.evictable
    have others := due.others_hollow again found earlier coldest
    have total := Pool.resident_bytes_update Run.hollow coldest.found held coldest.owned
    have own : Pool.runBytes entry.run = entry.run.bytes := if_pos resident
    have nothing : Pool.runBytes entry.run.hollow = 0 := rfl
    have meter := metered.meter
    omega

end Evictions

/-! ## Histories -/

def Moment.fresh (limit : Int) : Moment U := ⟨Pool.fresh limit, fun _ => 0, 0⟩

end Figwal.Forest
