import Figwal.Lib.Ledger
import Figwal.Forest.Cache

/-!
# What an eviction can do

Both passes of the budget, the one in `charge` and the sweep of `TrimIdle`, hollow one
of the coldest runs at a time and take its bytes off the meter. `Evicts` is a sequence
of such steps. A read fills gaps, fills hollow runs again and touches runs, each fill
followed by a charge: that is `ReadStep`.
-/

namespace Figwal.Forest

open Figwal.Lib List

set_option autoImplicit false

variable {U : Type} {env : Env U} {pool : Pool U} {owns : Nat → Bool} {address : Nat}

namespace Pool

variable {epoch : Int}

theorem update_entry (change : Run U → Run U) (other : Nat) :
    (pool.update address change).heap[other]? =
      pool.heap[other]?.map fun entry =>
        if address = other then { entry with run := change entry.run } else entry := by
  unfold update
  rw [getElem?_modify]
  rfl

theorem update_entry_other {other : Nat} (change : Run U → Run U) (apart : address ≠ other) :
    (pool.update address change).heap[other]? = pool.heap[other]? := by
  rw [update_entry]
  simp only [if_neg apart]
  exact Option.map_id'

theorem update_entry_same {entry : Entry U} (change : Run U → Run U)
    (found : pool.heap[address]? = some entry) :
    (pool.update address change).heap[address]? = some { entry with run := change entry.run } := by
  rw [update_entry, found, Option.map_some, if_pos rfl]

theorem mem_evictables :
    address ∈ pool.evictables owns ↔
      ∃ entry, pool.heap[address]? = some entry ∧ owns entry.cache = true ∧
        entry.evictable = true := by
  unfold evictables
  rw [mem_filter, mem_range, Option.any_eq_true]
  constructor
  · intro ⟨_, entry, found, both⟩
    exact ⟨entry, found, Bool.and_eq_true _ _ ▸ both⟩
  · intro ⟨entry, found, owned, evictable⟩
    refine ⟨(List.getElem?_eq_some_iff.mp found).1, entry, found, ?_⟩
    rw [owned, evictable]
    rfl

theorem coldest_none : pool.coldest owns = none ↔ pool.evictables owns = [] := by
  unfold coldest
  rw [min?_eq_none_iff, filterMap_eq_nil_iff]
  constructor
  · intro unmapped
    apply eq_nil_iff_forall_not_mem.mpr
    intro address member
    obtain ⟨entry, found, _⟩ := mem_evictables.mp member
    have missing := unmapped address member
    rw [found] at missing
    cases missing
  · intro empty address member
    rw [empty] at member
    cases member

theorem coldest_some (cold : pool.coldest owns = some epoch) :
    (∃ address ∈ pool.evictables owns, ∃ entry,
      pool.heap[address]? = some entry ∧ pool.effEpoch entry = epoch) ∧
    ∀ address entry, address ∈ pool.evictables owns → pool.heap[address]? = some entry →
      epoch ≤ pool.effEpoch entry := by
  obtain ⟨member, least⟩ := min?_eq_some_iff.mp cold
  obtain ⟨address, inside, mapped⟩ := mem_filterMap.mp member
  obtain ⟨entry, found, same⟩ := Option.map_eq_some_iff.mp mapped
  refine ⟨⟨address, inside, entry, found, same⟩, ?_⟩
  intro other entry member found
  apply least
  apply mem_filterMap.mpr
  exact ⟨other, member, by rw [found]; rfl⟩

structure Coldest (pool : Pool U) (owns : Nat → Bool) (address : Nat) (entry : Entry U) :
    Prop where
  found : pool.heap[address]? = some entry
  owned : owns entry.cache = true
  evictable : entry.evictable = true
  least : ∀ (other : Nat) (entry' : Entry U), pool.heap[other]? = some entry' →
    owns entry'.cache = true → entry'.evictable = true → pool.effEpoch entry ≤ pool.effEpoch entry'
  coldest : pool.coldest owns = some (pool.effEpoch entry)

theorem victim_some (env : Env U) (cold : pool.coldest owns = some epoch) :
    ∃ address entry, pool.victim env owns = some address ∧ pool.Coldest owns address entry := by
  obtain ⟨⟨witness, inside, held, stored, same⟩, least⟩ := coldest_some cold
  unfold victim
  rw [cold]
  dsimp only
  generalize tiedIs : ((pool.evictables owns).filter fun address =>
    pool.heap[address]?.any fun entry => pool.effEpoch entry == epoch) = tied
  have filled : witness ∈ tied := by
    rw [← tiedIs]
    exact mem_filter.mpr ⟨inside, by rw [stored]; simpa using same⟩
  have bound : env.choose pool.ticks % tied.length < tied.length :=
    Nat.mod_lt _ (length_pos_of_mem filled)
  generalize chosenIs : tied.get ⟨_, bound⟩ = chosen
  have inTied : chosen ∈ tied := chosenIs ▸ get_mem tied _
  rw [← tiedIs, mem_filter] at inTied
  obtain ⟨member, tie⟩ := inTied
  obtain ⟨entry, found, owned, evictable⟩ := mem_evictables.mp member
  rw [found, Option.any_some, beq_iff_eq] at tie
  refine ⟨chosen, entry, ?_, found, owned, evictable, ?_, ?_⟩
  · rw [← chosenIs]
    exact getElem?_eq_getElem bound
  · intro other entry' found' owned' evictable'
    rw [tie]
    exact least other entry' (mem_evictables.mpr ⟨entry', found', owned', evictable'⟩) found'
  · rw [tie, cold]

def evict (pool : Pool U) (address bytes : Nat) : Pool U :=
  (pool.update address Run.hollow).tick.count (-bytes)

theorem evict_coldest_some (env : Env U) (cold : pool.coldest owns = some epoch) :
    ∃ address entry, pool.Coldest owns address entry ∧
      pool.evictColdest env owns =
        (entry.run.bytes, (pool.update address Run.hollow).tick) := by
  obtain ⟨address, entry, chosen, coldest⟩ := victim_some env cold
  refine ⟨address, entry, coldest, ?_⟩
  unfold evictColdest
  rw [chosen]
  dsimp only
  rw [coldest.found]
  rfl

end Pool

/-- A sequence of evictions from caches that satisfy `owns`. -/
inductive Evicts (owns : Nat → Bool) : Pool U → Pool U → Prop where
  | done (pool : Pool U) : Evicts owns pool pool
  | evict {pool after : Pool U} {address : Nat} {entry : Entry U}
      (coldest : pool.Coldest owns address entry)
      (later : Evicts owns (pool.evict address entry.run.bytes) after) : Evicts owns pool after

namespace Pool

theorem evict_nothing (pool : Pool U) (address : Nat) :
    (pool.update address Run.hollow).tick = pool.evict address 0 := by
  unfold evict count
  simp [tick, update]

theorem charge_pass (env : Env U) (fuel : Nat) (pool : Pool U) :
    ((pool.bytes ≤ pool.limit ∨ pool.coldest pool.owned = none) ∧
      chargeLoop env (fuel + 1) pool = pool) ∨
    ∃ address entry, pool.limit < pool.bytes ∧ pool.Coldest pool.owned address entry ∧
      chargeLoop env (fuel + 1) pool =
        if 0 < entry.run.bytes then chargeLoop env fuel (pool.evict address entry.run.bytes)
        else pool.evict address entry.run.bytes := by
  rw [chargeLoop]
  by_cases fits : pool.bytes ≤ pool.limit
  · exact .inl ⟨.inl fits, if_pos fits⟩
  · rw [if_neg fits]
    cases cold : pool.coldest pool.owned with
    | none => exact .inl ⟨.inr rfl, if_pos rfl⟩
    | some epoch =>
      obtain ⟨address, entry, coldest, evicted⟩ := evict_coldest_some env cold
      refine .inr ⟨address, entry, Int.not_le.mp fits, coldest, ?_⟩
      rw [evicted, Option.isNone_some, if_neg Bool.false_ne_true]
      by_cases frees : 0 < entry.run.bytes
      · rw [if_pos frees, if_pos frees]
        rfl
      · rw [if_neg frees, if_neg frees, Nat.eq_zero_of_not_pos frees]
        exact evict_nothing pool address

theorem charge_loop_evicts (env : Env U) (fuel : Nat) (pool : Pool U) :
    Evicts pool.owned pool (chargeLoop env fuel pool) := by
  induction fuel generalizing pool with
  | zero => exact .done pool
  | succ fuel ih =>
    rcases charge_pass env fuel pool with ⟨_, stays⟩ | ⟨address, entry, _, coldest, goes⟩
    · rw [stays]
      exact .done pool
    · rw [goes]
      apply Evicts.evict coldest
      split_ifs with frees
      · exact ih (pool.evict address entry.run.bytes)
      · exact .done _

theorem charge_evicts (env : Env U) (pool : Pool U) (delta : Int) :
    Evicts pool.owned (pool.count delta) (pool.charge env delta) := by
  unfold charge
  dsimp only
  split_ifs with unbounded
  · exact .done _
  · exact charge_loop_evicts env _ (pool.count delta)

theorem trim_pass (env : Env U) (cutoff : Int) (owner fuel : Nat) (swept : Swept U) :
    ((∀ epoch, swept.pool.coldest (· == owner) = some epoch → cutoff ≤ epoch) ∧
      trimOwner env cutoff owner (fuel + 1) swept = swept) ∨
    ∃ address entry, swept.pool.effEpoch entry < cutoff ∧
      swept.pool.Coldest (· == owner) address entry ∧
      trimOwner env cutoff owner (fuel + 1) swept =
        if 0 < entry.run.bytes then
          trimOwner env cutoff owner fuel
            ⟨swept.dropped + 1, swept.freed + entry.run.bytes,
              swept.pool.evict address entry.run.bytes⟩
        else { swept with pool := swept.pool.evict address entry.run.bytes } := by
  rw [trimOwner]
  cases cold : swept.pool.coldest (· == owner) with
  | none => exact .inl ⟨(fun _ none => nomatch none), if_pos rfl⟩
  | some epoch =>
    by_cases recent : cutoff ≤ epoch
    · refine .inl ⟨fun _ same => Option.some.inj same ▸ recent, if_pos ?_⟩
      exact decide_eq_true recent
    · obtain ⟨address, entry, coldest, evicted⟩ := evict_coldest_some env cold
      have same : swept.pool.effEpoch entry = epoch :=
        Option.some.inj (coldest.coldest.symm.trans cold)
      refine .inr ⟨address, entry, same ▸ Int.not_le.mp recent, coldest, ?_⟩
      rw [Option.all_some, decide_eq_false recent, if_neg Bool.false_ne_true, evicted]
      by_cases frees : 0 < entry.run.bytes
      · rw [if_pos frees, if_pos frees]
        rfl
      · rw [if_neg frees, if_neg frees, Nat.eq_zero_of_not_pos frees, evict_nothing]

theorem trim_owner_evicts (env : Env U) (cutoff : Int) (owner fuel : Nat) (swept : Swept U) :
    Evicts (· == owner) swept.pool (trimOwner env cutoff owner fuel swept).pool := by
  induction fuel generalizing swept with
  | zero => exact .done _
  | succ fuel ih =>
    rcases trim_pass env cutoff owner fuel swept with
      ⟨_, stays⟩ | ⟨address, entry, _, coldest, goes⟩
    · rw [stays]
      exact .done _
    · rw [goes]
      apply Evicts.evict coldest
      split_ifs with frees
      · exact ih ⟨_, _, swept.pool.evict address entry.run.bytes⟩
      · exact .done _

theorem hollow_not_evictable (entry : Entry U) :
    { entry with run := entry.run.hollow : Entry U }.evictable = false := by
  cases entry.held <;> rfl

/-- After an eviction what may be evicted was there before, at another address. -/
theorem evictable_of_evict {bytes place : Nat} {entry : Entry U}
    (evictable : entry.evictable = true)
    (found : (pool.evict address bytes).heap[place]? = some entry) :
    address ≠ place ∧ pool.heap[place]? = some entry := by
  change (pool.update address Run.hollow).heap[place]? = some entry at found
  by_cases same : address = place
  · subst same
    rw [update_entry] at found
    obtain ⟨old, _, rfl⟩ := Option.map_eq_some_iff.mp found
    rw [if_pos rfl, hollow_not_evictable] at evictable
    cases evictable
  · rw [update_entry_other _ same] at found
    exact ⟨same, found⟩

end Pool

theorem Evicts.invariant {before after : Pool U} (evicts : Evicts owns before after)
    (kept : Pool U → Prop)
    (step : ∀ pool address entry, kept pool → pool.heap[address]? = some entry →
      owns entry.cache = true → entry.evictable = true →
      kept (pool.evict address entry.run.bytes))
    (start : kept before) : kept after := by
  induction evicts with
  | done pool => exact start
  | evict coldest _ ih => exact ih (step _ _ _ start coldest.found coldest.owned coldest.evictable)

theorem Pool.trim_idle_invariant (env : Env U) (pool : Pool U) (keep : Int)
    (kept : Pool U → Prop)
    (step : ∀ pool address entry, kept pool → pool.heap[address]? = some entry →
      entry.evictable = true → kept (pool.evict address entry.run.bytes))
    (start : kept pool.bump) : kept (pool.trimIdle env keep).pool := by
  apply List.foldlRecOn (motive := fun swept : Swept U => kept swept.pool) pool.owners
  · exact start
  · intro swept held owner _
    exact (trim_owner_evicts env _ owner _ swept).invariant kept
      (fun pool address entry good found _ evictable => step pool address entry good found
        evictable)
      held

end Figwal.Forest
