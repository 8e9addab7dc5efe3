import Mathlib.Data.List.Basic
import Figwal.Lib.Runs

/-!
# The background flusher of a store

`Store.Append` buffers a record in a lineage and then marks the lineage dirty. A pass of
`syncDirty` takes the dirty set and flushes its lineages one by one while other calls go
on, and `Remove`, `Detach` and `Close` run passes of their own. A step is one critical
section, one append or one flush, and the order of steps is the scheduler's.

`Remove` clears the marks of the removed ids after the trunks are gone, and the counters
that ids are minted from are rebuilt with them, so that an id may be live again by then.
-/

namespace Figwal.Xwal.Flusher

open Figwal.Lib List

set_option autoImplicit false

variable {τ : Type}

/-- `tail` is the last main entry on disk and `pending` the number of buffered ones. `keys`
has the main entry that each buffered related record waits for. -/
structure Lineage where
  tail : Nat
  pending : Nat
  keys : List Nat

namespace Lineage

/-- Some buffered record may go to disk without running ahead of the main channel. -/
def Due (lineage : Lineage) : Prop :=
  0 < lineage.pending ∨ ∃ key ∈ lineage.keys, key ≤ lineage.tail

def append (lineage : Lineage) : Option Nat → Lineage
  | none => { lineage with pending := lineage.pending + 1 }
  | some key => { lineage with keys := lineage.keys ++ [key] }

/-- Some main entries and the related records not `kept` reach the disk. -/
def written (lineage : Lineage) (count : Nat) (kept : Nat → Bool) : Lineage where
  tail := lineage.tail + min count lineage.pending
  pending := lineage.pending - count
  keys := lineage.keys.filter kept

def syncCoherent (lineage : Lineage) : Lineage :=
  lineage.written lineage.pending fun key => lineage.tail + lineage.pending < key

theorem due_of_written {lineage : Lineage} {count : Nat} {kept : Nat → Bool}
    (due : (lineage.written count kept).Due) : lineage.Due := by
  rcases due with waits | ⟨key, inside, reached⟩
  · exact Or.inl (Nat.lt_of_lt_of_le waits (Nat.sub_le _ _))
  · by_cases below : key ≤ lineage.tail
    · exact Or.inr ⟨key, mem_of_mem_filter inside, below⟩
    · -- A key the flush made reachable waited for a main entry that was pending.
      dsimp only [written] at reached
      exact Or.inl (by omega)

theorem sync_coherent_not_due (lineage : Lineage) : ¬lineage.syncCoherent.Due := by
  simp [Due, syncCoherent, written]

end Lineage

/-- Where a call is: `Append` before and after the record is buffered, a pass with the
lineages it still has to flush, `Remove` before it purges. -/
inductive Job (τ : Type) where
  | appending (trunk : τ) (key : Option Nat)
  | marking (trunk : τ)
  | syncing (batch : List τ)
  | succeeded (trunk : τ) (batch : List τ)
  | vanished (trunk : τ) (batch : List τ)
  | failed (trunk : τ) (batch : List τ)
  | counting (trunk : τ) (batch : List τ)
  | purging (trunks : List τ)

/-- `refused` are the lineages in which an `Append` buffered its record and then returned
the error of the flush that a full buffer sets off. -/
structure Store (τ : Type) where
  live : τ → Bool
  lineage : τ → Lineage
  dirty : List τ
  lineageFails : τ → Nat
  jobs : Nat → Option (Job τ)
  refused : List τ

inductive Entry (τ : Type) where
  | append (trunk : τ) (key : Option Nat)
  | syncDirty
  | remove (trunks : List τ)

/-- What a failing inner call wrote before it failed. -/
abbrev Fault := Nat × (Nat → Bool)

/-- `spawn` makes a trunk, also one whose id was in use before. `flush` is every other way
to the disk: an eviction, a full buffer, `syncHot`. -/
inductive Step (τ : Type) where
  | enter (task : Nat) (entry : Entry τ)
  | next (task : Nat) (fault : Option Fault)
  | spawn (trunk : τ) (tail : Nat)
  | flush (trunk : τ) (count : Nat) (kept : Nat → Bool)

def storePoisonThreshold : Nat := 3

namespace Store

variable [DecidableEq τ]

def opened (live : τ → Bool) (tail : τ → Nat) : Store τ :=
  ⟨live, fun trunk => ⟨tail trunk, 0, []⟩, [], fun _ => 0, fun _ => none, []⟩

def setJob (store : Store τ) (task : Nat) (job : Option (Job τ)) : Store τ :=
  { store with jobs := fun key => if key = task then job else store.jobs key }

def setLineage (store : Store τ) (trunk : τ) (lineage : Lineage) : Store τ :=
  { store with lineage := fun key => if key = trunk then lineage else store.lineage key }

def setFails (store : Store τ) (trunk : τ) (count : Nat) : Store τ :=
  { store with lineageFails := fun key => if key = trunk then count else store.lineageFails key }

def markDirty (store : Store τ) (trunk : τ) : Store τ :=
  { store with dirty := store.dirty.insert trunk }

def purgeLineage (store : Store τ) (trunks : List τ) : Store τ :=
  { store with
    dirty := store.dirty.filter (· ∉ trunks)
    lineageFails := fun trunk => if trunk ∈ trunks then 0 else store.lineageFails trunk }

def advance (store : Store τ) (task : Nat) (fault : Option Fault) : Job τ → Store τ
  | .appending trunk key =>
    if store.live trunk && fault.isNone then
      (store.setLineage trunk ((store.lineage trunk).append key)).setJob task
        (some (.marking trunk))
    else store.setJob task none
  | .marking trunk =>
    if fault.isNone then (store.markDirty trunk).setJob task none
    else { store with refused := store.refused.insert trunk }.setJob task none
  | .syncing [] => store.setJob task none
  | .syncing (trunk :: batch) =>
    if store.live trunk then
      match fault with
      | none =>
        (store.setLineage trunk (store.lineage trunk).syncCoherent).setJob task
          (some (.succeeded trunk batch))
      | some (count, kept) =>
        (store.setLineage trunk ((store.lineage trunk).written count kept)).setJob task
          (some (.failed trunk batch))
    else store.setJob task (some (.vanished trunk batch))
  | .succeeded trunk batch => (store.setFails trunk 0).setJob task (some (.syncing batch))
  | .vanished trunk batch => (store.purgeLineage [trunk]).setJob task (some (.syncing batch))
  | .failed trunk batch => (store.markDirty trunk).setJob task (some (.counting trunk batch))
  | .counting trunk batch =>
    (store.setFails trunk (store.lineageFails trunk + 1)).setJob task (some (.syncing batch))
  | .purging trunks => (store.purgeLineage trunks).setJob task none

/-- A call up to the end of its first critical section. -/
def enter (store : Store τ) (task : Nat) : Entry τ → Store τ
  | .append trunk key =>
    if storePoisonThreshold ≤ store.lineageFails trunk then store
    else store.setJob task (some (.appending trunk key))
  | .syncDirty => { store with dirty := [] }.setJob task (some (.syncing store.dirty))
  | .remove trunks =>
    { store with live := fun trunk => store.live trunk && trunk ∉ trunks }.setJob task
      (some (.purging trunks))

/-- A new trunk buffers nothing, whatever an older one of its name left behind. -/
def spawn (store : Store τ) (trunk : τ) (tail : Nat) : Store τ :=
  { store with
    live := fun key => store.live key || key == trunk
    refused := store.refused.filter (· ≠ trunk) }.setLineage trunk ⟨tail, 0, []⟩

def step (store : Store τ) : Step τ → Store τ
  | .enter task entry => if (store.jobs task).isSome then store else store.enter task entry
  | .next task fault => (store.jobs task).elim store (store.advance task fault)
  | .spawn trunk tail => if store.live trunk then store else store.spawn trunk tail
  | .flush trunk count kept =>
    store.setLineage trunk ((store.lineage trunk).written count kept)

def after (live : τ → Bool) (tail : τ → Nat) (run : List (Step τ)) : Store τ :=
  run.foldl step (opened live tail)

end Store

/-!
## What every interleaving keeps
-/

/-- The lineages a call will flush or mark dirty before it returns. -/
def Job.owes : Job τ → List τ
  | .marking trunk => [trunk]
  | .syncing batch | .succeeded _ batch | .vanished _ batch | .counting _ batch => batch
  | .failed trunk batch => trunk :: batch
  | _ => []

def Job.buried : Job τ → List τ
  | .vanished trunk _ => [trunk]
  | .purging trunks => trunks
  | _ => []

/-- An id is not given out again while a call is on its way to clear its marks. -/
def Store.Fresh (store : Store τ) : Step τ → Prop
  | .spawn trunk _ => ∀ task, trunk ∉ (store.jobs task).elim [] Job.buried
  | _ => True

/-- A lineage with records that could be on disk is dirty, in the hands of a call that will
see to it, or one in which an append was refused. Only lineages that are gone are purged. -/
structure Covered (store : Store τ) : Prop where
  owed : ∀ trunk, store.live trunk = true → (store.lineage trunk).Due →
    trunk ∈ store.dirty ∨ trunk ∈ store.refused ∨
      ∃ task, trunk ∈ (store.jobs task).elim [] Job.owes
  buried : ∀ task, ∀ trunk ∈ (store.jobs task).elim [] Job.buried, store.live trunk = false

theorem Covered.move {before after : Store τ} (covered : Covered before) (task : Nat)
    (job : Option (Job τ)) (same : after.jobs = before.jobs)
    (live : ∀ trunk, after.live trunk = true → before.live trunk = true)
    (refused : before.refused ⊆ after.refused)
    (owed : ∀ trunk, after.live trunk = true → (after.lineage trunk).Due →
      trunk ∈ after.dirty ∨ trunk ∈ after.refused ∨ trunk ∈ job.elim [] Job.owes ∨
        (before.lineage trunk).Due ∧ trunk ∉ before.dirty ∧
          trunk ∉ (before.jobs task).elim [] Job.owes)
    (buried : ∀ trunk ∈ job.elim [] Job.buried, after.live trunk = false) :
    Covered (after.setJob task job) := by
  constructor
  · intro trunk alive due
    rcases owed trunk alive due with dirty | failed | mine | ⟨waited, clean, other⟩
    · exact Or.inl dirty
    · exact Or.inr (Or.inl failed)
    · exact Or.inr (Or.inr ⟨task, by simpa [Store.setJob] using mine⟩)
    · rcases covered.owed trunk (live trunk alive) waited with dirty | failed | ⟨holder, held⟩
      · exact absurd dirty clean
      · exact Or.inr (Or.inl (refused failed))
      · have apart : holder ≠ task := fun equal => other (equal ▸ held)
        exact Or.inr (Or.inr ⟨holder, by simpa [Store.setJob, apart, same] using held⟩)
  · intro holder trunk inside
    by_cases equal : holder = task
    · subst equal
      exact buried trunk (by simpa [Store.setJob] using inside)
    · have gone := covered.buried holder trunk (by simpa [Store.setJob, equal, same] using inside)
      exact Bool.eq_false_iff.mpr fun alive => by simp [live trunk alive] at gone

section Interleavings

variable [DecidableEq τ] {store : Store τ}

theorem Covered.advance (covered : Covered store) {task : Nat} {job : Job τ}
    (mine : store.jobs task = some job) (fault : Option Fault) :
    Covered (store.advance task fault job) := by
  have gone := covered.buried task
  simp only [mine, Option.elim_some] at gone
  cases job with
  | succeeded trunk batch | vanished trunk batch | failed trunk batch | counting trunk batch
  | purging trunks =>
    refine covered.move task _ rfl (fun _ => id) (fun _ => id) ?_ nofun
    grind [Store.markDirty, Store.setFails, Store.purgeLineage, Job.owes, Job.buried]
  | appending trunk key =>
    dsimp only [Store.advance]
    split_ifs <;>
      exact covered.move task _ rfl (fun _ => id) (fun _ => id)
        (by grind [Store.setLineage, Job.owes]) nofun
  | marking trunk =>
    dsimp only [Store.advance]
    split_ifs <;>
      exact covered.move task _ rfl (fun _ => id) (by grind [Store.markDirty])
        (by grind [Store.markDirty, Job.owes]) nofun
  | syncing batch =>
    cases batch with
    | nil => exact covered.move task _ rfl (fun _ => id) (fun _ => id) (by grind [Job.owes]) nofun
    | cons trunk batch =>
      dsimp only [Store.advance]
      split_ifs with alive
      · cases fault <;>
          exact covered.move task _ rfl (fun _ => id) (fun _ => id)
            (by grind [Store.setLineage, Job.owes, Lineage.sync_coherent_not_due]) nofun
      · exact covered.move task _ rfl (fun _ => id) (fun _ => id) (by grind [Job.owes])
          (by simpa [Job.buried] using alive)

theorem Covered.enter (covered : Covered store) {task : Nat} (idle : store.jobs task = none)
    (entry : Entry τ) : Covered (store.enter task entry) := by
  cases entry with
  | append trunk key =>
    dsimp only [Store.enter]
    split_ifs
    · exact covered
    · exact covered.move task _ rfl (fun _ => id) (fun _ => id) (by grind [Job.owes]) nofun
  | syncDirty =>
    exact covered.move task _ rfl (fun _ => id) (fun _ => id) (by grind [Job.owes]) nofun
  | remove trunks =>
    exact covered.move task _ rfl (by grind) (fun _ => id) (by grind [Job.owes])
      (by grind [Job.buried])

theorem Covered.spawn (covered : Covered store) {trunk : τ} (tail : Nat)
    (unburied : ∀ task, trunk ∉ (store.jobs task).elim [] Job.buried) :
    Covered (store.spawn trunk tail) := by
  constructor
  · intro other alive due
    by_cases same : other = trunk
    · simp [Store.spawn, Store.setLineage, Lineage.Due, same] at due
    · have older := covered.owed other (by simpa [Store.spawn, Store.setLineage, same] using alive)
        (by simpa [Store.spawn, Store.setLineage, same] using due)
      simpa [Store.spawn, Store.setLineage, same] using older
  · intro task other inside
    have apart : other ≠ trunk := fun same => unburied task (same ▸ inside)
    have gone := covered.buried task other inside
    simp [Store.spawn, Store.setLineage, gone, apart]

theorem Covered.step (covered : Covered store) (step : Step τ) (fresh : store.Fresh step) :
    Covered (store.step step) := by
  cases step with
  | enter task entry =>
    dsimp only [Store.step]
    split_ifs with busy
    · exact covered
    · exact covered.enter (by simpa using busy) entry
  | next task fault =>
    dsimp only [Store.step]
    cases mine : store.jobs task with
    | none => exact covered
    | some job => exact covered.advance mine fault
  | spawn trunk tail =>
    dsimp only [Store.step]
    split_ifs
    · exact covered
    · exact covered.spawn tail fresh
  | flush trunk count kept =>
    refine ⟨fun other alive due => covered.owed other alive ?_, covered.buried⟩
    grind [Store.step, Store.setLineage, Lineage.due_of_written]

/-- Whatever the order of appends, passes, removals, spawns and flushes, failing ones
included: when no lineage is dirty and no call is on its way, what a trunk still buffers is
keyed past its main channel, unless an append to it was refused. -/
theorem interleaved_flusher_covers (live : τ → Bool) (tail : τ → Nat) (run : List (Step τ))
    (fresh : EveryStep Store.step Store.Fresh (Store.opened live tail) run) :
    Covered (Store.after live tail run) ∧
      ((Store.after live tail run).dirty = [] →
        (∀ task, (Store.after live tail run).jobs task = none) →
        ∀ trunk ∉ (Store.after live tail run).refused,
          (Store.after live tail run).live trunk = true →
          ¬((Store.after live tail run).lineage trunk).Due) := by
  have start : Covered (Store.opened live tail) :=
    ⟨fun _ _ due => absurd due (by simp [Store.opened, Lineage.Due]), fun _ _ => nofun⟩
  have covered : Covered (Store.after live tail run) :=
    invariant_after Store.step Covered (fun _ step covered fresh => covered.step step fresh) start
      fresh
  refine ⟨covered, fun clean idle trunk accepted alive due => ?_⟩
  simpa [clean, idle, accepted] using covered.owed trunk alive due

end Interleavings

/-- Trunk 0 is removed, its marks are cleared, it is spawned again and written to. -/
def respawned : List (Step Nat) :=
  [.enter 0 (.remove [0]), .next 0 none, .spawn 0 4, .enter 0 (.append 0 none),
    .next 0 none, .next 0 none]

theorem respawned_trunk_covered :
    Covered (Store.after (fun _ => true) (fun _ => 1) respawned) := by
  refine (interleaved_flusher_covers (fun _ => true) (fun _ => 1) respawned ?_).1
  refine ⟨trivial, trivial, ?_, trivial, trivial, trivial, trivial⟩
  intro task
  by_cases first : task = 0 <;> simp [Store.step, Store.enter, Store.advance, Store.setJob,
    Store.purgeLineage, Store.opened, first]

/-- Given out again before its marks are cleared, an id loses the mark of its new record. -/
theorem reissued_id_forgotten :
    ¬Covered (Store.after (fun _ => true) (fun _ => 1)
      [.enter 0 (.remove [0]), .spawn 0 4, .enter 1 (.append 0 none), .next 1 none,
        .next 1 none, .next 0 none]) := by
  intro covered
  rcases covered.owed 0 rfl (.inl Nat.one_pos) with dirty | failed | ⟨task, held⟩
  · cases dirty
  · cases failed
  · by_cases first : task = 0 <;> by_cases second : task = 1 <;>
      simp [Store.after, Store.step, Store.enter, Store.advance, Store.setJob,
        Store.purgeLineage, Store.opened, Store.spawn, Store.setLineage, Store.markDirty,
        storePoisonThreshold, first, second] at held

end Figwal.Xwal.Flusher
