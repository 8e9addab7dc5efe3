import Figwal.Lib.Assoc
import Figwal.Lib.Runs

/-!
# Opening and closing a store of logs

`disk.Store` keeps one log per directory. `Open` looks into the map under the lock,
opens the directory and the directories above it without the lock, and takes the lock
again to publish what it opened. Here a step is one critical section or what lies
between two, any number of calls are on their way, and the order of steps is the
scheduler's. The store together with the calls is a `Pool`.
-/

namespace Figwal.Disk

open Figwal.Lib List

set_option autoImplicit false

variable {δ : Type}

/-- Where a call of `Open` is. The last phase holds a log that no one else knows. -/
inductive Phase where
  | entering
  | resolving
  | opening
  | publishing (log : Nat)
  deriving DecidableEq, Repr

/-- A call of `Open`, with the calls that wait for it: each opens the directory of
which this one opens the parent. `injected` says that the caller gave a parent. -/
structure Call (δ : Type) where
  dir : δ
  injected : Bool
  phase : Phase
  waiting : List δ
  deriving DecidableEq, Repr

/-- `live` are the logs that are open, and `handed` what calls have returned. Writing
to the map that `Close` discarded panics. -/
structure Pool (δ : Type) where
  closed : Bool
  logs : List (δ × Nat)
  live : List Nat
  minted : Nat
  calls : Nat → Option (Call δ)
  handed : List (δ × Nat)
  panicked : Bool

inductive PoolStep (δ : Type) where
  | call (task : Nat) (dir : δ) (injected : Bool)
  | enter (task : Nat)
  | resolve (task : Nat) (marker : Option Bool)
  | openDir (task : Nat) (succeeds : Bool)
  | publish (task : Nat)
  | close
  deriving DecidableEq, Repr

def Call.held (call : Call δ) : Option Nat :=
  match call.phase with
  | .publishing log => some log
  | _ => none

def Call.resume : List δ → Option (Call δ)
  | [] => none
  | dir :: waiting => some ⟨dir, true, .opening, waiting⟩

theorem Call.resume_held (waiting : List δ) : (Call.resume waiting).bind Call.held = none := by
  cases waiting <;> rfl

namespace Pool

def fresh : Pool δ where
  closed := false
  logs := []
  live := []
  minted := 0
  calls := fun _ => none
  handed := []
  panicked := false

def setCall (pool : Pool δ) (task : Nat) (call : Option (Call δ)) : Pool δ :=
  { pool with calls := fun key => if key = task then call else pool.calls key }

def fail (pool : Pool δ) (task : Nat) : Pool δ :=
  pool.setCall task none

def deliver (pool : Pool δ) (task : Nat) (call : Call δ) (log : Nat) : Pool δ :=
  { pool with handed := (call.dir, log) :: pool.handed }.setCall task (Call.resume call.waiting)

section Steps

variable [DecidableEq δ]

def enter (pool : Pool δ) (task : Nat) (call : Call δ) : Pool δ :=
  if pool.closed then pool.fail task
  else
    match pool.logs.lookup call.dir with
    | some log => pool.deliver task call log
    | none => pool.setCall task (some { call with phase := .resolving })

/-- The fork marker is read: it cannot be read, there is none, or the parent has to be
opened first. -/
def resolve (parentDir : δ → δ) (pool : Pool δ) (task : Nat) (call : Call δ)
    (marker : Option Bool) : Pool δ :=
  if call.injected then pool.setCall task (some { call with phase := .opening })
  else
    match marker with
    | none => pool.fail task
    | some false => pool.setCall task (some { call with phase := .opening })
    | some true =>
      pool.setCall task (some ⟨parentDir call.dir, false, .entering, call.dir :: call.waiting⟩)

def openDir (pool : Pool δ) (task : Nat) (call : Call δ) (succeeds : Bool) : Pool δ :=
  if succeeds then
    { pool with live := pool.minted :: pool.live, minted := pool.minted + 1 }.setCall task
      (some { call with phase := .publishing pool.minted })
  else pool.fail task

/-- The second critical section. It does not look at `closed`. -/
def publish (pool : Pool δ) (task : Nat) (call : Call δ) (log : Nat) : Pool δ :=
  match pool.logs.lookup call.dir with
  | some existing =>
    { pool with live := pool.live.filter (· ≠ log) }.deliver task call existing
  | none =>
    if pool.closed then { pool with panicked := true }
    else { pool with logs := (call.dir, log) :: pool.logs }.deliver task call log

def close (pool : Pool δ) : Pool δ :=
  if pool.closed then pool
  else { pool with
    closed := true
    live := pool.live.filter (· ∉ pool.logs.map Prod.snd)
    logs := [] }

/-- A step that is not the next one of its call changes nothing, and nothing runs after
a panic. -/
def step (parentDir : δ → δ) (pool : Pool δ) (step : PoolStep δ) : Pool δ :=
  if pool.panicked then pool
  else
    match step with
    | .call task dir injected =>
      if (pool.calls task).isSome then pool
      else pool.setCall task (some ⟨dir, injected, .entering, []⟩)
    | .enter task =>
      match pool.calls task with
      | some ⟨dir, injected, .entering, waiting⟩ =>
        pool.enter task ⟨dir, injected, .entering, waiting⟩
      | _ => pool
    | .resolve task marker =>
      match pool.calls task with
      | some ⟨dir, injected, .resolving, waiting⟩ =>
        pool.resolve parentDir task ⟨dir, injected, .resolving, waiting⟩ marker
      | _ => pool
    | .openDir task succeeds =>
      match pool.calls task with
      | some ⟨dir, injected, .opening, waiting⟩ =>
        pool.openDir task ⟨dir, injected, .opening, waiting⟩ succeeds
      | _ => pool
    | .publish task =>
      match pool.calls task with
      | some ⟨dir, injected, .publishing log, waiting⟩ =>
        pool.publish task ⟨dir, injected, .publishing log, waiting⟩ log
      | _ => pool
    | .close => pool.close

end Steps

def held (pool : Pool δ) (task : Nat) : Option Nat :=
  (pool.calls task).bind Call.held

theorem held_set_call (pool : Pool δ) (task : Nat) (call : Option (Call δ)) (key : Nat) :
    (pool.setCall task call).held key = if key = task then call.bind Call.held else pool.held
    key := by
  unfold held setCall
  dsimp only
  split_ifs <;> rfl

theorem held_of_released {pool : Pool δ} {task key log : Nat} {call : Option (Call δ)}
    (after : call.bind Call.held = none) (found : (pool.setCall task call).held key = some log) :
    key ≠ task ∧ pool.held key = some log := by
  rw [held_set_call] at found
  split_ifs at found with same
  · rw [after] at found
    cases found
  · exact ⟨same, found⟩

/-!
## What a step can do
-/

def Timely (pool : Pool δ) : PoolStep δ → Prop
  | .publish task => (pool.held task).isSome → pool.closed = false
  | _ => True

instance timelyDecidable (pool : Pool δ) (step : PoolStep δ) : Decidable (pool.Timely step) :=
  match step with
  | .publish task =>
    inferInstanceAs (Decidable ((pool.held task).isSome → pool.closed = false))
  | .call _ _ _ | .enter _ | .resolve _ _ | .openDir _ _ | .close => .isTrue trivial

inductive Change [DecidableEq δ] (pool : Pool δ) : Pool δ → Prop where
  | still : Change pool pool
  | moved (task : Nat) (next : Option (Call δ)) (before : pool.held task = none)
      (after : next.bind Call.held = none) : Change pool (pool.setCall task next)
  | found (task : Nat) (call : Call δ) (log : Nat) (before : pool.held task = none)
      (listed : pool.logs.lookup call.dir = some log) : Change pool (pool.deliver task call log)
  | opened (task : Nat) (call : Call δ) (before : pool.held task = none) :
      Change pool (pool.openDir task call true)
  | published (task : Nat) (call : Call δ) (log : Nat) (before : pool.held task = some log)
      (still : pool.closed = false) : Change pool (pool.publish task call log)
  | shut : Change pool pool.close

section Cases

variable [DecidableEq δ] {parentDir : δ → δ} {pool : Pool δ}

theorem step_change {step : PoolStep δ} (timely : pool.Timely step) :
    Change pool (pool.step parentDir step) := by
  unfold Pool.step
  split_ifs with panicked
  · exact .still
  · cases step with
    | call task dir injected =>
      dsimp only
      split_ifs with busy
      · exact .still
      · have idle : pool.calls task = none := by simpa using busy
        exact .moved task _ (by rw [held, idle]; rfl) rfl
    | enter task =>
      dsimp only
      split
      · rename_i dir injected waiting found
        have before : pool.held task = none := by rw [held, found]; rfl
        unfold enter
        split_ifs
        · exact .moved task none before rfl
        · split
          · rename_i log listed
            exact .found task _ log before listed
          · exact .moved task _ before rfl
      · exact .still
    | resolve task marker =>
      dsimp only
      split
      · rename_i dir injected waiting found
        have before : pool.held task = none := by rw [held, found]; rfl
        unfold resolve
        split_ifs
        · exact .moved task _ before rfl
        · split
          · exact .moved task none before rfl
          · exact .moved task _ before rfl
          · exact .moved task _ before rfl
      · exact .still
    | openDir task succeeds =>
      dsimp only
      split
      · rename_i dir injected waiting found
        have before : pool.held task = none := by rw [held, found]; rfl
        cases succeeds with
        | true => exact .opened task _ before
        | false => exact .moved task none before rfl
      · exact .still
    | publish task =>
      dsimp only
      split
      · rename_i dir injected log waiting found
        have before : pool.held task = some log := by rw [held, found]; rfl
        exact .published task _ log before (timely (by rw [before]; rfl))
      · exact .still
    | close => exact .shut

end Cases

/-!
## What holds at every moment
-/

/-- What callers and the store can rely on: no write to a discarded map, a returned log
is the one the store has for the directory or has closed, there is one log per directory,
and every open log is in the map or held by a call that has not returned. -/
structure Settled (pool : Pool δ) : Prop where
  sound : pool.panicked = false
  owned : ∀ dir log, (dir, log) ∈ pool.handed →
    if pool.closed then log ∉ pool.live else (dir, log) ∈ pool.logs
  one : ∀ dir first second, (dir, first) ∈ pool.handed → (dir, second) ∈ pool.handed →
    first = second
  kept : ∀ log ∈ pool.live, (∃ dir, (dir, log) ∈ pool.logs) ∨ ∃ task, pool.held task = some log

structure Tidy [DecidableEq δ] (pool : Pool δ) : Prop extends Settled pool where
  discarded : pool.closed = true → pool.logs = []
  unique : ∀ dir log, (dir, log) ∈ pool.logs → pool.logs.lookup dir = some log
  stored : ∀ dir log, (dir, log) ∈ pool.logs → log ∈ pool.live
  withheld : ∀ task log, pool.held task = some log → log ∈ pool.live ∧ ∀ dir, (dir, log) ∉ pool.logs
  apart : ∀ one other log, pool.held one = some log → pool.held other = some log → one = other
  minted : ∀ log ∈ pool.live, log < pool.minted
  past : ∀ dir log, (dir, log) ∈ pool.handed → log < pool.minted

section Invariant

variable [DecidableEq δ] {pool : Pool δ} {log task : Nat} {next : Option (Call δ)}

theorem fresh_tidy : (fresh : Pool δ).Tidy where
  sound := rfl
  owned _ _ inside := absurd inside not_mem_nil
  one _ _ _ inside := absurd inside not_mem_nil
  kept _ inside := absurd inside not_mem_nil
  discarded _ := rfl
  unique _ _ inside := absurd inside not_mem_nil
  stored _ _ inside := absurd inside not_mem_nil
  withheld _ _ holds := nomatch holds
  apart _ _ _ holds := nomatch holds
  minted _ inside := absurd inside not_mem_nil
  past _ _ inside := absurd inside not_mem_nil

section

variable (tidy : pool.Tidy)

include tidy

theorem Tidy.congr {calls : Nat → Option (Call δ)}
    (same : ∀ task, { pool with calls }.held task = pool.held task) : { pool with calls }.Tidy := by
  refine ⟨⟨tidy.sound, tidy.owned, tidy.one, ?_⟩, tidy.discarded, tidy.unique, tidy.stored, ?_, ?_,
    tidy.minted, tidy.past⟩
  · intro log inside
    rcases tidy.kept log inside with listed | ⟨task, holds⟩
    · exact Or.inl listed
    · exact Or.inr ⟨task, (same task).trans holds⟩
  · intro task log holds
    exact tidy.withheld task log ((same task).symm.trans holds)
  · intro one other log first second
    exact tidy.apart one other log ((same one).symm.trans first) ((same other).symm.trans second)

theorem Tidy.set_call (before : pool.held task = none) (after : next.bind Call.held = none) :
    (pool.setCall task next).Tidy := by
  apply tidy.congr
  intro key
  change (pool.setCall task next).held key = _
  rw [held_set_call]
  split_ifs with same
  · rw [after, same, before]
  · rfl

theorem Tidy.hand {dir : δ} (still : pool.closed = false) (listed : (dir, log) ∈ pool.logs) :
    { pool with handed := (dir, log) :: pool.handed }.Tidy := by
  have owned : ∀ {other found}, (other, found) ∈ pool.handed → (other, found) ∈ pool.logs := by
    intro other found inside
    have owner := tidy.owned other found inside
    rw [if_neg (by rw [still]; simp)] at owner
    exact owner
  have within : ∀ {other found}, (other, found) ∈ (dir, log) :: pool.handed →
      (other, found) ∈ pool.logs := by
    intro other found inside
    rcases mem_cons.mp inside with same | earlier
    · rw [same]
      exact listed
    · exact owned earlier
  refine ⟨⟨tidy.sound, ?_, ?_, tidy.kept⟩, tidy.discarded, tidy.unique, tidy.stored, tidy.withheld,
    tidy.apart, tidy.minted, ?_⟩
  · intro other found inside
    rw [if_neg (by simp [still])]
    exact within inside
  · intro other first second left right
    exact Option.some.inj ((tidy.unique other first (within left)).symm.trans
      (tidy.unique other second (within right)))
  · intro other found inside
    exact tidy.minted found (tidy.stored other found (within inside))

theorem Tidy.open_dir {call : Call δ} (before : pool.held task = none) :
    (pool.openDir task call true).Tidy := by
  have holds : ∀ {key log}, (pool.openDir task call true).held key = some log →
      key = task ∧ log = pool.minted ∨ key ≠ task ∧ pool.held key = some log := by
    intro key log found
    rw [openDir, if_pos rfl, held_set_call] at found
    split_ifs at found with same
    · exact Or.inl ⟨same, (Option.some.inj found).symm⟩
    · exact Or.inr ⟨same, found⟩
  have older : ∀ {log}, log ∈ pool.live → log ≠ pool.minted :=
    fun inside => Nat.ne_of_lt (tidy.minted _ inside)
  refine ⟨⟨tidy.sound, ?_, tidy.one, ?_⟩, tidy.discarded, tidy.unique, ?_, ?_, ?_, ?_, ?_⟩
  · intro dir log inside
    have owner := tidy.owned dir log inside
    have early := tidy.past dir log inside
    change if pool.closed then log ∉ pool.minted :: pool.live else (dir, log) ∈ pool.logs
    split_ifs at owner ⊢
    · rw [mem_cons]
      rintro (rfl | live)
      · exact Nat.lt_irrefl _ early
      · exact owner live
    · exact owner
  · intro log inside
    rcases mem_cons.mp inside with rfl | live
    · refine Or.inr ⟨task, ?_⟩
      rw [openDir, if_pos rfl, held_set_call, if_pos rfl]
      rfl
    · rcases tidy.kept log live with listed | ⟨key, holder⟩
      · exact Or.inl listed
      · refine Or.inr ⟨key, ?_⟩
        rw [openDir, if_pos rfl, held_set_call, if_neg ?_]
        · exact holder
        · rintro rfl
          rw [before] at holder
          cases holder
  · intro dir log listed
    exact mem_cons_of_mem _ (tidy.stored dir log listed)
  · intro key log found
    rcases holds found with ⟨_, rfl⟩ | ⟨_, holder⟩
    · refine ⟨mem_cons_self, fun dir listed => ?_⟩
      exact older (tidy.stored dir _ listed) rfl
    · obtain ⟨live, unlisted⟩ := tidy.withheld key log holder
      exact ⟨mem_cons_of_mem _ live, unlisted⟩
  · intro one other log first second
    rcases holds first with ⟨left, new⟩ | ⟨_, left⟩
    · rcases holds second with ⟨right, _⟩ | ⟨_, right⟩
      · rw [left, right]
      · exact absurd new (older (tidy.withheld other log right).1)
    · rcases holds second with ⟨_, new⟩ | ⟨_, right⟩
      · exact absurd new (older (tidy.withheld one log left).1)
      · exact tidy.apart one other log left right
  · intro log inside
    rcases mem_cons.mp inside with rfl | live
    · exact Nat.lt_succ_self _
    · exact Nat.lt_succ_of_lt (tidy.minted log live)
  · intro dir log inside
    exact Nat.lt_succ_of_lt (tidy.past dir log inside)

theorem Tidy.discard (before : pool.held task = some log) (after : next.bind Call.held = none) :
    ({ pool with live := pool.live.filter (· ≠ log) }.setCall task next).Tidy := by
  have mine := tidy.withheld task log before
  have holds : ∀ {key other}, ({ pool with live := pool.live.filter (· ≠ log) }.setCall task
      next).held key = some other → key ≠ task ∧ pool.held key = some other :=
    held_of_released after
  have stays : ∀ {other}, other ∈ pool.live → other ≠ log → other ∈ pool.live.filter (· ≠ log) :=
    fun inside differs => mem_filter.mpr ⟨inside, decide_eq_true differs⟩
  refine ⟨⟨tidy.sound, ?_, tidy.one, ?_⟩, tidy.discarded, tidy.unique, ?_, ?_, ?_, ?_, tidy.past⟩
  · intro dir other inside
    have owner := tidy.owned dir other inside
    change if pool.closed then other ∉ pool.live.filter (· ≠ log) else (dir, other) ∈ pool.logs
    split_ifs at owner ⊢
    · exact fun live => owner (mem_of_mem_filter live)
    · exact owner
  · intro other inside
    obtain ⟨live, differs⟩ := mem_filter.mp inside
    have apart : other ≠ log := of_decide_eq_true differs
    rcases tidy.kept other live with listed | ⟨key, holder⟩
    · exact Or.inl listed
    · refine Or.inr ⟨key, ?_⟩
      rw [held_set_call, if_neg ?_]
      · exact holder
      · rintro rfl
        rw [before] at holder
        exact apart (Option.some.inj holder).symm
  · intro dir other listed
    apply stays (tidy.stored dir other listed)
    rintro rfl
    exact mine.2 dir listed
  · intro key other found
    obtain ⟨differs, holder⟩ := holds found
    obtain ⟨live, unlisted⟩ := tidy.withheld key other holder
    refine ⟨stays live ?_, unlisted⟩
    rintro rfl
    exact differs (tidy.apart key task other holder before)
  · intro one other found first second
    exact tidy.apart one other found (holds first).2 (holds second).2
  · exact fun other inside => tidy.minted other (mem_of_mem_filter inside)

theorem Tidy.list {dir : δ} (still : pool.closed = false) (unlisted : pool.logs.lookup dir = none)
    (before : pool.held task = some log) (after : next.bind Call.held = none) :
    ({ pool with logs := (dir, log) :: pool.logs }.setCall task next).Tidy := by
  have mine := tidy.withheld task log before
  have holds : ∀ {key other}, ({ pool with logs := (dir, log) :: pool.logs }.setCall task
      next).held key = some other → key ≠ task ∧ pool.held key = some other :=
    held_of_released after
  refine ⟨⟨tidy.sound, ?_, tidy.one, ?_⟩, ?_, ?_, ?_, ?_, ?_, tidy.minted, tidy.past⟩
  · intro other found inside
    have owner := tidy.owned other found inside
    rw [if_neg (by rw [still]; simp)] at owner
    change if pool.closed then _ else (other, found) ∈ (dir, log) :: pool.logs
    rw [if_neg (by rw [still]; simp)]
    exact mem_cons_of_mem _ owner
  · intro other live
    rcases tidy.kept other live with ⟨place, listed⟩ | ⟨key, holder⟩
    · exact Or.inl ⟨place, mem_cons_of_mem _ listed⟩
    · by_cases same : key = task
      · rw [same, before] at holder
        cases holder
        exact Or.inl ⟨dir, mem_cons_self⟩
      · refine Or.inr ⟨key, ?_⟩
        rw [held_set_call, if_neg same]
        exact holder
  · intro gone
    rw [still] at gone
    cases gone
  · intro other found inside
    change List.lookup other ((dir, log) :: pool.logs) = some found
    rcases mem_cons.mp inside with same | listed
    · cases same
      rw [lookup_cons, beq_self_eq_true]
    · have there := tidy.unique other found listed
      have differs : (other == dir) = false := by
        rw [beq_eq_false_iff_ne]
        rintro rfl
        rw [unlisted] at there
        cases there
      rw [lookup_cons, differs]
      exact there
  · intro other found inside
    rcases mem_cons.mp inside with same | listed
    · cases same
      exact mine.1
    · exact tidy.stored other found listed
  · intro key other found
    obtain ⟨differs, holder⟩ := holds found
    obtain ⟨live, absent⟩ := tidy.withheld key other holder
    refine ⟨live, fun place inside => ?_⟩
    rcases mem_cons.mp inside with same | listed
    · cases same
      exact differs (tidy.apart key task log holder before)
    · exact absent place listed
  · intro one other found first second
    exact tidy.apart one other found (holds first).2 (holds second).2

theorem Tidy.close : pool.close.Tidy := by
  unfold Pool.close
  split_ifs with gone
  · exact tidy
  · have unlisted : ∀ {log}, log ∈ pool.live.filter (· ∉ pool.logs.map Prod.snd) →
        log ∈ pool.live ∧ ∀ dir, (dir, log) ∉ pool.logs := by
      intro log inside
      obtain ⟨live, away⟩ := mem_filter.mp inside
      refine ⟨live, fun dir listed => ?_⟩
      exact of_decide_eq_true away (mem_map.mpr ⟨_, listed, rfl⟩)
    refine ⟨⟨tidy.sound, ?_, tidy.one, ?_⟩, fun _ => rfl, fun _ _ inside => ?_, fun _ _ inside =>
      ?_,
      ?_, tidy.apart, fun log inside => tidy.minted log (unlisted inside).1, tidy.past⟩
    · intro dir log inside
      have owner := tidy.owned dir log inside
      rw [if_neg gone] at owner
      exact fun live => (unlisted live).2 dir owner
    · intro log inside
      obtain ⟨live, away⟩ := unlisted inside
      rcases tidy.kept log live with ⟨dir, listed⟩ | holder
      · exact absurd listed (away dir)
      · exact Or.inr holder
    · cases inside
    · cases inside
    · intro task log holder
      obtain ⟨live, away⟩ := tidy.withheld task log holder
      refine ⟨mem_filter.mpr ⟨live, decide_eq_true ?_⟩, fun _ => not_mem_nil⟩
      intro inside
      obtain ⟨entry, listed, rfl⟩ := mem_map.mp inside
      exact away entry.1 listed

end

theorem Change.tidy {next : Pool δ} (change : Change pool next) (tidy : pool.Tidy) :
    next.Tidy := by
  cases change with
  | still => exact tidy
  | moved task next before after => exact tidy.set_call before after
  | found task call log before listed =>
    have member : (call.dir, log) ∈ pool.logs := mem_of_lookup listed
    have still : pool.closed = false := by
      cases gone : pool.closed with
      | false => rfl
      | true =>
        rw [tidy.discarded gone] at member
        cases member
    exact (tidy.hand still member).set_call before (Call.resume_held _)
  | opened task call before => exact tidy.open_dir before
  | published task call log before still =>
    unfold publish
    cases listed : pool.logs.lookup call.dir with
    | some existing =>
      exact (tidy.discard before (Call.resume_held call.waiting)).hand still
        (mem_of_lookup listed)
    | none =>
      rw [if_neg (by rw [still]; exact Bool.false_ne_true)]
      exact (tidy.list still listed before (Call.resume_held call.waiting)).hand still
        mem_cons_self
  | shut => exact tidy.close

end Invariant

/-- Whatever the order of steps, if each call that gets as far as publishing a log does so
before the store is closed. Once the store is closed and every call has returned, no log
is open. -/
theorem store_interleavings_settle [DecidableEq δ] (parentDir : δ → δ) (run : List (PoolStep δ))
    (timely : EveryStep (step parentDir) Timely fresh run) :
    (run.foldl (step parentDir) fresh).Settled ∧
      ((run.foldl (step parentDir) fresh).closed = true →
        (∀ task, (run.foldl (step parentDir) fresh).calls task = none) →
        (run.foldl (step parentDir) fresh).live = []) := by
  have tidy : (run.foldl (step parentDir) fresh).Tidy :=
    invariant_after (step parentDir) Tidy
      (fun _ _ tidy timely => (step_change timely).tidy tidy) fresh_tidy timely
  refine ⟨tidy.toSettled, fun closed returned => ?_⟩
  rw [eq_nil_iff_forall_not_mem]
  intro log live
  rcases tidy.kept log live with ⟨dir, listed⟩ | ⟨task, holder⟩
  · rw [tidy.discarded closed] at listed
    cases listed
  · rw [held, returned task] at holder
    cases holder

/-- `Close` between the two critical sections of `Open`: the log that was opened is
written into the map that is gone, and stays open. -/
theorem publishing_after_close_panics :
    ¬([.call 0 "a" false, .enter 0, .resolve 0 (some false), .openDir 0 true, .close,
        .publish 0].foldl (step id) fresh).Settled ∧
      ([.call 0 "a" false, .enter 0, .resolve 0 (some false), .openDir 0 true, .close,
        .publish 0].foldl (step id) fresh).panicked = true ∧
      ([.call 0 "a" false, .enter 0, .resolve 0 (some false), .openDir 0 true, .close,
        .publish 0].foldl (step id) fresh).live = [0] := by
  refine ⟨fun settled => ?_, by decide, by decide⟩
  exact absurd settled.sound (by decide)

/-- Two calls for one directory, a fork opened through its parent, and a close while
another call is between its sections and fails. -/
theorem competing_calls_settle :
    ([.call 0 "a" false, .enter 0, .resolve 0 (some false), .openDir 0 true, .call 1 "a" false,
        .enter 1, .resolve 1 (some false), .openDir 1 true, .publish 1, .publish 0,
        .call 2 "a/b" false, .enter 2, .resolve 2 (some true), .enter 2, .openDir 2 true,
        .publish 2, .call 3 "c" false, .enter 3, .close, .resolve 3 none].foldl
          (step fun _ => "a") fresh).Settled ∧
      ([.call 0 "a" false, .enter 0, .resolve 0 (some false), .openDir 0 true, .call 1 "a" false,
        .enter 1, .resolve 1 (some false), .openDir 1 true, .publish 1, .publish 0,
        .call 2 "a/b" false, .enter 2, .resolve 2 (some true), .enter 2, .openDir 2 true,
        .publish 2, .call 3 "c" false, .enter 3, .close, .resolve 3 none].foldl
          (step fun _ => "a") fresh).handed = [("a/b", 2), ("a", 1), ("a", 1), ("a", 1)] := by
  refine ⟨(store_interleavings_settle (fun _ => "a") _ (by decide)).1, by decide⟩

end Pool

end Figwal.Disk
