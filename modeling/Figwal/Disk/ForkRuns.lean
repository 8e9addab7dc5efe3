import Figwal.Lib.Runs
import Figwal.Disk.ForkHistory

/-!
# Forks preserve history

Where the cut lies behind the last record, or every segment file of the
directory holds records, a fork leaves every history as it was, in every state
that writes, forks of this kind and reopening lead to.

An unused segment file that stays behind breaks this for a cut among the
records: `Open` takes the last kept segment to end where that file begins.
-/

namespace Figwal.Disk

open Figwal.Lib

set_option autoImplicit false

variable {α σ : Type}

namespace World

variable {logs : List (Log α σ)} {atIdx : Nat} {opts : Options α σ} {world : World α σ}

/-- What a caller may expect of an accepted fork once every directory has been
closed and opened again. -/
structure ForkPreserves (opts : Options α σ) (world : World α σ) (home : Path) (atIdx : Nat)
    (child old : String) (next : World α σ) : Prop where
  trunk : ∀ before, world.chain opts home = .ok before →
    ∃ log parents, next.reopenAll.chain opts home = .ok (log :: parents) ∧
      (∀ idx payload, read (log :: parents) idx = .ok payload ↔
        idx < atIdx ∧ read before idx = .ok payload) ∧
      log.lastIndex = atIdx - 1 ∧
      ((∃ idx payload, idx < atIdx ∧ read before idx = .ok payload) →
        firstIndex (log :: parents) = firstIndex before) ∧
      ∀ start, (range (log :: parents) start).outcome = .done ∧
        (range (log :: parents) start).seen =
          (range before start).seen.takeWhile fun item => item.1 < atIdx
  oldFuture : world.find (old :: home) = none → next.find (old :: home) ≠ none →
    ∀ before, world.chain opts home = .ok before →
      ∃ logs, next.reopenAll.chain opts (old :: home) = .ok logs ∧
        ∀ idx payload, read logs idx = .ok payload ↔ read before idx = .ok payload
  child : ∀ before, world.chain opts home = .ok before →
    ∃ log parents, next.reopenAll.chain opts (child :: home) = .ok (log :: parents) ∧
      (∀ idx payload, read (log :: parents) idx = .ok payload ↔
        idx < atIdx ∧ read before idx = .ok payload) ∧
      log.lastIndex = atIdx - 1
  others : ∀ path before, path ≠ home → world.chain opts path = .ok before →
    ∃ place logs, (place = path ∨ place = relocate home old path) ∧
      next.reopenAll.chain opts place = .ok logs ∧
      ∀ idx payload, read logs idx = .ok payload ↔ read before idx = .ok payload

/-- The cut lies behind the last record, or every file of the directory holds
records. -/
def forkSafe (opts : Options α σ) (world : World α σ) (home : Path) (atIdx : Nat) : Bool :=
  match world.chain opts home with
  | .ok (log :: _) => atIdx = log.expected || log.filled
  | _ => true

section

variable (steady : opts.Steady) (sound : world.Sound opts.codec)

include steady sound

theorem fork_cases {next : World α σ} {home : Path} {childName oldName : String}
    {result : Except Err Unit}
    (done : world.fork opts home atIdx childName oldName = (result, next)) :
    (∃ err, result = .error err ∧ (next = world ∨ ∃ dir log parents,
        world.find home = some dir ∧ world.chain opts home = .ok (log :: parents) ∧
        dir.handle.log opts = .ok log ∧
        next = world.put home { dir with handle := .opened log.sealForFork })) ∨
      (result = .ok () ∧ ∃ dir log parents parts, world.find home = some dir ∧
        world.chain opts home = .ok (log :: parents) ∧ dir.handle.log opts = .ok log ∧
        childName ≠ oldFuture home oldName ∧ log.forkIndexValid atIdx = true ∧
        world.find (childName :: home) = none ∧
        log.forkParts opts parents atIdx (oldName ≠ "") = .ok parts ∧
        (parts.createOld = true → world.find (oldFuture home oldName :: home) = none) ∧
        next = world.forkedWorld home dir log atIdx childName (oldFuture home oldName) parts) := by
  cases found : world.find home with
  | none =>
    simp only [fork, found] at done
    cases done
    exact Or.inl ⟨_, rfl, Or.inl rfl⟩
  | some dir =>
    obtain ⟨log, parents, opened, live, _, _⟩ := chain_spec steady sound found
    simp only [fork, found, opened] at done
    split_ifs at done with badChild badOld sameName badIndex takenChild
    · cases done
      exact Or.inl ⟨_, rfl, Or.inl rfl⟩
    · cases done
      exact Or.inl ⟨_, rfl, Or.inl rfl⟩
    · cases done
      exact Or.inl ⟨_, rfl, Or.inl rfl⟩
    · cases done
      exact Or.inl ⟨_, rfl, Or.inl rfl⟩
    · cases done
      exact Or.inl ⟨_, rfl, Or.inl rfl⟩
    · have left : ∃ dir' log' parents', some dir = some dir' ∧
          Except.ok (log :: parents) = (Except.ok (log' :: parents') : Except Err _) ∧
          dir'.handle.log opts = .ok log' ∧
          world.put home { dir with handle := .opened log.sealForFork } =
            world.put home { dir' with handle := .opened log'.sealForFork } :=
        ⟨dir, log, parents, rfl, rfl, live, rfl⟩
      have freeChild : world.find (childName :: home) = none := by
        simp only [taken, Bool.or_eq_true, not_or] at takenChild
        simpa using takenChild.1
      split at done
      · cases done
        rw [opened]
        exact Or.inl ⟨_, rfl, Or.inr left⟩
      · rename_i parts planned
        split_ifs at done with takenOld blocked
        · cases done
          rw [opened]
          exact Or.inl ⟨_, rfl, Or.inr left⟩
        · cases done
          rw [opened]
          exact Or.inl ⟨_, rfl, Or.inr left⟩
        · cases done
          refine Or.inr ⟨rfl, dir, log, parents, parts, rfl, opened, live, sameName, ?_,
            freeChild, planned, ?_, rfl⟩
          · simpa using badIndex
          · intro created
            simp only [created, Bool.true_and, taken, Bool.or_eq_true, not_or] at takenOld
            simpa using takenOld.1

/-- An accepted fork that is safe gives the facts the histories rest on. -/
theorem fork_step {home : Path} {dir : Dir α σ} {log : Log α σ} {parents : List (Log α σ)}
    {parts : ForkParts α σ} {child old : String} {explicitOld : Bool}
    (found : world.find home = some dir) (live : dir.handle.log opts = .ok log)
    (valid : log.forkIndexValid atIdx = true) (safe : atIdx = log.expected ∨ log.filled = true)
    (planned : log.forkParts opts parents atIdx explicitOld = .ok parts)
    (freeChild : world.find (child :: home) = none)
    (freeOld : parts.createOld = true → world.find (old :: home) = none) (distinct : child ≠ old)
    (plain : world.Plain) (shownChild : isInternal child = false)
    (shownOld : isInternal old = false) :
    ForkStep opts.codec world home dir log atIdx child old parts := by
  obtain ⟨same, used, tidy, own, base, _⟩ := (sound.usable found).log steady
  rw [live] at used
  cases used
  have stored : ∀ payload ∈ log.own, opts.codec.stored payload = payload := by
    rw [own]
    exact sound.stored found
  obtain ⟨low, high⟩ := Log.fork_index_bounds tidy valid
  have holds := Log.fork_parts_holds tidy valid stored planned
  rw [Log.expected_eq tidy.numbered] at safe
  obtain ⟨cutTidy, kept⟩ := Log.forked_tidy tidy child old holds safe
  exact ⟨sound, found, base, own, low, high, holds, cutTidy, kept, freeChild, freeOld, distinct,
    plain, shownChild, shownOld⟩

theorem chain_reads {path : Path} (opened : world.chain opts path = .ok logs) :
    world.find path ≠ none ∧ Chained logs ∧ visible logs = world.history path := by
  cases found : world.find path with
  | none =>
    cases path with
    | nil => cases opened
    | cons name up =>
      rw [chain, found] at opened
      cases opened
  | some dir =>
    obtain ⟨log, parents, known, _, chained, shown⟩ := chain_spec steady sound found
    rw [known] at opened
    cases opened
    exact ⟨by simp, chained, shown⟩

end

theorem reads_iff {others : List (Log α σ)} (chained : Chained logs) (other : Chained others)
    (same : visible logs = visible others) (idx : Nat) (payload : α) :
    read logs idx = .ok payload ↔ read others idx = .ok payload := by
  rw [read_visible chained, read_visible other, same]

theorem reads_below_iff {others : List (Log α σ)} (chained : Chained logs)
    (other : Chained others) (same : visible logs = (visible others).take (atIdx - 1)) (idx : Nat)
    (payload : α) : read logs idx = .ok payload ↔ idx < atIdx ∧ read others idx = .ok payload := by
  rw [read_visible chained, read_visible other, same, List.getElem?_take]
  constructor
  · rintro ⟨low, held⟩
    split_ifs at held with below
    exact ⟨by omega, low, held⟩
  · rintro ⟨below, low, held⟩
    rw [if_pos (by omega)]
    exact ⟨low, held⟩

end World

open World in
theorem ForkStep.preserves {opts : Options α σ} (steady : opts.Steady) {world : World α σ}
    {home : Path} {dir : Dir α σ} {log : Log α σ} {atIdx : Nat} {child old : String}
    {parts : ForkParts α σ}
    (step : ForkStep opts.codec world home dir log atIdx child old parts) :
    world.ForkPreserves opts home atIdx child old step.after := by
  have sound : step.after.reopenAll.Sound opts.codec := close_if_sound step.sound_after
  have length := step.history_home_length
  have positive := step.positive
  have present : ∀ {path next}, step.after.find path = some next →
      ∃ after, step.after.reopenAll.find path = some after := by
    intro path next now
    exact ⟨next.close, by rw [find_reopen_all, now]; rfl⟩
  refine ⟨?_, ?_, ?_, ?_⟩
  · intro before opened
    obtain ⟨_, chained, shown⟩ := chain_reads steady step.sound opened
    obtain ⟨_, now⟩ := present step.find_home
    obtain ⟨next, parents, reopened, _, nextChained, nextShown⟩ := chain_spec steady sound now
    rw [reopenAll, history_close_if] at nextShown
    have below : visible (next :: parents) = (visible before).take (atIdx - 1) := by
      rw [nextShown, step.history_home_take, shown]
    refine ⟨next, parents, reopened, reads_below_iff nextChained chained below, ?_, ?_, ?_⟩
    · rw [last_index_visible nextChained, nextShown]
      omega
    · rintro ⟨idx, payload, inside, held⟩
      rw [read_visible chained] at held
      have kept := (reads_below_iff nextChained chained below idx payload).mpr
        ⟨inside, (read_visible chained idx payload).mpr held⟩
      rw [read_visible nextChained] at kept
      have someBefore : visible before ≠ [] := by
        intro none
        rw [none] at held
        cases held.2
      have someAfter : visible (next :: parents) ≠ [] := by
        intro none
        rw [none] at kept
        cases kept.2
      rw [(first_index_visible nextChained).2 someAfter, (first_index_visible chained).2 someBefore]
    · intro start
      rw [range_visible nextChained, range_visible chained, below]
      refine ⟨rfl, ?_⟩
      simp only [listing, listing_take_while]
      rw [List.drop_take]
      congr 3
      omega
  · intro free created before opened
    obtain ⟨_, chained, shown⟩ := chain_reads steady step.sound opened
    obtain ⟨next, now⟩ := Option.ne_none_iff_exists'.mp created
    have isOld : parts.createOld = true := by
      rcases step.find_after_cases now with ⟨place, _⟩ | ⟨yes, _⟩ | ⟨place, _⟩ |
        ⟨source, was, apart, place, foundWas, _⟩
      · exact absurd (List.cons.inj place).1.symm step.distinct
      · exact yes
      · exact absurd place.symm (ForkStep.home_ne_below home old)
      · cases moves : parts.dataMoves with
        | true => exact step.holds.created moves
        | false =>
          rw [moves] at place
          have here : source = old :: home := place.symm
          rw [here, free] at foundWas
          cases foundWas
    obtain ⟨_, reopenedNow⟩ := present now
    obtain ⟨oldLog, parents, reopened, _, nextChained, nextShown⟩ :=
      chain_spec steady sound reopenedNow
    rw [reopenAll, history_close_if, step.history_old isOld, ← shown] at nextShown
    exact ⟨_, reopened, reads_iff nextChained chained nextShown⟩
  · intro before opened
    obtain ⟨_, chained, shown⟩ := chain_reads steady step.sound opened
    obtain ⟨_, now⟩ := present step.find_child
    obtain ⟨next, parents, reopened, _, nextChained, nextShown⟩ := chain_spec steady sound now
    rw [reopenAll, history_close_if, step.history_child, ← shown] at nextShown
    refine ⟨next, parents, reopened, reads_below_iff nextChained chained nextShown, ?_⟩
    rw [step.history_home_take, ← shown, ← nextShown] at length
    rw [last_index_visible nextChained]
    omega
  · intro path before apart opened
    obtain ⟨exists_, chained, shown⟩ := chain_reads steady step.sound opened
    obtain ⟨was, found⟩ := Option.ne_none_iff_exists'.mp exists_
    obtain ⟨next, now, _⟩ := step.find_rehomed apart found
    obtain ⟨_, reopenedNow⟩ := present now
    obtain ⟨nextLog, parents, reopened, _, nextChained, nextShown⟩ :=
      chain_spec steady sound reopenedNow
    rw [reopenAll, history_close_if, step.history_rehomed apart exists_, ← shown] at nextShown
    refine ⟨_, _, ?_, reopened, reads_iff nextChained chained nextShown⟩
    unfold rehomed
    split_ifs
    · exact Or.inr (relocate_shown step.home_ne_nil old (step.plain.shown found)).symm
    · exact Or.inl rfl

/-!
## Runs of writes, forks and reopening
-/

inductive DiskOp (α : Type) where
  | write (path : Path) (idx : Nat) (payload : α)
  | reopen (path : Path)
  | fork (home : Path) (atIdx : Nat) (childName oldFutureName : String)
  deriving DecidableEq, Repr

namespace DiskOp

variable {world : World α σ}

def apply (opts : Options α σ) (world : World α σ) : DiskOp α → World α σ
  | .write path idx payload => (world.write opts path idx payload).2
  | .reopen path => world.reopen path
  | .fork home atIdx childName oldFutureName =>
    (world.fork opts home atIdx childName oldFutureName).2

def Holds (opts : Options α σ) (world : World α σ) : DiskOp α → Prop
  | .fork home atIdx childName oldFutureName =>
    (world.fork opts home atIdx childName oldFutureName).1 = .ok () →
      world.ForkPreserves opts home atIdx childName (World.oldFuture home oldFutureName)
        (world.fork opts home atIdx childName oldFutureName).2
  | _ => True

/-- A written payload is its own stored form, the names of a fork do not begin with a
dot, and a refused fork was refused before it touched a file. -/
def Proper (opts : Options α σ) (world : World α σ) : DiskOp α → Prop
  | .write _ _ payload => opts.codec.stored payload = payload
  | .reopen _ => True
  | .fork home atIdx childName oldFutureName =>
    isInternal childName = false ∧
      isInternal (World.oldFuture home oldFutureName) = false ∧
      (world.fork opts home atIdx childName oldFutureName).1 ≠ .error .rename ∧
      (world.fork opts home atIdx childName oldFutureName).1 ≠ .error .codec

def Admitted (opts : Options α σ) (world : World α σ) (op : DiskOp α) : Prop :=
  Proper opts world op ∧
    match op with
    | .fork home atIdx childName oldFutureName =>
      (world.fork opts home atIdx childName oldFutureName).1 = .ok () →
        world.forkSafe opts home atIdx = true
    | _ => True

instance [DecidableEq α] (opts : Options α σ) (world : World α σ) (op : DiskOp α) :
    Decidable (Proper opts world op) :=
  match op with
  | .write _ _ payload => inferInstanceAs (Decidable (opts.codec.stored payload = payload))
  | .reopen _ => .isTrue trivial
  | .fork _ _ _ _ => inferInstanceAs (Decidable (_ ∧ _ ∧ _ ∧ _))

instance [DecidableEq α] (opts : Options α σ) (world : World α σ) (op : DiskOp α) :
    Decidable (Admitted opts world op) :=
  match op with
  | .write _ _ _ => inferInstanceAs (Decidable (_ ∧ True))
  | .reopen _ => inferInstanceAs (Decidable (_ ∧ True))
  | .fork _ _ _ _ => inferInstanceAs (Decidable (_ ∧ (_ → _)))

theorem fork_admitted {opts : Options α σ} (steady : opts.Steady) (sound : world.Sound opts.codec)
    (plain : world.Plain) {home : Path} {atIdx : Nat} {childName oldFutureName : String}
    (admitted : Admitted opts world (.fork home atIdx childName oldFutureName)) :
    Holds opts world (.fork home atIdx childName oldFutureName) ∧
      (apply opts world (.fork home atIdx childName oldFutureName)).Sound opts.codec ∧
      (apply opts world (.fork home atIdx childName oldFutureName)).Plain := by
  have safe := admitted.2
  obtain ⟨⟨shownChild, shownOld, _⟩, _⟩ := admitted
  cases done : world.fork opts home atIdx childName oldFutureName with
  | mk result next =>
    simp only [done] at safe
    simp only [Holds, apply, done]
    rcases World.fork_cases steady sound done with
      ⟨err, rfl, rfl | ⟨dir, log, parents, found, _, live, rfl⟩⟩ |
      ⟨rfl, dir, log, parents, parts, found, opened, live, distinct, valid, freeChild, planned,
        freeOld, rfl⟩
    · exact ⟨by simp, sound, plain⟩
    · refine ⟨by simp, ?_, plain.put _ (plain.shown found)⟩
      obtain ⟨_, used, tidy, own, base, _⟩ := (sound.usable found).log steady
      rw [live] at used
      cases used
      have still := Log.seal_for_fork_tidy tidy
      obtain ⟨_, same, _, sameBase⟩ := Log.seal_for_fork_spec tidy.numbered
      refine World.sound_put sound found [] (sameBase.trans base) ?_ still (by simp)
      rw [Handle.records_opened still, same, own, List.append_nil]
    · have cut : atIdx = log.expected ∨ log.filled = true := by
        have checked := safe rfl
        simpa [World.forkSafe, opened] using checked
      have step := World.fork_step steady sound found live valid cut planned freeChild freeOld
        distinct plain shownChild shownOld
      exact ⟨fun _ => step.preserves steady, step.sound_after, step.plain_after⟩

def rootWorld (name : String) : World α σ :=
  [([name], ⟨false, .opened (Log.blank 0)⟩)]

theorem root_world_sound (codec : Codec α σ) (name : String) :
    (rootWorld name : World α σ).Sound codec := by
  have only : ∀ {path dir}, (rootWorld name : World α σ).find path = some dir →
      path = [name] ∧ dir = ⟨false, .opened (Log.blank 0)⟩ := by
    intro path dir found
    have lookup := World.find_put ([] : World α σ) [name] path ⟨false, .opened (Log.blank 0)⟩
    have same : (rootWorld name : World α σ) =
        World.put [] [name] ⟨false, .opened (Log.blank 0)⟩ := rfl
    rw [same, lookup] at found
    split_ifs at found with here
    · cases found
      exact ⟨here, rfl⟩
    · cases found
  refine ⟨?_, ?_, ?_, ?_⟩
  · cases found : (rootWorld name : World α σ).find [] with
    | none => rfl
    | some dir => cases (only found).1
  · intro path dir found
    rw [(only found).2]
    exact Log.blank_tidy 0
  · intro path dir found payload member
    rw [(only found).2] at member
    cases member
  · intro first up dir found fork
    rw [(only found).2] at fork
    exact absurd fork (Nat.lt_irrefl 0)

theorem root_world_plain (name : String) : (rootWorld name : World α σ).Plain := by
  intro entry member held inside
  rw [List.mem_singleton.mp member] at inside
  cases inside

theorem write_plain (opts : Options α σ) (plain : world.Plain) (path : Path) (idx : Nat)
    (payload : α) : (world.write opts path idx payload).2.Plain := by
  unfold World.write
  split
  · rename_i found _
    exact plain.put _ (plain.shown found)
  · exact plain

/-- In every run of reopening, of writes of payloads in stored form and of forks that cut
behind the last record or find no unused file, every accepted fork preserves history. -/
theorem forks_preserve_history {opts : Options α σ} (steady : opts.Steady) (name : String)
    (run : List (DiskOp α))
    (admitted : EveryStep (apply opts) (Admitted opts) (rootWorld name) run) :
    EveryStep (apply opts) (Holds opts) (rootWorld name) run := by
  refine every_step_of_invariant (apply opts)
    (fun world => world.Sound opts.codec ∧ world.Plain) ?_
    ⟨root_world_sound opts.codec name, root_world_plain name⟩ admitted
  rintro world op ⟨sound, plain⟩ fits
  cases op with
  | write path idx payload =>
    exact ⟨trivial, World.write_sound steady sound path idx payload,
      write_plain opts plain path idx payload⟩
  | reopen path => exact ⟨trivial, World.close_if_sound sound, plain.closeIf _⟩
  | fork home atIdx childName oldFutureName => exact fork_admitted steady sound plain fits

/-- A rejected write leaves an unused segment at index 3, and the log is then cut
at index 2. -/
def leftoverRun : List (DiskOp Bytes) :=
  [.write ["root"] 1 (bytes [10]), .write ["root"] 2 (bytes [11]),
    .write ["root"] 3 (bytes (List.replicate 20 0)), .fork ["root"] 2 "child" ""]

/-- After `leftoverRun` the forked log reports a last index of 2 instead of 1. -/
theorem leftover_segment_breaks_fork :
    EveryStep (apply LogOp.smallSegments) (Proper LogOp.smallSegments) (rootWorld "root")
        leftoverRun ∧
      ¬EveryStep (apply LogOp.smallSegments) (Holds LogOp.smallSegments) (rootWorld "root")
        leftoverRun := by
  refine ⟨by decide, ?_⟩
  intro good
  have preserved := good.2.2.2.1 (by decide)
  obtain ⟨log, parents, reopened, _, last, _⟩ := preserved.trunk _ rfl
  have observed : ((leftoverRun.foldl (apply LogOp.smallSegments)
      (rootWorld "root")).reopenAll.chain LogOp.smallSegments ["root"]).map
        (fun logs => logs.map Log.lastIndex) = .ok [2] := by decide
  have known : (leftoverRun.foldl (apply LogOp.smallSegments)
      (rootWorld "root")).reopenAll.chain LogOp.smallSegments ["root"] =
        .ok (log :: parents) := reopened
  rw [known] at observed
  have two : log.lastIndex = 2 := (List.cons.inj (Except.ok.inj observed)).1
  rw [two] at last
  exact absurd last (by decide)

theorem fork_below_and_behind :
    EveryStep (apply LogOp.smallSegments) (Holds LogOp.smallSegments) (rootWorld "root")
      [.write ["root"] 1 (bytes [10]), .write ["root"] 2 (bytes [11]),
        .write ["root"] 3 (bytes [12]), .fork ["root"] 2 "child" "",
        .write ["child", "root"] 2 (bytes [13]), .reopen ["root"],
        .fork ["child", "root"] 3 "leaf" "rest"] :=
  forks_preserve_history (by intro fold mode; cases mode) "root" _ (by decide)

end DiskOp

end Figwal.Disk
