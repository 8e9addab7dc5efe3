import Figwal.Disk.ForkRuns

/-!
# Branch points stay frozen

A directory is a branch point because another directory lies in it, and nothing
else records it: `Open`, every `Write` and every `Fork` list the directory again.
The listing passes over names that begin with a dot, which `validateForkName`
accepts.
-/

namespace Figwal.Disk

open Figwal.Lib List

set_option autoImplicit false

variable {α σ : Type}

theorem Log.write_subdirs (opts : Options α σ) (parents : List (Log α σ)) (log : Log α σ)
    (idx : Nat) (payload : α) (frozen : log.subdirs = true) :
    log.write opts parents idx payload = (.error .readOnly, { log with readOnly := true }) := by
  unfold Log.write
  by_cases locked : log.readOnly = true
  · rw [if_pos locked]
    cases log
    cases locked
    rfl
  · rw [if_neg locked, if_pos frozen]

namespace World

variable {home path : Path} {name : String}

def hasSubdirs (world : World α σ) (home : Path) : Bool :=
  !(world.childSubdirs home).isEmpty

/-- `Write` through some handle on the directory, whatever the handle knows: the
directory is listed again on every write. -/
def writeThrough (opts : Options α σ) (world : World α σ) (home : Path) (handle : Log α σ)
    (parents : List (Log α σ)) (idx : Nat) (payload : α) : Except Err Unit × Log α σ :=
  { handle with subdirs := world.hasSubdirs home }.write opts parents idx payload

/-- Every write is refused and leaves the files as they were, whichever handle on
the directory it goes through. -/
def Frozen (opts : Options α σ) (world : World α σ) (home : Path) : Prop :=
  ∀ handle parents idx payload,
    (world.writeThrough opts home handle parents idx payload).1 = .error .readOnly ∧
      (world.writeThrough opts home handle parents idx payload).2.files = handle.files

/-- The records a directory shows are those read before, whether the logs above it are
opened again or their handles are still in use. -/
def Shows (opts : Options α σ) (world : World α σ) (path : Path) (before : List (Log α σ)) :
    Prop :=
  ∀ current ∈ [world, world.reopenAll], ∃ logs, current.chain opts path = .ok logs ∧
    (∀ idx payload, read logs idx = .ok payload ↔ read before idx = .ok payload) ∧
    ∀ start, range logs start = range before start

variable {world : World α σ}

theorem mem_child_subdirs (present : world.find (name :: home) ≠ none)
    (shown : isInternal name = false) : name ∈ world.childSubdirs home := by
  obtain ⟨dir, found⟩ := Option.ne_none_iff_exists'.mp present
  obtain ⟨before, after, shape, _⟩ := lookup_eq_some_iff.mp found
  unfold childSubdirs
  rw [mem_filterMap]
  exact ⟨(name :: home, dir), by rw [shape]; simp, by simp [shown]⟩

theorem has_subdirs_of_child (present : world.find (name :: home) ≠ none)
    (shown : isInternal name = false) : world.hasSubdirs home = true := by
  have listed := mem_child_subdirs present shown
  rw [hasSubdirs, Bool.not_eq_true', isEmpty_eq_false_iff]
  exact ne_nil_of_mem listed

theorem frozen_of_child (opts : Options α σ) (present : world.find (name :: home) ≠ none)
    (shown : isInternal name = false) : world.Frozen opts home := by
  intro handle parents idx payload
  have refused := Log.write_subdirs opts parents
    { handle with subdirs := world.hasSubdirs home } idx payload
    (has_subdirs_of_child present shown)
  rw [writeThrough, refused]
  exact ⟨rfl, rfl⟩

def Listed (world : World α σ) : Prop :=
  ∀ path dir name, world.find path = some dir → world.find (name :: path) ≠ none →
    dir.handle.subdirs = true

theorem Listed.put (listed : world.Listed) {dir changed : Dir α σ}
    (found : world.find path = some dir)
    (same : dir.handle.subdirs = true → changed.handle.subdirs = true) :
    (world.put path changed).Listed := by
  have kept : ∀ other, (world.put path changed).find other ≠ none → world.find other ≠ none := by
    intro other present
    rw [find_put] at present
    split_ifs at present with here
    · rw [here, found]
      simp
    · exact present
  intro other held name present inside
  have insideBefore := kept _ inside
  rw [find_put] at present
  split_ifs at present with here
  · cases present
    rw [here] at insideBefore
    exact same (listed path dir name found insideBefore)
  · exact listed other held name present insideBefore

theorem Listed.closeIf (listed : world.Listed) (gone : Path → Bool) :
    (world.closeIf gone).Listed := by
  intro path dir name present inside
  obtain ⟨before, was, carried⟩ := find_close_if_some present
  rw [carried.same.2.2.1]
  refine listed path before name was ?_
  rw [find_close_if] at inside
  simpa using inside

theorem write_listed {opts : Options α σ} (steady : opts.Steady) (sound : world.Sound opts.codec)
    (listed : world.Listed) (path : Path) (idx : Nat) (payload : α) :
    (world.write opts path idx payload).2.Listed := by
  cases found : world.find path with
  | none => simpa [write, found] using listed
  | some dir =>
    obtain ⟨log, parents, opened, usable, _, _⟩ := chain_spec steady sound found
    obtain ⟨_, live, _, _, _, kids⟩ := (sound.usable found).log steady
    rw [usable] at live
    cases live
    simp only [write, found, opened]
    apply listed.put found
    intro branched
    rw [Log.write_subdirs opts parents log idx payload (kids.trans branched)]
    exact kids.trans branched

theorem write_refused {opts : Options α σ} (steady : opts.Steady) (sound : world.Sound opts.codec)
    (listed : world.Listed) (inside : world.find (name :: path) ≠ none)
    (present : world.find path ≠ none) (idx : Nat) (payload : α) :
    (world.write opts path idx payload).1 = .error .readOnly := by
  obtain ⟨dir, found⟩ := Option.ne_none_iff_exists'.mp present
  obtain ⟨log, parents, opened, usable, _, _⟩ := chain_spec steady sound found
  obtain ⟨_, live, _, _, _, kids⟩ := (sound.usable found).log steady
  rw [usable] at live
  cases live
  simp only [write, found, opened]
  rw [Log.write_subdirs opts parents log idx payload
    (kids.trans (listed path dir name found inside))]

def Branching (world : World α σ) : Prop :=
  ∀ name up dir, world.find (name :: up) = some dir → up = [] ∨ 0 < dir.handle.forkBase

theorem Branching.put (branching : world.Branching) {dir changed : Dir α σ}
    (found : world.find path = some dir) (base : changed.handle.forkBase = dir.handle.forkBase) :
    (world.put path changed).Branching := by
  intro name up held present
  rw [find_put] at present
  split_ifs at present with here
  · cases present
    rw [base]
    exact branching name up dir (here ▸ found)
  · exact branching name up held present

theorem Branching.closeIf (branching : world.Branching) (gone : Path → Bool) :
    (world.closeIf gone).Branching := by
  intro name up dir present
  obtain ⟨before, was, carried⟩ := find_close_if_some present
  rw [carried.same.1]
  exact branching name up before was

theorem Branching.above {codec : Codec α σ} (branching : world.Branching)
    (sound : world.Sound codec) {up : Path} (rooted : up ≠ [])
    (present : world.find (name :: up) ≠ none) : world.find up ≠ none := by
  obtain ⟨dir, found⟩ := Option.ne_none_iff_exists'.mp present
  rcases branching name up dir found with alone | fork
  · exact absurd alone rooted
  · exact (sound.linked found fork).1

end World

namespace ForkStep

variable {codec : Codec α σ} {world : World α σ} {home : Path} {dir : Dir α σ}
  {log : Log α σ} {atIdx : Nat} {child old : String} {parts : ForkParts α σ}

section After

variable (step : ForkStep codec world home dir log atIdx child old parts)

include step

theorem find_old_listed (created : parts.createOld = true) :
    step.after.find (old :: home) = some ⟨false, .closed atIdx parts.oldFiles
      (parts.dataMoves && world.hasSubdirs home)⟩ := by
  have apart : old :: home ≠ child :: home := by
    intro same
    exact step.distinct (List.cons.inj same).1.symm
  unfold after World.forkedWorld
  simp only [World.find_put, if_neg apart, created, if_true]
  rfl

/-- What lies in a directory after the fork was moved there with it, or is one of
the two branches. -/
theorem inside_after {path : Path} {name : String}
    (inside : step.after.find (name :: path) ≠ none) :
    path = home ∨
      (parts.dataMoves = true ∧ path = old :: home ∧ world.find (name :: home) ≠ none) ∨
      ∃ source, path = rehomed home old parts.dataMoves source ∧ source ≠ home ∧
        world.find (name :: source) ≠ none := by
  obtain ⟨next, found⟩ := Option.ne_none_iff_exists'.mp inside
  rcases step.find_after_cases found with
    ⟨place, _⟩ | ⟨_, place, _⟩ | ⟨place, _⟩ | ⟨source, before, apart, place, was, _⟩
  · exact Or.inl (List.cons.inj place).2
  · exact Or.inl (List.cons.inj place).2
  · -- the forked log itself lies in its parent, which does not move
    have outside := step.outside_above
    have tail : path = home.tail := by rw [← place]; rfl
    refine Or.inr (Or.inr ⟨home.tail, ?_, outside.2, ?_⟩)
    · rw [rehomed_outside outside.1]
      exact tail
    · rw [← tail, place, step.found]
      simp
  · cases source with
    | nil =>
      rw [step.sound.named] at was
      cases was
    | cons first up =>
      by_cases direct : up = home
      · rw [direct, rehomed_child] at place
        obtain ⟨rfl, rest⟩ := List.cons.inj place
        rw [direct] at was
        cases moves : parts.dataMoves with
        | true =>
          rw [moves, if_pos rfl] at rest
          exact Or.inr (Or.inl ⟨rfl, rest, by rw [was]; simp⟩)
        | false =>
          rw [moves] at rest
          exact Or.inl rest
      · rw [rehomed_cons direct] at place
        obtain ⟨rfl, rest⟩ := List.cons.inj place
        exact Or.inr (Or.inr ⟨up, rest, direct, by rw [was]; simp⟩)

theorem listed_after (listed : world.Listed) (branching : world.Branching) :
    step.after.Listed := by
  intro path next name present inside
  rcases step.inside_after inside with rfl | ⟨moves, rfl, was⟩ | ⟨source, place, apart, was⟩
  · rw [step.find_home] at present
    cases present
    simp [cutDir, Handle.subdirs, Log.forked, step.shownChild]
  · have known := step.find_old_listed (step.holds.created moves)
    obtain ⟨held, found⟩ := Option.ne_none_iff_exists'.mp was
    have shown : isInternal name = false := by
      apply step.plain.shown found
      obtain ⟨first, rest, shape⟩ := exists_cons_of_ne_nil step.home_ne_nil
      simp [shape]
    rw [known] at present
    cases present
    simp [Handle.subdirs, moves, World.has_subdirs_of_child was shown]
  · cases source with
    | nil =>
      have outside : ¬Inside home [] := by
        rintro ⟨below, some, shape⟩
        exact some (append_eq_nil_iff.mp shape.symm).1
      rw [place, rehomed_outside outside, step.sound_after.named] at present
      cases present
    | cons first up =>
      have above := branching.above step.sound (cons_ne_nil first up) was
      obtain ⟨before, found⟩ := Option.ne_none_iff_exists'.mp above
      obtain ⟨after, now, carried⟩ := step.find_rehomed apart found
      rw [← place, present] at now
      cases now
      rw [carried.same.2.2.1]
      exact listed (first :: up) before name found was

theorem branching_after (branching : world.Branching) : step.after.Branching := by
  intro name up next present
  rcases step.find_after_cases present with
    ⟨_, rfl⟩ | ⟨_, _, _, rfl⟩ | ⟨place, rfl⟩ | ⟨source, before, _, place, was, carried⟩
  · exact Or.inr step.positive
  · exact Or.inr step.positive
  · have base : (cutDir dir log child old parts).handle.forkBase = dir.handle.forkBase :=
      step.base
    rw [base]
    exact branching name up dir (place ▸ step.found)
  · rw [carried.same.1]
    cases source with
    | nil =>
      rw [step.sound.named] at was
      cases was
    | cons first rest =>
      refine (branching first rest before was).imp ?_ id
      rintro rfl
      have outside : ¬Inside home [first] := by
        rw [inside_cons]
        rintro (same | ⟨below, some, shape⟩)
        · exact step.home_ne_nil same.symm
        · exact some (append_eq_nil_iff.mp shape.symm).1
      rw [rehomed_outside outside] at place
      exact (List.cons.inj place).2

theorem moves_iff : parts.dataMoves = true ↔ atIdx ≤ (world.history home).length := by
  have length : (world.history home).length + 1 = log.firstWritable + log.own.length := by
    rw [step.history_before]
    exact splice_length (Log.first_writable_pos log) step.first_fits
  rw [step.holds.moves]
  omega

theorem child_gone (moves : parts.dataMoves = true) {kid : String}
    (was : world.find (kid :: home) ≠ none) : step.after.find (kid :: home) = none := by
  by_contra present
  obtain ⟨next, found⟩ := Option.ne_none_iff_exists'.mp present
  rcases step.find_after_cases found with
    ⟨place, _⟩ | ⟨created, place, _⟩ | ⟨place, _⟩ | ⟨source, _, _, place, _⟩
  · rw [place] at was
    exact was step.vacantChild
  · rw [place] at was
    exact was (step.vacantOld created)
  · exact home_ne_below home kid place.symm
  · rw [moves] at place
    exact rehomed_ne_child kid place.symm

end After

theorem child_shows {opts : Options α σ} (steady : opts.Steady)
    (step : ForkStep opts.codec world home dir log atIdx child old parts) {kid : String}
    {before : List (Log α σ)} (opened : world.chain opts (kid :: home) = .ok before) :
    step.after.Shows opts (rehomed home old parts.dataMoves (kid :: home)) before := by
  obtain ⟨present, chained, shown⟩ := World.chain_reads steady step.sound opened
  have apart : kid :: home ≠ home := fun same => home_ne_below home kid same.symm
  obtain ⟨was, found⟩ := Option.ne_none_iff_exists'.mp present
  obtain ⟨next, now, _⟩ := step.find_rehomed apart found
  have kept := step.history_rehomed apart present
  have shows : ∀ (current : World α σ) (held : Dir α σ), current.Sound opts.codec →
      current.find (rehomed home old parts.dataMoves (kid :: home)) = some held →
      current.history (rehomed home old parts.dataMoves (kid :: home)) =
        world.history (kid :: home) →
      ∃ logs, current.chain opts (rehomed home old parts.dataMoves (kid :: home)) = .ok logs ∧
        (∀ idx payload, read logs idx = .ok payload ↔ read before idx = .ok payload) ∧
        ∀ start, range logs start = range before start := by
    intro current held sound here same
    obtain ⟨first, parents, reached, _, linked, nextShown⟩ := World.chain_spec steady sound here
    have equal : visible (first :: parents) = visible before := by
      rw [nextShown, same, shown]
    refine ⟨_, reached, World.reads_iff linked chained equal, ?_⟩
    intro start
    rw [range_visible linked, range_visible chained, equal]
  intro current member
  rcases mem_cons.mp member with rfl | fresh
  · exact shows _ next step.sound_after now kept
  · rw [mem_singleton.mp fresh]
    refine shows _ next.close (World.close_if_sound step.sound_after) ?_ ?_
    · rw [World.find_reopen_all, now]
      rfl
    · rw [World.reopenAll, World.history_close_if]
      exact kept

end ForkStep

/-!
## Runs
-/

/-- What an accepted fork promises of the branch point it makes or cuts again. -/
structure World.BranchPoint (opts : Options α σ) (world : World α σ) (home : Path) (atIdx : Nat)
    (child old : String) (next : World α σ) : Prop where
  created : next.find (child :: home) ≠ none
  frozen : ∀ later : World α σ, later.find (child :: home) ≠ none → later.Frozen opts home
  interior : ∀ trunk payload, world.chain opts home = .ok trunk →
    read trunk atIdx = .ok payload →
    ∀ kid before, world.chain opts (kid :: home) = .ok before →
      next.find (kid :: home) = none ∧ next.Shows opts (kid :: old :: home) before
  behind : ∀ trunk, world.chain opts home = .ok trunk →
    (∀ payload, read trunk atIdx ≠ .ok payload) →
    ∀ kid before, world.chain opts (kid :: home) = .ok before →
      next.Shows opts (kid :: home) before

theorem ForkStep.branch_point {opts : Options α σ} (steady : opts.Steady) {world : World α σ}
    {home : Path} {dir : Dir α σ} {log : Log α σ} {atIdx : Nat} {child old : String}
    {parts : ForkParts α σ}
    (step : ForkStep opts.codec world home dir log atIdx child old parts) :
    world.BranchPoint opts home atIdx child old step.after := by
  have cut : ∀ {trunk}, world.chain opts home = .ok trunk →
      ((∃ payload, read trunk atIdx = .ok payload) ↔ parts.dataMoves = true) := by
    intro trunk opened
    obtain ⟨_, chained, shown⟩ := World.chain_reads steady step.sound opened
    have positive := step.positive
    rw [step.moves_iff, ← shown]
    constructor
    · rintro ⟨payload, held⟩
      obtain ⟨_, some⟩ := (read_visible chained atIdx payload).mp held
      obtain ⟨bound, _⟩ := List.getElem?_eq_some_iff.mp some
      omega
    · intro bound
      refine ⟨(visible trunk)[atIdx - 1], (read_visible chained atIdx _).mpr ⟨positive, ?_⟩⟩
      exact getElem?_eq_getElem _
  refine ⟨?_, ?_, ?_, ?_⟩
  · rw [step.find_child]
    simp
  · intro later present
    exact World.frozen_of_child opts present step.shownChild
  · intro trunk payload opened held kid before reached
    have moves := (cut opened).mp ⟨payload, held⟩
    have shows := step.child_shows steady reached
    rw [rehomed_child, if_pos moves] at shows
    exact ⟨step.child_gone moves (World.chain_reads steady step.sound reached).1, shows⟩
  · intro trunk opened none kid before reached
    have still : ¬parts.dataMoves = true := by
      intro moves
      obtain ⟨payload, held⟩ := (cut opened).mpr moves
      exact none payload held
    have shows := step.child_shows steady reached
    rw [rehomed_child, if_neg still] at shows
    exact shows

namespace DiskOp

/-- No write to a directory with another one in it succeeds, and every accepted
fork makes a lasting branch point. -/
def KeepsFrozen (opts : Options α σ) (world : World α σ) : DiskOp α → Prop
  | .write path idx payload => ∀ name, world.find (name :: path) ≠ none →
      (world.write opts path idx payload).1 ≠ .ok ()
  | .reopen _ => True
  | .fork home atIdx childName oldFutureName =>
    (world.fork opts home atIdx childName oldFutureName).1 = .ok () →
      world.BranchPoint opts home atIdx childName (World.oldFuture home oldFutureName)
        (world.fork opts home atIdx childName oldFutureName).2

/-- What every admitted step keeps: the listings agree with the directories. -/
structure Kept (opts : Options α σ) (world : World α σ) : Prop where
  sound : world.Sound opts.codec
  plain : world.Plain
  listed : world.Listed
  branching : world.Branching

theorem Kept.write {opts : Options α σ} (steady : opts.Steady) {world : World α σ}
    (kept : Kept opts world) (path : Path) (idx : Nat) (payload : α) :
    Kept opts (world.write opts path idx payload).2 := by
  refine ⟨World.write_sound steady kept.sound path idx payload,
    write_plain opts kept.plain path idx payload,
    World.write_listed steady kept.sound kept.listed path idx payload, ?_⟩
  cases found : world.find path with
  | none => simpa [World.write, found] using kept.branching
  | some dir =>
    obtain ⟨log, parents, opened, usable, chained, _⟩ :=
      World.chain_spec steady kept.sound found
    obtain ⟨_, live, _, _, base, _⟩ := (kept.sound.usable found).log steady
    rw [usable] at live
    cases live
    cases done : log.write opts parents idx payload with
    | mk result next =>
      obtain ⟨_, fork, _⟩ := Log.write_spec chained.1.numbered done
      simp only [World.write, found, opened, done]
      exact kept.branching.put found (fork.trans base)

theorem Kept.reopen {opts : Options α σ} {world : World α σ} (kept : Kept opts world)
    (path : Path) : Kept opts (world.reopen path) :=
  ⟨World.close_if_sound kept.sound, kept.plain.closeIf _, kept.listed.closeIf _,
    kept.branching.closeIf _⟩

theorem Kept.fork {opts : Options α σ} (steady : opts.Steady) {world : World α σ}
    (kept : Kept opts world) {home : Path} {atIdx : Nat} {childName oldFutureName : String}
    (admitted : Admitted opts world (.fork home atIdx childName oldFutureName)) :
    KeepsFrozen opts world (.fork home atIdx childName oldFutureName) ∧
      Kept opts (apply opts world (.fork home atIdx childName oldFutureName)) := by
  have ⟨_, sound, plain⟩ := fork_admitted steady kept.sound kept.plain admitted
  have safe := admitted.2
  obtain ⟨⟨shownChild, shownOld, _⟩, _⟩ := admitted
  cases done : world.fork opts home atIdx childName oldFutureName with
  | mk result next =>
    simp only [done] at safe
    simp only [apply, done] at sound plain
    simp only [KeepsFrozen, apply, done]
    rcases World.fork_cases steady kept.sound done with
      ⟨err, rfl, rfl | ⟨dir, log, parents, found, _, live, rfl⟩⟩ |
      ⟨rfl, dir, log, parents, parts, found, opened, live, distinct, valid, freeChild, planned,
        freeOld, rfl⟩
    · exact ⟨by simp, kept⟩
    · obtain ⟨_, used, tidy, _, base, kids⟩ := (kept.sound.usable found).log steady
      rw [live] at used
      cases used
      obtain ⟨_, _, _, sameBase⟩ := Log.seal_for_fork_spec tidy.numbered
      refine ⟨by simp, sound, plain, kept.listed.put found ?_,
        kept.branching.put found (sameBase.trans base)⟩
      intro branched
      rw [← kids] at branched
      rw [Log.sealForFork]
      split_ifs
      · rw [Log.sealActive]
        split <;> exact branched
      · exact branched
    · have cut : atIdx = log.expected ∨ log.filled = true := by
        have checked := safe rfl
        simpa [World.forkSafe, opened] using checked
      have step := World.fork_step steady kept.sound found live valid cut planned freeChild
        freeOld distinct kept.plain shownChild shownOld
      exact ⟨fun _ => step.branch_point steady, step.sound_after, step.plain_after,
        step.listed_after kept.listed kept.branching, step.branching_after kept.branching⟩

theorem root_world_kept (opts : Options α σ) (name : String) :
    Kept opts (rootWorld name : World α σ) := by
  have only : ∀ {path}, (rootWorld name : World α σ).find path ≠ none → path = [name] := by
    intro path present
    have same : (rootWorld name : World α σ) =
        World.put [] [name] ⟨false, .opened (Log.blank 0)⟩ := rfl
    rw [same, World.find_put] at present
    by_contra apart
    rw [if_neg apart] at present
    exact present rfl
  refine ⟨root_world_sound opts.codec name, root_world_plain name, ?_, ?_⟩
  · intro path dir inner found inside
    have here := only (by rw [found]; simp)
    have there := only inside
    rw [here] at there
    cases there
  · intro inner up dir found
    exact Or.inl (List.cons.inj (only (by rw [found]; simp))).2

/-- In every run whose forks take names that do not begin with a dot and cut behind
the last record or find no unused file, branch points stay frozen. -/
theorem branch_points_stay_frozen {opts : Options α σ} (steady : opts.Steady) (name : String)
    (run : List (DiskOp α))
    (admitted : EveryStep (apply opts) (Admitted opts) (rootWorld name) run) :
    EveryStep (apply opts) (KeepsFrozen opts) (rootWorld name) run := by
  refine every_step_of_invariant (apply opts) (Kept opts) ?_ (root_world_kept opts name) admitted
  intro world op kept fits
  cases op with
  | write path idx payload =>
    refine ⟨?_, kept.write steady path idx payload⟩
    intro inner inside accepted
    by_cases present : world.find path = none
    · simp [World.write, present] at accepted
    · rw [World.write_refused steady kept.sound kept.listed inside present] at accepted
      cases accepted
  | reopen path => exact ⟨trivial, kept.reopen path⟩
  | fork home atIdx childName oldFutureName => exact kept.fork steady fits

/-- A log that is forked under a name with a dot, opened again and written. -/
def hiddenWrite : List (DiskOp Bytes) :=
  [.write ["root"] 1 (bytes [10]), .write ["root"] 2 (bytes [11]), .fork ["root"] 3 ".side" "",
    .reopen ["root"], .write ["root"] 3 (bytes [12])]

def hiddenCut : List (DiskOp Bytes) :=
  [.write ["root"] 1 (bytes [10]), .write ["root"] 2 (bytes [11]), .fork ["root"] 3 ".side" "",
    .fork ["root"] 2 "child" ""]

def leftoverCut : List (DiskOp Bytes) :=
  [.write ["root"] 1 (bytes [10]), .write ["root"] 2 (bytes [11]),
    .write ["root"] 3 (bytes (List.replicate 20 0)), .fork ["root"] 3 "kid" "",
    .fork ["root"] 2 "child" ""]

def sideBefore : World Bytes Bytes :=
  ([.write ["root"] 1 (bytes [10]), .write ["root"] 2 (bytes [11]),
    .fork ["root"] 3 "side" ""] : List (DiskOp Bytes)).foldl (apply LogOp.smallSegments)
      (rootWorld "root")

def sideAfter : World Bytes Bytes :=
  apply LogOp.smallSegments sideBefore (.fork ["root"] 2 "child" "")

/-- The child with a dot neither freezes its parent nor moves with the records it
inherits, an unused segment hides inherited records from a child that moved, and a handle
that a moved child had before reads on through the log that was cut. -/
theorem hidden_child_thaws :
    (∃ side root cut, sideBefore.chain LogOp.smallSegments ["side", "root"] = .ok [side, root] ∧
      read [side, root] 2 = .ok (bytes [11]) ∧
      sideAfter.chain LogOp.smallSegments ["root"] = .ok [cut] ∧
      read [side, cut] 2 = .error .notFound) ∧
    validateForkName ".side" = true ∧
      ¬EveryStep (apply LogOp.smallSegments) (KeepsFrozen LogOp.smallSegments) (rootWorld "root")
        hiddenWrite ∧
      ¬EveryStep (apply LogOp.smallSegments) (KeepsFrozen LogOp.smallSegments) (rootWorld "root")
        hiddenCut ∧
      ¬EveryStep (apply LogOp.smallSegments) (KeepsFrozen LogOp.smallSegments) (rootWorld "root")
        leftoverCut := by
  refine ⟨⟨_, _, _, rfl, by decide, rfl, by decide⟩, by decide, ?_, ?_, ?_⟩
  · intro good
    exact good.2.2.2.2.1 ".side" (by decide) (by decide)
  · intro good
    have cut := good.2.2.2.1 (by decide)
    have moved := (cut.interior _ (bytes [11]) rfl (by decide) ".side" _ rfl).1
    exact absurd moved (by decide)
  · intro good
    have cut := good.2.2.2.2.1 (by decide)
    have shows := (cut.interior _ (bytes [11]) rfl (by decide) "kid" _ rfl).2
    obtain ⟨logs, reached, _, same⟩ := shows _ (mem_cons_of_mem _ mem_cons_self)
    have observed : ((leftoverCut.foldl (apply LogOp.smallSegments)
        (rootWorld "root")).reopenAll.chain LogOp.smallSegments ["kid", "root", "root"]).map
          (fun logs => (range logs 1).seen) = .ok [(1, bytes [10])] := by decide
    have known : (leftoverCut.foldl (apply LogOp.smallSegments)
        (rootWorld "root")).reopenAll.chain LogOp.smallSegments ["kid", "root", "root"] =
          .ok logs := reached
    rw [known] at observed
    have short : (range logs 1).seen = [(1, bytes [10])] := Except.ok.inj observed
    rw [same 1] at short
    exact absurd short (by decide)

theorem frozen_above_and_below :
    EveryStep (apply LogOp.smallSegments) (KeepsFrozen LogOp.smallSegments) (rootWorld "root")
      [.write ["root"] 1 (bytes [10]), .write ["root"] 2 (bytes [11]), .fork ["root"] 3 "side" "",
        .write ["root"] 3 (bytes [12]), .reopen ["root"], .write ["root"] 3 (bytes [12]),
        .fork ["root"] 2 "child" "rest", .write ["side", "rest", "root"] 3 (bytes [13])] :=
  branch_points_stay_frozen (by intro fold mode; cases mode) "root" _ (by decide)

end DiskOp

end Figwal.Disk
