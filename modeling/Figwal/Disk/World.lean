import Figwal.Lib.Assoc
import Figwal.Disk.History

/-!
# Directories

A store of nested logs: every log has a directory, and a fork's directory lies
in its parent's. A path lists directory names from the log's own upwards, so the
parent of `name :: up` is `up`.

A directory that is closed is opened by whoever uses it next. A fork's handle reads
through the handle of its parent, so handles are closed from below: when a log is
closed, or its records move to another directory, the handles on the forks below it
have been closed as well. `beside` marks a fork whose directory lies elsewhere and
which was opened with an explicit parent; it does not make that parent a branch point.
-/

namespace Figwal.Disk

open Figwal.Lib

set_option autoImplicit false

variable {α σ : Type}

abbrev Path := List String

inductive Handle (α σ : Type) where
  | opened (log : Log α σ)
  | closed (forkBase : Nat) (files : List (Segment α σ)) (subdirs : Bool)
  deriving DecidableEq, Repr

namespace Handle

def forkBase : Handle α σ → Nat
  | .opened log => log.forkBase
  | .closed forkBase _ _ => forkBase

def files : Handle α σ → List (Segment α σ)
  | .opened log => log.files
  | .closed _ files _ => files

def subdirs : Handle α σ → Bool
  | .opened log => log.subdirs
  | .closed _ _ subdirs => subdirs

/-- The live handle, or the one `Open` returns. -/
def log (opts : Options α σ) : Handle α σ → Except Err (Log α σ)
  | .opened log => .ok log
  | .closed forkBase files subdirs => openDir opts forkBase files subdirs

def close (handle : Handle α σ) : Handle α σ :=
  .closed handle.forkBase handle.files handle.subdirs

def records (handle : Handle α σ) : List α :=
  joined Segment.payloads handle.files

def Sound : Handle α σ → Prop
  | .opened log => log.Tidy
  | .closed forkBase files _ => Stacked (firstWritableAt forkBase) files

end Handle

structure Dir (α σ : Type) where
  beside : Bool
  handle : Handle α σ
  deriving DecidableEq, Repr

def Dir.close (dir : Dir α σ) : Dir α σ :=
  { dir with handle := dir.handle.close }

def Carried (before after : Dir α σ) : Prop :=
  after = before ∨ after = before.close

abbrev World (α σ : Type) := List (Path × Dir α σ)

namespace World

def find (world : World α σ) (path : Path) : Option (Dir α σ) :=
  world.lookup path

def put (world : World α σ) (path : Path) (dir : Dir α σ) : World α σ :=
  (path, dir) :: world

@[simp] theorem find_put (world : World α σ) (path other : Path) (dir : Dir α σ) :
    (world.put path dir).find other = if other = path then some dir else world.find other := by
  unfold find put
  rw [List.lookup_cons]
  by_cases same : other = path
  · simp [same]
  · have differ : (other == path) = false := by simpa using same
    rw [differ, if_neg same]

def chain (opts : Options α σ) (world : World α σ) : Path → Except Err (List (Log α σ))
  | [] => .error .notFound
  | name :: up =>
    match world.find (name :: up) with
    | none => .error .notFound
    | some dir =>
      match dir.handle.log opts with
      | .error err => .error err
      | .ok log =>
        if 0 < log.forkBase then
          match chain opts world up with
          | .error err => .error err
          | .ok parents => .ok (log :: parents)
        else .ok [log]

def history (world : World α σ) : Path → List α
  | [] => []
  | name :: up =>
    match world.find (name :: up) with
    | none => []
    | some dir =>
      splice (firstWritableAt dir.handle.forkBase) (history world up) dir.handle.records

/-- Every directory can be opened, holds records as the codec reads them back, and
starts no later than its parent ends. -/
structure Sound (codec : Codec α σ) (world : World α σ) : Prop where
  named : world.find [] = none
  usable : ∀ {path dir}, world.find path = some dir → dir.handle.Sound
  stored : ∀ {path dir}, world.find path = some dir →
    ∀ payload ∈ dir.handle.records, codec.stored payload = payload
  linked : ∀ {name up dir}, world.find (name :: up) = some dir → 0 < dir.handle.forkBase →
    world.find up ≠ none ∧ dir.handle.forkBase ≤ (world.history up).length + 1

end World

variable {handle : Handle α σ}

theorem Handle.Sound.stacked (sound : handle.Sound) :
    Stacked (firstWritableAt handle.forkBase) handle.files := by
  cases handle with
  | opened log => exact (Log.TidyFrom.stacked sound).1
  | closed forkBase files subdirs => exact sound

theorem Handle.Sound.close (sound : handle.Sound) : handle.close.Sound := sound.stacked

theorem Carried.same {before after : Dir α σ} (carried : Carried before after) :
    after.handle.forkBase = before.handle.forkBase ∧
      after.handle.records = before.handle.records ∧
      after.handle.subdirs = before.handle.subdirs ∧
      (before.handle.Sound → after.handle.Sound) := by
  rcases carried with rfl | rfl
  · exact ⟨rfl, rfl, rfl, id⟩
  · exact ⟨rfl, rfl, rfl, Handle.Sound.close⟩

theorem Handle.records_opened {log : Log α σ} (tidy : log.Tidy) :
    (Handle.opened log).records = log.own := tidy.stacked.2

theorem Handle.Sound.log {opts : Options α σ} (steady : opts.Steady) (sound : handle.Sound) :
    ∃ log, handle.log opts = .ok log ∧ log.Tidy ∧ log.own = handle.records ∧
      log.forkBase = handle.forkBase ∧ log.subdirs = handle.subdirs := by
  cases handle with
  | opened log => exact ⟨log, rfl, sound, (Log.TidyFrom.stacked sound).2.symm, rfl, rfl⟩
  | closed forkBase files subdirs =>
    obtain ⟨log, opened, tidy, own, base, _, kids, _⟩ := open_dir_spec steady sound subdirs
    exact ⟨log, opened, tidy, own, base, kids⟩

namespace World

variable {codec : Codec α σ} {dir : Dir α σ} {path : Path} {world : World α σ}

theorem history_cons {name : String} {up : Path} (found : world.find (name :: up) = some dir) :
    world.history (name :: up) =
      splice (firstWritableAt dir.handle.forkBase) (world.history up) dir.handle.records := by
  rw [history, found]

theorem history_tail (rooted : path ≠ []) (found : world.find path = some dir) :
    world.history path =
      splice (firstWritableAt dir.handle.forkBase) (world.history path.tail)
        dir.handle.records := by
  cases path with
  | nil => exact absurd rfl rooted
  | cons name up => exact history_cons found

/-- In a sound world every directory's chain opens and shows its history. -/
theorem chain_spec {opts : Options α σ} (steady : opts.Steady) (sound : world.Sound opts.codec)
    (found : world.find path = some dir) :
    ∃ log parents, world.chain opts path = .ok (log :: parents) ∧
      dir.handle.log opts = .ok log ∧ Chained (log :: parents) ∧
      visible (log :: parents) = world.history path := by
  induction path generalizing dir with
  | nil =>
    rw [sound.named] at found
    cases found
  | cons name up ih =>
    obtain ⟨log, usable, tidy, own, base, _⟩ := (sound.usable found).log steady
    have first : log.firstWritable = firstWritableAt dir.handle.forkBase := by
      rw [Log.firstWritable, base]
    rw [history_cons found, chain, found]
    simp only [usable]
    by_cases fork : 0 < log.forkBase
    · rw [base] at fork
      obtain ⟨present, fits⟩ := sound.linked found fork
      obtain ⟨upper, foundUp⟩ := Option.ne_none_iff_exists'.mp present
      obtain ⟨above, rest, opened, _, chained, shown⟩ := ih foundUp
      rw [base, if_pos fork, opened]
      refine ⟨log, above :: rest, rfl, rfl, ⟨tidy, ?_, chained⟩, ?_⟩
      · rw [shown, first, firstWritableAt, if_pos fork]
        exact fits
      · rw [visible, shown, own, first]
    · have zero : dir.handle.forkBase = 0 := by omega
      have one : firstWritableAt dir.handle.forkBase = 1 := by
        simp [zero, firstWritableAt]
      rw [if_neg fork]
      refine ⟨log, [], rfl, rfl, ⟨tidy, ?_, trivial⟩, ?_⟩
      · rw [first, one]
        simp [visible]
      · rw [visible, first, one, own]
        simp [splice]

theorem first_writable_fits (sound : world.Sound codec) {name : String} {up : Path}
    (found : world.find (name :: up) = some dir) :
    firstWritableAt dir.handle.forkBase ≤ (world.history up).length + 1 := by
  unfold firstWritableAt
  split_ifs with fork
  · exact (sound.linked found fork).2
  · omega

/-- What one changed directory does to every history: its own grows by `extra`
and no other moves. -/
theorem history_put (sound : world.Sound codec) {changed : Dir α σ}
    (found : world.find path = some dir) {extra : List α}
    (base : changed.handle.forkBase = dir.handle.forkBase)
    (grown : changed.handle.records = dir.handle.records ++ extra) (other : Path) :
    (world.put path changed).history other =
      if other = path then world.history other ++ extra else world.history other := by
  induction other with
  | nil =>
    rw [if_neg]
    · rfl
    · rintro rfl
      rw [sound.named] at found
      cases found
  | cons name up ih =>
    have fixed : ∀ held, world.find (name :: up) = some held →
        ∀ own, splice (firstWritableAt held.handle.forkBase)
          ((world.put path changed).history up) own =
          splice (firstWritableAt held.handle.forkBase) (world.history up) own := by
      intro held present own
      rw [ih]
      split_ifs with same
      · exact splice_of_prefix (first_writable_fits sound present) (List.prefix_append _ _)
      · rfl
    rw [history, find_put]
    by_cases same : name :: up = path
    · rw [if_pos same, if_pos same]
      rw [← same] at found
      simp only [base, grown]
      rw [fixed dir found, history_cons found, splice, splice, List.append_assoc]
    · rw [if_neg same, if_neg same]
      cases present : world.find (name :: up) with
      | none => rw [history, present]
      | some held =>
        rw [history_cons present]
        exact fixed held present _

/-- Replacing a directory's handle by a sound one on the same records and possibly
more keeps the world sound. -/
theorem sound_put (sound : world.Sound codec) {changed : Dir α σ}
    (found : world.find path = some dir) (extra : List α)
    (base : changed.handle.forkBase = dir.handle.forkBase)
    (grown : changed.handle.records = dir.handle.records ++ extra) (usable : changed.handle.Sound)
    (stored : ∀ payload ∈ extra, codec.stored payload = payload) :
    (world.put path changed).Sound codec := by
  have kept : ∀ {other held}, (world.put path changed).find other = some held →
      ∃ before, world.find other = some before ∧
        before.handle.forkBase = held.handle.forkBase := by
    intro other held present
    rw [find_put] at present
    split_ifs at present with same
    · cases present
      exact ⟨dir, same ▸ found, base.symm⟩
    · exact ⟨held, present, rfl⟩
  refine ⟨?_, ?_, ?_, ?_⟩
  · rw [find_put, if_neg]
    · exact sound.named
    · rintro rfl
      rw [sound.named] at found
      cases found
  · intro other held present
    rw [find_put] at present
    split_ifs at present with same
    · cases present
      exact usable
    · exact sound.usable present
  · intro other held present payload member
    rw [find_put] at present
    split_ifs at present with same
    · cases present
      rw [grown, List.mem_append] at member
      rcases member with old | new
      · exact sound.stored found payload old
      · exact stored payload new
    · exact sound.stored present payload member
  · intro name up held present fork
    obtain ⟨before, was, sameBase⟩ := kept present
    rw [← sameBase] at fork ⊢
    obtain ⟨parent, fits⟩ := sound.linked was fork
    refine ⟨?_, ?_⟩
    · rw [find_put]
      split_ifs with same
      · simp
      · exact parent
    · rw [history_put sound found base grown]
      split_ifs with same
      · rw [List.length_append]
        omega
      · exact fits

/-- `Write` through the handle of a directory, which is opened first if need be. -/
def write (opts : Options α σ) (world : World α σ) (path : Path) (idx : Nat) (payload : α) :
    Except Err Unit × World α σ :=
  match world.find path, world.chain opts path with
  | some dir, .ok (log :: parents) =>
    let done := log.write opts parents idx payload
    (done.1, world.put path { dir with handle := .opened done.2 })
  | _, _ => (.error .notFound, world)

/-- Some of the directories are closed. -/
def closeIf (gone : Path → Bool) (world : World α σ) : World α σ :=
  world.map fun entry => (entry.1, if gone entry.1 then entry.2.close else entry.2)

/-- The directory and the forks below it are closed. -/
def reopen (world : World α σ) (path : Path) : World α σ :=
  world.closeIf path.isSuffixOf

def reopenAll (world : World α σ) : World α σ :=
  world.closeIf fun _ => true

theorem write_sound {opts : Options α σ} (steady : opts.Steady) (sound : world.Sound opts.codec)
    (path : Path) (idx : Nat) (payload : α) :
    (world.write opts path idx payload).2.Sound opts.codec := by
  cases found : world.find path with
  | none => simpa [write, found] using sound
  | some dir =>
    obtain ⟨log, parents, opened, usable, chained, _⟩ := chain_spec steady sound found
    cases done : log.write opts parents idx payload with
    | mk result next =>
      have tidy := chained.1.write done
      obtain ⟨_, fork, failed, succeeded⟩ := Log.write_spec chained.1.numbered done
      obtain ⟨_, live, _, own, base, _⟩ := (sound.usable found).log steady
      rw [usable] at live
      cases live
      simp only [write, found, opened, done]
      have same : (Handle.opened next).forkBase = dir.handle.forkBase := fork.trans base
      cases result with
      | error err =>
        refine sound_put sound found [] same ?_ tidy (by simp)
        rw [Handle.records_opened tidy, (failed err rfl).1, own, List.append_nil]
      | ok _ =>
        refine sound_put sound found [opts.codec.stored payload] same ?_ tidy ?_
        · rw [Handle.records_opened tidy, (succeeded rfl).2, own]
        · simpa using opts.codec.stored_stored payload

section Closing

variable {gone : Path → Bool}

theorem find_close_if (path : Path) : (world.closeIf gone).find path =
    (world.find path).map fun dir => if gone path then dir.close else dir :=
  lookup_map_key Function.injective_id (fun path (dir : Dir α σ) =>
    if gone path then dir.close else dir) path world

theorem find_close_if_some (present : (world.closeIf gone).find path = some dir) :
    ∃ before, world.find path = some before ∧ Carried before dir := by
  rw [find_close_if] at present
  obtain ⟨before, was, shape⟩ := Option.map_eq_some_iff.mp present
  refine ⟨before, was, ?_⟩
  rw [← shape]
  split_ifs
  · exact Or.inr rfl
  · exact Or.inl rfl

theorem history_close_if (path : Path) :
    (world.closeIf gone).history path = world.history path := by
  induction path with
  | nil => rfl
  | cons name up ih =>
    rw [history, history, find_close_if, ih]
    cases world.find (name :: up) with
    | none => rfl
    | some dir =>
      simp only [Option.map_some]
      split_ifs <;> rfl

theorem close_if_sound (sound : world.Sound codec) : (world.closeIf gone).Sound codec := by
  refine ⟨?_, ?_, ?_, ?_⟩
  · rw [find_close_if, sound.named]
    rfl
  · intro path dir present
    obtain ⟨before, was, carried⟩ := find_close_if_some present
    exact carried.same.2.2.2 (sound.usable was)
  · intro path dir present payload member
    obtain ⟨before, was, carried⟩ := find_close_if_some present
    rw [carried.same.2.1] at member
    exact sound.stored was payload member
  · intro name up dir present fork
    obtain ⟨before, was, carried⟩ := find_close_if_some present
    rw [carried.same.1] at fork ⊢
    obtain ⟨parent, fits⟩ := sound.linked was fork
    rw [history_close_if, find_close_if]
    exact ⟨by simpa using parent, fits⟩

theorem find_reopen_all (world : World α σ) (path : Path) :
    world.reopenAll.find path = (world.find path).map Dir.close :=
  find_close_if path

end Closing

end World

end Figwal.Disk
