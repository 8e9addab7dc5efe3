import Figwal.Lib.Assoc
import Figwal.Disk.ForkParts

/-!
# The directories after a fork

`ForkStep` collects what is known of an accepted fork that leaves a tidy handle
behind. From it follows what every directory stands for afterwards: the log
keeps its part below the cut, the old future reads as the log did, the child
starts from the part below the cut, and every other directory reads the same
from its old or its new place.
-/

namespace Figwal.Disk

open Figwal.Lib List

set_option autoImplicit false

variable {α σ : Type} {home path : Path}

/-!
## Moving directories
-/

/-- The path lies strictly inside `home`. -/
def Inside (home path : Path) : Prop :=
  ∃ below, below ≠ [] ∧ path = below ++ home

/-- Where a directory goes if everything strictly inside `home` moves. -/
def sunk (home : Path) (old : String) (path : Path) : Path :=
  if home.length < path.length ∧ path.drop (path.length - home.length) = home then
    path.take (path.length - home.length) ++ old :: home
  else path

theorem sunk_inside (old : String) {below : Path} (some : below ≠ []) :
    sunk home old (below ++ home) = below ++ old :: home := by
  have length : 0 < below.length := length_pos_iff.mpr some
  have size : (below ++ home).length - home.length = below.length := by
    rw [length_append]
    omega
  unfold sunk
  rw [if_pos, size, take_left]
  rw [size, drop_left, length_append]
  exact ⟨by omega, rfl⟩

theorem inside_of_ends (longer : home.length < path.length)
    (ends : path.drop (path.length - home.length) = home) : Inside home path := by
  refine ⟨path.take (path.length - home.length), ?_, ?_⟩
  · intro none
    have length := congrArg List.length none
    rw [length_take, length_nil] at length
    omega
  · conv_lhs => rw [← take_append_drop (path.length - home.length) path, ends]

theorem sunk_outside (old : String) (outside : ¬Inside home path) : sunk home old path = path := by
  unfold sunk
  rw [if_neg]
  rintro ⟨longer, ends⟩
  exact outside (inside_of_ends longer ends)

theorem inside_cons {name : String} {up : Path} :
    Inside home (name :: up) ↔ up = home ∨ Inside home up := by
  constructor
  · rintro ⟨below, some, shape⟩
    cases below with
    | nil => exact absurd rfl some
    | cons head rest =>
      have tail : up = rest ++ home := (List.cons.inj shape).2
      by_cases last : rest = []
      · exact Or.inl (by rw [tail, last]; rfl)
      · exact Or.inr ⟨rest, last, tail⟩
  · rintro (rfl | ⟨below, _, rfl⟩)
    · exact ⟨[name], by simp, rfl⟩
    · exact ⟨name :: below, by simp, rfl⟩

theorem not_inside_self (home : Path) : ¬Inside home home := by
  rintro ⟨below, some, shape⟩
  have length := congrArg List.length shape
  rw [length_append] at length
  exact some (length_eq_zero_iff.mp (by omega))

def World.Plain (world : World α σ) : Prop :=
  ∀ entry ∈ world, ∀ name ∈ entry.1.dropLast, isInternal name = false

variable {world : World α σ}

theorem World.Plain.shown (plain : world.Plain) {dir : Dir α σ}
    (found : world.find path = some dir) : ∀ name ∈ path.dropLast, isInternal name = false := by
  obtain ⟨before, after, shape, _⟩ := lookup_eq_some_iff.mp found
  exact plain (path, dir) (by rw [shape]; simp)

theorem World.Plain.put (plain : world.Plain) (dir : Dir α σ)
    (shown : ∀ name ∈ path.dropLast, isInternal name = false) : (world.put path dir).Plain := by
  intro entry member
  rcases mem_cons.mp member with rfl | old
  · exact shown
  · exact plain entry old

theorem World.Plain.closeIf (plain : world.Plain) (gone : Path → Bool) :
    (world.closeIf gone).Plain := by
  intro entry member
  obtain ⟨before, old, rfl⟩ := mem_map.mp member
  exact plain before old

theorem relocate_shown (rooted : home ≠ []) (old : String)
    (shown : ∀ name ∈ path.dropLast, isInternal name = false) :
    relocate home old path = sunk home old path := by
  by_cases inside : Inside home path
  · obtain ⟨below, some, rfl⟩ := inside
    have length : 0 < below.length := length_pos_iff.mpr some
    have size : (below ++ home).length - home.length = below.length := by
      rw [length_append]
      omega
    have next : (below ++ home).getD (below.length - 1) "" ∈ (below ++ home).dropLast := by
      rw [dropLast_append_of_ne_nil rooted, getD_eq_getElem?_getD,
        getElem?_append_left (by omega), getElem?_eq_getElem (by omega)]
      exact mem_append_left _ (getElem_mem _)
    unfold relocate
    simp only [size]
    rw [sunk_inside old some, if_pos, take_left]
    exact ⟨by rw [length_append]; omega, drop_left, shown _ next⟩
  · rw [sunk_outside old inside]
    unfold relocate
    rw [if_neg]
    rintro ⟨longer, ends, _⟩
    exact inside (inside_of_ends longer ends)

def rehomed (home : Path) (old : String) (moves : Bool) (path : Path) : Path :=
  if moves then sunk home old path else path

section Rehomed

variable {home : Path} {old : String} {moves : Bool} {path : Path}

theorem rehomed_outside (outside : ¬Inside home path) : rehomed home old moves path = path := by
  unfold rehomed
  split_ifs
  · exact sunk_outside old outside
  · rfl

theorem rehomed_cons {name : String} {up : Path} (apart : up ≠ home) :
    rehomed home old moves (name :: up) = name :: rehomed home old moves up := by
  by_cases inside : Inside home up
  · obtain ⟨below, some, rfl⟩ := inside
    unfold rehomed
    split_ifs
    · rw [← cons_append, sunk_inside old (by simp), sunk_inside old some]
      rfl
    · rfl
  · rw [rehomed_outside inside, rehomed_outside]
    rw [inside_cons]
    rintro (same | deeper)
    · exact apart same
    · exact inside deeper

theorem rehomed_child (name : String) :
    rehomed home old moves (name :: home) =
      name :: if moves then old :: home else home := by
  unfold rehomed
  split_ifs with moving
  · exact sunk_inside old (cons_ne_nil name [])
  · rfl

theorem rehomed_ne_child (name : String) : rehomed home old true path ≠ name :: home := by
  intro same
  by_cases inside : Inside home path
  · obtain ⟨below, some, rfl⟩ := inside
    rw [rehomed, if_pos rfl, sunk_inside old some] at same
    have length := congrArg List.length same
    have filled : 0 < below.length := length_pos_iff.mpr some
    simp only [length_append, length_cons] at length
    omega
  · rw [rehomed_outside inside] at same
    exact inside (same ▸ inside_cons.mpr (Or.inl rfl))

theorem rehomed_ne_home (apart : path ≠ home) : rehomed home old moves path ≠ home := by
  by_cases inside : Inside home path
  · obtain ⟨below, some, rfl⟩ := inside
    unfold rehomed
    split_ifs
    · intro same
      rw [sunk_inside old some] at same
      have length := congrArg List.length same
      simp only [length_append, length_cons] at length
      omega
    · exact apart
  · rw [rehomed_outside inside]
    exact apart

theorem sunk_injective (home : Path) (old : String) :
    Function.Injective (sunk home old) := by
  intro left right same
  by_cases leftIn : Inside home left <;> by_cases rightIn : Inside home right
  · obtain ⟨below, someBelow, rfl⟩ := leftIn
    obtain ⟨other, someOther, rfl⟩ := rightIn
    rw [sunk_inside old someBelow, sunk_inside old someOther] at same
    rw [append_cancel_right same]
  · obtain ⟨below, someBelow, rfl⟩ := leftIn
    rw [sunk_inside old someBelow, sunk_outside old rightIn] at same
    exact absurd ⟨below ++ [old], by simp, by rw [← same]; simp⟩ rightIn
  · obtain ⟨other, someOther, rfl⟩ := rightIn
    rw [sunk_inside old someOther, sunk_outside old leftIn] at same
    exact absurd ⟨other ++ [old], by simp, by rw [same]; simp⟩ leftIn
  · rwa [sunk_outside old leftIn, sunk_outside old rightIn] at same

end Rehomed

/-!
## The directories after a fork
-/

/-- What is known of a fork that was accepted and leaves a tidy handle behind. -/
structure ForkStep (codec : Codec α σ) (world : World α σ) (home : Path) (dir : Dir α σ)
    (log : Log α σ) (atIdx : Nat) (child old : String) (parts : ForkParts α σ) : Prop where
  sound : world.Sound codec
  found : world.find home = some dir
  base : log.forkBase = dir.handle.forkBase
  records : log.own = dir.handle.records
  low : log.firstWritable ≤ atIdx
  high : atIdx ≤ log.firstWritable + log.own.length
  holds : parts.Holds log.firstWritable atIdx log.own
  tidy : (log.forked child old parts).Tidy
  kept : (log.forked child old parts).own = log.own.take (atIdx - log.firstWritable)
  vacantChild : world.find (child :: home) = none
  vacantOld : parts.createOld = true → world.find (old :: home) = none
  distinct : child ≠ old
  plain : world.Plain
  shownChild : isInternal child = false
  shownOld : isInternal old = false

namespace ForkStep

variable {codec : Codec α σ} {world : World α σ} {home : Path} {dir : Dir α σ}
  {log : Log α σ} {atIdx : Nat} {child old : String} {parts : ForkParts α σ}

theorem home_ne_nil (step : ForkStep codec world home dir log atIdx child old parts) :
    home ≠ [] := by
  rintro rfl
  have found := step.found
  rw [step.sound.named] at found
  cases found

def sinking (home : Path) (old : String) (path : Path) (dir : Dir α σ) : Dir α σ :=
  if sunk home old path = path then dir else dir.close

theorem sinking_carried (path : Path) (before : Dir α σ) :
    Carried before (sinking home old path before) := by
  unfold sinking
  split_ifs
  · exact Or.inl rfl
  · exact Or.inr rfl

/-- The world of a fork before the log and its two branches are put in place. -/
def moved (world : World α σ) (home : Path) (old : String) (moves : Bool) : World α σ :=
  if moves then
    world.map fun entry => (sunk home old entry.1, sinking home old entry.1 entry.2)
  else world

theorem rehome_eq (step : ForkStep codec world home dir log atIdx child old parts) :
    (if parts.dataMoves then world.rehome home old else world) =
      moved world home old parts.dataMoves := by
  unfold moved World.rehome
  split_ifs
  · apply map_congr_left
    intro entry member
    have same := relocate_shown step.home_ne_nil old (step.plain entry member)
    rw [carry, sinking, same]
  · rfl

theorem find_moved (world : World α σ) (home : Path) (old : String) (moves : Bool)
    (path : Path) :
    ∃ carry : Dir α σ → Dir α σ, (∀ before, Carried before (carry before)) ∧
      (moved world home old moves).find (rehomed home old moves path) =
        (world.find path).map carry := by
  unfold moved rehomed
  split_ifs with moving
  · exact ⟨sinking home old path, sinking_carried path,
      lookup_map_key (sunk_injective home old) (sinking home old) path world⟩
  · exact ⟨id, fun before => Or.inl rfl, by simp⟩

theorem find_moved_some {moves : Bool} {path : Path} {after : Dir α σ}
    (present : (moved world home old moves).find path = some after) :
    ∃ source before, path = rehomed home old moves source ∧
      world.find source = some before ∧ Carried before after := by
  have reached : ∃ source, path = rehomed home old moves source := by
    by_contra missed
    cases moves with
    | false => exact missed ⟨path, rfl⟩
    | true =>
      have none : (moved world home old true).find path = none :=
        lookup_map_key_none (sinking home old) world
          fun source same => missed ⟨source, same.symm⟩
      rw [none] at present
      cases present
  obtain ⟨source, rfl⟩ := reached
  obtain ⟨carry, carried, lookup⟩ := find_moved world home old moves source
  rw [lookup] at present
  obtain ⟨before, was, rfl⟩ := Option.map_eq_some_iff.mp present
  exact ⟨source, before, rfl, was, carried before⟩

def cutDir (dir : Dir α σ) (log : Log α σ) (child old : String) (parts : ForkParts α σ) :
    Dir α σ :=
  { dir with handle := .opened (log.forked child old parts) }

abbrev after (_ : ForkStep codec world home dir log atIdx child old parts) : World α σ :=
  world.forkedWorld home dir log atIdx child old parts

section Histories

variable (step : ForkStep codec world home dir log atIdx child old parts) {path : Path}

theorem find_after (path : Path) :
    ∃ kids, step.after.find path =
      if path = child :: home then some ⟨false, .closed atIdx parts.childFiles false⟩
      else if parts.createOld = true ∧ path = old :: home then
        some ⟨false, .closed atIdx parts.oldFiles kids⟩
      else if path = home then some (cutDir dir log child old parts)
      else (moved world home old parts.dataMoves).find path := by
  refine ⟨parts.dataMoves && !(world.childSubdirs home).isEmpty, ?_⟩
  unfold after World.forkedWorld
  simp only [World.find_put, step.rehome_eq]
  split_ifs with isChild create isOld both both
  all_goals simp_all [World.find_put, cutDir]

theorem home_ne_below (home : Path) (name : String) : home ≠ name :: home := by
  intro same
  have length := congrArg List.length same
  simp at length

include step

theorem positive : 0 < atIdx :=
  Nat.lt_of_lt_of_le (Log.first_writable_pos log) step.low

theorem first_eq : log.firstWritable = firstWritableAt dir.handle.forkBase := by
  rw [Log.firstWritable, step.base]

theorem first_at_cut : firstWritableAt atIdx = atIdx := by
  rw [firstWritableAt, if_pos step.positive]

theorem find_child :
    step.after.find (child :: home) = some ⟨false, .closed atIdx parts.childFiles false⟩ := by
  obtain ⟨_, lookup⟩ := step.find_after (child :: home)
  rw [lookup, if_pos rfl]

theorem find_old (created : parts.createOld = true) :
    ∃ kids, step.after.find (old :: home) =
      some ⟨false, .closed atIdx parts.oldFiles kids⟩ := by
  obtain ⟨kids, lookup⟩ := step.find_after (old :: home)
  refine ⟨kids, ?_⟩
  rw [lookup, if_neg, if_pos ⟨created, rfl⟩]
  intro same
  exact step.distinct (List.cons.inj same).1.symm

theorem find_home : step.after.find home = some (cutDir dir log child old parts) := by
  obtain ⟨_, lookup⟩ := step.find_after home
  rw [lookup, if_neg (home_ne_below home child), if_neg, if_pos rfl]
  rintro ⟨_, same⟩
  exact home_ne_below home old same

/-- Every directory but the log's own is found where it was or where it moved. -/
theorem find_rehomed {before : Dir α σ} (apart : path ≠ home)
    (was : world.find path = some before) :
    ∃ next, step.after.find (rehomed home old parts.dataMoves path) = some next ∧
      Carried before next := by
  have notChild : rehomed home old parts.dataMoves path ≠ child :: home := by
    cases moves : parts.dataMoves with
    | true => exact rehomed_ne_child child
    | false =>
      intro same
      have here : path = child :: home := same
      rw [here, step.vacantChild] at was
      cases was
  have notOld : ¬(parts.createOld = true ∧
      rehomed home old parts.dataMoves path = old :: home) := by
    rintro ⟨created, same⟩
    cases moves : parts.dataMoves with
    | true =>
      rw [moves] at same
      exact rehomed_ne_child old same
    | false =>
      rw [moves] at same
      have here : path = old :: home := same
      rw [here, step.vacantOld created] at was
      cases was
  obtain ⟨_, lookup⟩ := step.find_after (rehomed home old parts.dataMoves path)
  obtain ⟨carry, carried, found⟩ := find_moved world home old parts.dataMoves path
  rw [lookup, if_neg notChild, if_neg notOld, if_neg (rehomed_ne_home apart), found, was]
  exact ⟨carry before, rfl, carried before⟩

/-- Nothing else is found than the log, its two branches and the directories that
were there. -/
theorem find_after_cases {next : Dir α σ} (present : step.after.find path = some next) :
    (path = child :: home ∧ next = ⟨false, .closed atIdx parts.childFiles false⟩) ∨
      (parts.createOld = true ∧ path = old :: home ∧
        ∃ kids, next = ⟨false, .closed atIdx parts.oldFiles kids⟩) ∨
      (path = home ∧ next = cutDir dir log child old parts) ∨
      ∃ source before, source ≠ home ∧ path = rehomed home old parts.dataMoves source ∧
        world.find source = some before ∧ Carried before next := by
  obtain ⟨kids, lookup⟩ := step.find_after path
  rw [lookup] at present
  split_ifs at present with isChild isOld isHome
  · cases present
    exact Or.inl ⟨isChild, rfl⟩
  · cases present
    exact Or.inr (Or.inl ⟨isOld.1, isOld.2, kids, rfl⟩)
  · cases present
    exact Or.inr (Or.inr (Or.inl ⟨isHome, rfl⟩))
  · obtain ⟨source, before, place, was, carried⟩ := find_moved_some present
    refine Or.inr (Or.inr (Or.inr ⟨source, before, ?_, place, was, carried⟩))
    rintro rfl
    rw [rehomed_outside (not_inside_self source)] at place
    exact isHome place

theorem history_outside (outside : ¬Inside home path) (apart : path ≠ home)
    (present : world.find path ≠ none) : step.after.history path = world.history path := by
  induction path with
  | nil => exact absurd step.sound.named present
  | cons name up ih =>
    obtain ⟨before, was⟩ := Option.ne_none_iff_exists'.mp present
    obtain ⟨next, now, carried⟩ := step.find_rehomed apart was
    rw [rehomed_outside outside] at now
    obtain ⟨base, records, _⟩ := carried.same
    rw [World.history_cons now, World.history_cons was, base, records]
    rw [inside_cons, not_or] at outside
    by_cases fork : 0 < before.handle.forkBase
    · rw [ih outside.2 outside.1 (step.sound.linked was fork).1]
    · rw [firstWritableAt, if_neg fork, splice, splice, Nat.sub_self, take_zero,
        take_zero]

theorem outside_above : ¬Inside home home.tail ∧ home.tail ≠ home := by
  have some : 0 < home.length := length_pos_iff.mpr step.home_ne_nil
  constructor
  · rintro ⟨below, _, shape⟩
    have length := congrArg List.length shape
    rw [length_tail, length_append] at length
    omega
  · intro same
    have length := congrArg List.length same
    rw [length_tail] at length
    omega

theorem linked_home (fork : 0 < dir.handle.forkBase) :
    world.find home.tail ≠ none ∧
      dir.handle.forkBase ≤ (world.history home.tail).length + 1 := by
  have found := step.found
  obtain ⟨name, up, rfl⟩ := exists_cons_of_ne_nil step.home_ne_nil
  exact step.sound.linked found fork

theorem first_fits : log.firstWritable ≤ (world.history home.tail).length + 1 := by
  rw [step.first_eq, firstWritableAt]
  split_ifs with fork
  · exact (step.linked_home fork).2
  · omega

theorem history_before : world.history home =
    splice log.firstWritable (world.history home.tail) log.own := by
  rw [World.history_tail step.home_ne_nil step.found, step.first_eq, step.records]

theorem splice_above (own : List α) :
    splice log.firstWritable (step.after.history home.tail) own =
      splice log.firstWritable (world.history home.tail) own := by
  by_cases fork : 0 < dir.handle.forkBase
  · rw [step.history_outside step.outside_above.1 step.outside_above.2
      (step.linked_home fork).1]
  · rw [step.first_eq, firstWritableAt, if_neg fork, splice, splice, Nat.sub_self,
      take_zero, take_zero]

theorem history_home : step.after.history home =
    splice log.firstWritable (world.history home.tail)
      (log.own.take (atIdx - log.firstWritable)) := by
  have records : (cutDir dir log child old parts).handle.records =
      log.own.take (atIdx - log.firstWritable) := by
    rw [← step.kept]
    exact Handle.records_opened step.tidy
  have base : firstWritableAt (cutDir dir log child old parts).handle.forkBase =
      log.firstWritable := rfl
  rw [World.history_tail step.home_ne_nil step.find_home, base, records, step.splice_above]

theorem history_home_take :
    step.after.history home = (world.history home).take (atIdx - 1) := by
  have positive := step.positive
  have low := step.low
  have cut : atIdx - 1 + 1 - log.firstWritable = atIdx - log.firstWritable := by omega
  rw [step.history_home, step.history_before,
    take_splice_above (Log.first_writable_pos log) (by omega) step.first_fits, cut]

theorem history_home_length : (step.after.history home).length + 1 = atIdx := by
  have low := step.low
  have high := step.high
  rw [step.history_home, splice_length (Log.first_writable_pos log) step.first_fits,
    length_take]
  omega

theorem history_old (created : parts.createOld = true) :
    step.after.history (old :: home) = world.history home := by
  obtain ⟨kids, now⟩ := step.find_old created
  have records : joined Segment.payloads parts.oldFiles =
      log.own.drop (atIdx - log.firstWritable) := step.holds.moved
  rw [World.history_cons now, step.history_before]
  simp only [Handle.forkBase, Handle.records, Handle.files]
  rw [step.first_at_cut, records, step.history_home]
  exact splice_splice (Log.first_writable_pos log) step.low step.first_fits step.high

theorem history_child :
    step.after.history (child :: home) = (world.history home).take (atIdx - 1) := by
  rw [World.history_cons step.find_child]
  simp only [Handle.forkBase, Handle.records, Handle.files]
  have length := step.history_home_length
  rw [step.first_at_cut, step.holds.childEmpty, splice, append_nil,
    take_of_length_le (by omega), step.history_home_take]

theorem history_home_unmoved (still : parts.dataMoves = false) :
    step.after.history home = world.history home := by
  have tail : ¬atIdx < log.firstWritable + log.own.length := by
    rw [← step.holds.moves, still]
    exact Bool.false_ne_true
  have length : (world.history home).length + 1 = log.firstWritable + log.own.length := by
    rw [step.history_before]
    exact splice_length (Log.first_writable_pos log) step.first_fits
  rw [step.history_home_take, take_of_length_le (by omega)]

/-- Every other directory reads the same, from its old place or its new one. -/
theorem history_rehomed (apart : path ≠ home) (present : world.find path ≠ none) :
    step.after.history (rehomed home old parts.dataMoves path) = world.history path := by
  induction path with
  | nil => exact absurd step.sound.named present
  | cons name up ih =>
    obtain ⟨before, was⟩ := Option.ne_none_iff_exists'.mp present
    obtain ⟨next, now, carried⟩ := step.find_rehomed apart was
    obtain ⟨base, records, _⟩ := carried.same
    by_cases atHome : up = home
    · rw [atHome] at was now ⊢
      rw [rehomed_child] at now ⊢
      rw [World.history_cons now, World.history_cons was, base, records]
      cases moves : parts.dataMoves with
      | true =>
        rw [if_pos rfl, step.history_old (step.holds.created moves)]
      | false =>
        rw [if_neg Bool.false_ne_true, step.history_home_unmoved moves]
    · rw [rehomed_cons atHome] at now ⊢
      rw [World.history_cons now, World.history_cons was, base, records]
      by_cases fork : 0 < before.handle.forkBase
      · rw [ih atHome (step.sound.linked was fork).1]
      · rw [firstWritableAt, if_neg fork, splice, splice, Nat.sub_self, take_zero,
          take_zero]

theorem linked_rehomed {name : String} {up : Path} {before : Dir α σ}
    (apart : name :: up ≠ home) (was : world.find (name :: up) = some before)
    (fork : 0 < before.handle.forkBase) :
    ∃ above, rehomed home old parts.dataMoves (name :: up) = name :: above ∧
      step.after.find above ≠ none ∧
      before.handle.forkBase ≤ (step.after.history above).length + 1 := by
  obtain ⟨present, fits⟩ := step.sound.linked was fork
  by_cases atHome : up = home
  · subst atHome
    cases moves : parts.dataMoves with
    | true =>
      have created := step.holds.created moves
      obtain ⟨kids, now⟩ := step.find_old created
      refine ⟨old :: up, rehomed_child name, by simp [now], ?_⟩
      rw [step.history_old created]
      exact fits
    | false =>
      refine ⟨up, rehomed_child name, by simp [step.find_home], ?_⟩
      rw [step.history_home_unmoved moves]
      exact fits
  · refine ⟨rehomed home old parts.dataMoves up, rehomed_cons atHome, ?_, ?_⟩
    · obtain ⟨upper, wasUp⟩ := Option.ne_none_iff_exists'.mp present
      obtain ⟨next, now, _⟩ := step.find_rehomed atHome wasUp
      simp [now]
    · rw [step.history_rehomed atHome present]
      exact fits

theorem sound_after : step.after.Sound codec := by
  refine ⟨?_, ?_, ?_, ?_⟩
  · cases empty : step.after.find [] with
    | none => rfl
    | some next =>
      rcases step.find_after_cases empty with
        ⟨impossible, _⟩ | ⟨_, impossible, _⟩ | ⟨atHome, _⟩ | ⟨source, before, _, place, was, _⟩
      · cases impossible
      · cases impossible
      · exact absurd atHome.symm step.home_ne_nil
      · cases source with
        | nil =>
          rw [step.sound.named] at was
          cases was
        | cons name up =>
          by_cases atHome : up = home
          · rw [atHome, rehomed_child] at place
            cases place
          · rw [rehomed_cons atHome] at place
            cases place
  · intro path next present
    rcases step.find_after_cases present with
      ⟨_, rfl⟩ | ⟨_, _, _, rfl⟩ | ⟨_, rfl⟩ | ⟨source, before, _, _, was, carried⟩
    · simpa [Handle.Sound, step.first_at_cut] using step.holds.childStacked
    · simpa [Handle.Sound, step.first_at_cut] using step.holds.oldStacked
    · exact step.tidy
    · exact carried.same.2.2.2 (step.sound.usable was)
  · intro path next present payload member
    have ownStored : ∀ value ∈ log.own, codec.stored value = value := by
      rw [step.records]
      exact step.sound.stored step.found
    rcases step.find_after_cases present with
      ⟨_, rfl⟩ | ⟨_, _, _, rfl⟩ | ⟨_, rfl⟩ | ⟨source, before, _, _, was, carried⟩
    · have none : joined Segment.payloads parts.childFiles = [] := step.holds.childEmpty
      simp [Handle.records, Handle.files, none] at member
    · have moved : joined Segment.payloads parts.oldFiles = _ := step.holds.moved
      simp only [Handle.records, Handle.files, moved] at member
      exact ownStored payload (mem_of_mem_drop member)
    · have kept : (cutDir dir log child old parts).handle.records = _ :=
        (Handle.records_opened step.tidy).trans step.kept
      rw [kept] at member
      exact ownStored payload (mem_of_mem_take member)
    · rw [carried.same.2.1] at member
      exact step.sound.stored was payload member
  · intro name up next present fork
    rcases step.find_after_cases present with
      ⟨place, rfl⟩ | ⟨_, place, _, rfl⟩ | ⟨place, rfl⟩ |
        ⟨source, before, apart, place, was, carried⟩
    · cases place
      have length := step.history_home_length
      exact ⟨by simp [step.find_home], by simp only [Handle.forkBase]; omega⟩
    · cases place
      have length := step.history_home_length
      exact ⟨by simp [step.find_home], by simp only [Handle.forkBase]; omega⟩
    · have base : (cutDir dir log child old parts).handle.forkBase = dir.handle.forkBase :=
          step.base
      rw [base] at fork ⊢
      obtain ⟨presentUp, fits⟩ := step.linked_home fork
      have tail : up = home.tail := by rw [← place]; rfl
      rw [tail]
      obtain ⟨upper, wasUp⟩ := Option.ne_none_iff_exists'.mp presentUp
      obtain ⟨above, now, _⟩ := step.find_rehomed step.outside_above.2 wasUp
      rw [rehomed_outside step.outside_above.1] at now
      rw [step.history_outside step.outside_above.1 step.outside_above.2 presentUp]
      exact ⟨by simp [now], fits⟩
    · rw [carried.same.1] at fork ⊢
      cases source with
      | nil =>
        rw [step.sound.named] at was
        cases was
      | cons first rest =>
        obtain ⟨above, shape, found, fits⟩ := step.linked_rehomed apart was fork
        rw [shape] at place
        cases place
        exact ⟨found, fits⟩

/-- The names that end up in the world are the old ones and the two branches'. -/
theorem plain_after : step.after.Plain := by
  have home_shown := step.plain.shown step.found
  have below : ∀ {name}, isInternal name = false →
      ∀ held ∈ (name :: home).dropLast, isInternal held = false := by
    intro name shown held member
    obtain ⟨first, rest, rfl⟩ := exists_cons_of_ne_nil step.home_ne_nil
    rcases mem_cons.mp member with rfl | deeper
    · exact shown
    · exact home_shown held deeper
  have sunkShown : ∀ path : Path, (∀ name ∈ path.dropLast, isInternal name = false) →
      ∀ name ∈ (sunk home old path).dropLast, isInternal name = false := by
    intro path shown name member
    by_cases inside : Inside home path
    · obtain ⟨upper, some, rfl⟩ := inside
      rw [sunk_inside old some, dropLast_append_of_ne_nil (by simp)] at member
      rw [dropLast_append_of_ne_nil step.home_ne_nil] at shown
      rcases mem_append.mp member with high | low
      · exact shown name (mem_append_left _ high)
      · exact below step.shownOld name low
    · rw [sunk_outside old inside] at member
      exact shown name member
  have movedPlain : (moved world home old parts.dataMoves).Plain := by
    unfold moved
    split_ifs
    · intro entry member
      obtain ⟨source, was, rfl⟩ := mem_map.mp member
      exact sunkShown source.1 (step.plain source was)
    · exact step.plain
  have cutPlain := movedPlain.put (cutDir dir log child old parts) home_shown
  unfold after World.forkedWorld
  simp only [step.rehome_eq]
  refine World.Plain.put ?_ _ (below step.shownChild)
  split_ifs
  · exact cutPlain.put _ (below step.shownOld)
  · exact cutPlain

end Histories

end ForkStep

end Figwal.Disk
