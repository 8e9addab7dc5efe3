import Mathlib.Data.List.Basic
import Mathlib.Data.List.Infix
import Mathlib.Data.List.Intervals

/-!
# Paths and directories

A path is the list of its parts. `clean` is the lexical cleaning of a path's text: a
text that cleaning leaves alone has no empty part and no dot among its parts. A set of
directories is a list of paths, and making a directory makes those around it.

`Placed` is the shape of a tree of some top directories, none inside another, that
hold directories of certain names and nothing below those.
-/

namespace Figwal.Lib

open List

variable {sep : Char}

set_option autoImplicit false

abbrev Part := List Char

abbrev Parts := List Part

/-!
## Cleaning
-/

def cleanStep (rooted : Bool) (kept : Parts) (part : Part) : Parts :=
  if part = [] ∨ part = ['.'] then kept
  else if part = ['.', '.'] then
    match kept with
    | [] => if rooted then [] else [part]
    | last :: below => if last = ['.', '.'] then part :: kept else below
  else part :: kept

def cleanParts (rooted : Bool) (parts : Parts) : Parts :=
  (parts.foldl (cleanStep rooted) []).reverse

def clean (sep : Char) (path : List Char) : List Char :=
  let rooted := path.head? = some sep
  let text := List.intercalate [sep] (cleanParts rooted (path.splitOn sep))
  if rooted then sep :: text else if text = [] then ['.'] else text

theorem mem_clean_step {rooted : Bool} {kept : Parts} {part held : Part}
    (member : held ∈ cleanStep rooted kept part) :
    held ∈ kept ∨ held = part ∧ held ≠ [] ∧ held ≠ ['.'] := by
  unfold cleanStep at member
  by_cases idle : part = [] ∨ part = ['.']
  · rw [if_pos idle] at member
    exact Or.inl member
  · rw [if_neg idle] at member
    have solid : part ≠ [] ∧ part ≠ ['.'] := not_or.mp idle
    by_cases up : part = ['.', '.']
    · rw [if_pos up] at member
      cases kept with
      | nil =>
        cases rooted with
        | true => cases member
        | false =>
          have same : held = part := mem_singleton.mp member
          exact Or.inr ⟨same, same ▸ solid⟩
      | cons last below =>
        dsimp only at member
        split_ifs at member
        · rcases mem_cons.mp member with rfl | older
          · exact Or.inr ⟨rfl, solid⟩
          · exact Or.inl older
        · exact Or.inl (mem_cons_of_mem _ member)
    · rw [if_neg up] at member
      rcases mem_cons.mp member with rfl | older
      · exact Or.inr ⟨rfl, solid⟩
      · exact Or.inl older

theorem mem_clean_parts {rooted : Bool} {parts : Parts} {held : Part}
    (member : held ∈ cleanParts rooted parts) : held ∈ parts ∧ held ≠ [] ∧ held ≠ ['.'] := by
  have spec : ∀ (rest kept : Parts), held ∈ rest.foldl (cleanStep rooted) kept →
      held ∈ kept ∨ held ∈ rest ∧ held ≠ [] ∧ held ≠ ['.'] := by
    intro rest
    induction rest with
    | nil => exact fun _ inside => Or.inl inside
    | cons part rest ih =>
      intro kept inside
      rcases ih _ inside with earlier | ⟨later, solid⟩
      · rcases mem_clean_step earlier with old | ⟨rfl, solid⟩
        · exact Or.inl old
        · exact Or.inr ⟨mem_cons_self, solid⟩
      · exact Or.inr ⟨mem_cons_of_mem _ later, solid⟩
  rcases spec parts [] (mem_reverse.mp member) with none | found
  · cases none
  · exact found

theorem sep_not_mem_part {path : List Char} : ∀ part ∈ path.splitOn sep, sep ∉ part := by
  induction path with
  | nil =>
    intro part member
    rw [splitOn_nil, mem_singleton] at member
    rw [member]
    exact not_mem_nil
  | cons char rest ih =>
    intro part member
    rw [splitOn_cons_eq_if_modifyHead] at member
    split_ifs at member with here
    · rcases mem_cons.mp member with rfl | later
      · exact not_mem_nil
      · exact ih part later
    · obtain ⟨first, others, shape⟩ := exists_cons_of_ne_nil (splitOn_ne_nil sep rest)
      rw [shape, modifyHead_cons] at member
      rcases mem_cons.mp member with rfl | later
      · intro inside
        rcases mem_cons.mp inside with same | deeper
        · exact here (by simp [same])
        · exact ih first (by rw [shape]; exact mem_cons_self) deeper
      · exact ih part (by rw [shape]; exact mem_cons_of_mem _ later)

/-- A relative path that is clean, and not the dot itself, has no empty part and no
dot among its parts. -/
theorem parts_of_clean {path : List Char} (relative : path.head? ≠ some sep)
    (same : clean sep path = path) (named : path ≠ ['.']) :
    ∀ part ∈ path.splitOn sep, part ≠ [] ∧ part ≠ ['.'] := by
  have text : List.intercalate [sep] (cleanParts false (path.splitOn sep)) = path := by
    unfold clean at same
    simp only [relative, decide_false, if_false] at same
    split_ifs at same with empty
    · exact absurd same.symm named
    · exact same
  have filled : cleanParts false (path.splitOn sep) ≠ [] := by
    intro empty
    rw [empty] at text
    subst text
    revert same
    simp [clean, splitOn_nil, cleanParts, cleanStep]
  have parts : path.splitOn sep = cleanParts false (path.splitOn sep) := by
    conv_lhs => rw [← text]
    apply splitOn_intercalate _ _ filled
    intro part member
    exact sep_not_mem_part part (mem_clean_parts member).1
  rw [parts]
  intro part member
  exact (mem_clean_parts member).2

/-!
## Fields
-/

def fields (separates : Char → Bool) (text : List Char) : Parts :=
  (text.splitOnP separates).filter (· ≠ [])

theorem head_split {separates : Char → Bool} {char : Char} {text : List Char}
    (begins : text.head? = some char) (plain : separates char = false) :
    ∃ first others, text.splitOnP separates = first :: others ∧ first.head? = some char := by
  cases text with
  | nil => cases begins
  | cons first rest =>
    cases begins
    obtain ⟨held, others, shape⟩ :=
      exists_cons_of_ne_nil (splitOnP_ne_nil separates rest)
    refine ⟨char :: held, others, ?_, rfl⟩
    rw [splitOnP_cons_eq_if_modifyHead, plain, shape]
    rfl

theorem head_of_part {char : Char} {text part : List Char} {others : Parts}
    (shape : text.splitOn sep = part :: others) (begins : part.head? = some char) :
    text.head? = some char := by
  cases text with
  | nil =>
    rw [splitOn_nil] at shape
    cases shape
    cases begins
  | cons first rest =>
    rw [splitOn_cons_eq_if_modifyHead] at shape
    split_ifs at shape
    · cases shape
      cases begins
    · obtain ⟨held, later, inner⟩ :=
        exists_cons_of_ne_nil (splitOn_ne_nil sep rest)
      rw [inner, modifyHead_cons] at shape
      cases shape
      exact begins

theorem field_of_part {separates : Char → Bool} {sep : Char} (among : separates sep = true)
    {text part : List Char} {char : Char} (member : part ∈ text.splitOn sep)
    (begins : part.head? = some char) (plain : separates char = false) :
    ∃ field ∈ fields separates text, field.head? = some char := by
  have later : ∀ text : List Char, ∀ part ∈ (text.splitOn sep).tail, part.head? = some char →
      ∃ field ∈ (text.splitOnP separates).tail, field.head? = some char := by
    intro text
    induction text with
    | nil =>
      intro part inside
      rw [splitOn_nil] at inside
      cases inside
    | cons first rest ih =>
      intro part inside starts
      obtain ⟨held, others, shape⟩ :=
        exists_cons_of_ne_nil (splitOn_ne_nil sep rest)
      have deeper : part ∈ others →
          ∃ field ∈ (rest.splitOnP separates).tail, field.head? = some char := fun inner =>
        ih part (by rw [shape]; exact inner) starts
      rw [splitOn_cons_eq_if_modifyHead] at inside
      rw [splitOnP_cons_eq_if_modifyHead]
      by_cases here : (first == sep) = true
      · rw [if_pos here, tail_cons, shape] at inside
        rw [beq_iff_eq.mp here, among, if_pos rfl, tail_cons]
        rcases mem_cons.mp inside with rfl | inner
        · obtain ⟨field, more, split, opens⟩ :=
            head_split (head_of_part shape starts) plain
          exact ⟨field, by rw [split]; exact mem_cons_self, opens⟩
        · obtain ⟨field, found, opens⟩ := deeper inner
          exact ⟨field, mem_of_mem_tail found, opens⟩
      · rw [if_neg here, shape, modifyHead_cons, tail_cons] at inside
        obtain ⟨field, found, opens⟩ := deeper inside
        split_ifs
        · exact ⟨field, mem_of_mem_tail found, opens⟩
        · obtain ⟨piece, more, split⟩ :=
            exists_cons_of_ne_nil (splitOnP_ne_nil separates rest)
          rw [split] at found ⊢
          exact ⟨field, found, opens⟩
  have nonempty : ∀ field : List Char, field.head? = some char → decide (field ≠ []) = true := by
    rintro field opens
    apply decide_eq_true
    rintro rfl
    cases opens
  obtain ⟨held, others, shape⟩ := exists_cons_of_ne_nil (splitOn_ne_nil sep text)
  have either := member
  rw [shape] at either
  rcases mem_cons.mp either with rfl | inner
  · obtain ⟨field, more, split, opens⟩ := head_split (head_of_part shape begins) plain
    exact ⟨field, mem_filter.mpr ⟨by rw [split]; exact mem_cons_self,
      nonempty field opens⟩, opens⟩
  · obtain ⟨field, found, opens⟩ := later text part (by rw [shape]; exact inner) begins
    exact ⟨field, mem_filter.mpr ⟨mem_of_mem_tail found, nonempty field opens⟩, opens⟩

/-!
## Directories
-/

def mkdirAll (dirs : List Parts) (path : Parts) : List Parts :=
  dirs ++ path.inits.filter fun above => above ≠ [] ∧ above ∉ dirs

variable {dirs : List Parts} {path : Parts}

theorem mem_mkdir_all {dir : Parts} :
    dir ∈ mkdirAll dirs path ↔ dir ∈ dirs ∨ dir ≠ [] ∧ dir <+: path := by
  simp only [mkdirAll, mem_append, mem_filter, mem_inits, decide_eq_true_eq]
  constructor
  · rintro (old | ⟨above, named, _⟩)
    · exact Or.inl old
    · exact Or.inr ⟨named, above⟩
  · rintro (old | ⟨named, above⟩)
    · exact Or.inl old
    · by_cases old : dir ∈ dirs
      · exact Or.inl old
      · exact Or.inr ⟨above, named, old⟩

def subdirs (dirs : List Parts) (path : Parts) : List Part :=
  dirs.filterMap fun dir =>
    match dir.getLast? with
    | none => none
    | some name => if dir.dropLast = path ∧ name.head? ≠ some '.' then some name else none

theorem mem_subdirs {name : Part} :
    name ∈ subdirs dirs path ↔ path ++ [name] ∈ dirs ∧ name.head? ≠ some '.' := by
  rw [subdirs, mem_filterMap]
  constructor
  · rintro ⟨dir, member, found⟩
    split at found
    · cases found
    · rename_i last ends
      split_ifs at found with inside
      cases found
      obtain ⟨front, rfl⟩ := getLast?_eq_some_iff.mp ends
      rw [dropLast_concat] at inside
      exact ⟨inside.1 ▸ member, inside.2⟩
  · rintro ⟨member, shown⟩
    refine ⟨path ++ [name], member, ?_⟩
    simp [shown]

def hasSubdirs (dirs : List Parts) (path : Parts) : Bool :=
  !(subdirs dirs path).isEmpty

theorem has_subdirs_iff :
    hasSubdirs dirs path = true ↔ ∃ name, path ++ [name] ∈ dirs ∧ name.head? ≠ some '.' := by
  simp only [hasSubdirs, Bool.not_eq_true', isEmpty_eq_false_iff_exists_mem, mem_subdirs]

/-!
## Top directories and what they hold
-/

def PrefixFree (tops : List Parts) : Prop :=
  ∀ left ∈ tops, ∀ right ∈ tops, left <+: right → left = right

def Placed (tops : List Parts) (names : List Part) (dirs : List Parts) : Prop :=
  ∀ dir ∈ dirs, ∃ top ∈ tops, dir <+: top ∨ ∃ name ∈ names, dir = top ++ [name]

section Placed

variable {tops : List Parts} {names : List Part} {dirs : List Parts} {top : Parts}

theorem PrefixFree.place_injective (free : PrefixFree tops) {left right : Parts}
    (first : left ∈ tops) (second : right ∈ tops) {inner other : Parts}
    (same : left ++ inner = right ++ other) : left = right ∧ inner = other := by
  have tops : left = right := by
    rcases List.prefix_or_prefix_of_prefix (same ▸ List.prefix_append left inner)
      (List.prefix_append right other) with above | above
    · exact free left first right second above
    · exact (free right second left first above).symm
  subst tops
  exact ⟨rfl, append_cancel_left same⟩

section

variable (placed : Placed tops names dirs)

include placed

theorem Placed.inside (free : PrefixFree tops) (listed : top ∈ tops) {name : Part}
    (member : top ++ [name] ∈ dirs) : name ∈ names := by
  obtain ⟨other, known, above | ⟨held, among, same⟩⟩ := placed _ member
  · have equal := free top listed other known ((List.prefix_append top [name]).trans above)
    have longer := above.length_le
    rw [← equal, length_append, length_singleton] at longer
    omega
  · obtain ⟨_, names⟩ := free.place_injective listed known same
    rw [singleton_inj.mp names]
    exact among

theorem Placed.leaf (free : PrefixFree tops) (listed : top ∈ tops) (name inner : Part) :
    top ++ [name] ++ [inner] ∉ dirs := by
  intro member
  obtain ⟨other, known, above | ⟨held, among, same⟩⟩ := placed _ member
  · have inside : top <+: other :=
      ((List.prefix_append top [name]).trans (List.prefix_append _ [inner])).trans above
    have longer := above.length_le
    rw [← free top listed other known inside, length_append, length_append,
      length_singleton] at longer
    omega
  · rw [append_assoc] at same
    obtain ⟨_, names⟩ := free.place_injective listed known same
    cases names

theorem Placed.mkdir_all {path : Parts} (listed : top ∈ tops)
    (below : path = top ∨ ∃ name ∈ names, path = top ++ [name]) :
    Placed tops names (mkdirAll dirs path) := by
  intro dir member
  rcases mem_mkdir_all.mp member with old | ⟨_, above⟩
  · exact placed dir old
  · refine ⟨top, listed, ?_⟩
    rcases below with rfl | ⟨name, among, rfl⟩
    · exact Or.inl above
    · rcases List.prefix_concat_iff.mp above with whole | outer
      · exact Or.inr ⟨name, among, whole⟩
      · exact Or.inl outer

theorem Placed.mono {more : List Parts} {others : List Part} (wider : tops ⊆ more)
    (richer : names ⊆ others) : Placed more others dirs := by
  intro dir member
  obtain ⟨top, listed, shape⟩ := placed dir member
  refine ⟨top, wider listed, shape.imp id ?_⟩
  rintro ⟨name, among, same⟩
  exact ⟨name, richer among, same⟩

end

end Placed

end Figwal.Lib
