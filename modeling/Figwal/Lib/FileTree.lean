import Figwal.Lib.Paths

/-!
# Trees of files

A tree is the list of its entries, each a path with the content of a file or nothing
for a directory. Renaming a directory carries everything below it along. What lies
below a path that is neither around nor inside the two paths of a renaming stays as
it is.
-/

namespace Figwal.Lib

open List

set_option autoImplicit false

abbrev FileTree (α : Type) := List (Parts × Option α)

def Apart (left right : Parts) : Prop :=
  ¬left <+: right ∧ ¬right <+: left

namespace FileTree

variable {α : Type} {tree : FileTree α} {path : Parts}

def below (tree : FileTree α) (top : Parts) : FileTree α :=
  tree.filterMap fun entry =>
    if top <+: entry.1 then some (entry.1.drop top.length, entry.2) else none

def present (tree : FileTree α) (path : Parts) : Bool :=
  tree.any fun entry => entry.1 = path

def isFile (tree : FileTree α) (path : Parts) : Bool :=
  tree.any fun entry => entry.1 = path && entry.2.isSome

def mkdir (tree : FileTree α) (path : Parts) : FileTree α :=
  tree ++ [(path, none)]

def move (source target : Parts) (tree : FileTree α) : FileTree α :=
  tree.map fun entry =>
    if source <+: entry.1 then (target ++ entry.1.drop source.length, entry.2) else entry

def Rooted (tree : FileTree α) : Prop :=
  ∀ entry ∈ tree, ∀ above ∈ entry.1.inits, above ≠ [] → tree.present above = true

instance (tree : FileTree α) : Decidable tree.Rooted :=
  inferInstanceAs (Decidable (∀ entry ∈ tree, ∀ above ∈ entry.1.inits, _ → _))

/-- Make the directories of a list that do not exist. A file in the way is an error. The
trees are those after each directory that is made. -/
def mkdirs : List Parts → FileTree α → Bool × List (FileTree α)
  | [], _ => (true, [])
  | dir :: rest, tree =>
    if tree.isFile dir then (false, [])
    else if tree.present dir then mkdirs rest tree
    else
      let made := tree.mkdir dir
      let later := mkdirs rest made
      (later.1, made :: later.2)

theorem below_cons (entry : Parts × Option α) (tree : FileTree α) (top : Parts) :
    below (entry :: tree) top = if top <+: entry.1 then
      (entry.1.drop top.length, entry.2) :: below tree top else below tree top := by
  unfold below
  rw [filterMap_cons]
  split_ifs <;> rfl

theorem move_cons (source target : Parts) (entry : Parts × Option α) (tree : FileTree α) :
    move source target (entry :: tree) = (if source <+: entry.1 then
      (target ++ entry.1.drop source.length, entry.2) else entry) :: move source target tree :=
  rfl

theorem mem_below {tree : FileTree α} {top path : Parts} {content : Option α} :
    (path, content) ∈ below tree top ↔ (top ++ path, content) ∈ tree := by
  unfold below
  rw [mem_filterMap]
  constructor
  · rintro ⟨entry, member, found⟩
    split_ifs at found with inside
    obtain ⟨rest, whole⟩ := inside
    cases found
    rw [← whole, drop_left, whole]
    exact member
  · intro member
    refine ⟨_, member, ?_⟩
    rw [if_pos (List.prefix_append top path), drop_left]

theorem present_iff : tree.present path = true ↔ ∃ content, (path, content) ∈ tree := by
  unfold present
  rw [any_eq_true]
  constructor
  · rintro ⟨entry, member, same⟩
    refine ⟨entry.2, ?_⟩
    rw [← of_decide_eq_true same]
    exact member
  · rintro ⟨content, member⟩
    exact ⟨_, member, decide_eq_true rfl⟩

theorem present_eq {other : FileTree α} (same : tree.below path = other.below path) :
    tree.present path = other.present path := by
  rw [Bool.eq_iff_iff, present_iff, present_iff]
  have mem : ∀ content, (path, content) ∈ tree ↔ (path, content) ∈ other := by
    intro content
    have left := @mem_below _ tree path [] content
    have right := @mem_below _ other path [] content
    rw [append_nil] at left right
    rw [← left, ← right, same]
  exact exists_congr mem

theorem absent_inside {top : Parts} (empty : tree.below top = []) (inside : top <+: path) :
    tree.present path = false := by
  rw [Bool.eq_false_iff]
  intro found
  obtain ⟨content, member⟩ := present_iff.mp found
  obtain ⟨rest, rfl⟩ := inside
  have listed := mem_below.mpr member
  rw [empty] at listed
  cases listed

theorem below_of_absent (rooted : tree.Rooted) (named : path ≠ [])
    (absent : tree.present path = false) : tree.below path = [] := by
  rw [eq_nil_iff_forall_not_mem]
  rintro ⟨rest, content⟩ member
  have found := rooted _ (mem_below.mp member) path
    ((mem_inits _ _).mpr (List.prefix_append path rest)) named
  rw [absent] at found
  cases found

theorem not_apart {left right : Parts} (first : left <+: path) (second : right <+: path) :
    ¬Apart left right := by
  rintro ⟨outer, inner⟩
  rcases List.prefix_or_prefix_of_prefix first second with above | above
  · exact outer above
  · exact inner above

section Moving

variable {source target top : Parts}

theorem below_move_apart (fromSource : Apart top source) (fromTarget : Apart top target)
    (tree : FileTree α) : (tree.move source target).below top = tree.below top := by
  induction tree with
  | nil => rfl
  | cons entry rest ih =>
    rw [move_cons, below_cons, below_cons, ih]
    by_cases inside : source <+: entry.1
    · rw [if_pos inside]
      have before : ¬top <+: entry.1 := fun above => not_apart above inside fromSource
      have after : ¬top <+: target ++ entry.1.drop source.length := fun above =>
        not_apart above (List.prefix_append _ _) fromTarget
      rw [if_neg before, if_neg after]
    · rw [if_neg inside]

/-- What was below the source is below the target, if nothing was there. -/
theorem below_move_target {tree : FileTree α} (free : tree.below target = []) :
    (tree.move source target).below target = tree.below source := by
  induction tree with
  | nil => rfl
  | cons entry rest ih =>
    rw [below_cons] at free
    split_ifs at free with taken
    rw [move_cons, below_cons, below_cons, ih free]
    by_cases inside : source <+: entry.1
    · rw [if_pos inside, if_pos inside, if_pos (List.prefix_append _ _), drop_left]
    · rw [if_neg inside, if_neg inside, if_neg taken]

theorem below_move_source (apart : Apart source target) (tree : FileTree α) :
    (tree.move source target).below source = [] := by
  induction tree with
  | nil => rfl
  | cons entry rest ih =>
    rw [move_cons, below_cons, ih]
    by_cases inside : source <+: entry.1
    · rw [if_pos inside, if_neg]
      exact fun above => not_apart above (List.prefix_append _ _) apart
    · rw [if_neg inside, if_neg inside]

end Moving

/-- The directory at the source has become the one at the target, where nothing was. -/
structure Moved (source target : Parts) (before after : FileTree α) : Prop where
  present : before.present source = true
  free : before.below target = []
  gone : after.below source = []
  taken : after.below target = before.below source

/-- A path that is not around the source or the target. What it names inside the source
did not exist, nor what it names inside the target at its place in the source. -/
structure Spared (source target top : Parts) (tree : FileTree α) : Prop where
  outer : ¬top <+: source ∧ ¬top <+: target
  inside : source <+: top → tree.present top = false
  covered : target <+: top → tree.present (source ++ top.drop target.length) = false

instance (source target top : Parts) (tree : FileTree α) :
    Decidable (Spared source target top tree) :=
  decidable_of_iff ((¬top <+: source ∧ ¬top <+: target) ∧
      (source <+: top → tree.present top = false) ∧
      (target <+: top → tree.present (source ++ top.drop target.length) = false))
    ⟨fun ⟨outer, inside, covered⟩ => ⟨outer, inside, covered⟩,
      fun ⟨outer, inside, covered⟩ => ⟨outer, inside, covered⟩⟩

section Moved

variable {before after : FileTree α} {source target top : Parts}
  (moved : Moved source target before after)

include moved

end Moved

theorem below_mkdir {tree : FileTree α} {top path : Parts} (outside : ¬top <+: path) :
    (tree.mkdir path).below top = tree.below top := by
  unfold mkdir below
  rw [filterMap_append]
  simp [outside]

/-- Making directories changes nothing below a path that none of them lies in. -/
theorem below_mkdirs {dirs : List Parts} {later : FileTree α} {top : Parts}
    (outside : ∀ dir ∈ dirs, ¬top <+: dir) (steps : later ∈ (mkdirs dirs tree).2) :
    later.below top = tree.below top := by
  induction dirs generalizing tree with
  | nil => cases steps
  | cons dir rest ih =>
    have others : ∀ dir ∈ rest, ¬top <+: dir :=
      fun other member => outside other (mem_cons_of_mem _ member)
    rw [mkdirs] at steps
    split_ifs at steps with file old
    · cases steps
    · exact ih others steps
    · have here := @below_mkdir _ tree top dir (outside dir mem_cons_self)
      rcases mem_cons.mp steps with rfl | further
      · exact here
      · exact (ih others further).trans here

end FileTree

end Figwal.Lib
