import Mathlib.Data.List.Basic

/-!
# Families recorded in order of birth

A family is the list of its members, the newest first, each with the member it
descends from. One key stands for the root, which is not listed. A parent is
recorded before its children, so climbing from a member only ever looks at older
entries.
-/

namespace Figwal.Lib

open List

set_option autoImplicit false

abbrev Family (Key : Type) := List (Key × Key)

namespace Family

section Order

variable {Key : Type}

def members (family : Family Key) : List Key :=
  family.map Prod.fst

/-- No member is listed twice, none is the root, and parents come before their
children. -/
def Ordered (root : Key) : Family Key → Prop
  | [] => True
  | (member, up) :: older =>
    member ≠ root ∧ member ∉ members older ∧ (up = root ∨ up ∈ members older) ∧
      Ordered root older

variable {root : Key} {family : Family Key}

theorem Ordered.root_unlisted (ordered : Ordered root family) : root ∉ family.members := by
  induction family with
  | nil => simp [members]
  | cons entry older ih =>
    rcases ordered with ⟨differs, _, _, rest⟩
    rw [members, map_cons, mem_cons, not_or]
    exact ⟨fun same => differs same.symm, ih rest⟩

theorem Ordered.nodup (ordered : Ordered root family) : family.members.Nodup := by
  induction family with
  | nil => exact nodup_nil
  | cons entry older ih =>
    rcases ordered with ⟨_, fresh, _, rest⟩
    exact nodup_cons.mpr ⟨fresh, ih rest⟩

theorem Ordered.parent_known (ordered : Ordered root family) {member up : Key}
    (listed : (member, up) ∈ family) : up = root ∨ up ∈ family.members := by
  induction family with
  | nil => cases listed
  | cons entry older ih =>
    rcases ordered with ⟨_, _, parent, rest⟩
    rcases mem_cons.mp listed with same | old
    · cases same
      exact parent.imp id fun found => mem_cons_of_mem _ found
    · exact (ih rest old).imp id fun found => mem_cons_of_mem _ found

end Order

section Lineage

variable {Key : Type} [DecidableEq Key]

/-- A key, its parent, and so on up to the root. A key that is not listed descends
from the root. -/
def lineage (root : Key) : Family Key → Key → List Key
  | [], key => if key = root then [root] else [key, root]
  | (member, up) :: older, key =>
    if key = member then key :: lineage root older up else lineage root older key

/-- The listed members that `top` leads to, `top` included. -/
def subtree (top : Key) : Family Key → List Key
  | [] => []
  | (member, up) :: older =>
    if member = top ∨ up ∈ subtree top older then member :: subtree top older
    else subtree top older

/-- The family without the members in `gone`. -/
def without (gone : List Key) (family : Family Key) : Family Key :=
  family.filter fun entry => entry.1 ∉ gone

variable {root top : Key} {family : Family Key} {key : Key} {gone : List Key}

theorem lineage_root (ordered : Ordered root family) : lineage root family root = [root] := by
  induction family with
  | nil => simp [lineage]
  | cons entry older ih =>
    rcases ordered with ⟨differs, _, _, rest⟩
    rw [lineage, if_neg fun same => differs same.symm]
    exact ih rest

theorem lineage_cons_of_ne {member up : Key} (differs : key ≠ member) :
    lineage root ((member, up) :: family) key = lineage root family key := by
  rw [lineage, if_neg differs]

theorem lineage_cons_self {member up : Key} :
    lineage root ((member, up) :: family) member = member :: lineage root family up := by
  rw [lineage, if_pos rfl]

theorem lineage_eq_cons (root : Key) (family : Family Key) (key : Key) :
    ∃ above, lineage root family key = key :: above := by
  induction family with
  | nil =>
    rw [lineage]
    split_ifs with same
    · exact ⟨[], by rw [same]⟩
    · exact ⟨[root], rfl⟩
  | cons entry older ih =>
    rw [lineage]
    split_ifs
    · exact ⟨_, rfl⟩
    · exact ih

theorem root_mem_lineage (root : Key) (family : Family Key) (key : Key) :
    root ∈ lineage root family key := by
  induction family generalizing key with
  | nil =>
    rw [lineage]
    split_ifs <;> simp
  | cons entry older ih =>
    rw [lineage]
    split_ifs
    · exact mem_cons_of_mem _ (ih _)
    · exact ih key

theorem lineage_unlisted (apart : key ≠ root) (unlisted : key ∉ family.members) :
    lineage root family key = [key, root] := by
  induction family with
  | nil => exact if_neg apart
  | cons entry older ih =>
    rw [members, map_cons, mem_cons, not_or] at unlisted
    exact (lineage_cons_of_ne unlisted.1).trans (ih unlisted.2)

theorem known_of_mem_lineage (ordered : Ordered root family) {above : Key}
    (known : key = root ∨ key ∈ family.members) (member : above ∈ lineage root family key) :
    above = root ∨ above ∈ family.members := by
  induction family generalizing key with
  | nil =>
    have same : key = root := known.resolve_right (by simp [members])
    rw [lineage, if_pos same, mem_singleton] at member
    exact Or.inl member
  | cons entry older ih =>
    rcases entry with ⟨newest, origin⟩
    rcases ordered with ⟨_, _, parent, rest⟩
    have widen : ∀ {other}, other = root ∨ other ∈ members older →
        other = root ∨ other ∈ members ((newest, origin) :: older) :=
      fun found => found.imp id fun inside => mem_cons_of_mem _ inside
    rw [lineage] at member
    split_ifs at member with same
    · rcases mem_cons.mp member with here | higher
      · exact here ▸ known
      · exact widen (ih rest parent higher)
    · have older : key = root ∨ key ∈ members older := by
        rcases known with isRoot | found
        · exact Or.inl isRoot
        · exact Or.inr ((mem_cons.mp found).resolve_left same)
      exact widen (ih rest older member)

theorem lineage_suffix (ordered : Ordered root family) {other : Key} {lower upper : List Key}
    (known : key = root ∨ key ∈ family.members)
    (split : lineage root family key = lower ++ other :: upper) :
    lineage root family other = other :: upper := by
  induction family generalizing key lower with
  | nil =>
    have same : key = root := known.resolve_right (by simp [members])
    rw [lineage, if_pos same] at split
    cases lower with
    | nil =>
      cases split
      rw [lineage, if_pos rfl]
    | cons first rest =>
      have short := congrArg List.length split
      simp at short
  | cons entry older ih =>
    rcases entry with ⟨newest, origin⟩
    rcases ordered with ⟨differs, fresh, parent, rest⟩
    have apart : ∀ {above}, above = root ∨ above ∈ members older → above ≠ newest := by
      rintro above isKnown rfl
      rcases isKnown with isRoot | found
      · exact differs isRoot
      · exact fresh found
    have higher : ∀ {start : Key} {below : List Key}, start = root ∨ start ∈ members older →
        lineage root older start = below ++ other :: upper →
        lineage root ((newest, origin) :: older) other = other :: upper := by
      intro start below isKnown cut
      have inside : other ∈ lineage root older start := by
        rw [cut]
        exact mem_append_right _ mem_cons_self
      rw [lineage_cons_of_ne (apart (known_of_mem_lineage rest isKnown inside))]
      exact ih rest isKnown cut
    by_cases same : key = newest
    · subst same
      cases lower with
      | nil =>
        rw [lineage_cons_self, nil_append] at split
        cases split
        rw [lineage_cons_self]
      | cons first more =>
        rw [lineage_cons_self, cons_append] at split
        exact higher parent (List.cons.inj split).2
    · rw [lineage_cons_of_ne same] at split
      refine higher (known.imp id fun found => ?_) split
      exact (mem_cons.mp found).resolve_left same

def Closed (gone : List Key) (family : Family Key) : Prop :=
  ∀ {member up}, (member, up) ∈ family → up ∈ gone → member ∈ gone

theorem subtree_subset (member : key ∈ subtree top family) : key ∈ family.members := by
  induction family with
  | nil => cases member
  | cons entry older ih =>
    rw [subtree] at member
    split_ifs at member with taken
    · rcases mem_cons.mp member with same | deeper
      · rw [same]
        exact mem_cons_self
      · exact mem_cons_of_mem _ (ih deeper)
    · exact mem_cons_of_mem _ (ih member)

theorem subtree_closed (ordered : Ordered root family) : Closed (subtree top family) family := by
  induction family with
  | nil =>
    intro member up listed
    cases listed
  | cons entry older ih =>
    rcases entry with ⟨newest, origin⟩
    rcases ordered with ⟨differs, fresh, parent, rest⟩
    have shrink : ∀ {key}, key ∈ subtree top ((newest, origin) :: older) → key ≠ newest →
        key ∈ subtree top older := by
      intro key member apart
      rw [subtree] at member
      split_ifs at member
      · exact (mem_cons.mp member).resolve_left apart
      · exact member
    have apart : ∀ {key}, key = root ∨ key ∈ members older → key ≠ newest := by
      rintro key known rfl
      rcases known with isRoot | found
      · exact differs isRoot
      · exact fresh found
    intro member up listed inside
    rcases mem_cons.mp listed with same | old
    · cases same
      have below := shrink inside (apart parent)
      rw [subtree, if_pos (Or.inr below)]
      exact mem_cons_self
    · have below := shrink inside (apart (rest.parent_known old))
      have kept := ih rest old below
      rw [subtree]
      split_ifs
      · exact mem_cons_of_mem _ kept
      · exact kept

theorem lineage_without (closed : Closed gone family) (kept : key ∉ gone) :
    lineage root (family.without gone) key = lineage root family key := by
  induction family generalizing key with
  | nil => rfl
  | cons entry older ih =>
    rcases entry with ⟨newest, origin⟩
    have below : Closed gone older :=
      fun listed inside => closed (mem_cons_of_mem _ listed) inside
    rw [without, filter_cons]
    by_cases same : key = newest
    · subst same
      have above : origin ∉ gone := fun inside => kept (closed mem_cons_self inside)
      rw [if_pos (by simpa using kept), lineage_cons_self, lineage_cons_self]
      congr 1
      exact ih below above
    · rw [lineage_cons_of_ne same]
      split_ifs
      · rw [lineage_cons_of_ne same]
        exact ih below kept
      · exact ih below kept

theorem mem_members_without :
    key ∈ (family.without gone).members ↔ key ∈ family.members ∧ key ∉ gone := by
  simp only [members, without, mem_map, mem_filter, decide_eq_true_eq]
  constructor
  · rintro ⟨entry, ⟨listed, kept⟩, rfl⟩
    exact ⟨⟨entry, listed, rfl⟩, kept⟩
  · rintro ⟨⟨entry, listed, rfl⟩, kept⟩
    exact ⟨entry, ⟨listed, kept⟩, rfl⟩

theorem Ordered.without (ordered : Ordered root family) (closed : Closed gone family) :
    Ordered root (family.without gone) := by
  induction family with
  | nil => trivial
  | cons entry older ih =>
    rcases entry with ⟨newest, origin⟩
    rcases ordered with ⟨differs, fresh, parent, rest⟩
    have below : Closed gone older :=
      fun listed inside => closed (mem_cons_of_mem _ listed) inside
    rw [Family.without, filter_cons]
    split_ifs with kept
    · refine ⟨differs, ?_, ?_, ih rest below⟩
      · exact fun found => fresh (mem_members_without.mp found).1
      · rcases parent with isRoot | found
        · exact Or.inl isRoot
        · refine Or.inr (mem_members_without.mpr ⟨found, fun inside => ?_⟩)
          exact (of_decide_eq_true kept) (closed mem_cons_self inside)
    · exact ih rest below

/-!
## A member that starts anew
-/

/-- The family in which `node` descends from the root. -/
def reroot (root node : Key) (family : Family Key) : Family Key :=
  family.map fun entry => if entry.1 = node then (node, root) else entry

theorem members_reroot (root node : Key) (family : Family Key) :
    (family.reroot root node).members = family.members := by
  rw [members, members, reroot, map_map]
  apply map_congr_left
  intro entry _
  simp only [Function.comp_apply]
  split_ifs with same
  · exact same.symm
  · rfl

theorem Ordered.reroot {node : Key} (ordered : Ordered root family) :
    Ordered root (family.reroot root node) := by
  induction family with
  | nil => trivial
  | cons entry older ih =>
    rcases entry with ⟨newest, origin⟩
    rcases ordered with ⟨differs, fresh, parent, rest⟩
    have kept := members_reroot root node older
    change Ordered root ((if newest = node then (node, root) else (newest, origin)) ::
      Family.reroot root node older)
    split_ifs with same
    · subst same
      exact ⟨differs, by rw [kept]; exact fresh, Or.inl rfl, ih rest⟩
    · exact ⟨differs, by rw [kept]; exact fresh, by rw [kept]; exact parent, ih rest⟩

/-- A lineage that runs through `node` ends there at once, every other one stays. -/
theorem lineage_reroot {node : Key} (ordered : Ordered root family) (apart : node ≠ root)
    (key : Key) :
    node ∉ lineage root family key ∧
        lineage root (family.reroot root node) key = lineage root family key ∨
      ∃ lower upper, lineage root family key = lower ++ node :: upper ∧ node ∉ lower ∧
        lineage root (family.reroot root node) key = lower ++ [node, root] := by
  induction family generalizing key with
  | nil =>
    by_cases same : key = node
    · subst same
      refine Or.inr ⟨[], [root], ?_, not_mem_nil, ?_⟩
      · rw [lineage, if_neg apart]
        rfl
      · exact if_neg apart
    · refine Or.inl ⟨?_, rfl⟩
      rw [lineage]
      split_ifs
      · simpa using apart
      · simp [apart, Ne.symm same]
  | cons entry older ih =>
    rcases entry with ⟨newest, origin⟩
    rcases ordered with ⟨differs, fresh, parent, rest⟩
    have shape : Family.reroot root node ((newest, origin) :: older) =
        (newest, if newest = node then root else origin) :: Family.reroot root node older := by
      rw [reroot, map_cons, reroot]
      split_ifs with same
      · have plain : newest = node := same
        rw [plain]
      · rfl
    rw [shape]
    by_cases here : key = newest
    · subst here
      rw [lineage_cons_self, lineage_cons_self]
      by_cases same : key = node
      · subst same
        refine Or.inr ⟨[], _, rfl, not_mem_nil, ?_⟩
        rw [if_pos rfl, lineage_root rest.reroot]
        rfl
      · rw [if_neg same]
        rcases ih rest origin with ⟨missing, kept⟩ | ⟨lower, upper, cut, before, short⟩
        · refine Or.inl ⟨?_, by rw [kept]⟩
          rw [mem_cons, not_or]
          exact ⟨Ne.symm same, missing⟩
        · refine Or.inr ⟨key :: lower, upper, by rw [cut]; rfl, ?_, by rw [short]; rfl⟩
          rw [mem_cons, not_or]
          exact ⟨Ne.symm same, before⟩
    · rw [lineage_cons_of_ne here, lineage_cons_of_ne here]
      exact ih rest key

end Lineage

end Family

end Figwal.Lib
