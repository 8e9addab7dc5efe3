import Figwal.Lib.Splice

/-!
# Branches that grow at their ends

Every branch keeps its own items from its base on, the durable ones first and
those still pending after them. It borrows what lies below its base from the
durable items of the branch it starts on. `path` lists a branch and those above
it, the branch itself first.

Branches are only ever extended, by new pending items or by pending ones turning
durable, so nothing that happens to one branch shows on another.
-/

namespace Figwal.Lib

open List

set_option autoImplicit false

structure Branch (Item : Type) where
  base : Nat
  own : List Item
  pend : List Item

section Branches

variable {Key Item : Type} {key : Key} {lower path up upper : List Key}

def durable (branches : Key → Branch Item) : List Key → List Item
  | [] => []
  | key :: up => splice (branches key).base (durable branches up) (branches key).own

def unfolded (branches : Key → Branch Item) : List Key → List Item
  | [] => []
  | key :: up => durable branches (key :: up) ++ (branches key).pend

/-- Every branch starts no later than where the durable items above it end. -/
def Based (branches : Key → Branch Item) : List Key → Prop
  | [] => True
  | key :: up =>
    1 ≤ (branches key).base ∧ (branches key).base ≤ (durable branches up).length + 1 ∧
      Based branches up

structure Settles (before after : Branch Item) : Prop where
  base : after.base = before.base
  moved : ∃ moved, after.own = before.own ++ moved ∧ before.pend = moved ++ after.pend

structure Extends (before after : Branch Item) : Prop where
  base : after.base = before.base
  grown : before.own <+: after.own

theorem Settles.refl (branch : Branch Item) : Settles branch branch :=
  ⟨rfl, [], by simp⟩

theorem Settles.trans {first second third : Branch Item} (early : Settles first second)
    (late : Settles second third) : Settles first third := by
  rcases early.moved with ⟨some, own, pend⟩
  rcases late.moved with ⟨more, ownMore, pendMore⟩
  refine ⟨late.base.trans early.base, some ++ more, ?_, ?_⟩
  · rw [ownMore, own, append_assoc]
  · rw [pend, pendMore, append_assoc]

theorem Settles.extension {before after : Branch Item} (settles : Settles before after) :
    Extends before after := by
  rcases settles.moved with ⟨moved, own, _⟩
  exact ⟨settles.base, moved, own.symm⟩

theorem Extends.refl (branch : Branch Item) : Extends branch branch :=
  ⟨rfl, List.prefix_refl _⟩

theorem Extends.trans {first second third : Branch Item} (early : Extends first second)
    (late : Extends second third) : Extends first third :=
  ⟨late.base.trans early.base, early.grown.trans late.grown⟩

variable {branches changed : Key → Branch Item}

theorem based_of_first (apart : ∀ key ∈ path, (branches key).base = 1) : Based branches path := by
  induction path with
  | nil => trivial
  | cons key up ih =>
    rw [Based, apart key mem_cons_self]
    exact ⟨Nat.le_refl 1, Nat.le_add_left 1 _, ih fun other above =>
      apart other (mem_cons_of_mem _ above)⟩

section

variable (same : ∀ key ∈ path, changed key = branches key)

include same

theorem durable_congr : durable changed path = durable branches path := by
  induction path with
  | nil => rfl
  | cons key up ih =>
    rw [durable, durable, same key mem_cons_self,
      ih fun other above => same other (mem_cons_of_mem _ above)]

theorem based_congr (based : Based branches path) : Based changed path := by
  induction path with
  | nil => trivial
  | cons key up ih =>
    have above : ∀ other ∈ up, changed other = branches other :=
      fun other inside => same other (mem_cons_of_mem _ inside)
    rw [Based, same key mem_cons_self, durable_congr above]
    exact ⟨based.1, based.2.1, ih above based.2.2⟩

theorem unfolded_congr : unfolded changed path = unfolded branches path := by
  cases path with
  | nil => rfl
  | cons key up =>
    rw [unfolded, unfolded, durable_congr same, same key mem_cons_self]

end

theorem durable_length (based : Based branches (key :: up)) :
    (durable branches (key :: up)).length + 1 =
      (branches key).base + (branches key).own.length :=
  splice_length based.1 based.2.1

theorem durable_extends (based : Based branches (key :: up))
    (grown : ∀ other ∈ key :: up, Extends (branches other) (changed other)) :
    durable changed (key :: up) =
      splice (branches key).base (durable branches up) (changed key).own := by
  induction up generalizing key with
  | nil => simp only [durable, (grown key mem_cons_self).base]
  | cons parent above ih =>
    have higher : ∀ other ∈ parent :: above, Extends (branches other) (changed other) :=
      fun other inside => grown other (mem_cons_of_mem _ inside)
    rw [durable, (grown key mem_cons_self).base, ih based.2.2 higher]
    apply splice_of_prefix based.2.1
    rcases (higher parent mem_cons_self).grown with ⟨extra, longer⟩
    rw [durable, splice, splice, ← longer, ← append_assoc]
    exact List.prefix_append _ _

theorem durable_longer (based : Based branches path)
    (grown : ∀ other ∈ path, Extends (branches other) (changed other)) :
    durable branches path <+: durable changed path := by
  cases path with
  | nil => exact List.prefix_refl _
  | cons key up =>
    rw [durable_extends based grown, durable, splice, splice]
    rcases (grown key mem_cons_self).grown with ⟨extra, longer⟩
    rw [← longer, ← append_assoc]
    exact List.prefix_append _ _

theorem based_extends (based : Based branches path)
    (grown : ∀ other ∈ path, Extends (branches other) (changed other)) : Based changed path := by
  induction path with
  | nil => trivial
  | cons key up ih =>
    have higher : ∀ other ∈ up, Extends (branches other) (changed other) :=
      fun other inside => grown other (mem_cons_of_mem _ inside)
    have longer := (durable_longer based.2.2 higher).length_le
    rw [Based, (grown key mem_cons_self).base]
    exact ⟨based.1, Nat.le_trans based.2.1 (Nat.succ_le_succ longer), ih based.2.2 higher⟩

section

variable (based : Based branches (key :: up))
  (grown : ∀ other ∈ key :: up, Extends (branches other) (changed other))

include based grown

/-- A branch sees its own new items after what it saw, however those above it grow. -/
theorem unfolded_grows {extra : List Item}
    (more : (changed key).own ++ (changed key).pend =
      (branches key).own ++ (branches key).pend ++ extra) :
    unfolded changed (key :: up) = unfolded branches (key :: up) ++ extra := by
  rw [unfolded, unfolded, durable_extends based grown, durable, splice, splice, append_assoc,
    append_assoc, append_assoc, more, append_assoc]

/-- A branch whose own items stay sees what it saw, however those above it grow. -/
theorem unfolded_extends
    (same : (changed key).own ++ (changed key).pend = (branches key).own ++ (branches key).pend) :
    unfolded changed (key :: up) = unfolded branches (key :: up) := by
  rw [unfolded_grows based grown (same.trans (append_nil _).symm), append_nil]

end

theorem unfolded_settles (based : Based branches path)
    (settled : ∀ other ∈ path, Settles (branches other) (changed other)) :
    unfolded changed path = unfolded branches path := by
  cases path with
  | nil => rfl
  | cons key up =>
    apply unfolded_extends based fun other inside => (settled other inside).extension
    rcases (settled key mem_cons_self).moved with ⟨moved, own, pend⟩
    rw [own, pend, append_assoc]

/-- Below the bases passed on the way up, a path shows what its rest shows. -/
theorem durable_take {count : Nat} (based : Based branches (lower ++ upper))
    (below : ∀ key ∈ lower, count + 1 ≤ (branches key).base) :
    (durable branches (lower ++ upper)).take count = (durable branches upper).take count := by
  induction lower with
  | nil => rfl
  | cons key rest ih =>
    have here := below key mem_cons_self
    rw [cons_append] at based ⊢
    rw [durable, take_splice_below here based.2.1]
    exact ih based.2.2 fun other inside => below other (mem_cons_of_mem _ inside)

/-- Where a path is cut and continued by one that shows the same, it shows the same. -/
theorem durable_graft {other : List Key} (same : ∀ key ∈ lower, changed key = branches key)
    (joint : durable changed other = durable branches upper) :
    durable changed (lower ++ other) = durable branches (lower ++ upper) := by
  induction lower with
  | nil => exact joint
  | cons key rest ih =>
    rw [cons_append, cons_append, durable, durable, same key mem_cons_self,
      ih fun above inside => same above (mem_cons_of_mem _ inside)]

theorem based_graft {other : List Key} (same : ∀ key ∈ lower, changed key = branches key)
    (joint : durable changed other = durable branches upper)
    (based : Based branches (lower ++ upper)) (hangs : Based changed other) :
    Based changed (lower ++ other) := by
  induction lower with
  | nil => exact hangs
  | cons key rest ih =>
    have above : ∀ other ∈ rest, changed other = branches other :=
      fun other inside => same other (mem_cons_of_mem _ inside)
    rw [cons_append] at based ⊢
    rw [Based, same key mem_cons_self, durable_graft above joint]
    exact ⟨based.1, based.2.1, ih above based.2.2⟩

end Branches

end Figwal.Lib
