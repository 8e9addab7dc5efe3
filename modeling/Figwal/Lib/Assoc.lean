import Mathlib.Data.List.Basic

/-!
# Association lists

A finite map kept as a list of pairs, the first pair for a key being the one that
counts. Renaming every key by an injective function moves every entry along, and
assigning a key replaces its entry.
-/

namespace Figwal.Lib

open List

set_option autoImplicit false

section Assoc

variable {Key Value Other : Type} [BEq Key] [LawfulBEq Key]

/-- Entries are found again under their new key, whatever was done to the value. -/
theorem lookup_map_key {rename : Key → Key} (injective : Function.Injective rename)
    (change : Key → Value → Other) (key : Key) (entries : List (Key × Value)) :
    (entries.map fun entry => (rename entry.1, change entry.1 entry.2)).lookup (rename key) =
      (entries.lookup key).map (change key) := by
  induction entries with
  | nil => rfl
  | cons head rest ih =>
    rw [map_cons, lookup_cons, lookup_cons, ih]
    by_cases same : key = head.1
    · rw [same, beq_self_eq_true, beq_self_eq_true]
      rfl
    · have differ : (key == head.1) = false := beq_eq_false_iff_ne.mpr same
      have apart : (rename key == rename head.1) = false :=
        beq_eq_false_iff_ne.mpr fun equal => same (injective equal)
      rw [differ, apart]

theorem lookup_map_key_none {rename : Key → Key} (change : Key → Value → Other) {key : Key}
    (entries : List (Key × Value)) (missed : ∀ old, rename old ≠ key) :
    (entries.map fun entry => (rename entry.1, change entry.1 entry.2)).lookup key = none := by
  induction entries with
  | nil => rfl
  | cons head rest ih =>
    rw [map_cons, lookup_cons, ih]
    have apart : (key == rename head.1) = false :=
      beq_eq_false_iff_ne.mpr fun equal => missed head.1 equal.symm
    rw [apart]

end Assoc

section Assign

variable {Key Value : Type} {key : Key} {entries : List (Key × Value)} {value : Value}

def removeKeys (gone : Key → Bool) (entries : List (Key × Value)) : List (Key × Value) :=
  entries.filter fun entry => !gone entry.1

theorem nodup_remove_keys {gone : Key → Bool} (nodup : (entries.map Prod.fst).Nodup) :
    ((removeKeys gone entries).map Prod.fst).Nodup :=
  nodup.sublist (filter_sublist.map Prod.fst)

variable [DecidableEq Key]

def assign (key : Key) (value : Value) (entries : List (Key × Value)) : List (Key × Value) :=
  (key, value) :: removeKeys (fun held => held = key) entries

theorem lookup_remove_keys (gone : Key → Bool) (entries : List (Key × Value)) (key : Key) :
    (removeKeys gone entries).lookup key = if gone key then none else entries.lookup key := by
  induction entries with
  | nil => simp [removeKeys]
  | cons head rest ih =>
    have shape : removeKeys gone (head :: rest) =
        if gone head.1 then removeKeys gone rest else head :: removeKeys gone rest := by
      unfold removeKeys
      rw [filter_cons]
      cases gone head.1 <;> rfl
    rw [shape, lookup_cons]
    by_cases same : key = head.1
    · subst same
      split_ifs with dropped
      · rw [ih, if_pos dropped]
      · rw [lookup_cons, beq_self_eq_true]
    · have differ : (key == head.1) = false := beq_eq_false_iff_ne.mpr same
      rw [differ]
      by_cases dropped : gone head.1 = true
      · rw [if_pos dropped, ih]
      · rw [if_neg dropped, lookup_cons, differ, ih]

@[simp] theorem lookup_assign (key other : Key) (value : Value) (entries : List (Key × Value)) :
    (assign key value entries).lookup other =
      if other = key then some value else entries.lookup other := by
  unfold assign
  rw [lookup_cons, lookup_remove_keys]
  by_cases same : other = key
  · simp [same]
  · have differ : (other == key) = false := beq_eq_false_iff_ne.mpr same
    simp [differ, same]

theorem nodup_assign (nodup : (entries.map Prod.fst).Nodup) :
    ((assign key value entries).map Prod.fst).Nodup := by
  unfold assign
  rw [map_cons, nodup_cons]
  refine ⟨?_, nodup_remove_keys nodup⟩
  intro member
  obtain ⟨entry, inside, same⟩ := mem_map.mp member
  have kept := (mem_filter.mp inside).2
  simp [same] at kept

theorem lookup_of_mem (nodup : (entries.map Prod.fst).Nodup) (member : (key, value) ∈ entries) :
    entries.lookup key = some value := by
  induction entries with
  | nil => cases member
  | cons head rest ih =>
    rw [map_cons, nodup_cons] at nodup
    rw [lookup_cons]
    rcases mem_cons.mp member with rfl | older
    · simp
    · have apart : (key == head.1) = false := by
        apply beq_eq_false_iff_ne.mpr
        rintro rfl
        exact nodup.1 (mem_map.mpr ⟨_, older, rfl⟩)
      rw [apart]
      exact ih nodup.2 older

theorem mem_of_lookup (found : entries.lookup key = some value) : (key, value) ∈ entries := by
  obtain ⟨before, after, shape, _⟩ := lookup_eq_some_iff.mp found
  rw [shape]
  simp

theorem lookup_perm {left right : List (Key × Value)} (perm : left.Perm right)
    (nodup : (left.map Prod.fst).Nodup) (key : Key) : left.lookup key = right.lookup key := by
  have unique : (right.map Prod.fst).Nodup := (perm.map Prod.fst).nodup_iff.mp nodup
  cases found : right.lookup key with
  | some value => exact lookup_of_mem nodup (perm.mem_iff.mpr (mem_of_lookup found))
  | none =>
    cases other : left.lookup key with
    | none => rfl
    | some value =>
      rw [lookup_of_mem unique (perm.mem_iff.mp (mem_of_lookup other))] at found
      cases found

/-- Where at most one element is looked for, the order of the list does not matter. -/
theorem find_perm {Item : Type} {left right : List Item} (perm : left.Perm right)
    {wanted : Item → Bool}
    (single : left.Pairwise fun early late => ¬(wanted early = true ∧ wanted late = true)) :
    left.find? wanted = right.find? wanted := by
  induction perm with
  | nil => rfl
  | cons item _ ih =>
    rw [find?_cons, find?_cons, ih (pairwise_cons.mp single).2]
  | swap first second rest =>
    have apart := (pairwise_cons.mp single).1 first mem_cons_self
    rw [find?_cons, find?_cons, find?_cons, find?_cons]
    cases early : wanted second with
    | false => rfl
    | true =>
      cases late : wanted first with
      | false => rfl
      | true => exact absurd ⟨early, late⟩ apart
  | trans perm _ ih later =>
    rw [ih single]
    refine later ((perm.pairwise_iff ?_).mp single)
    exact fun both other => both ⟨other.2, other.1⟩


end Assign

end Figwal.Lib
