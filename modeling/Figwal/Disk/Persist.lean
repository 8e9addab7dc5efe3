import Figwal.Disk.Frame

/-!
# Writing a batch

The loop in which a buffered log hands its records to the disk: one write after the
other, up to the first that is refused.
-/

namespace Figwal.Disk

open Figwal.Lib

set_option autoImplicit false

variable {α σ : Type}

/-- The loop of `SyncThrough`: write records one after the other, up to the first
failure. -/
def persist (opts : Options α σ) (parents : List (Log α σ)) :
    Log α σ → Nat → List α → Except Err Unit × Log α σ
  | log, _, [] => (.ok (), log)
  | log, idx, record :: rest =>
    match log.write opts parents idx record with
    | (.error err, next) => (.error err, next)
    | (.ok (), next) => persist opts parents next (idx + 1) rest

section Persist

variable {opts : Options α σ} {parents : List (Log α σ)} {log : Log α σ} {idx : Nat}

theorem persist_stored {next : Log α σ} (tidy : log.Tidy) (records : List α)
    (due : idx = log.firstWritable + log.own.length) {result : Except Err Unit}
    (done : persist opts parents log idx records = (result, next)) :
    next.Tidy ∧ log.Grew next ∧ ∃ written rest, records = written ++ rest ∧
      next.own = log.own ++ written.map opts.codec.stored ∧ (result = .ok () → rest = []) := by
  induction records generalizing log idx with
  | nil =>
    cases done
    exact ⟨tidy, Log.Grew.refl _, [], [], rfl, (List.append_nil _).symm, fun _ => rfl⟩
  | cons record rest ih =>
    rw [persist] at done
    cases wrote : log.write opts parents idx record with
    | mk answer grown =>
      have tidyGrown := tidy.write wrote
      have grew := Log.grew_write tidy.numbered wrote
      rcases Log.write_spec tidy.numbered wrote with ⟨_, forkBase, failed, succeeded⟩
      rw [wrote] at done
      cases answer with
      | error err =>
        cases done
        refine ⟨tidyGrown, grew, [], record :: rest, rfl, ?_, fun impossible => ?_⟩
        · rw [(failed err rfl).1, List.map_nil, List.append_nil]
        · cases impossible
      | ok _ =>
        have own := (succeeded rfl).2
        have next : idx + 1 = grown.firstWritable + grown.own.length := by
          rw [Log.firstWritable, forkBase, own, List.length_append, due, Log.firstWritable]
          rfl
        rcases ih tidyGrown next done with
          ⟨tidyLast, grewLast, written, left, split, ownLast, all⟩
        refine ⟨tidyLast, grew.trans grewLast, record :: written, left, ?_, ?_, all⟩
        · rw [split]
          rfl
        · rw [ownLast, own, List.append_assoc]
          rfl

theorem persist_spec (exact : ∀ record, opts.codec.stored record = record) {next : Log α σ}
    (tidy : log.Tidy) (records : List α) (due : idx = log.firstWritable + log.own.length)
    {result : Except Err Unit} (done : persist opts parents log idx records = (result, next)) :
    next.Tidy ∧ log.Grew next ∧ ∃ written rest, records = written ++ rest ∧
      next.own = log.own ++ written ∧ (result = .ok () → rest = []) := by
  have same : opts.codec.stored = id := funext exact
  have spec := persist_stored tidy records due done
  simp only [same, List.map_id] at spec
  exact spec

theorem persist_append (early late : List α) : persist opts parents log idx (early ++ late) =
      match persist opts parents log idx early with
      | (.error err, next) => (.error err, next)
      | (.ok (), next) => persist opts parents next (idx + early.length) late := by
  induction early generalizing log idx with
  | nil => rfl
  | cons record rest ih =>
    rw [List.cons_append, persist, persist]
    cases log.write opts parents idx record with
    | mk answer grown =>
      cases answer with
      | error err => rfl
      | ok _ =>
        have shift : idx + 1 + rest.length = idx + (rest.length + 1) := by omega
        simp only [ih, List.length_cons, shift]

/-- The answer does not depend on how the ancestors have grown meanwhile. -/
theorem persist_same_above {others : List (Log α σ)} (same : log.SameAbove opts parents others)
    (idx : Nat) (records : List α) {first : Nat} (numbered : log.NumberedFrom first) :
    persist opts others log idx records = persist opts parents log idx records := by
  induction records generalizing log idx with
  | nil => rfl
  | cons record rest ih =>
    rw [persist, persist, same.write]
    cases wrote : log.write opts parents idx record with
    | mk answer grown =>
      rcases Log.write_spec numbered wrote with ⟨later, forkBase, _⟩
      cases answer with
      | error err => rfl
      | ok _ => exact ih (same.of_base forkBase) (idx + 1) later

end Persist

end Figwal.Disk
