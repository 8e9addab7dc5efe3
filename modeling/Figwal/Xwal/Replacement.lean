import Figwal.Lib.Recovery

/-!
# Replacing a file

`atomicReplaceFile` renames a temporary file over a file. Where a rename does not
replace its target, it moves the file aside first, between writing and removing a
marker. `recoverAtomicReplacement` looks at which of the four files exist and brings
an interrupted replacement to an end.
-/

namespace Figwal.Xwal

open Figwal.Lib

set_option autoImplicit false

variable {α : Type}

/-- A file, its `.tmp`, its `.invalid`, and whether its `.replace-pending` exists. -/
structure Copies (α : Type) where
  final : Option α
  tmp : Option α
  invalid : Option α
  pending : Bool
  deriving DecidableEq, Repr

inductive FileOp where
  | renameTmp
  | moveAside
  | restore
  | writePending
  | removeTmp
  | removeInvalid
  | removePending
  deriving DecidableEq, Repr

/-- Which of the renames of `atomicReplaceFile` fail. -/
structure RenameFaults where
  direct : Bool
  second : Bool
  restore : Bool
  deriving DecidableEq, Repr

namespace Copies

def run (copies : Copies α) : FileOp → Copies α
  | .renameTmp => { copies with final := copies.tmp, tmp := none }
  | .moveAside => { copies with invalid := copies.final, final := none }
  | .restore => { copies with final := copies.invalid, invalid := none }
  | .writePending => { copies with pending := true }
  | .removeTmp => { copies with tmp := none }
  | .removeInvalid => { copies with invalid := none }
  | .removePending => { copies with pending := false }

def atomicReplaceFile (faults : RenameFaults) (copies : Copies α) : List FileOp × Bool :=
  if copies.tmp.isSome ∧ faults.direct = false then
    ([.renameTmp, .removeInvalid, .removePending], true)
  else if copies.final = none then ([], false)
  else
    let aside : List FileOp := [.writePending, .removeInvalid, .moveAside]
    if copies.tmp.isSome ∧ faults.second = false then
      (aside ++ [.renameTmp, .removeInvalid, .removePending], true)
    else if faults.restore then (aside, false)
    else (aside ++ [.restore], false)

def recoverAtomicReplacement (copies : Copies α) : Option (List FileOp) :=
  if copies.pending = false then some []
  else
    let cleanup : List FileOp := [.removeTmp, .removeInvalid, .removePending]
    if copies.final.isSome then some cleanup
    else if copies.tmp.isSome then some (.renameTmp :: cleanup)
    else if copies.invalid.isSome then some (.restore :: cleanup)
    else none

def trail : List FileOp → Copies α → List (Copies α)
  | [], _ => []
  | op :: rest, copies => copies.run op :: trail rest (copies.run op)

def replaceSteps (faults : RenameFaults) (copies : Copies α) : List (Copies α) :=
  trail (copies.atomicReplaceFile faults).1 copies

def recoverSteps (copies : Copies α) : List (Copies α) :=
  ((copies.recoverAtomicReplacement).map fun ops => trail ops copies).getD []

def recovered (copies : Copies α) : Option (Copies α) :=
  copies.recoverAtomicReplacement.map fun ops => ops.foldl run copies

def standing (copies : Copies α) : Option α :=
  copies.final.or (copies.tmp.or copies.invalid)

/-- The file holds something good, or a recovery will put it there. A backup is there
only under a marker. -/
def Holds (good : α → Prop) (copies : Copies α) : Prop :=
  if copies.pending then ∃ content, copies.standing = some content ∧ good content
  else copies.invalid = none ∧ ∃ content, copies.final = some content ∧ good content

/-- What an earlier attempt may leave of a file, apart from a temporary file: the file
itself, or a marker and the file under its own name or moved aside. -/
def Leftover (old : α) (copies : Copies α) : Prop :=
  if copies.pending then copies.final.or copies.invalid = some old
  else copies.invalid = none ∧ copies.final = some old

section Recovering

variable {good : α → Prop} {copies later : Copies α}

theorem recovered_of_pending {content : α} (marked : copies.pending = true)
    (stands : copies.standing = some content) :
    copies.recovered = some ⟨some content, none, none, false⟩ := by
  rcases copies with ⟨final, tmp, invalid, pending⟩
  subst marked
  cases final with
  | some here =>
    cases stands
    rfl
  | none =>
    cases tmp with
    | some here =>
      cases stands
      rfl
    | none =>
      subst stands
      rfl

theorem recovered_of_clear (clear : copies.pending = false) :
    copies.recovered = some copies := by
  unfold recovered recoverAtomicReplacement
  rw [if_pos clear]
  rfl

/-- While a recovery runs, the copy it took stays the one that is taken. -/
theorem standing_recover_steps {content : α} (marked : copies.pending = true)
    (stands : copies.standing = some content) (steps : later ∈ copies.recoverSteps) :
    later.pending = true ∧ later.standing = some content ∨
      later = ⟨some content, none, none, false⟩ := by
  rcases copies with ⟨final, tmp, invalid, pending⟩
  subst marked
  cases final with
  | some here =>
    cases stands
    simp [recoverSteps, recoverAtomicReplacement, trail, run] at steps
    rcases steps with rfl | rfl | rfl <;> simp [standing]
  | none =>
    cases tmp with
    | some here =>
      cases stands
      simp [recoverSteps, recoverAtomicReplacement, trail, run] at steps
      rcases steps with rfl | rfl | rfl <;> simp [standing]
    | none =>
      subst stands
      simp [recoverSteps, recoverAtomicReplacement, trail, run] at steps
      rcases steps with rfl | rfl <;> simp [standing]

theorem recover_steps_clear (clear : copies.pending = false) : copies.recoverSteps = [] := by
  unfold recoverSteps recoverAtomicReplacement
  rw [if_pos clear]
  rfl

/-- A recovery that is interrupted leaves what it would have ended with. -/
theorem Holds.recover_step (holds : copies.Holds good) (steps : later ∈ copies.recoverSteps) :
    later.Holds good ∧ later.recovered = copies.recovered := by
  cases marked : copies.pending with
  | false =>
    rw [recover_steps_clear marked] at steps
    cases steps
  | true =>
    unfold Holds at holds
    rw [if_pos marked] at holds
    obtain ⟨content, stands, fine⟩ := holds
    rw [recovered_of_pending marked stands]
    rcases standing_recover_steps marked stands steps with ⟨still, same⟩ | rfl
    · refine ⟨?_, recovered_of_pending still same⟩
      unfold Holds
      rw [if_pos still]
      exact ⟨content, same, fine⟩
    · exact ⟨⟨rfl, content, rfl, fine⟩, recovered_of_clear rfl⟩

theorem Holds.recovered (holds : copies.Holds good) :
    ∃ done content, copies.recovered = some done ∧ done.final = some content ∧ good content ∧
      done.pending = false ∧ done.invalid = none := by
  cases marked : copies.pending with
  | false =>
    unfold Holds at holds
    rw [if_neg (by rw [marked]; simp)] at holds
    obtain ⟨gone, content, here, fine⟩ := holds
    exact ⟨copies, content, recovered_of_clear marked, here, fine, marked, gone⟩
  | true =>
    unfold Holds at holds
    rw [if_pos marked] at holds
    obtain ⟨content, stands, fine⟩ := holds
    exact ⟨_, content, recovered_of_pending marked stands, rfl, fine, rfl, rfl⟩

end Recovering

section Replacing

variable {old new : α} {start later : Copies α} {faults : RenameFaults}

theorem Leftover.holds (leftover : start.Leftover old) (written : start.tmp = some new) :
    start.Holds fun content => content = old ∨ content = new := by
  rcases start with ⟨final, tmp, invalid, pending⟩
  cases pending with
  | false => exact ⟨leftover.1, old, leftover.2, Or.inl rfl⟩
  | true =>
    subst written
    cases final with
    | some here => exact ⟨here, rfl, Or.inl (Option.some.inj leftover)⟩
    | none => exact ⟨new, rfl, Or.inr rfl⟩

/-- The files after each step of a replacement: a recovery finds the old content or
the new one, and only the new one once the last step is done and nil is returned. The
old content is where a further attempt may find it. -/
theorem Leftover.replace_step (leftover : start.Leftover old) (written : start.tmp = some new)
    (steps : later ∈ start.replaceSteps faults) :
    (later.Holds fun content => content = old ∨ content = new) ∧
      (later.Leftover old ∨ later.Leftover new) := by
  rcases start with ⟨final, tmp, invalid, pending⟩
  subst written
  unfold replaceSteps atomicReplaceFile at steps
  cases direct : faults.direct with
  | false =>
    cases pending with
    | false =>
      -- Without leftovers the two removals change nothing.
      obtain ⟨rfl, rfl⟩ := leftover
      simp [direct, trail, run] at steps
      subst steps
      simp [Holds, Leftover]
    | true =>
      simp [direct, trail, run] at steps
      rcases steps with rfl | rfl | rfl <;> simp [Holds, Leftover, standing]
  | true =>
    cases final with
    | none =>
      simp [direct, trail] at steps
    | some here =>
      have same : here = old := by
        cases pending with
        | false => exact Option.some.inj leftover.2
        | true => exact Option.some.inj leftover
      subst same
      cases second : faults.second with
      | false =>
        simp [direct, second, trail, run] at steps
        rcases steps with rfl | rfl | rfl | rfl | rfl | rfl <;>
          simp [Holds, Leftover, standing]
      | true =>
        cases back : faults.restore with
        | false =>
          simp [direct, second, back, trail, run] at steps
          rcases steps with rfl | rfl | rfl | rfl <;> simp [Holds, Leftover, standing]
        | true =>
          simp [direct, second, back, trail, run] at steps
          rcases steps with rfl | rfl | rfl <;> simp [Holds, Leftover, standing]

theorem replaced_of_nil (written : start.tmp = some new)
    (returned : (start.atomicReplaceFile faults).2 = true) :
    (start.atomicReplaceFile faults).1.foldl run start = ⟨some new, none, none, false⟩ := by
  unfold atomicReplaceFile at returned ⊢
  split_ifs at returned ⊢
  · simp [run, written]
  · simp [run, written]

theorem trail_getElem_length {ops : List FileOp} (copies : Copies α) :
    (copies :: trail ops copies)[ops.length]? = some (ops.foldl run copies) := by
  induction ops generalizing copies with
  | nil => rfl
  | cons op rest ih => exact ih (copies.run op)

end Replacing

/-- Whatever an earlier attempt left, wherever the replacement crashes and however often
recoveries crash: a recovery that runs to its end leaves the whole old or the whole new
content, the new one if the replacement returned nil, no marker and no backup, and
nothing to do for another one. A next attempt finds what the theorem asks for. -/
theorem replacement_is_atomic (old new : α) (start : Copies α) (leftover : start.Leftover old)
    (written : start.tmp = some new) (faults : RenameFaults) (point : Nat) (crashes : List Nat) :
    ∃ done, (crashes.foldl (crashAt recoverSteps)
        (crashAt (replaceSteps faults) start point)).recovered = some done ∧
      (done.final = some old ∨ done.final = some new) ∧
      ((start.atomicReplaceFile faults).2 = true →
        point = (start.atomicReplaceFile faults).1.length → done.final = some new) ∧
      done.pending = false ∧ done.invalid = none ∧
      done.recovered = some done ∧ done.recoverSteps = [] ∧
      ((crashAt (replaceSteps faults) start point).Leftover old ∨
        (crashAt (replaceSteps faults) start point).Leftover new) := by
  obtain ⟨holds, further⟩ : ((crashAt (replaceSteps faults) start point).Holds fun content =>
      content = old ∨ content = new) ∧
      ((crashAt (replaceSteps faults) start point).Leftover old ∨
        (crashAt (replaceSteps faults) start point).Leftover new) := by
    rcases crash_at_mem (replaceSteps faults) start point with same | steps
    · rw [same]
      exact ⟨leftover.holds written, Or.inl leftover⟩
    · exact leftover.replace_step written steps
  obtain ⟨_, same⟩ := outcome_after_crashes recoverSteps _ recovered
    (fun _ holds _ steps => holds.recover_step steps) holds crashes
  obtain ⟨done, content, ends, here, good, clear, gone⟩ := holds.recovered
  rw [same]
  refine ⟨done, ends, ?_, ?_, clear, gone, recovered_of_clear clear, recover_steps_clear clear,
    further⟩
  · rcases good with rfl | rfl
    · exact Or.inl here
    · exact Or.inr here
  · intro returned complete
    have last : crashAt (replaceSteps faults) start point = ⟨some new, none, none, false⟩ := by
      rw [crashAt, complete, replaceSteps, trail_getElem_length, replaced_of_nil written returned]
      rfl
    rw [last, recovered_of_clear rfl] at ends
    cases ends
    rfl

/-- The file is moved aside, and the recovery that takes the temporary file crashes. -/
theorem interrupted_replacement_recovers :
    ([2].foldl (crashAt recoverSteps) (crashAt (replaceSteps ⟨true, false, false⟩)
        (⟨some 1, some 2, none, false⟩ : Copies Nat) 3)).pending = true ∧
      ∃ done, ([2].foldl (crashAt recoverSteps) (crashAt (replaceSteps ⟨true, false, false⟩)
        (⟨some 1, some 2, none, false⟩ : Copies Nat) 3)).recovered = some done ∧
        (done.final = some 1 ∨ done.final = some 2) := by
  refine ⟨by decide, ?_⟩
  obtain ⟨done, ends, whole, _⟩ := replacement_is_atomic 1 2
    (⟨some 1, some 2, none, false⟩ : Copies Nat) ⟨rfl, rfl⟩ rfl ⟨true, false, false⟩ 3 [2]
  exact ⟨done, ends, whole⟩

end Copies

end Figwal.Xwal
