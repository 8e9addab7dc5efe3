import Figwal.Disk.Writing

/-!
# Retrying a failed segment opening

`Write` opens a segment for its record when there is no active one, or when the active one is
full and joins the sealed ones. The file is created exclusively before the callback computes
the header, so a callback or header that fails leaves a file behind under the very name the
next attempt creates. Everything else about the handle is as the next attempt needs it.
-/

namespace Figwal.Disk

open Figwal.Lib

set_option autoImplicit false

variable {α σ : Type}

namespace Log

/-- The log in which `Write` opens a segment for the record, where it opens one. -/
def opensIn (opts : Options α σ) (log : Log α σ) (idx : Nat) (payload : α) : Option (Log α σ) :=
  if log.readOnly ∨ log.subdirs ∨ idx ≠ log.expected then none
  else
    match log.active with
    | none => some log
    | some segment =>
      match segment.append opts.codec payload with
      | .error .full => if segment.count = 0 then none else some log.sealActive
      | _ => none

def firstRecord (opts : Options α σ) (parents : List (Log α σ)) (base : Log α σ) (idx : Nat)
    (payload : α) : Except Err Unit × Log α σ :=
  match base.openActive opts parents idx with
  | (.error err, opened) => (.error err, opened)
  | (.ok (), opened) => opened.appendRotated opts payload

section Opening

variable {opts : Options α σ} {parents : List (Log α σ)} {log base : Log α σ} {idx : Nat}
  {payload : α} {first : Nat}

/-- A fresh segment has no records, so `Write` treats it like one a rotation opened. -/
theorem append_opened {opened : Log α σ}
    (done : base.openActive opts parents idx = (.ok (), opened)) :
    opened.appendActive opts parents idx payload = opened.appendRotated opts payload := by
  rcases open_active_cases done with ⟨_, _, impossible, _⟩ | ⟨_, fresh, usable, shape⟩
  · cases impossible
  · have unused : fresh.count = 0 := by rw [Segment.count, usable.unused, List.length_nil]
    rw [shape, appendActive, appendRotated]
    simp only [unused, if_true]

theorem write_opening (opens : log.opensIn opts idx payload = some base) :
    log.write opts parents idx payload = base.firstRecord opts parents idx payload := by
  rw [opensIn] at opens
  split_ifs at opens with refused
  have locked : ¬log.readOnly = true := fun readOnly => refused (Or.inl readOnly)
  have branched : ¬log.subdirs = true := fun subdirs => refused (Or.inr (Or.inl subdirs))
  have due : ¬idx ≠ log.expected := fun other => refused (Or.inr (Or.inr other))
  rw [write, if_neg locked, if_neg branched, if_neg due, firstRecord]
  cases active : log.active with
  | none =>
    simp only [active, Option.some.injEq] at opens
    subst opens
    cases done : log.openActive opts parents idx with
    | mk result opened =>
      cases result with
      | error err => rfl
      | ok _ => exact append_opened done
  | some segment =>
    simp only [active] at opens
    simp only [appendActive, active]
    split at opens
    · rename_i full
      split_ifs at opens with unused
      cases opens
      rw [full]
      cases done : log.sealActive.openActive opts parents idx with
      | mk result opened =>
        cases result <;> simp [unused, rotate, done]
    · cases opens

/-- What an opening log looks like: it has no active segment, takes the record next, and holds
the records the log held. -/
theorem opening_spec (numbered : log.NumberedFrom first)
    (opens : log.opensIn opts idx payload = some base) :
    base.NumberedFrom first ∧ base.own = log.own ∧ base.active = none ∧
      base.forkBase = log.forkBase ∧ base.files = log.files ∧
      base.readOnly = false ∧ base.subdirs = false ∧ idx = first + log.own.length := by
  rw [opensIn] at opens
  split_ifs at opens with refused
  simp only [ne_eq, not_or, not_not, Bool.not_eq_true] at refused
  obtain ⟨locked, branched, due⟩ := refused
  have cleared : log.Cleared base := by
    cases active : log.active with
    | none =>
      simp only [active, Option.some.injEq] at opens
      exact Or.inl ⟨active, opens.symm⟩
    | some segment =>
      simp only [active] at opens
      split at opens
      · split_ifs at opens with unused
        cases opens
        refine Or.inr ⟨segment, active, ?_, rfl⟩
        intro empty
        exact unused (by rw [Segment.count, empty, List.length_nil])
      · cases opens
  obtain ⟨clear, same, idle, fork⟩ := numbered_cleared numbered cleared
  obtain ⟨readOnly, subdirs⟩ := cleared_locks cleared
  exact ⟨clear, same, idle, fork, cleared.files, readOnly.trans locked, subdirs.trans branched,
    due.trans (expected_eq numbered)⟩

theorem open_unheaded (unheaded : base.Unheaded opts parents idx) :
    ∃ err, base.openActive opts parents idx =
      (.error err, { base with stray := base.stray ++ [create idx opts.segmentSize] }) := by
  obtain ⟨fold, mode, failed⟩ := unheaded.failed
  rw [openActive, if_neg unheaded.vacant]
  simp only [mode]
  cases computed : base.openHeader opts parents fold with
  | error err => exact ⟨err, rfl⟩
  | ok header =>
    have unframed := failed header computed
    simp only [Segment.writeHeader, unframed]
    exact ⟨_, rfl⟩

theorem append_rotated_stray {good : Log α σ} {strays : List (Segment α σ)}
    (done : log.appendRotated opts payload = (.ok (), good)) :
    ({ log with stray := strays } : Log α σ).appendRotated opts payload =
      (.ok (), { good with stray := strays }) := by
  rw [appendRotated] at done ⊢
  cases active : log.active with
  | none =>
    rw [active] at done
    cases done
  | some segment =>
    simp only [active] at done ⊢
    cases appended : segment.append opts.codec payload with
    | ok next =>
      rw [appended] at done
      cases done
      rfl
    | error err =>
      rw [appended] at done
      cases err <;> cases done

/-- Files the handle does not refer to matter to an opening by their names only. -/
theorem first_record_stray {good : Log α σ} {strays : List (Segment α σ)}
    (vacant : idx ∉ ({ base with stray := strays } : Log α σ).files.map Segment.baseIndex)
    (done : base.firstRecord opts parents idx payload = (.ok (), good)) :
    ({ base with stray := strays } : Log α σ).firstRecord opts parents idx payload =
      (.ok (), { good with stray := strays }) := by
  have same : ∀ fold, ({ base with stray := strays } : Log α σ).openHeader opts parents fold =
      base.openHeader opts parents fold := fun _ => rfl
  rw [firstRecord, openActive] at done ⊢
  rw [if_neg vacant]
  split_ifs at done
  · cases done
  · cases mode : opts.onSegmentOpen with
    | none =>
      simp only [mode] at done ⊢
      exact append_rotated_stray done
    | some fold =>
      simp only [mode, same] at done ⊢
      cases computed : base.openHeader opts parents fold with
      | error err =>
        rw [computed] at done
        cases done
      | ok header =>
        simp only [computed] at done ⊢
        cases written : (create idx opts.segmentSize).writeHeader opts.codec header with
        | error err =>
          rw [written] at done
          cases done
        | ok headed =>
          simp only [written] at done ⊢
          exact append_rotated_stray done

theorem numbered_stray (numbered : log.NumberedFrom first) (strays : List (Segment α σ)) :
    ({ log with stray := strays } : Log α σ).NumberedFrom first :=
  ⟨numbered.positive, numbered.ranges, numbered.chain, numbered.tail, numbered.fresh,
    numbered.covers⟩

/-- A log ready to open a segment opens it in itself, whatever other files there are. -/
theorem reopens {first : Nat} (numbered : base.NumberedFrom first) (idle : base.active = none)
    (locked : base.readOnly = false) (branched : base.subdirs = false)
    (due : idx = first + base.own.length) (strays : List (Segment α σ)) :
    ({ base with stray := strays } : Log α σ).opensIn opts idx payload =
      some { base with stray := strays } := by
  have expected : idx = ({ base with stray := strays } : Log α σ).expected := by
    rw [expected_eq (numbered_stray numbered strays)]
    exact due
  rw [opensIn, if_neg]
  · simp only [idle]
  · rw [not_or, not_or, not_not]
    exact ⟨by simp [locked], by simp [branched], expected⟩

theorem read_of_longer {next : Log α σ} (numbered : log.NumberedFrom first)
    (kept : next.NumberedFrom first) (base : next.forkBase = log.forkBase)
    (longer : log.own <+: next.own) {asked : Nat} {found : α}
    (readable : Disk.read (log :: parents) asked = .ok found) :
    Disk.read (next :: parents) asked = .ok found := by
  rw [Disk.read] at readable ⊢
  rw [base]
  split_ifs at readable ⊢
  · exact readable
  · obtain ⟨low, held⟩ := (read_own_ok_iff numbered asked found).mp readable
    obtain ⟨rest, joined⟩ := longer
    refine (read_own_ok_iff kept asked found).mpr ⟨low, ?_⟩
    rw [← joined, List.getElem?_append_left (List.getElem?_eq_some_iff.mp held).1]
    exact held

end Opening

/-- A write whose segment could not be given a header fails and loses no record. Where the
file it left behind is gone, the same write succeeds once the callback does, and stores the
record at the same index. `good` is what the write does with a callback that works. -/
theorem failed_opening_is_retried {opts : Options α σ} {parents : List (Log α σ)}
    {log base : Log α σ} {first idx : Nat} {payload : α} (numbered : log.NumberedFrom first)
    (opens : log.opensIn opts idx payload = some base)
    (unheaded : base.Unheaded opts parents idx) :
    ∃ err failed, log.write opts parents idx payload = (.error err, failed) ∧
      (∀ asked found, Disk.read (log :: parents) asked = .ok found →
        Disk.read (failed :: parents) asked = .ok found) ∧
      ∀ strays fold good,
        idx ∉ ({ failed with stray := strays } : Log α σ).files.map Segment.baseIndex →
        log.write { opts with onSegmentOpen := some fold } parents idx payload =
          (.ok (), good) →
        ∃ stored, ({ failed with stray := strays } : Log α σ).write
            { opts with onSegmentOpen := some fold } parents idx payload = (.ok (), stored) ∧
          Disk.read (stored :: parents) idx = .ok (opts.codec.stored payload) ∧
          ∀ asked found, Disk.read (log :: parents) asked = .ok found →
            Disk.read (stored :: parents) asked = .ok found := by
  obtain ⟨clear, same, idle, fork, _, locked, branched, due⟩ := opening_spec numbered opens
  obtain ⟨err, opened⟩ := open_unheaded unheaded
  have wrote : log.write opts parents idx payload = (.error err,
      { base with stray := base.stray ++ [create idx opts.segmentSize] }) := by
    rw [write_opening opens, firstRecord, opened]
  refine ⟨err, _, wrote, ?_, ?_⟩
  · intro asked found readable
    exact read_of_longer numbered (numbered_stray clear _) fork (same ▸ List.prefix_rfl) readable
  · intro strays fold good vacant done
    have again := @reopens _ _ { opts with onSegmentOpen := some fold } base idx payload first
      clear idle locked branched (same ▸ due) strays
    have whole := done
    rw [@write_opening _ _ { opts with onSegmentOpen := some fold } parents log base idx payload
      opens] at done
    change idx ∉ ({ base with stray := strays } : Log α σ).files.map Segment.baseIndex at vacant
    have stored := first_record_stray vacant done
    rw [← write_opening again] at stored
    obtain ⟨kept, based, _, succeeded⟩ := write_spec numbered whole
    obtain ⟨_, own⟩ := succeeded rfl
    have longer : log.own <+: ({ good with stray := strays } : Log α σ).own :=
      ⟨[opts.codec.stored payload], own.symm⟩
    refine ⟨_, stored, ?_, fun asked found readable =>
      read_of_longer numbered (numbered_stray kept strays) based longer readable⟩
    have covers := numbered.covers
    rw [Disk.read, if_neg]
    · refine (read_own_ok_iff (numbered_stray kept strays) idx _).mpr ⟨by omega, ?_⟩
      change good.own[idx - first]? = _
      rw [own, due, Nat.add_sub_cancel_left]
      simp
    · intro inherited
      change _ ∧ idx < good.forkBase at inherited
      omega

def headerMode (fold : Option Bytes → List Bytes → Except Err Bytes) : Options Bytes Bytes where
  codec := binaryCodec
  segmentSize := 20
  onSegmentOpen := some fold

def callbackFails : Options Bytes Bytes := headerMode fun _ _ => .error .callback

def callbackWorks : Options Bytes Bytes := headerMode fun _ _ => .ok (bytes [])

def oneRecord : Log Bytes Bytes :=
  ((Log.blank 0).write callbackWorks [] 1 (bytes [1, 1, 1, 1])).2

/-- A callback that fails once, at the first segment or at a rotation: the handle then refuses
the write for good, although the callback works. -/
theorem left_file_blocks_retry :
    let first := (Log.blank 0).write callbackFails [] 1 (bytes [1])
    let rotated := oneRecord.write callbackFails [] 2 (bytes [2])
    first.1 = .error .callback ∧
      ((Log.blank 0).write callbackWorks [] 1 (bytes [1])).1 = .ok () ∧
      first.2.write callbackWorks [] 1 (bytes [1]) = (.error .exists, first.2) ∧
      rotated.1 = .error .callback ∧
      (oneRecord.write callbackWorks [] 2 (bytes [2])).1 = .ok () ∧
      rotated.2.write callbackWorks [] 2 (bytes [2]) = (.error .exists, rotated.2) := by
  decide

/-- A rotation whose callback fails, retried without the file it left. -/
theorem failed_rotation_is_retried :
    ∃ err failed stored, oneRecord.write callbackFails [] 2 (bytes [2]) = (.error err, failed) ∧
      ({ failed with stray := [] } : Log Bytes Bytes).write callbackWorks [] 2 (bytes [2]) =
        (.ok (), stored) ∧
      Disk.read [stored] 2 = .ok (bytes [2]) ∧ Disk.read [stored] 1 = .ok (bytes [1, 1, 1, 1]) := by
  have done : (Log.blank 0).write callbackWorks [] 1 (bytes [1, 1, 1, 1]) =
      (.ok (), oneRecord) := by
    decide
  have numbered : oneRecord.NumberedFrom 1 := (write_spec (blank_numbered 0) done).1
  have unheaded : oneRecord.sealActive.Unheaded callbackFails [] 2 := by
    refine ⟨by decide, _, rfl, ?_⟩
    intro header computed
    cases computed
  obtain ⟨err, failed, wrote, _, retried⟩ :=
    failed_opening_is_retried numbered (by decide : oneRecord.opensIn callbackFails 2 (bytes [2]) =
      _)
      unheaded
  have known : failed = (oneRecord.write callbackFails [] 2 (bytes [2])).2 := by rw [wrote]
  obtain ⟨stored, again, read, kept⟩ := retried [] (fun _ _ => .ok (bytes []))
    (oneRecord.write callbackWorks [] 2 (bytes [2])).2 (by rw [known]; decide) (by decide)
  exact ⟨err, failed, stored, wrote, again, read, kept 1 _ (by decide)⟩

end Log

end Figwal.Disk
