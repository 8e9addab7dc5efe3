import Figwal.Disk.Persist

/-!
# Room for a record

When a disk log takes a record: the codec frames it, and the frame goes into the active
segment, or into the fresh one that would follow, past the header that one would carry.
A write of such a record into a log without lost files succeeds.
-/

namespace Figwal.Disk

open Figwal.Lib List

set_option autoImplicit false

variable {α σ : Type}

/-- A frame goes into a segment that has reached `size`. -/
def Roomy (maxSize : Int) (size length : Nat) : Prop :=
  maxSize ≤ 0 ∨ (size + length : Nat) ≤ maxSize

instance (maxSize : Int) (size length : Nat) : Decidable (Roomy maxSize size length) := by
  unfold Roomy
  infer_instance

theorem Segment.append_roomy {codec : Codec α σ} {segment : Segment α σ} {payload : α}
    {length : Nat} (framed : codec.frameLen (segment.baseIndex + segment.count) payload =
      some length)
    (room : Roomy segment.maxSize segment.size length) :
    segment.append codec payload = .ok { segment with
      size := segment.size + length
      payloads := segment.payloads ++ [codec.stored payload] } := by
  rw [Segment.append, framed]
  exact if_neg fun full => by
    rcases room with unbounded | fits <;> omega

theorem Segment.append_full {codec : Codec α σ} {segment : Segment α σ} {payload : α}
    {length : Nat} (framed : codec.frameLen (segment.baseIndex + segment.count) payload =
      some length)
    (room : ¬Roomy segment.maxSize segment.size length) :
    segment.append codec payload = .error .full := by
  rw [Segment.append, framed]
  rw [Roomy, not_or] at room
  exact if_pos (by omega)

namespace Log

/-- The size of the segment `openActive` would create, `none` if it would fail to write
a header. -/
def freshSize (opts : Options α σ) (parents : List (Log α σ)) (log : Log α σ) : Option Nat :=
  match opts.onSegmentOpen with
  | none => some 0
  | some fold =>
    match log.openHeader opts parents fold with
    | .error _ => none
    | .ok header => opts.codec.headerLen header

def FreshRoom (opts : Options α σ) (parents : List (Log α σ)) (log : Log α σ)
    (length : Nat) : Prop :=
  match log.freshSize opts parents with
  | none => False
  | some size => Roomy opts.segmentSize size length

def Fits (opts : Options α σ) (parents : List (Log α σ)) (log : Log α σ) (payload : α) : Prop :=
  match opts.codec.frameLen log.expected payload with
  | none => False
  | some length =>
    match log.active with
    | none => log.FreshRoom opts parents length
    | some segment =>
      Roomy segment.maxSize segment.size length ∨
        0 < segment.count ∧ log.sealActive.FreshRoom opts parents length

instance (opts : Options α σ) (parents : List (Log α σ)) (log : Log α σ) (length : Nat) :
    Decidable (log.FreshRoom opts parents length) := by
  unfold FreshRoom
  cases log.freshSize opts parents <;> infer_instance

instance (opts : Options α σ) (parents : List (Log α σ)) (log : Log α σ) (payload : α) :
    Decidable (log.Fits opts parents payload) := by
  unfold Fits
  cases opts.codec.frameLen log.expected payload with
  | none => infer_instance
  | some length => cases log.active <;> infer_instance

/-- A log that has lost no file, and whose active segment has its header where segments
have one. -/
structure Intact (opts : Options α σ) (log : Log α σ) : Prop where
  tidy : log.Tidy
  clean : log.stray = []
  begun : opts.onSegmentOpen ≠ none → log.subdirs = false → ∀ segment, log.active = some segment →
    segment.payloads ≠ [] ∨ 0 < segment.size

section Fits

variable {opts : Options α σ} {parents : List (Log α σ)} {log : Log α σ} {payload : α}

theorem fresh_room_size {length : Nat} (room : log.FreshRoom opts parents length) :
    ∃ size, log.freshSize opts parents = some size ∧ Roomy opts.segmentSize size length := by
  rw [FreshRoom] at room
  cases sized : log.freshSize opts parents with
  | none =>
    rw [sized] at room
    exact room.elim
  | some size =>
    rw [sized] at room
    exact ⟨size, rfl, room⟩

theorem open_active_ok {baseIndex size : Nat}
    (vacant : baseIndex ∉ log.files.map Segment.baseIndex)
    (sized : log.freshSize opts parents = some size) :
    ∃ header, log.openActive opts parents baseIndex =
        (.ok (), { log with active := some ⟨baseIndex, opts.segmentSize, size, [], header⟩ }) := by
  rw [freshSize] at sized
  rw [openActive, if_neg vacant]
  cases mode : opts.onSegmentOpen with
  | none =>
    rw [mode] at sized
    cases sized
    exact ⟨none, rfl⟩
  | some fold =>
    simp only [mode] at sized
    cases computed : log.openHeader opts parents fold with
    | error err =>
      rw [computed] at sized
      cases sized
    | ok header =>
      simp only [computed] at sized
      refine ⟨some header, ?_⟩
      simp only [computed, Segment.writeHeader, sized]
      rfl

/-- Nothing stands where the next record of a log without strays goes, once the active
segment is out of the way. -/
theorem Intact.vacant (intact : log.Intact opts) (filled : ∀ segment, log.active = some segment →
    0 < segment.count) : log.expected ∉ log.files.map Segment.baseIndex := by
  intro taken
  rcases mem_map.mp taken with ⟨segment, member, base⟩
  have numbered := intact.tidy.numbered
  rw [files, intact.clean, append_nil, mem_append] at member
  rw [expected_eq numbered, own, length_append] at base
  rcases member with older | newest
  · have bounds := (consecutive_bounds _ _ numbered.chain older).2
    have some := length_pos_of_ne_nil (filled_of_sealed numbered older)
    omega
  · have active : log.active = some segment := Option.mem_toList.mp newest
    have start := numbered.tail segment active
    have some := filled segment active
    rw [← active_count_eq, activeCount, active] at base
    simp only at base
    omega

theorem append_fresh {header : Option σ} {baseIndex size length : Nat}
    (framed : opts.codec.frameLen baseIndex payload = some length)
    (room : Roomy opts.segmentSize size length) :
    Segment.append opts.codec ⟨baseIndex, opts.segmentSize, size, [], header⟩ payload =
      .ok ⟨baseIndex, opts.segmentSize, size + length, [opts.codec.stored payload], header⟩ :=
  Segment.append_roomy framed room

theorem Cleared.flags {base : Log α σ} (cleared : log.Cleared base) :
    base.readOnly = log.readOnly ∧ base.subdirs = log.subdirs := by
  rcases cleared with ⟨_, rfl⟩ | ⟨segment, active, _, rfl⟩
  · exact ⟨rfl, rfl⟩
  · rw [sealActive, active]
    exact ⟨rfl, rfl⟩

theorem Intact.write_ok (intact : log.Intact opts) {idx : Nat} {next : Log α σ}
    (wrote : log.write opts parents idx payload = (.ok (), next)) :
    next.Intact opts ∧ next.readOnly = log.readOnly ∧ next.subdirs = log.subdirs := by
  have tidy := intact.tidy.write wrote
  have begun : ∀ {base : Log α σ} {segment grown : Segment α σ},
      segment.append opts.codec payload = .ok grown → ∀ newest,
        ({ base with active := some grown } : Log α σ).active = some newest →
        newest.payloads ≠ [] ∨ 0 < newest.size := by
    intro base segment grown appended newest active
    cases active
    rw [(append_ok appended).2.2]
    exact Or.inl (by simp)
  cases write_wrote wrote with
  | landed segment grown due writable active appended =>
    exact ⟨⟨tidy, intact.clean, fun _ _ => begun appended⟩, rfl, rfl⟩
  | opened base fresh grown due writable cleared opened appended =>
    rw [due] at opened
    have clean := intact.tidy.clean cleared opened.vacant
    exact ⟨⟨tidy, clean, fun _ _ => begun appended⟩, cleared.flags⟩

/-- A record there is room for is written, unless the directory is a branch point. -/
theorem Intact.write_fits (intact : log.Intact opts) (writable : log.readOnly = false)
    (leaf : log.subdirs = false) (fits : log.Fits opts parents payload) :
    (log.write opts parents log.expected payload).1 = .ok () := by
  have numbered := intact.tidy.numbered
  rw [Fits] at fits
  cases framed : opts.codec.frameLen log.expected payload with
  | none =>
    rw [framed] at fits
    exact fits.elim
  | some length =>
    rw [framed] at fits
    simp only [write, writable, leaf, Bool.false_eq_true, if_false, ne_eq, not_true_eq_false]
    cases active : log.active with
    | none =>
      simp only [active] at fits ⊢
      rcases fresh_room_size fits with ⟨size, sized, room⟩
      have vacant := intact.vacant fun segment there => by
        rw [active] at there
        cases there
      rcases open_active_ok vacant sized with ⟨header, opened⟩
      simp only [opened, appendActive, append_fresh framed room]
    | some segment =>
      simp only [active] at fits ⊢
      have next : segment.baseIndex + segment.count = log.expected := by
        rw [expected_eq numbered, numbered.tail segment active, own, length_append,
          ← active_count_eq, activeCount, active, Nat.add_assoc]
      have here : opts.codec.frameLen (segment.baseIndex + segment.count) payload =
          some length := by rw [next, framed]
      rw [appendActive, active]
      by_cases room : Roomy segment.maxSize segment.size length
      · simp only [Segment.append_roomy here room]
      · rcases fits.resolve_left room with ⟨filled, fresh⟩
        rcases fresh_room_size fresh with ⟨size, sized, fitting⟩
        have vacant := intact.vacant fun other there => by
          rw [active] at there
          cases there
          exact filled
        have same : log.sealActive.files = log.files :=
          Cleared.files (Or.inr ⟨segment, active, ne_nil_of_length_pos filled, rfl⟩)
        rw [← same] at vacant
        rcases open_active_ok vacant sized with ⟨header, opened⟩
        simp only [Segment.append_full here room, if_neg (Nat.ne_of_gt filled), rotate, opened,
          appendRotated, append_fresh framed fitting]

theorem Intact.persist_ok (intact : log.Intact opts) {idx : Nat} (records : List α)
    {next : Log α σ} (done : persist opts parents log idx records = (.ok (), next)) :
    next.Intact opts ∧ next.readOnly = log.readOnly ∧ next.subdirs = log.subdirs := by
  induction records generalizing log idx with
  | nil =>
    cases done
    exact ⟨intact, rfl, rfl⟩
  | cons record rest ih =>
    rw [persist] at done
    cases wrote : log.write opts parents idx record with
    | mk answer grown =>
      rw [wrote] at done
      cases answer with
      | error err => cases done
      | ok _ =>
        rcases intact.write_ok wrote with ⟨still, locked, kids⟩
        rcases ih still done with ⟨last, lockedLast, kidsLast⟩
        exact ⟨last, lockedLast.trans locked, kidsLast.trans kids⟩

end Fits

end Log

section Opening

variable {opts : Options α σ} {log : Log α σ}

theorem load_ranges_newest (opts : Options α σ) (files : List (Segment α σ)) :
    (loadRanges opts files).2 =
      files.getLast?.map fun file => file.reload opts.codec opts.segmentSize := by
  induction files with
  | nil => rfl
  | cons file rest ih =>
    cases rest with
    | nil => rfl
    | cons next later =>
      rw [loadRanges]
      simpa using ih

theorem load_ranges_callback (opts : Options α σ)
    (callback : Option (Option σ → List α → Except Err σ)) (files : List (Segment α σ)) :
    loadRanges { opts with onSegmentOpen := callback } files = loadRanges opts files := by
  induction files with
  | nil => rfl
  | cons file rest ih =>
    cases rest with
    | nil => rfl
    | cons next later => rw [loadRanges, loadRanges, ih]

theorem Log.Intact.newest (intact : log.Intact opts) (headed : opts.onSegmentOpen ≠ none)
    (leaf : log.subdirs = false) {file : Segment α σ} (newest : log.files.getLast? = some file) :
    file.payloads ≠ [] ∨ 0 < file.size := by
  rw [Log.files, intact.clean, append_nil] at newest
  cases active : log.active with
  | none =>
    rw [active, Option.toList_none, append_nil] at newest
    exact Or.inl (Log.filled_of_sealed intact.tidy.numbered (mem_of_getLast? newest))
  | some segment =>
    rw [active, Option.toList_some, getLast?_append_cons, getLast?_singleton] at newest
    exact Option.some.inj newest ▸ intact.begun headed leaf segment active

theorem reseed_begins {next : Log α σ} (done : reseedEmptyActiveHeader opts log = .ok next) :
    next.stray = log.stray ∧ next.readOnly = log.readOnly ∧ next.subdirs = log.subdirs ∧
      (opts.onSegmentOpen ≠ none → log.readOnly = false → ∀ segment, next.active = some segment →
        segment.payloads ≠ [] ∨ 0 < segment.size) := by
  rw [reseedEmptyActiveHeader] at done
  split at done
  · rename_i fold segment mode active
    split_ifs at done with settled
    · cases done
      refine ⟨rfl, rfl, rfl, fun _ writable newest running => ?_⟩
      rw [active] at running
      cases running
      rw [writable] at settled
      rcases settled with locked | filled | framed
      · cases locked
      · exact Or.inl (ne_nil_of_length_pos (Nat.pos_of_ne_zero filled))
      · exact Or.inr (Nat.pos_of_ne_zero framed)
    · split at done
      · cases done
      · split at done
        · cases done
        · rename_i headed written
          cases done
          refine ⟨rfl, rfl, rfl, fun _ _ newest running => ?_⟩
          cases running
          exact Or.inr (write_header_size written)
  · rename_i idle
    cases done
    refine ⟨rfl, rfl, rfl, fun headed _ segment active => ?_⟩
    cases mode : opts.onSegmentOpen with
    | none => exact absurd mode headed
    | some fold => exact (idle fold segment mode active).elim

/-- A log is opened without lost files, and with a header in its active segment. -/
theorem open_dir_intact {forkBase : Nat} {files : List (Segment α σ)} {subdirs : Bool}
    (opened : openDir opts forkBase files subdirs = .ok log) (tidy : log.Tidy) :
    log.Intact opts ∧ log.readOnly = subdirs ∧ log.subdirs = subdirs := by
  rw [openDir] at opened
  cases loaded : loadSegments opts forkBase files subdirs with
  | error err =>
    rw [loaded] at opened
    cases opened
  | ok found =>
    rw [loaded] at opened
    have same : found = log := by
      simp only at opened
      split at opened
      · split_ifs at opened
        exact Except.ok.inj opened
      · exact Except.ok.inj opened
    rw [same, loadSegments] at loaded
    rcases reseed_begins loaded with ⟨clean, locked, kids, begun⟩
    refine ⟨⟨tidy, clean, fun headed leaf => begun headed ?_⟩, locked, kids⟩
    exact kids.symm.trans leaf

theorem reseed_begun
    (begun : opts.onSegmentOpen ≠ none → log.readOnly = false →
      ∀ segment, log.active = some segment → segment.payloads ≠ [] ∨ 0 < segment.size) :
    reseedEmptyActiveHeader opts log = .ok log := by
  rw [reseedEmptyActiveHeader]
  split
  · rename_i fold segment mode active
    apply if_pos
    cases writable : log.readOnly with
    | true => exact Or.inl rfl
    | false =>
      rcases begun (by simp [mode]) writable segment active with filled | framed
      · exact Or.inr (Or.inl (Nat.ne_of_gt (length_pos_of_ne_nil filled)))
      · exact Or.inr (Or.inr (Nat.ne_of_gt framed))
  · rfl

theorem Log.Intact.reopens {log : Log α σ} (intact : log.Intact opts) :
    ∃ reopened, openDir opts log.forkBase log.files log.subdirs = .ok reopened ∧
      reopened.Tidy ∧ reopened.own = log.own ∧ reopened.forkBase = log.forkBase := by
  rcases intact.tidy.stacked with ⟨stacked, records⟩
  -- no header is due, so the callback is not asked
  let plain : Options α σ := { opts with onSegmentOpen := none }
  have steady : plain.Steady := by
    intro fold mode
    cases mode
  rcases open_dir_spec steady stacked log.subdirs with ⟨reopened, opened, tidy, own, base, _⟩
  refine ⟨reopened, ?_, tidy, own.trans records, base⟩
  have sorted : log.files.insertionSort (fun left right => left.baseIndex ≤ right.baseIndex) =
      log.files := stacked.sorted.insertionSort_eq
  have ranges : loadRanges plain log.files = loadRanges opts log.files :=
    load_ranges_callback opts none log.files
  rw [← opened, openDir, openDir]
  have same : loadSegments opts log.forkBase log.files log.subdirs =
      loadSegments plain log.forkBase log.files log.subdirs := by
    rw [loadSegments, loadSegments, sorted, ranges, reseed_begun, reseed_begun]
    · intro headed
      exact absurd rfl headed
    · intro headed leaf segment active
      have found : (loadRanges opts log.files).2 = some segment := active
      rw [load_ranges_newest] at found
      rcases Option.map_eq_some_iff.mp found with ⟨file, newest, rfl⟩
      have begun := intact.newest headed leaf newest
      exact begun
  rw [same]

end Opening

end Figwal.Disk
