import Figwal.Xwal.Removal

/-!
# Completing one node of a channel

Adding a channel walks the nodes of the main channel. A node without a marker gets
one, and in a reducible channel the first segment of every node gets the header that
the root's state gives. None of this touches a record: a directory stands for the
same branch before and after, and in a sound store whose bases the root can account
for, no part of it fails.
-/

namespace Figwal.Xwal

open Figwal.Lib Figwal.Disk

set_option autoImplicit false

variable {β σ : Type}

/-- The second directory can be used, has nothing pending, and stands for the same
branch as the first. -/
structure Cell.Alike (before after : Cell β σ) : Prop where
  sound : after.Sound
  pend : after.pend = []
  branch : after.branch = before.branch

theorem Cell.Alike.trans {first second third : Cell β σ} (early : first.Alike second)
    (late : second.Alike third) : first.Alike third :=
  ⟨late.sound, late.pend, late.branch.trans early.branch⟩

variable {cell : Cell β σ}

/-- A directory is described by its marker and files while nothing is pending. -/
theorem Cell.alike_closed (pend : cell.pend = []) {forkBase : Nat}
    {files : List (Segment (Record β) σ)} (base : firstWritableAt forkBase = cell.base)
    (records : joined Segment.payloads files = cell.handle.records)
    (stacked : Stacked cell.base files) :
    cell.Alike { cell with handle := .closed forkBase files cell.handle.subdirs } := by
  refine ⟨⟨?_, fun busy => absurd pend busy, fun busy => absurd pend busy⟩, pend, ?_⟩
  · change Stacked (firstWritableAt forkBase) files
    rw [base]
    exact stacked
  · have idle : ({ cell with handle := .closed forkBase files cell.handle.subdirs } :
        Cell β σ).waiting = [] := waiting_of_idle pend
    rw [branch, branch, waiting_of_idle pend, idle]
    change Branch.mk (firstWritableAt forkBase) (joined Segment.payloads files) [] = _
    rw [base, records]

theorem Cell.first_segment_base (sound : cell.Sound) (present : cell.handle.files ≠ []) :
    cell.firstSegmentBase = some cell.base :=
  sound.usable.stacked.min_base present

/-- What `rewriteWatermark` does to the files it is given. -/
def relabelled (opts : Options (Record β) σ) (base : Nat) (header : σ) (length : Nat)
    (file : Segment (Record β) σ) : Segment (Record β) σ :=
  if file.baseIndex = base then
    { file with
      maxSize := 0
      size := length + (file.size - ((file.header.bind opts.codec.headerLen).getD 0))
      header := some header }
  else file

theorem relabelled_base (opts : Options (Record β) σ) (base : Nat) (header : σ) (length : Nat)
    (file : Segment (Record β) σ) :
    (relabelled opts base header length file).baseIndex = file.baseIndex := by
  unfold relabelled
  split_ifs <;> rfl

theorem relabelled_payloads (opts : Options (Record β) σ) (base : Nat) (header : σ) (length : Nat)
    (file : Segment (Record β) σ) :
    (relabelled opts base header length file).payloads = file.payloads := by
  unfold relabelled
  split_ifs <;> rfl

theorem map_reheader {opts : Options (Record β) σ} {header : σ} {length : Nat}
    (frames : opts.codec.headerLen header = some length) (base : Nat)
    (files : List (Segment (Record β) σ)) :
    files.mapM (fun file => if file.baseIndex = base then reheader opts header file else .ok file) =
      .ok (files.map (relabelled opts base header length)) := by
  induction files with
  | nil => rfl
  | cons file rest ih =>
    have here : (if file.baseIndex = base then reheader opts header file else .ok file) =
        .ok (relabelled opts base header length file) := by
      unfold relabelled reheader
      rw [frames]
      split_ifs <;> rfl
    rw [List.mapM_cons, here, ih]
    rfl

theorem Cell.ensure_watermark_spec {opts : Options (Record β) σ} {header : σ} {length : Nat}
    (frames : opts.codec.headerLen header = some length) (sound : cell.Sound)
    (pend : cell.pend = []) :
    ∃ next, cell.ensureWatermark opts cell.base header = .ok next ∧ cell.Alike next ∧
      next.handle.forkBase = cell.handle.forkBase := by
  have stacked := sound.usable.stacked
  unfold ensureWatermark
  by_cases present : cell.handle.files = []
  · have made : reheader opts header (create cell.base 0 : Segment (Record β) σ) =
        .ok (relabelled opts cell.base header length (create cell.base 0)) := by
      unfold reheader relabelled
      rw [frames]
      exact (congrArg Except.ok (if_pos rfl)).symm
    simp only [present, List.map_nil, List.not_mem_nil, if_false, made, Except.map]
    refine ⟨_, rfl, alike_closed pend rfl ?_ ⟨[], some _, rfl, trivial, ?_⟩, rfl⟩
    · change _ = joined Segment.payloads cell.handle.files
      rw [present, joined_cons, relabelled_payloads]
      rfl
    · intro unused member
      cases member
      rw [relabelled_payloads, relabelled_base]
      exact ⟨rfl, rfl⟩
  · have lowest := stacked.min_base present
    have found : cell.base ∈ cell.handle.files.map Segment.baseIndex :=
      (List.min?_eq_some_iff.mp lowest).1
    simp only [if_pos found, map_reheader frames, Except.map]
    refine ⟨_, rfl, alike_closed pend rfl ?_ (stacked.relabel (relabelled_base _ _ _ _)
      (relabelled_payloads _ _ _ _)), rfl⟩
    have same : Segment.payloads ∘ relabelled opts cell.base header length = Segment.payloads :=
      funext (relabelled_payloads _ _ _ _)
    rw [joined_map, same]
    rfl

namespace Channel

def Accounted (channel : Channel β σ) (root : Log (Record β) σ) (base : Nat) : Prop :=
  channel.reducible = true → base ≤ root.lastIndex + 1

variable {channel : Channel β σ} (steady : channel.opts.Steady)

include steady

theorem initial_frames {initial : σ} (found : channel.initial = some initial) :
    ∃ length, channel.opts.codec.headerLen initial = some length := by
  rw [Channel.initial] at found
  cases mode : channel.opts.onSegmentOpen with
  | none =>
    rw [mode] at found
    cases found
  | some fold =>
    rcases steady fold mode none [] with ⟨header, length, folded, frames⟩
    rw [mode, Option.bind_some, folded] at found
    cases found
    exact ⟨length, frames⟩

theorem state_at_root {root : Log (Record β) σ} (tidy : root.Tidy) {fold : Option σ →
      List (Record β) → Except Err σ} (mode : channel.opts.onSegmentOpen = some fold) {idx : Nat}
    (low : root.firstWritable ≤ idx) (high : idx ≤ root.lastIndex) :
    ∃ header length, stateAt channel.opts [root] idx = .ok header ∧
      channel.opts.codec.headerLen header = some length := by
  have last := Log.last_index_eq tidy.numbered
  rw [stateAt, mode]
  cases found : root.findSegment idx with
  | none =>
    exfalso
    have outside := Log.find_segment_none tidy.numbered found
    omega
  | some segment =>
    rcases Log.find_segment_some tidy.numbered found with ⟨base, bound, _⟩
    have inside : idx - segment.baseIndex < segment.count := by
      rw [Segment.count]
      omega
    simp only [if_pos inside]
    exact steady fold mode _ _

theorem seed_initial_spec {cell : Cell β σ} (sound : cell.Sound) (pend : cell.pend = [])
    (starts : cell.base = 1) :
    ∃ next, channel.seedInitial cell = .ok next ∧ cell.Alike next ∧
      next.handle.forkBase = cell.handle.forkBase := by
  rw [seedInitial]
  cases found : channel.initial with
  | none => exact ⟨cell, rfl, ⟨sound, pend, rfl⟩, rfl⟩
  | some initial =>
    rcases initial_frames steady found with ⟨length, frames⟩
    rcases Cell.ensure_watermark_spec frames sound pend with ⟨next, done, alike, marker⟩
    rw [starts] at done
    simp only [done]
    exact ⟨next, rfl, alike, marker⟩

theorem backfill_watermark_spec {root : Log (Record β) σ} (tidy : root.Tidy)
    (rooted : root.firstWritable = 1) {cell : Cell β σ} (sound : cell.Sound)
    (pend : cell.pend = []) (accounted : channel.Accounted root cell.base) :
    ∃ next, channel.backfillWatermark root cell.base cell = .ok next ∧ cell.Alike next ∧
      next.handle.forkBase = cell.handle.forkBase := by
  rw [backfillWatermark]
  cases found : channel.initial with
  | none => exact ⟨cell, rfl, ⟨sound, pend, rfl⟩, rfl⟩
  | some initial =>
    have framed : ∃ header length, (if cell.base ≤ 1 then .ok initial
        else stateAt channel.opts [root] (cell.base - 1) : Except Err σ) = .ok header ∧
          channel.opts.codec.headerLen header = some length := by
      by_cases start : cell.base ≤ 1
      · rcases initial_frames steady found with ⟨length, frames⟩
        exact ⟨initial, length, if_pos start, frames⟩
      · rw [if_neg start]
        cases mode : channel.opts.onSegmentOpen with
        | none =>
          rw [Channel.initial, mode] at found
          cases found
        | some fold =>
          have within := accounted (by rw [reducible, mode]; rfl)
          exact state_at_root steady tidy mode (by omega) (by omega)
    rcases framed with ⟨header, length, state, frames⟩
    rcases Cell.ensure_watermark_spec frames sound pend with ⟨next, done, alike, marker⟩
    simp only [state, done]
    exact ⟨next, rfl, alike, marker⟩

/-- A node keeps its branch. One without a marker and files gets a marker. -/
theorem ensure_backfill_fork_spec {root : Log (Record β) σ} (tidy : root.Tidy)
    (rooted : root.firstWritable = 1) {cell : Cell β σ} (sound : cell.Sound)
    (pend : cell.pend = []) (accounted : channel.Accounted root cell.base)
    (placed : cell.handle.forkBase = 0 → cell.handle.files = [] → root.lastIndex = 0)
    (mainForkBase : Nat) :
    ∃ next, channel.ensureBackfillFork root mainForkBase cell = .ok next ∧ cell.Alike next ∧
      (0 < cell.handle.forkBase → next.handle.forkBase = cell.handle.forkBase) ∧
      (cell.handle.files = [] → 0 < next.handle.forkBase) := by
  rw [ensureBackfillFork]
  by_cases marked : 0 < cell.handle.forkBase
  · have base : cell.handle.forkBase = cell.base := by
      rw [Cell.base, firstWritableAt, if_pos marked]
    have shape : cell.Alike (cell.marked cell.handle.forkBase) :=
      Cell.alike_closed pend rfl rfl sound.usable.stacked
    have same : (cell.marked cell.handle.forkBase).base = cell.base := rfl
    rcases backfill_watermark_spec steady tidy rooted shape.sound shape.pend
      (by rw [same]; exact accounted) with ⟨next, done, alike, marker⟩
    rw [if_neg (by omega)]
    simp only [if_pos marked]
    rw [same, ← base] at done
    exact ⟨next, done, shape.trans alike, fun _ => marker, fun _ => marker ▸ marked⟩
  · have zero : cell.handle.forkBase = 0 := by omega
    have one : cell.base = 1 := by
      rw [Cell.base, zero]
      rfl
    by_cases empty : cell.handle.files = []
    · have none : cell.firstSegmentBase = none := by
        rw [Cell.firstSegmentBase, empty]
        rfl
      have blank := placed zero empty
      have shape : cell.Alike (cell.marked 1) :=
        Cell.alike_closed pend one.symm rfl sound.usable.stacked
      have first : (cell.marked 1).base = 1 := rfl
      rcases backfill_watermark_spec steady tidy rooted shape.sound shape.pend
        (by rw [first, ← one]; exact accounted) with ⟨next, done, alike, marker⟩
      rw [if_neg (by rw [none]; simp), if_neg marked, none]
      simp only [missingBase, if_pos blank]
      rw [first] at done
      exact ⟨next, done, shape.trans alike, fun positive => absurd positive marked,
        fun _ => by rw [marker]; exact Nat.one_pos⟩
    · have lowest := Cell.first_segment_base sound empty
      rw [one] at lowest
      rcases seed_initial_spec steady sound pend one with ⟨next, done, alike, marker⟩
      rw [if_pos ⟨zero, lowest⟩]
      exact ⟨next, done, alike, fun positive => absurd positive marked,
        fun gone => absurd gone empty⟩

end Channel

end Figwal.Xwal
