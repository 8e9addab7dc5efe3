import Figwal.Disk.History

/-!
# What a write leaves alone

A write adds at the end: every segment that held records is still there, with its
header, and possibly more records after those it had. States below the end
therefore stay, and so does the answer of a write that only consults the parent
for the state at the fork point.
-/

namespace Figwal.Disk

open Figwal.Lib List

set_option autoImplicit false

variable {α σ : Type}

namespace Log

variable {log next : Log α σ} {first idx : Nat}

def segments (log : Log α σ) : List (Segment α σ) :=
  log.sealedSegs ++ log.active.toList

/-- `next` goes on where `log` ended, in the same segments or further ones. -/
structure Grew (log next : Log α σ) : Prop where
  base : next.forkBase = log.forkBase
  longer : log.own <+: next.own
  kept : ∀ segment ∈ log.segments, segment.payloads ≠ [] → ∃ grown ∈ next.segments,
    grown.baseIndex = segment.baseIndex ∧ grown.header = segment.header ∧
      segment.payloads <+: grown.payloads

theorem Grew.refl (log : Log α σ) : log.Grew log :=
  ⟨rfl, List.prefix_refl _, fun segment member _ =>
    ⟨segment, member, rfl, rfl, List.prefix_refl _⟩⟩

theorem Grew.trans {last : Log α σ} (early : log.Grew next) (late : next.Grew last) :
    log.Grew last := by
  refine ⟨late.base.trans early.base, early.longer.trans late.longer, ?_⟩
  intro segment member filled
  rcases early.kept segment member filled with ⟨grown, inNext, base, header, longer⟩
  have still : grown.payloads ≠ [] := fun none =>
    filled (List.prefix_nil.mp (none ▸ longer))
  rcases late.kept grown inNext still with ⟨further, inLast, baseMore, headerMore, longerMore⟩
  exact ⟨further, inLast, baseMore.trans base, headerMore.trans header, longer.trans longerMore⟩

theorem covering_unique (numbered : log.NumberedFrom first) {left right : Segment α σ}
    (inLeft : left ∈ log.segments) (inRight : right ∈ log.segments) (leftLow : left.baseIndex ≤ idx)
    (leftHigh : idx < left.baseIndex + left.payloads.length) (rightLow : right.baseIndex ≤ idx)
    (rightHigh : idx < right.baseIndex + right.payloads.length) : left = right := by
  have sorted : log.segments.Pairwise fun early late =>
      early.baseIndex + early.payloads.length ≤ late.baseIndex := by
    rw [segments, pairwise_append]
    refine ⟨consecutive_pairwise _ _ numbered.chain, ?_, ?_⟩
    · cases log.active with
      | none => exact List.Pairwise.nil
      | some segment => exact pairwise_singleton _ _
    · intro early old late newest
      have bounds := consecutive_bounds _ _ numbered.chain old
      have tail := numbered.tail late (Option.mem_toList.mp newest)
      omega
  exact block_unique _ _ sorted inLeft inRight leftLow leftHigh rightLow rightHigh

theorem segments_cleared {base : Log α σ} (cleared : log.Cleared base) :
    base.segments = log.segments := by
  rcases cleared with ⟨_, rfl⟩ | ⟨segment, active, _, rfl⟩
  · rfl
  · simp [segments, sealedSegs, sealActive, active, wrapOpen]

theorem grew_write {opts : Options α σ} {parents : List (Log α σ)} {payload : α}
    {result : Except Err Unit} (numbered : log.NumberedFrom first)
    (done : log.write opts parents idx payload = (result, next)) : log.Grew next := by
  rcases write_spec numbered done with ⟨_, sameBase, failed, succeeded⟩
  refine ⟨sameBase, ?_, ?_⟩
  · cases result with
    | error err =>
      exact ⟨[], by rw [(failed err rfl).1, append_nil]⟩
    | ok _ =>
      rw [(succeeded rfl).2]
      exact List.prefix_append _ _
  · intro segment member filled
    have same : ∀ {other : Log α σ}, other.segments = log.segments →
        ∃ grown ∈ other.segments, grown.baseIndex = segment.baseIndex ∧
          grown.header = segment.header ∧ segment.payloads <+: grown.payloads := by
      intro other equal
      exact ⟨segment, equal ▸ member, rfl, rfl, List.prefix_refl _⟩
    -- A log cleared for a fresh segment holds all filled ones among its sealed ones.
    have sealed : ∀ {base : Log α σ} {fresh : Segment α σ}, log.Cleared base →
        base.active = none →
        segment ∈ ({ base with active := some fresh } : Log α σ).segments := by
      intro base fresh cleared idle
      have inside : segment ∈ base.segments := segments_cleared cleared ▸ member
      rw [segments, idle, Option.toList_none, append_nil] at inside
      exact mem_append_left _ inside
    cases write_wrote done with
    | refused err => exact same rfl
    | frozen err branched => exact same rfl
    | landed running grown due writable active appended =>
      rcases append_ok appended with ⟨start, header, payloads⟩
      rw [segments, mem_append] at member
      rcases member with old | newest
      · exact ⟨segment, mem_append_left _ old, rfl, rfl, List.prefix_refl _⟩
      · rw [active, Option.mem_toList] at newest
        cases newest
        refine ⟨grown, mem_append_right _ (by simp), start, header, ?_⟩
        rw [payloads]
        exact List.prefix_append _ _
    | unopened err base strays due cleared extra =>
      have equal := segments_cleared cleared
      exact same equal
    | oversized err base fresh due cleared opened =>
      have idle := (numbered_cleared numbered cleared).2.2.1
      exact ⟨segment, sealed cleared idle, rfl, rfl, List.prefix_refl _⟩
    | opened base fresh grown due writable cleared opened appended =>
      have idle := (numbered_cleared numbered cleared).2.2.1
      exact ⟨segment, sealed cleared idle, rfl, rfl, List.prefix_refl _⟩

/-- The segment found for an index keeps its header and its records up to there. -/
theorem find_segment_grew (numbered : log.NumberedFrom first) (later : next.NumberedFrom first)
    (grew : log.Grew next) {segment : Segment α σ} (found : log.findSegment idx = some segment) :
    ∃ grown, next.findSegment idx = some grown ∧ grown.baseIndex = segment.baseIndex ∧
      grown.header = segment.header ∧ segment.payloads <+: grown.payloads := by
  rcases find_segment_some numbered found with ⟨low, high, before, after, split, start⟩
  have member := find_segment_mem numbered found
  have filled : segment.payloads ≠ [] := by
    intro none
    rw [none, length_nil] at high
    omega
  have inside : first ≤ idx ∧ idx < first + next.own.length := by
    have length := grew.longer.length_le
    rw [split, length_append, length_append] at length
    omega
  cases target : next.findSegment idx with
  | none =>
    have outside := find_segment_none later target
    omega
  | some grown =>
    rcases find_segment_some later target with ⟨lowNext, highNext, _⟩
    rcases grew.kept segment member filled with ⟨other, present, base, header, longer⟩
    have length := longer.length_le
    have same := covering_unique later (find_segment_mem later target) present lowNext highNext
      (by omega) (by omega)
    subst same
    exact ⟨grown, rfl, base, header, longer⟩

end Log

theorem state_at_grew {opts : Options α σ} {logs others : List (Log α σ)}
    (chained : Chained logs) (later : Chained others)
    (grew : List.Forall₂ Log.Grew logs others) {idx : Nat}
    (inside : idx ≤ (visible logs).length) :
    stateAt opts others idx = stateAt opts logs idx := by
  induction grew with
  | nil => rfl
  | @cons log next parents uppers this above ih =>
    have length := visible_length chained
    rcases chained with ⟨tidy, fits, upper⟩
    rcases later with ⟨tidyNext, _, upperNext⟩
    have nested : uppers ≠ [] ↔ parents ≠ [] := by
      cases above <;> simp
    rw [stateAt, stateAt]
    cases mode : opts.onSegmentOpen with
    | none => rfl
    | some fold =>
      simp only [this.base, nested]
      by_cases inherited : parents ≠ [] ∧ idx < log.forkBase
      · rw [if_pos inherited, if_pos inherited]
        apply ih upper upperNext
        have base := Log.fork_base_le_first_writable log
        omega
      · rw [if_neg inherited, if_neg inherited]
        have first : next.firstWritable = log.firstWritable := by
          rw [Log.firstWritable, this.base, Log.firstWritable]
        have numbered := tidyNext.numbered
        rw [first] at numbered
        cases found : log.findSegment idx with
        | none =>
          have outside := Log.find_segment_none tidy.numbered found
          have low : idx < log.firstWritable := by omega
          cases target : next.findSegment idx with
          | none => rfl
          | some grown =>
            rcases Log.find_segment_some numbered target with
              ⟨base, _, before, _, _, start⟩
            omega
        | some segment =>
          rcases Log.find_segment_grew tidy.numbered numbered this found with
            ⟨grown, target, base, header, longer⟩
          rcases Log.find_segment_some tidy.numbered found with ⟨low, high, _⟩
          have reach := longer.length_le
          have short : idx - segment.baseIndex < segment.payloads.length := by omega
          have long : idx - segment.baseIndex < grown.payloads.length := by omega
          rcases longer with ⟨extra, payloads⟩
          have same : grown.payloads.take (idx - segment.baseIndex + 1) =
              segment.payloads.take (idx - segment.baseIndex + 1) := by
            rw [← payloads, take_append_of_le_length short]
          simp only [target, base, header, Segment.count, short, long, if_true, same]

namespace Log

section SameAbove

variable {opts : Options α σ} {parents others : List (Log α σ)} {log : Log α σ}

structure SameAbove (opts : Options α σ) (log : Log α σ) (parents others : List (Log α σ)) :
    Prop where
  nested : others ≠ [] ↔ parents ≠ []
  state : 1 < log.forkBase →
    stateAt opts others (log.forkBase - 1) = stateAt opts parents (log.forkBase - 1)

section

variable (same : log.SameAbove opts parents others)

include same

theorem SameAbove.of_base {next : Log α σ} (base : next.forkBase = log.forkBase) :
    next.SameAbove opts parents others :=
  ⟨same.nested, by rw [base]; exact same.state⟩

theorem SameAbove.open_header (fold : Option σ → List α → Except Err σ) :
    log.openHeader opts others fold = log.openHeader opts parents fold := by
  unfold openHeader
  cases log.sealed.getLast? with
  | some newest => rfl
  | none =>
    simp only [same.nested]
    by_cases fork : parents ≠ [] ∧ 1 < log.forkBase
    · rw [if_pos fork, if_pos fork, same.state fork.2]
    · rw [if_neg fork, if_neg fork]

theorem SameAbove.open_active (baseIndex : Nat) :
    log.openActive opts others baseIndex = log.openActive opts parents baseIndex := by
  unfold openActive
  simp only [same.open_header]

theorem SameAbove.seal : log.sealActive.SameAbove opts parents others := by
  apply same.of_base
  unfold sealActive
  cases log.active <;> rfl

theorem SameAbove.append_active (idx : Nat) (payload : α) :
    log.appendActive opts others idx payload = log.appendActive opts parents idx payload := by
  unfold appendActive rotate
  simp only [same.seal.open_active]

/-- A write asks its ancestors for nothing but the state at the fork point. -/
theorem SameAbove.write (idx : Nat) (payload : α) :
    log.write opts others idx payload = log.write opts parents idx payload := by
  unfold Log.write
  simp only [same.open_active]
  cases log.active with
  | some segment => simp only [same.append_active]
  | none =>
    cases opening : log.openActive opts parents idx with
    | mk result opened =>
      have base : opened.forkBase = log.forkBase := by
        rcases open_active_cases opening with ⟨_, strays, _, _, shape⟩ | ⟨_, fresh, _, shape⟩
        · rw [shape]
        · rw [shape]
      cases result with
      | error err => rfl
      | ok _ => simp only [(same.of_base base).append_active]

end

end SameAbove

end Log

end Figwal.Disk
