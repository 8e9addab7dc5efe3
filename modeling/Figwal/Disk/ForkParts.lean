import Figwal.Disk.Fork

/-!
# What a fork does to the files of one log

On consecutively numbered segments the plan of a fork is a cut: the segments
below it stay, those above it move, and at most one is rewritten. The records
kept and the records moved together are the records there were.
-/

namespace Figwal.Disk

open Figwal.Lib List

set_option autoImplicit false

variable {α σ : Type} {opts : Options α σ} {segment : Segment α σ}

theorem append_all_spec {codec : Codec α σ} (payloads : List α)
    (stored : ∀ payload ∈ payloads, codec.stored payload = payload) {next : Segment α σ}
    (done : payloads.foldlM (fun grown payload => grown.append codec payload) segment = .ok next) :
    next.baseIndex = segment.baseIndex ∧ next.header = segment.header ∧
      next.payloads = segment.payloads ++ payloads := by
  induction payloads generalizing segment with
  | nil =>
    cases done
    exact ⟨rfl, rfl, (append_nil _).symm⟩
  | cons payload rest ih =>
    rw [foldlM_cons] at done
    cases step : segment.append codec payload with
    | error err =>
      rw [step] at done
      cases done
    | ok grown =>
      rw [step] at done
      obtain ⟨base, header, held⟩ := append_ok step
      obtain ⟨laterBase, laterHeader, later⟩ :=
        ih (fun other member => stored other (mem_cons_of_mem _ member)) done
      refine ⟨laterBase.trans base, laterHeader.trans header, ?_⟩
      rw [later, held, stored payload mem_cons_self, append_assoc]
      rfl

theorem append_all_size {codec : Codec α σ} (payloads : List α) {next : Segment α σ}
    (done : payloads.foldlM (fun grown payload => grown.append codec payload) segment = .ok next) :
    segment.size ≤ next.size := by
  induction payloads generalizing segment with
  | nil =>
    cases done
    exact Nat.le_refl _
  | cons payload rest ih =>
    rw [foldlM_cons] at done
    cases step : segment.append codec payload with
    | error err =>
      rw [step] at done
      cases done
    | ok grown =>
      rw [step] at done
      exact Nat.le_trans (append_size step) (ih done)

def rebuiltHeader (opts : Options α σ) (header : Option σ) : Option σ :=
  match opts.onSegmentOpen with
  | none => none
  | some _ => some (header.getD opts.codec.nilHeader)

theorem rebuild_spec {baseIndex : Nat} {maxSize : Int} {header : Option σ} {payloads : List α}
    (stored : ∀ payload ∈ payloads, opts.codec.stored payload = payload)
    (done : rebuild opts baseIndex maxSize header payloads = .ok segment) :
    segment.baseIndex = baseIndex ∧ segment.payloads = payloads ∧
      segment.header = rebuiltHeader opts header := by
  unfold rebuild at done
  unfold rebuiltHeader
  cases mode : opts.onSegmentOpen with
  | none =>
    simp only [mode] at done
    obtain ⟨base, head, held⟩ := append_all_spec payloads stored done
    exact ⟨base, held, head⟩
  | some fold =>
    simp only [mode] at done
    split at done
    · cases done
    · rename_i headed written
      obtain ⟨freshBase, freshHeld, freshHeader⟩ := write_header_ok written
      obtain ⟨base, head, held⟩ := append_all_spec payloads stored done
      refine ⟨base.trans freshBase, ?_, head.trans freshHeader⟩
      rw [held, freshHeld]
      rfl

theorem rebuild_size {baseIndex : Nat} {maxSize : Int} {header : Option σ} {payloads : List α}
    (mode : opts.onSegmentOpen ≠ none)
    (done : rebuild opts baseIndex maxSize header payloads = .ok segment) : 0 < segment.size := by
  rcases Option.ne_none_iff_exists'.mp mode with ⟨fold, known⟩
  unfold rebuild at done
  simp only [known] at done
  split at done
  · cases done
  · rename_i headed written
    exact Nat.lt_of_lt_of_le (write_header_size written) (append_all_size payloads done)

/-- A branch starts without files, or with one header-only segment at its base. -/
theorem watermark_segs_spec {atIdx : Nat} {watermark : Option σ} {seeds : List (Segment α σ)}
    (done : watermarkSegs opts atIdx watermark = .ok seeds) :
    (opts.onSegmentOpen = none ∧ seeds = []) ∨
      ∃ fold seed, opts.onSegmentOpen = some fold ∧ seeds = [seed] ∧ seed.baseIndex = atIdx ∧
        seed.payloads = [] ∧ seed.header = some (watermark.getD opts.codec.nilHeader) ∧
        0 < seed.size := by
  unfold watermarkSegs at done
  cases mode : opts.onSegmentOpen with
  | none =>
    simp only [mode] at done
    cases done
    exact Or.inl ⟨rfl, rfl⟩
  | some fold =>
    simp only [mode] at done
    split at done
    · cases done
    · rename_i seed built
      cases done
      obtain ⟨base, held, header⟩ := rebuild_spec (by simp) built
      refine Or.inr ⟨fold, seed, rfl, rfl, base, held, ?_, rebuild_size (by simp [mode]) built⟩
      simpa [rebuiltHeader, mode] using header

theorem seeds_stacked {atIdx : Nat} {watermark : Option σ} {seeds : List (Segment α σ)}
    (done : watermarkSegs opts atIdx watermark = .ok seeds) :
    Stacked atIdx seeds ∧ joined Segment.payloads seeds = [] := by
  rcases watermark_segs_spec done with ⟨_, rfl⟩ | ⟨_, seed, _, rfl, base, unused, _⟩
  · exact ⟨⟨[], none, rfl, trivial, by simp⟩, rfl⟩
  · refine ⟨⟨[], some seed, rfl, trivial, ?_⟩, by simp [unused]⟩
    intro other member
    cases member
    exact ⟨unused, by simpa using base⟩

/-- How a fork at `atIdx` divides consecutive sealed segments. -/
inductive Divided (opts : Options α σ) (first : Nat) (sealed : List (Sealed α σ)) (atIdx : Nat)
    (watermark : Option σ) (seeds : List (Segment α σ)) : ForkParts α σ → Prop
  | between (lower upper : List (Sealed α σ)) (createOld : Bool)
      (whole : sealed = lower ++ upper)
      (ends : first + (joined Segment.payloads (lower.map Sealed.seg)).length = atIdx) :
      Divided opts first sealed atIdx watermark seeds
        { kept := lower
          oldFiles := if upper = [] then seeds else upper.map Sealed.seg
          childFiles := seeds
          dataMoves := !upper.isEmpty
          createOld := createOld || !upper.isEmpty }
  | inside (lower upper : List (Sealed α σ)) (boundary : Sealed α σ)
      (below above : Segment α σ) (whole : sealed = lower ++ boundary :: upper)
      (begins : boundary.seg.baseIndex =
        first + (joined Segment.payloads (lower.map Sealed.seg)).length)
      (low : boundary.seg.baseIndex < atIdx)
      (high : atIdx < boundary.seg.baseIndex + boundary.seg.payloads.length)
      (split : splitFiles opts atIdx watermark boundary.seg = .ok (below, above)) :
      Divided opts first sealed atIdx watermark seeds
        { kept := lower ++ [wrapOpen (below.reload opts.codec 0)]
          oldFiles := above :: upper.map Sealed.seg
          childFiles := seeds
          dataMoves := true
          createOld := true }

section Plan

variable {first atIdx : Nat} {sealed : List (Sealed α σ)} {watermark : Option σ}
  {opts : Options α σ} {entry : Sealed α σ}

section

variable (range : entry.last + 1 = entry.seg.baseIndex + entry.seg.count)

include range

theorem action_keep (ends : entry.seg.baseIndex + entry.seg.payloads.length ≤ atIdx) :
    entry.action atIdx = .keep := by
  simp only [Segment.count] at range
  rw [Sealed.action, if_pos (by omega)]

theorem action_move (filled : entry.seg.payloads ≠ []) (begins : atIdx ≤ entry.seg.baseIndex) :
    entry.action atIdx = .move := by
  have length := length_pos_iff.mpr filled
  simp only [Segment.count] at range
  rw [Sealed.action, if_neg (by omega), if_pos begins]

theorem action_split (low : entry.seg.baseIndex < atIdx)
    (high : atIdx < entry.seg.baseIndex + entry.seg.payloads.length) :
    entry.action atIdx = .split := by
  simp only [Segment.count] at range
  rw [Sealed.action, if_neg (by omega), if_neg (by omega)]

end

/-- The actions of a fork on segments that end below the cut and segments that
start above it. -/
theorem actions_of_cut (atIdx : Nat)
    (ranges : ∀ entry ∈ sealed, entry.last + 1 = entry.seg.baseIndex + entry.seg.count)
    (chain : Consecutive Segment.baseIndex Segment.payloads first (sealed.map Sealed.seg))
    (lower middle upper : List (Sealed α σ)) (whole : sealed = lower ++ (middle ++ upper))
    (below : first + (joined Segment.payloads (lower.map Sealed.seg)).length ≤ atIdx)
    (above : atIdx ≤ first + (joined Segment.payloads ((lower ++ middle).map Sealed.seg)).length) :
    (∀ entry ∈ lower, entry.action atIdx = .keep) ∧
      ∀ entry ∈ upper, entry.action atIdx = .move := by
  constructor
  · intro entry member
    rw [whole, map_append, consecutive_append] at chain
    have bounds := consecutive_bounds _ _ chain.1 (mem_map_of_mem member)
    exact action_keep (ranges entry (by simp [whole, member])) (by omega)
  · intro entry member
    rw [whole, ← append_assoc, map_append, consecutive_append] at chain
    have bounds := consecutive_bounds _ _ chain.2 (mem_map_of_mem member)
    obtain ⟨_, _, _, _, filled⟩ := consecutive_split _ _ chain.2 (mem_map_of_mem member)
    exact action_move (ranges entry (by simp [whole, member])) filled (by omega)

theorem filter_action_append {lower upper : List (Sealed α σ)} {kept moved : SegAction}
    (differ : moved ≠ kept) (low : ∀ entry ∈ lower, entry.action atIdx = kept)
    (high : ∀ entry ∈ upper, entry.action atIdx = moved) :
    (lower ++ upper).filter (fun entry => entry.action atIdx = kept) = lower := by
  rw [filter_append, filter_eq_self.mpr, filter_eq_nil_iff.mpr, append_nil]
  · intro entry member
    simpa [high entry member] using differ
  · intro entry member
    simpa using low entry member

theorem filter_action_append_right {lower upper : List (Sealed α σ)} {kept moved : SegAction}
    (differ : kept ≠ moved) (low : ∀ entry ∈ lower, entry.action atIdx = kept)
    (high : ∀ entry ∈ upper, entry.action atIdx = moved) :
    (lower ++ upper).filter (fun entry => entry.action atIdx = moved) = upper := by
  rw [filter_append, filter_eq_nil_iff.mpr, filter_eq_self.mpr, nil_append]
  · intro entry member
    simpa using high entry member
  · intro entry member
    simpa [low entry member] using differ

theorem filter_map_kept {entries : List (Sealed α σ)} {replacement : Sealed α σ}
    (keeps : ∀ entry ∈ entries, entry.action atIdx = .keep) :
    entries.filterMap (fun entry => entry.keptAs atIdx replacement) = entries := by
  induction entries with
  | nil => rfl
  | cons head rest ih =>
    have here : head.keptAs atIdx replacement = some head := by
      rw [Sealed.keptAs, keeps head mem_cons_self]
    rw [filterMap_cons, here,
      ih fun entry member => keeps entry (mem_cons_of_mem _ member)]

theorem filter_map_moved {entries : List (Sealed α σ)} {replacement : Sealed α σ}
    (moves : ∀ entry ∈ entries, entry.action atIdx = .move) :
    entries.filterMap (fun entry => entry.keptAs atIdx replacement) = [] := by
  rw [filterMap_eq_nil_iff]
  intro entry member
  rw [Sealed.keptAs, moves entry member]

theorem fork_segments_divided {explicitOld : Bool} {parts : ForkParts α σ}
    (ranges : ∀ entry ∈ sealed, entry.last + 1 = entry.seg.baseIndex + entry.seg.count)
    (chain : Consecutive Segment.baseIndex Segment.payloads first (sealed.map Sealed.seg))
    (low : first ≤ atIdx)
    (high : atIdx ≤ first + (joined Segment.payloads (sealed.map Sealed.seg)).length)
    (done : forkSegments opts sealed atIdx watermark explicitOld = .ok parts) :
    ∃ seeds, watermarkSegs opts atIdx watermark = .ok seeds ∧
      Divided opts first sealed atIdx watermark seeds parts := by
  have entries := (consecutive_map _ _ Sealed.seg first sealed).mp chain
  rw [joined_map] at high
  unfold forkSegments at done
  split at done
  · cases done
  · rename_i seeds seeded
    refine ⟨seeds, seeded, ?_⟩
    rcases consecutive_cut _ _ entries low high with
      ⟨lower, upper, whole, ends⟩ | ⟨lower, boundary, upper, whole, begins, after, before⟩
    · rw [← joined_map] at ends
      obtain ⟨keeps, moves⟩ := actions_of_cut atIdx ranges chain lower [] upper whole (by omega)
        (by rw [append_nil]; omega)
      have unsplit : sealed.find? (fun entry => entry.action atIdx = .split) = none := by
        rw [find?_eq_none, whole]
        intro entry member
        rcases mem_append.mp member with old | new
        · simp [keeps entry old]
        · simp [moves entry new]
      have kept := filter_action_append (by decide) keeps moves
      have moved := filter_action_append_right (by decide) keeps moves
      rw [← whole] at kept moved
      have bounded : (upper.map Sealed.seg).any (fun segment => segment.baseIndex = atIdx) =
          !upper.isEmpty := by
        cases upper with
        | nil => rfl
        | cons head rest =>
          rw [whole, map_append, consecutive_append] at chain
          have start : head.seg.baseIndex = atIdx := chain.2.1.trans ends
          simp [start]
      simp only [unsplit, kept, moved, bounded, Option.isSome_none, Bool.or_false] at done
      cases done
      have files : (if (!upper.isEmpty) = true then [] else seeds) ++ upper.map Sealed.seg =
          if upper = [] then seeds else upper.map Sealed.seg := by
        cases upper <;> simp
      have shape : (!(upper.map Sealed.seg).isEmpty) = !upper.isEmpty := by
        cases upper <;> rfl
      rw [files, shape]
      exact .between lower upper explicitOld whole ends
    · have start : boundary.seg.baseIndex =
          first + (joined Segment.payloads (lower.map Sealed.seg)).length := by
        rw [joined_map]
        exact begins
      have inRange := ranges boundary (by simp [whole])
      have splits : boundary.action atIdx = .split := action_split inRange after before
      obtain ⟨keeps, moves⟩ := actions_of_cut atIdx ranges chain lower [boundary] upper whole
        (by simp only [Function.comp_apply] at after; omega)
        (by
          simp only [Function.comp_apply] at before
          rw [map_append, joined_append, length_append]
          simp only [map_cons, map_nil, joined_cons, joined_nil, append_nil]
          omega)
      have found : sealed.find? (fun entry => entry.action atIdx = .split) = some boundary := by
        rw [whole, find?_append, find?_eq_none.mpr]
        · simp [splits]
        · intro entry member
          simp [keeps entry member]
      have moved : sealed.filter (fun entry => entry.action atIdx = .move) = upper := by
        rw [whole, filter_append, filter_eq_nil_iff.mpr, nil_append,
          filter_cons_of_neg (by simp [splits]), filter_eq_self.mpr]
        · intro entry member
          simpa using moves entry member
        · intro entry member
          simp [keeps entry member]
      simp only [found, moved, Option.isSome_some, Bool.or_true] at done
      split at done
      · cases done
      · rename_i below above split
        cases done
        have kept : sealed.filterMap
            (fun entry => entry.keptAs atIdx (wrapOpen (below.reload opts.codec 0))) =
            lower ++ [wrapOpen (below.reload opts.codec 0)] := by
          rw [whole, filterMap_append, filterMap_cons, filter_map_kept keeps,
            filter_map_moved moves]
          simp [Sealed.keptAs, splits]
        rw [kept]
        exact .inside lower upper boundary below above whole start after before split

/-- What the parts of a fork hold, in terms of the records that were there. -/
structure ForkParts.Holds (parts : ForkParts α σ) (first atIdx : Nat) (records : List α) :
    Prop where
  ranges : ∀ entry ∈ parts.kept, entry.last + 1 = entry.seg.baseIndex + entry.seg.count
  chain : Consecutive Segment.baseIndex Segment.payloads first (parts.kept.map Sealed.seg)
  kept : joined Segment.payloads (parts.kept.map Sealed.seg) = records.take (atIdx - first)
  oldStacked : Stacked atIdx parts.oldFiles
  moved : joined Segment.payloads parts.oldFiles = records.drop (atIdx - first)
  childStacked : Stacked atIdx parts.childFiles
  childEmpty : joined Segment.payloads parts.childFiles = []
  moves : parts.dataMoves = true ↔ atIdx < first + records.length
  created : parts.dataMoves = true → parts.createOld = true

theorem split_files_spec {boundary below above : Segment α σ}
    (stored : ∀ payload ∈ boundary.payloads, opts.codec.stored payload = payload)
    (split : splitFiles opts atIdx watermark boundary = .ok (below, above)) :
    (below.baseIndex = boundary.baseIndex ∧
        below.payloads = boundary.payloads.take (atIdx - boundary.baseIndex) ∧
        below.header = rebuiltHeader opts boundary.header) ∧
      above.baseIndex = atIdx ∧
        above.payloads = boundary.payloads.drop (atIdx - boundary.baseIndex) ∧
        above.header = rebuiltHeader opts watermark := by
  simp only [splitFiles] at split
  split at split
  · cases split
  · rename_i lower lowerBuilt
    split at split
    · cases split
    · rename_i upper upperBuilt
      cases split
      refine ⟨rebuild_spec ?_ lowerBuilt, rebuild_spec ?_ upperBuilt⟩
      · exact fun payload member => stored payload (mem_of_mem_take member)
      · exact fun payload member => stored payload (mem_of_mem_drop member)

/-- The parts on the two sides of a cut between two files. -/
theorem ForkParts.Holds.of_cut {parts : ForkParts α σ} {upper : List (Segment α σ)}
    (ranges : ∀ entry ∈ parts.kept, entry.last + 1 = entry.seg.baseIndex + entry.seg.count)
    (chain : Consecutive Segment.baseIndex Segment.payloads first
      (parts.kept.map Sealed.seg ++ upper))
    (ends : first + (joined Segment.payloads (parts.kept.map Sealed.seg)).length = atIdx)
    (seeded : Stacked atIdx parts.childFiles ∧ joined Segment.payloads parts.childFiles = [])
    (old : parts.oldFiles = if upper = [] then parts.childFiles else upper)
    (moves : parts.dataMoves = true ↔ upper ≠ [])
    (created : parts.dataMoves = true → parts.createOld = true) :
    parts.Holds first atIdx (joined Segment.payloads (parts.kept.map Sealed.seg ++ upper)) := by
  rw [consecutive_append, ends] at chain
  have cut : atIdx - first = (joined Segment.payloads (parts.kept.map Sealed.seg)).length := by
    omega
  have above : Stacked atIdx parts.oldFiles ∧
      joined Segment.payloads parts.oldFiles = joined Segment.payloads upper := by
    rw [old]
    split_ifs with bare
    · exact ⟨seeded.1, by rw [seeded.2, bare]; rfl⟩
    · exact ⟨⟨upper, none, by simp, chain.2, by simp⟩, rfl⟩
  have some : upper ≠ [] ↔ joined Segment.payloads upper ≠ [] := by
    constructor
    · exact joined_ne_nil_of_consecutive _ _ chain.2
    · rintro held rfl
      exact held rfl
  refine ⟨ranges, chain.1, ?_, above.1, ?_, seeded.1, seeded.2, ?_, created⟩
  · rw [joined_append, cut, take_left]
  · rw [joined_append, cut, drop_left]
    exact above.2
  · rw [moves, some, joined_append, length_append, ← Nat.add_assoc, ends,
      Nat.lt_add_right_iff_pos, length_pos_iff]

theorem divided_holds {seeds : List (Segment α σ)} {parts : ForkParts α σ}
    (ranges : ∀ entry ∈ sealed, entry.last + 1 = entry.seg.baseIndex + entry.seg.count)
    (chain : Consecutive Segment.baseIndex Segment.payloads first (sealed.map Sealed.seg))
    (stored : ∀ payload ∈ joined Segment.payloads (sealed.map Sealed.seg),
      opts.codec.stored payload = payload) (seeded : watermarkSegs opts atIdx watermark = .ok seeds)
    (divided : Divided opts first sealed atIdx watermark seeds parts) :
    parts.Holds first atIdx (joined Segment.payloads (sealed.map Sealed.seg)) := by
  have seeds := seeds_stacked seeded
  cases divided with
  | between lower upper createOld whole ends =>
    rw [whole, map_append] at chain ⊢
    refine .of_cut ?_ chain ends seeds (by simp) (by simp) ?_
    · exact fun entry member => ranges entry (by simp [whole, member])
    · exact fun moves => Bool.or_eq_true_iff.mpr (Or.inr moves)
  | inside lower upper boundary below above whole begins low high split =>
    have boundaryStored : ∀ payload ∈ boundary.seg.payloads,
        opts.codec.stored payload = payload := by
      intro payload member
      apply stored payload
      rw [whole, map_append, joined_append, map_cons, joined_cons]
      simp [member]
    obtain ⟨⟨lowBase, lowHeld, _⟩, highBase, highHeld, _⟩ :=
      split_files_spec boundaryStored split
    have lowLength : below.payloads.length = atIdx - boundary.seg.baseIndex := by
      rw [lowHeld, length_take]
      omega
    have lowFilled : 0 < below.payloads.length := by omega
    have highLength := congrArg List.length highHeld
    rw [length_drop] at highLength
    have rejoined : below.payloads ++ above.payloads = boundary.seg.payloads := by
      rw [lowHeld, highHeld, take_append_drop]
    have stays : ((lower ++ [wrapOpen (below.reload opts.codec 0)]).map Sealed.seg) =
        lower.map Sealed.seg ++ [below.reload opts.codec 0] := map_append
    have held : (below.reload opts.codec 0).payloads = below.payloads := rfl
    have records : joined Segment.payloads (sealed.map Sealed.seg) =
        joined Segment.payloads ((lower ++ [wrapOpen (below.reload opts.codec 0)]).map Sealed.seg ++
          above :: upper.map Sealed.seg) := by
      rw [whole, stays, append_assoc, map_append, joined_append, joined_append, map_cons,
        joined_cons, singleton_append, joined_cons, joined_cons, held, ← rejoined, append_assoc]
    rw [records]
    -- With the two halves in the place of the file the cut is between two files.
    refine .of_cut ?_ ?_ ?_ seeds rfl (by simp) fun _ => rfl
    · intro entry member
      rw [mem_append, mem_singleton] at member
      rcases member with old | rfl
      · exact ranges entry (by simp [whole, old])
      · have last : (wrapOpen (below.reload opts.codec 0)).last =
            below.baseIndex + below.payloads.length - 1 := if_pos lowFilled
        have file : (wrapOpen (below.reload opts.codec 0)).seg = below.reload opts.codec 0 := rfl
        rw [last, file, reload_base, reload_count, Segment.count]
        omega
    · rw [whole, map_append, map_cons] at chain
      rw [stays]
      refine consecutive_halves _ _ chain lowBase ?_ rejoined (length_pos_iff.mp lowFilled)
        (length_pos_iff.mp (by omega))
      rw [held, reload_base]
      omega
    · rw [stays, joined_append, length_append, joined_cons, joined_nil, append_nil, held]
      omega

end Plan

namespace Log

variable {first atIdx : Nat} {log : Log α σ} {parts : ForkParts α σ}

/-- Sealing for a fork moves no record and leaves no active segment with any. -/
theorem seal_for_fork_spec (numbered : log.NumberedFrom first) :
    log.sealForFork.NumberedFrom first ∧ log.sealForFork.own = log.own ∧
      log.sealForFork.activePayloads = [] ∧ log.sealForFork.forkBase = log.forkBase := by
  unfold sealForFork
  split_ifs with filled
  · cases active : log.active with
    | none => simp [activeCount, active] at filled
    | some segment =>
      have some : segment.payloads ≠ [] := by
        rw [activeCount, active] at filled
        exact length_pos_iff.mp filled
      have cleared : log.Cleared log.sealActive := Or.inr ⟨segment, active, some, rfl⟩
      obtain ⟨kept, same, idle, base⟩ := numbered_cleared numbered cleared
      exact ⟨kept, same, by simp [activePayloads, idle], base⟩
  · refine ⟨numbered, rfl, ?_, rfl⟩
    rw [active_count_eq] at filled
    simpa using filled

theorem seal_for_fork_tidy (tidy : log.Tidy) : log.sealForFork.Tidy := by
  obtain ⟨kept, same, _, base⟩ := seal_for_fork_spec tidy.numbered
  have first : log.sealForFork.firstWritable = log.firstWritable := by
    rw [firstWritable, base, firstWritable]
  refine ⟨first ▸ kept, ?_⟩
  rw [first, same]
  unfold sealForFork
  split_ifs with filled
  · cases active : log.active with
    | none => simp [activeCount, active] at filled
    | some segment =>
      rcases tidy.strays with clean | ⟨idle, _⟩
      · left
        simpa [sealActive, active] using clean
      · rw [idle] at active
        cases active
  · exact tidy.strays

theorem seal_for_fork_own (numbered : log.NumberedFrom first) :
    joined Segment.payloads (log.sealForFork.sealed.map Sealed.seg) = log.own := by
  obtain ⟨_, same, idle, _⟩ := seal_for_fork_spec numbered
  rw [← same, own, idle, append_nil]
  rfl

section

variable (tidy : log.Tidy) (valid : log.forkIndexValid atIdx = true)

include tidy valid

theorem fork_index_bounds :
    log.firstWritable ≤ atIdx ∧ atIdx ≤ log.firstWritable + log.own.length := by
  have next := expected_eq tidy.numbered
  unfold forkIndexValid at valid
  unfold expected at next
  split_ifs at valid with idle
  · have none := (is_empty_iff tidy.numbered).mp idle
    rw [none, length_nil, of_decide_eq_true valid]
    omega
  · rw [if_neg idle] at next
    have occupied : log.own ≠ [] := fun none => idle ((is_empty_iff tidy.numbered).mpr none)
    rw [first_index_locked_eq tidy.numbered, if_neg occupied] at valid
    simp only [Bool.and_eq_true, Bool.or_eq_true, decide_eq_true_eq] at valid
    omega

theorem fork_parts_divided {opts : Options α σ} {parents : List (Log α σ)} {explicitOld : Bool}
    (done : log.forkParts opts parents atIdx explicitOld = .ok parts) :
    ∃ watermark seeds, log.sealForFork.forkWatermark opts parents atIdx = .ok watermark ∧
      watermarkSegs opts atIdx watermark = .ok seeds ∧
      Divided opts log.firstWritable log.sealForFork.sealed atIdx watermark seeds parts := by
  obtain ⟨low, high⟩ := fork_index_bounds tidy valid
  obtain ⟨kept, same, idle, _⟩ := seal_for_fork_spec tidy.numbered
  unfold forkParts at done
  split at done
  · cases done
  · rename_i watermark computed
    have records := seal_for_fork_own tidy.numbered
    obtain ⟨seeds, seeded, divided⟩ := fork_segments_divided kept.ranges kept.chain low
      (by rw [records]; exact high) done
    exact ⟨watermark, seeds, computed, seeded, divided⟩

theorem fork_parts_holds {opts : Options α σ} {parents : List (Log α σ)} {explicitOld : Bool}
    (stored : ∀ payload ∈ log.own, opts.codec.stored payload = payload)
    (done : log.forkParts opts parents atIdx explicitOld = .ok parts) :
    parts.Holds log.firstWritable atIdx log.own := by
  obtain ⟨watermark, seeds, _, seeded, divided⟩ := fork_parts_divided tidy valid done
  have kept := (seal_for_fork_spec tidy.numbered).1
  have records := seal_for_fork_own tidy.numbered
  have holds := divided_holds kept.ranges kept.chain (by rw [records]; exact stored) seeded divided
  rwa [records] at holds

end

/-- What is still active after sealing for a fork was active and is unused. -/
theorem seal_for_fork_active (tidy : log.Tidy) {segment : Segment α σ}
    (active : log.sealForFork.active = some segment) :
    log.active = some segment ∧ segment.payloads = [] := by
  have idle := (seal_for_fork_spec tidy.numbered).2.2.1
  have unused : segment.payloads = [] := by
    simpa [activePayloads, active] using idle
  unfold sealForFork at active
  split_ifs at active with some
  · cases running : log.active with
    | none => simp [activeCount, running] at some
    | some other => simp [sealActive, running] at active
  · exact ⟨active, unused⟩

def filled (log : Log α σ) : Bool :=
  log.files.all fun segment => segment.count ≠ 0

theorem filled_no_stray (tidy : log.Tidy) (full : log.filled = true) :
    log.stray ++ log.sealForFork.active.toList = [] := by
  have all : ∀ segment ∈ log.files, segment.payloads ≠ [] := by
    intro segment member
    have some := all_eq_true.mp full segment member
    simpa [Segment.count] using some
  have clean : log.stray = [] := by
    rcases tidy.strays with clean | ⟨_, unused, stray, empty, _⟩
    · exact clean
    · exact absurd empty (all unused (by simp [files, stray]))
  cases active : log.sealForFork.active with
  | none => simp [clean]
  | some segment =>
    rcases seal_for_fork_active tidy active with ⟨running, unused⟩
    exact absurd unused (all segment (by simp [files, running]))

/-- A fork behind the last record, or of a directory whose files all hold
records, leaves a tidy handle on the records below the cut. -/
theorem forked_tidy (tidy : log.Tidy) (child old : String)
    (holds : parts.Holds log.firstWritable atIdx log.own)
    (safe : atIdx = log.firstWritable + log.own.length ∨ log.filled = true) :
    (log.forked child old parts).Tidy ∧
      (log.forked child old parts).own = log.own.take (atIdx - log.firstWritable) := by
  have kept : (log.forked child old parts).own = log.own.take (atIdx - log.firstWritable) := by
    rw [← holds.kept, own]
    exact append_nil _
  refine ⟨⟨⟨first_writable_pos log, holds.ranges, holds.chain, by simp [forked],
    fun _ => rfl, ?_⟩, ?_⟩, kept⟩
  · exact Nat.le_trans (fork_base_le_first_writable log) (Nat.le_add_right _ _)
  · rw [kept]
    rcases safe with tail | full
    · have whole : log.own.take (atIdx - log.firstWritable) = log.own :=
        take_of_length_le (by omega)
      rw [whole]
      cases active : log.sealForFork.active with
      | none =>
        have same : (log.forked child old parts).stray = log.stray := by simp [forked, active]
        rw [same]
        rcases tidy.strays with clean | ⟨_, unused, shape⟩
        · exact Or.inl clean
        · exact Or.inr ⟨rfl, unused, shape⟩
      | some segment =>
        obtain ⟨running, unused⟩ := seal_for_fork_active tidy active
        have clean : log.stray = [] := by
          rcases tidy.strays with clean | ⟨idle, _⟩
          · exact clean
          · rw [idle] at running
            cases running
        refine Or.inr ⟨rfl, segment, by simp [forked, clean, active], unused, ?_⟩
        have start := tidy.numbered.tail segment running
        rw [start]
        simp [own, activePayloads, running, unused, forked, firstWritable]
    · left
      exact filled_no_stray tidy full

end Log

end Figwal.Disk
