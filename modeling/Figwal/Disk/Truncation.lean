import Figwal.Disk.ScanReverse

/-!
# Front truncation and reopening

`TruncateFront` removes files from the front. A root then starts at a later file, which
`Open` takes as it is. A fork has its base in a marker that the truncation leaves alone, and
`Open` refuses a fork whose first file starts past its base. In every other run, reopening
finds what the live handle shows.
-/

namespace Figwal.Disk

open Figwal.Lib List

set_option autoImplicit false

variable {α σ : Type}

/-- A file whose header could not be computed: the parent has no state for the first
segment of an empty fork. -/
def Log.Stranded (log : Log α σ) : Prop :=
  log.sealed = [] ∧ log.active = none ∧ ∃ unused : Segment α σ, log.stray = [unused] ∧
    unused.payloads = [] ∧ unused.baseIndex = log.firstWritable

/-- `Open` accepts the first file of the log. -/
def Log.Aligned (log : Log α σ) : Prop :=
  0 < log.forkBase → ∀ base ∈ log.firstBase, base ≤ log.forkBase

/-- A live handle whose directory a fresh `Open` reads the same way. -/
structure Log.Settled (log : Log α σ) : Prop where
  dense : ∃ first, log.Dense first
  strays : log.stray = [] ∨ log.Stranded
  aligned : log.Aligned
  locked : log.readOnly = true → log.subdirs = true

def Log.Reopens (opts : Options α σ) (parents : List (Log α σ)) (log : Log α σ) : Prop :=
  ∃ next, openDir opts log.forkBase log.files log.subdirs = .ok next ∧
    (∀ idx, next.readOwn idx = log.readOwn idx) ∧
    (∀ idx, read (next :: parents) idx = read (log :: parents) idx) ∧
    firstIndex (next :: parents) = firstIndex (log :: parents) ∧
    next.lastIndex = log.lastIndex ∧ next.nextIndex = log.nextIndex

/-- A written payload is its own stored form, and a truncation of a fork leaves the file
that holds the fork base, or no file. -/
def LogOp.KeepsBase (codec : Codec α σ) (log : Log α σ) : LogOp α → Prop
  | .write _ payload => codec.stored payload = payload
  | .truncateFront beforeIdx => (log.truncateFront beforeIdx).Aligned

instance (log : Log α σ) : Decidable log.Aligned :=
  inferInstanceAs (Decidable (0 < log.forkBase → ∀ base ∈ log.firstBase, base ≤ log.forkBase))

instance [DecidableEq α] (codec : Codec α σ) (log : Log α σ) (op : LogOp α) :
    Decidable (LogOp.KeepsBase codec log op) :=
  match op with
  | .write _ payload => inferInstanceAs (Decidable (codec.stored payload = payload))
  | .truncateFront beforeIdx => inferInstanceAs (Decidable (log.truncateFront beforeIdx).Aligned)

section Observed

variable {first : Nat} {log : Log α σ}

theorem Log.Dense.empty_iff (dense : log.Dense first) : log.isEmpty = true ↔ log.own = [] := by
  constructor
  · exact Log.own_of_empty
  · intro none_held
    by_contra occupied
    exact dense.filled occupied none_held

theorem Log.Dense.last_locked (dense : log.Dense first) (filled : log.own ≠ []) :
    log.lastIndexLocked + 1 = first + log.own.length := by
  have root := dense.as_root filled
  have next := Log.expected_eq root
  have occupied : ¬({ log with forkBase := 0 } : Log α σ).isEmpty = true := fun idle =>
    filled ((Log.is_empty_iff root).mp idle)
  rw [Log.expected, if_neg occupied] at next
  exact next

theorem Log.Dense.read_own (dense : log.Dense first) (filled : log.own ≠ []) (idx : Nat) :
    log.readOwn idx =
      (if first ≤ idx then log.own[idx - first]? else none).elim (.error .notFound) .ok := by
  have root := dense.as_root filled
  have occupied : ¬log.isEmpty = true := fun idle => filled (Log.own_of_empty idle)
  cases absent : (if first ≤ idx then log.own[idx - first]? else none) with
  | some payload =>
    split_ifs at absent with low
    exact (Log.read_own_ok_iff root idx payload).mpr ⟨low, absent⟩
  | none =>
    rw [Log.readOwn, if_neg occupied]
    cases routed : log.findSegment idx with
    | none => rfl
    | some segment =>
      obtain ⟨base, bound, before, after, split, start⟩ := Log.find_segment_some root routed
      have length := congrArg List.length split
      have inside : idx - first < log.own.length := by
        change log.own.length = _ at length
        rw [length_append, length_append] at length
        omega
      rw [if_pos (by omega), getElem?_eq_getElem inside] at absent
      cases absent

/-- Two dense handles with the same records, numbered alike, answer alike. -/
theorem Log.Dense.same_answers {next : Log α σ} (dense : log.Dense first)
    (other : next.Dense first) (own : next.own = log.own) (base : next.forkBase = log.forkBase) :
    (∀ idx, next.readOwn idx = log.readOwn idx) ∧
      next.firstIndexLocked = log.firstIndexLocked ∧ next.lastIndex = log.lastIndex ∧
      next.expected = log.expected := by
  by_cases empty : log.own = []
  · have idle := dense.empty_iff.mpr empty
    have nextIdle := other.empty_iff.mpr (own.trans empty)
    have silent : ∀ either : Log α σ, either.isEmpty = true →
        (∀ idx, either.readOwn idx = .error .empty) ∧ either.firstIndexLocked = 0 ∧
          either.lastIndexLocked = 0 := by
      intro either quiet
      refine ⟨fun idx => by rw [Log.readOwn, if_pos quiet], ?_, ?_⟩
      · rw [Log.isEmpty, Bool.and_eq_true, List.isEmpty_iff, beq_iff_eq] at quiet
        rw [Log.firstIndexLocked, quiet.1]
        cases active : either.active with
        | none => rfl
        | some segment =>
          have unused : segment.count = 0 := by simpa [Log.activeCount, active] using quiet.2
          simp [unused]
      · rw [Log.isEmpty, Bool.and_eq_true, List.isEmpty_iff, beq_iff_eq] at quiet
        have none_sealed : either.sealedLast = 0 := by simp [Log.sealedLast, quiet.1]
        rw [Log.lastIndexLocked]
        cases active : either.active with
        | none => exact none_sealed
        | some segment =>
          have unused : segment.count = 0 := by simpa [Log.activeCount, active] using quiet.2
          simp [unused, none_sealed]
    have mine := silent log idle
    have yours := silent next nextIdle
    refine ⟨fun idx => by rw [yours.1, mine.1], by rw [yours.2.1, mine.2.1], ?_, ?_⟩
    · rw [Log.lastIndex, Log.lastIndex, yours.2.2, mine.2.2, base]
    · rw [Log.expected, Log.expected, if_pos idle, if_pos nextIdle, Log.firstWritable,
        Log.firstWritable, base]
  · have filled : next.own ≠ [] := by
      rw [own]
      exact empty
    have last := dense.last_locked empty
    have nextLast := other.last_locked filled
    rw [own] at nextLast
    have same : next.lastIndexLocked = log.lastIndexLocked := by omega
    have occupied : ¬log.isEmpty = true := fun idle => empty (Log.own_of_empty idle)
    have nextOccupied : ¬next.isEmpty = true := fun idle => filled (Log.own_of_empty idle)
    refine ⟨?_, ?_, ?_, ?_⟩
    · intro idx
      rw [dense.read_own empty, other.read_own filled, own]
    · rw [dense.first_index occupied, other.first_index nextOccupied]
    · rw [Log.lastIndex, Log.lastIndex, same, base]
    · rw [Log.expected, Log.expected, if_neg occupied, if_neg nextOccupied, same]

end Observed

section Steps

variable {first : Nat} {log base : Log α σ} {parents : List (Log α σ)} {opts : Options α σ}
  {segment : Segment α σ}

theorem Log.Dense.cleared (dense : log.Dense first) (cleared : log.Cleared base) :
    base.Dense first ∧ base.active = none ∧ base.own = log.own ∧ base.forkBase = log.forkBase := by
  rcases cleared with ⟨idle, rfl⟩ | ⟨segment, active, filled, rfl⟩
  · exact ⟨dense, idle, rfl, rfl⟩
  · have start := dense.tail segment active
    have count : 0 < segment.count := length_pos_of_ne_nil filled
    have segments : log.sealActive.sealedSegs = log.sealedSegs ++ [segment] := by
      simp [Log.sealActive, active, Log.sealedSegs, wrapOpen]
    refine ⟨⟨dense.positive, ?_, ?_, ?_⟩, ?_, ?_, ?_⟩
    · intro entry member
      simp only [Log.sealActive, active, mem_append, mem_singleton] at member
      rcases member with old | rfl
      · exact dense.ranges entry old
      · rw [wrapOpen]
        simp only [count, if_true, Segment.lastIndex]
        omega
    · rw [segments, consecutive_append]
      exact ⟨dense.chain, start, filled, trivial⟩
    · intro other held
      simp [Log.sealActive, active] at held
    · simp [Log.sealActive, active]
    · rw [Log.own, segments, joined_append]
      simp [Log.own, Log.activePayloads, Log.sealActive, active]
    · simp [Log.sealActive, active]

/-- The index a write carries is the one behind the records, or the first of an empty log. -/
theorem Log.Dense.expected (dense : log.Dense first) :
    log.expected = if log.own = [] then log.firstWritable else first + log.own.length := by
  rw [Log.expected]
  by_cases empty : log.own = []
  · rw [if_pos (dense.empty_iff.mpr empty), if_pos empty]
  · have occupied : ¬log.isEmpty = true := fun idle => empty (Log.own_of_empty idle)
    rw [if_neg occupied, if_neg empty, dense.last_locked empty]

theorem Log.Dense.activated (dense : log.Dense first) (cleared : log.Cleared base)
    (start : segment.baseIndex = log.expected) :
    ∃ origin, ({ base with active := some segment } : Log α σ).Dense origin := by
  obtain ⟨clear, idle, own, _⟩ := dense.cleared cleared
  have joins : base.own = joined Segment.payloads base.sealedSegs := by
    simp [Log.own, Log.activePayloads, idle]
  rw [dense.expected] at start
  by_cases empty : log.own = []
  · rw [if_pos empty] at start
    have none_sealed : base.sealedSegs = [] := by
      by_contra some_sealed
      refine joined_ne_nil_of_consecutive _ _ clear.chain some_sealed ?_
      rw [← joins, own, empty]
    refine ⟨log.firstWritable, Log.first_writable_pos log, clear.ranges, ?_, ?_⟩
    · change Consecutive _ _ _ base.sealedSegs
      rw [none_sealed]
      exact consecutive_nil _ _ _
    · intro other held
      cases held
      change segment.baseIndex = _ + (joined Segment.payloads base.sealedSegs).length
      rw [none_sealed]
      exact start
  · rw [if_neg empty] at start
    refine ⟨first, clear.positive, clear.ranges, clear.chain, ?_⟩
    intro other held
    cases held
    change segment.baseIndex = _ + (joined Segment.payloads base.sealedSegs).length
    rw [← joins, own]
    exact start

theorem Log.Dense.truncated (dense : log.Dense first) (beforeIdx : Nat) :
    ∃ origin, (log.truncateFront beforeIdx).Dense origin := by
  have sorted : (log.sealed.map Sealed.last).Pairwise (· ≤ ·) := by
    by_cases empty : log.own = []
    · have idle := dense.empty_iff.mpr empty
      rw [Log.isEmpty, Bool.and_eq_true, List.isEmpty_iff] at idle
      rw [idle.1]
      exact List.Pairwise.nil
    · have lasts := Log.sealed_lasts_sorted (dense.as_root empty)
      exact lasts
  obtain ⟨gone, split, _⟩ := filter_lower_bound_suffix Sealed.last beforeIdx log.sealed sorted
  have segments : log.sealedSegs =
      gone.map Sealed.seg ++ (log.truncateFront beforeIdx).sealedSegs := by
    conv_lhs => rw [Log.sealedSegs, split]
    rw [map_append]
    rfl
  have chain := dense.chain
  rw [segments, consecutive_append] at chain
  refine ⟨_, ?_, ?_, chain.2, ?_⟩
  · exact dense.positive.trans (Nat.le_add_right _ _)
  · intro entry member
    exact dense.ranges entry (mem_of_mem_filter member)
  · intro segment active
    have start := dense.tail segment active
    rw [segments, joined_append, length_append] at start
    omega

/-- With a steady callback a header fails only for the first segment of a fork. -/
theorem unheaded_fresh (steady : opts.Steady) {idx : Nat}
    (failed : base.Unheaded opts parents idx) : base.sealed = [] := by
  obtain ⟨fold, mode, unheaded⟩ := failed.failed
  by_contra some_sealed
  obtain ⟨newest, last⟩ := getLast?_isSome.mpr some_sealed |> Option.isSome_iff_exists.mp
  obtain ⟨header, length, computed, framed⟩ :=
    steady fold mode newest.seg.header newest.seg.payloads
  have opened : base.openHeader opts parents fold = .ok header := by
    rw [Log.openHeader, last]
    exact computed
  rw [unheaded header opened] at framed
  cases framed

theorem first_base_cleared (cleared : log.Cleared base) (segment : Segment α σ) :
    ({ base with active := some segment } : Log α σ).firstBase = log.firstBase ∨
      log.firstBase = none ∧
        ({ base with active := some segment } : Log α σ).firstBase = some segment.baseIndex := by
  rcases cleared with ⟨idle, rfl⟩ | ⟨old, active, _, rfl⟩
  · cases sealed : base.sealed with
    | nil => exact .inr (by simp [Log.firstBase, sealed, idle])
    | cons head rest => exact .inl (by simp [Log.firstBase, sealed])
  · cases sealed : log.sealed with
    | nil => exact .inl (by simp [Log.firstBase, Log.sealActive, active, sealed, wrapOpen])
    | cons head rest => exact .inl (by simp [Log.firstBase, Log.sealActive, active, sealed])

theorem Log.Aligned.activated (aligned : log.Aligned) (cleared : log.Cleared base)
    (same : base.forkBase = log.forkBase)
    (start : log.firstBase = none → segment.baseIndex = log.firstWritable) :
    ({ base with active := some segment } : Log α σ).Aligned := by
  intro fork first found
  rw [same] at fork ⊢
  rcases first_base_cleared cleared segment with kept | ⟨none_before, new⟩
  · rw [kept] at found
    exact aligned fork first found
  · rw [new] at found
    cases found
    rw [start none_before, Log.firstWritable, firstWritableAt, if_pos fork]

theorem first_base_none (none_held : log.firstBase = none) :
    log.sealed = [] ∧ log.active = none := by
  unfold Log.firstBase at none_held
  cases sealed : log.sealed with
  | nil =>
    rw [sealed] at none_held
    exact ⟨rfl, Option.map_eq_none_iff.mp none_held⟩
  | cons head rest =>
    rw [sealed] at none_held
    cases none_held

theorem Log.Settled.activated (settled : log.Settled) (cleared : log.Cleared base)
    {fresh : Segment α σ} (opened : Log.Fresh opts parents base log.expected fresh)
    (start : segment.baseIndex = fresh.baseIndex) :
    ({ base with active := some segment } : Log α σ).Settled := by
  obtain ⟨first, dense⟩ := settled.dense
  obtain ⟨_, _, _, forkBase⟩ := dense.cleared cleared
  have numbered : segment.baseIndex = log.expected := start.trans opened.numbered
  have empty : log.firstBase = none → segment.baseIndex = log.firstWritable := by
    intro none_held
    obtain ⟨unsealed, idle⟩ := first_base_none none_held
    rw [numbered, dense.expected, if_pos]
    simp [Log.own, Log.sealedSegs, Log.activePayloads, unsealed, idle]
  have stray : base.stray = log.stray := by
    rcases cleared with ⟨_, rfl⟩ | ⟨old, active, _, rfl⟩
    · rfl
    · simp [Log.sealActive, active]
  refine ⟨dense.activated cleared numbered, ?_, settled.aligned.activated cleared forkBase empty,
    ?_⟩
  · left
    rcases settled.strays with clean | ⟨unsealed, idle, unused, held, _, at_first⟩
    · rw [stray, clean]
    · have none_held : log.own = [] := by
        simp [Log.own, Log.sealedSegs, Log.activePayloads, unsealed, idle]
      exfalso
      apply opened.vacant
      rw [dense.expected, if_pos none_held, cleared.files]
      simp [Log.files, held, at_first]
  · have locks := Log.cleared_locks cleared
    intro frozen
    rw [locks.1] at frozen
    rw [locks.2]
    exact settled.locked frozen

/-- A segment that could not be given a header is the first of an empty fork. -/
theorem stray_unopened (steady : opts.Steady) {idx : Nat} {strays : List (Segment α σ)}
    (settled : log.Settled) (dense : log.Dense first) (cleared : log.Cleared base)
    (due : idx = log.expected)
    (extra : strays = [] ∨ base.Unheaded opts parents idx ∧
      strays = [create idx opts.segmentSize]) :
    ({ base with stray := base.stray ++ strays } : Log α σ).stray = [] ∨
      ({ base with stray := base.stray ++ strays } : Log α σ).Stranded := by
  have idle := (dense.cleared cleared).2.1
  have stray : base.stray = log.stray ∧ base.firstWritable = log.firstWritable := by
    rcases cleared with ⟨_, rfl⟩ | ⟨old, active, _, rfl⟩
    · exact ⟨rfl, rfl⟩
    · simp [Log.sealActive, active, Log.firstWritable]
  rcases extra with rfl | ⟨failed, rfl⟩
  · rw [append_nil]
    rcases settled.strays with clean | ⟨unsealed, unheld, unused, held, rest⟩
    · exact .inl (stray.1.trans clean)
    · right
      rcases cleared with ⟨_, rfl⟩ | ⟨old, active, _, rfl⟩
      · exact ⟨unsealed, unheld, unused, held, rest⟩
      · rw [unheld] at active
        cases active
  · have unsealed := unheaded_fresh steady failed
    have none_held : log.own = [] := by
      rw [← (dense.cleared cleared).2.2.1]
      simp [Log.own, Log.sealedSegs, Log.activePayloads, unsealed, idle]
    have first_index : idx = log.firstWritable := by
      rw [due, dense.expected, if_pos none_held]
    rcases settled.strays with clean | ⟨_, _, unused, held, _, at_first⟩
    · right
      refine ⟨unsealed, idle, create idx opts.segmentSize, ?_, rfl, ?_⟩
      · rw [stray.1, clean]
        rfl
      · change idx = base.firstWritable
        rw [stray.2, first_index]
    · exfalso
      apply failed.vacant
      rw [first_index, cleared.files]
      simp [Log.files, held, at_first]

theorem Log.Settled.write (steady : opts.Steady) (settled : log.Settled) (idx : Nat) (payload : α) :
    (log.write opts parents idx payload).2.Settled := by
  obtain ⟨first, dense⟩ := settled.dense
  have wrote := Log.write_wrote (Prod.mk.eta.symm :
    log.write opts parents idx payload = (_, (log.write opts parents idx payload).2))
  generalize (log.write opts parents idx payload).2 = next at wrote
  generalize (log.write opts parents idx payload).1 = result at wrote
  cases wrote with
  | refused err => exact settled
  | frozen err branched =>
    refine ⟨⟨first, dense.positive, dense.ranges, dense.chain, dense.tail⟩, settled.strays,
      settled.aligned, fun _ => branched⟩
  | landed segment grown due writable active appended =>
    have same := (append_ok appended).1
    refine ⟨⟨first, dense.positive, dense.ranges, dense.chain, ?_⟩, ?_, ?_, settled.locked⟩
    · intro other held
      cases held
      rw [same]
      exact dense.tail segment active
    · left
      rcases settled.strays with clean | ⟨_, idle, _⟩
      · exact clean
      · rw [active] at idle
        cases idle
    · have firstBase : ({ log with active := some grown } : Log α σ).firstBase =
          log.firstBase := by
        simp only [Log.firstBase, active, Option.map_some, same]
      intro fork base found
      rw [firstBase] at found
      exact settled.aligned fork base found
  | unopened err cleared_log strays due cleared extra =>
    obtain ⟨clear, idle, own, forkBase⟩ := dense.cleared cleared
    have locks := Log.cleared_locks cleared
    have firstBase : cleared_log.firstBase = log.firstBase := by
      rcases cleared with ⟨_, rfl⟩ | ⟨old, active, _, rfl⟩
      · rfl
      · cases sealed : log.sealed with
        | nil => simp [Log.firstBase, Log.sealActive, active, sealed, wrapOpen]
        | cons head rest => simp [Log.firstBase, Log.sealActive, active, sealed]
    refine ⟨⟨first, clear.positive, clear.ranges, clear.chain, clear.tail⟩, ?_, ?_, ?_⟩
    · exact stray_unopened steady settled dense cleared due extra
    · intro fork base found
      change base ∈ cleared_log.firstBase at found
      rw [forkBase] at fork ⊢
      rw [firstBase] at found
      exact settled.aligned fork base found
    · intro frozen
      rw [locks.1] at frozen
      rw [locks.2]
      exact settled.locked frozen
  | oversized err cleared_log fresh due cleared opened =>
    exact settled.activated cleared (due ▸ opened) rfl
  | opened cleared_log fresh grown due writable cleared opened appended =>
    exact settled.activated cleared (due ▸ opened) (append_ok appended).1

theorem Log.Settled.truncated (settled : log.Settled) {beforeIdx : Nat}
    (keeps : (log.truncateFront beforeIdx).Aligned) :
    (log.truncateFront beforeIdx).Settled := by
  obtain ⟨first, dense⟩ := settled.dense
  refine ⟨dense.truncated beforeIdx, ?_, keeps, settled.locked⟩
  rcases settled.strays with clean | ⟨unsealed, idle, unused, held⟩
  · exact .inl clean
  · right
    refine ⟨?_, idle, unused, held⟩
    rw [Log.truncateFront, unsealed]
    rfl

end Steps

section Reopening

variable {log : Log α σ}

/-- The files of a settled handle, in order, with the index they start at. -/
theorem Log.Settled.stacked (settled : log.Settled) :
    ∃ first, log.Dense first ∧ Stacked first log.files ∧
      joined Segment.payloads log.files = log.own := by
  rcases settled.strays with clean | ⟨unsealed, idle, unused, held, empty, start⟩
  · obtain ⟨first, dense⟩ := settled.dense
    refine ⟨first, dense, ?_, ?_⟩
    · cases active : log.active with
      | none =>
        refine ⟨log.sealedSegs, none, ?_, dense.chain, fun other there => nomatch there⟩
        simp [Log.files, Log.sealedSegs, active, clean]
      | some segment =>
        have tail := dense.tail segment active
        by_cases blank : segment.payloads = []
        · refine ⟨log.sealedSegs, some segment, ?_, dense.chain, ?_⟩
          · simp [Log.files, Log.sealedSegs, active, clean]
          · intro other there
            cases there
            exact ⟨blank, tail⟩
        · refine ⟨log.sealedSegs ++ [segment], none, ?_, ?_, fun other there => nomatch there⟩
          · simp [Log.files, Log.sealedSegs, active, clean]
          · rw [consecutive_append]
            exact ⟨dense.chain, tail, blank, trivial⟩
    · rw [Log.files, clean, append_nil, joined_append, joined_active]
      rfl
  · have nothing : log.own = [] := by
      simp [Log.own, Log.sealedSegs, Log.activePayloads, unsealed, idle]
    refine ⟨log.firstWritable, ⟨Log.first_writable_pos log, ?_, ?_, ?_⟩, ?_, ?_⟩
    · intro entry there
      rw [unsealed] at there
      cases there
    · rw [Log.sealedSegs, unsealed]
      exact consecutive_nil _ _ _
    · intro segment there
      rw [idle] at there
      cases there
    · refine ⟨[], some unused, ?_, consecutive_nil _ _ _, ?_⟩
      · simp [Log.files, unsealed, idle, held]
      · intro other there
        cases there
        exact ⟨empty, by simpa using start⟩
    · simp [Log.files, unsealed, idle, held, empty, nothing]

theorem settled_first_le {first : Nat} (settled : log.Settled) (dense : log.Dense first)
    (stacked : Stacked first log.files) (fork : 0 < log.forkBase) (filed : log.files ≠ []) :
    first ≤ log.forkBase := by
  cases front : log.firstBase with
  | some base =>
    have low := settled.aligned fork base front
    rw [dense_first_base dense front] at low
    exact low
  | none =>
    obtain ⟨unsealed, idle⟩ := first_base_none front
    rcases settled.strays with clean | ⟨_, _, unused, held, empty, start⟩
    · exfalso
      apply filed
      simp [Log.files, unsealed, idle, clean]
    · obtain ⟨full, spare, shape, chain, ends⟩ := stacked
      have only : log.files = [unused] := by simp [Log.files, unsealed, idle, held]
      rw [only] at shape
      have base : log.firstWritable = log.forkBase := by
        rw [Log.firstWritable, firstWritableAt, if_pos fork]
      cases full with
      | nil =>
        cases spare with
        | none => cases shape
        | some other =>
          cases List.cons.inj shape |>.1
          have at_first := (ends unused rfl).2
          omega
      | cons head rest =>
        have same := (List.cons.inj shape).1
        exact absurd empty (same ▸ chain.2.1)

theorem Log.Settled.reopens {opts : Options α σ} (steady : opts.Steady)
    (parents : List (Log α σ)) {log : Log α σ} (settled : log.Settled) :
    log.Reopens opts parents := by
  obtain ⟨first, dense, stacked, records⟩ := settled.stacked
  have aligned : 0 < log.forkBase → log.files ≠ [] → first ≤ log.forkBase := by
    intro fork filed
    exact settled_first_le settled dense stacked fork filed
  obtain ⟨next, opened, nextDense, own, base, frozen, branched, _⟩ :=
    open_dir_dense steady stacked dense.positive aligned log.subdirs
  obtain ⟨reads, firsts, last, next_due⟩ :=
    dense.same_answers nextDense (own.trans records) base
  refine ⟨next, opened, reads, ?_, ?_, last, ?_⟩
  · intro idx
    rw [read, read, base, reads]
  · rw [firstIndex, firstIndex, firsts]
  · have locks : (next.readOnly || next.subdirs) = (log.readOnly || log.subdirs) := by
      rw [frozen, branched, Bool.or_self]
      cases kept : log.readOnly with
      | false => rfl
      | true => simp [settled.locked kept]
    rw [Log.nextIndex, Log.nextIndex, locks, next_due]

theorem reseed_only_active {opts : Options α σ} {next : Log α σ}
    (done : reseedEmptyActiveHeader opts log = .ok next) :
    next = { log with active := next.active } := by
  unfold reseedEmptyActiveHeader at done
  split at done
  · split_ifs at done
    · cases done
      rfl
    · split at done
      · cases done
      · split at done
        · cases done
        · cases done
          rfl
  · cases done
    rfl

theorem Log.Opened.settled (opened : log.Opened) : log.Settled := by
  have dense := opened.dense
  obtain ⟨opts, forkBase, files, subdirs, _, _, _, done⟩ := opened
  rw [openDir] at done
  cases loaded : loadSegments opts forkBase files subdirs with
  | error err =>
    rw [loaded] at done
    cases done
  | ok found =>
    have shape := reseed_only_active loaded
    rw [loaded] at done
    simp only at done
    cases front : found.firstBase with
    | none =>
      rw [front] at done
      cases done
      refine ⟨dense, .inl ?_, ?_, ?_⟩
      · rw [shape]
      · intro fork base there
        rw [front] at there
        cases there
      · rw [shape]
        exact id
    | some base =>
      rw [front] at done
      simp only at done
      split_ifs at done with late
      cases done
      refine ⟨dense, .inl ?_, ?_, ?_⟩
      · rw [shape]
      · intro fork other there
        rw [front] at there
        cases there
        have same : log.forkBase = forkBase := by rw [shape]
        rw [same] at fork ⊢
        by_contra above
        exact late ⟨fork, by omega⟩
      · rw [shape]
        exact id

end Reopening

/-- After every run of writes of payloads in stored form and of truncations that leave
the base of a fork in place, reopening succeeds and shows what the live handle shows. -/
theorem truncation_survives_reopen {opts : Options α σ} (steady : opts.Steady)
    (parents : List (Log α σ)) {log : Log α σ} (opened : log.Opened) (run : List (LogOp α))
    (keeps : EveryStep (LogOp.apply opts parents) (LogOp.KeepsBase opts.codec) log run) :
    (run.foldl (LogOp.apply opts parents) log).Reopens opts parents := by
  have step : ∀ (state : Log α σ) (op : LogOp α), state.Settled →
      LogOp.KeepsBase opts.codec state op → (LogOp.apply opts parents state op).Settled := by
    intro state op settled kept
    cases op with
    | write idx payload => exact settled.write steady idx payload
    | truncateFront beforeIdx => exact settled.truncated kept
  have settled := invariant_after (LogOp.apply opts parents) Log.Settled step opened.settled keeps
  exact settled.reopens steady parents

def droppingRun : List (LogOp Bytes) :=
  [.write 2 (bytes [10]), .write 3 (bytes [11]), .write 4 (bytes [12]), .truncateFront 4]

theorem truncated_fork_refused :
    let log := droppingRun.foldl (LogOp.apply LogOp.smallSegments [])
      (Log.blank 2 : Log Bytes Bytes)
    (Log.blank 2 : Log Bytes Bytes).Opened ∧ log.readOwn 4 = .ok (bytes [12]) ∧
      openDir LogOp.smallSegments log.forkBase log.files log.subdirs = .error .forkMismatch ∧
      ¬log.Reopens LogOp.smallSegments [] := by
  have refused : ∀ log : Log Bytes Bytes,
      openDir LogOp.smallSegments log.forkBase log.files log.subdirs = .error .forkMismatch →
        ¬log.Reopens LogOp.smallSegments [] := by
    rintro log failed ⟨next, opened, _⟩
    rw [failed] at opened
    cases opened
  have failed : openDir LogOp.smallSegments
      (droppingRun.foldl (LogOp.apply LogOp.smallSegments [])
        (Log.blank 2 : Log Bytes Bytes)).forkBase
      (droppingRun.foldl (LogOp.apply LogOp.smallSegments []) (Log.blank 2 : Log Bytes Bytes)).files
      (droppingRun.foldl (LogOp.apply LogOp.smallSegments [])
        (Log.blank 2 : Log Bytes Bytes)).subdirs =
        .error .forkMismatch := by
    decide +kernel
  refine ⟨?_, by decide +kernel, failed, refused _ failed⟩
  refine ⟨LogOp.smallSegments, 2, [], false, 2, by decide, ?_, rfl⟩
  exact ⟨[], none, rfl, consecutive_nil _ _ _, fun unused held => nomatch held⟩

def trimmingRun : List (LogOp Bytes) :=
  [.write 1 (bytes [10]), .write 2 (bytes [11]), .write 3 (bytes [12]), .truncateFront 3,
    .write 4 (bytes (List.replicate 20 0)), .truncateFront 9, .write 1 (bytes [13])]

theorem trimming_run_reopens :
    EveryStep (LogOp.apply LogOp.smallSegments []) (LogOp.KeepsBase binaryCodec) (Log.blank 0)
        trimmingRun ∧
      (trimmingRun.foldl (LogOp.apply LogOp.smallSegments []) (Log.blank 0)).Reopens
        LogOp.smallSegments [] := by
  have opened : (Log.blank 0 : Log Bytes Bytes).Opened := by
    refine ⟨LogOp.smallSegments, 0, [], false, 1, Nat.le_refl 1, ?_, rfl⟩
    exact ⟨[], none, rfl, consecutive_nil _ _ _, fun unused held => nomatch held⟩
  have steady : LogOp.smallSegments.Steady := by
    intro fold mode
    cases mode
  have keeps : EveryStep (LogOp.apply LogOp.smallSegments []) (LogOp.KeepsBase binaryCodec)
      (Log.blank 0) trimmingRun := by
    decide +kernel
  exact ⟨keeps, truncation_survives_reopen steady [] opened trimmingRun keeps⟩

end Figwal.Disk
