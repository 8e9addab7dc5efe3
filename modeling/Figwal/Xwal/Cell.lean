import Figwal.Lib.Branches
import Figwal.Disk.World
import Figwal.Disk.Frame
import Figwal.Log.Reading

/-!
# One channel of one node

`log.Log`: a directory on disk and, in front of it, the records that have been
acknowledged and not been written yet. Appends go to memory, `SyncThrough` moves
them to disk in order. It gives up at the first record the disk refuses, and then
leaves the whole batch in memory, so that records may be in both places.

`waiting` are the pending records that are not on disk. What a cell shows is what
its directory and the directories above it show, followed by what is waiting.
-/

namespace Figwal.Xwal

open Figwal.Lib Figwal.Disk List

set_option autoImplicit false

/-- A decoded frame. `body` stands for the payload with its meta and timestamp;
only main records carry a cursor stamp. -/
structure Record (β : Type) where
  mainLT : Nat
  body : β
  cursors : List (String × Nat)
  deriving DecidableEq, Repr

/-- A channel as the manifest and the registry describe it, with the options its
logs are opened with. `frameBytes` is the length of an encoded frame and `decodes`
says whether the decoders take it. -/
structure Channel (β σ : Type) where
  name : String
  reducer : String
  isOpaque : Bool
  unkeyed : Bool
  opts : Options (Record β) σ
  frameBytes : Record β → Nat
  decodes : Record β → Bool

variable {β σ : Type}

/-- The codec stores a record as it is, the decoders take it, and the registered reducer
does not fail. With JSON lines the bodies are then those in canonical form that nest less
deep than the decoders go. -/
structure Channel.Faithful (channel : Channel β σ) : Prop where
  keeps : ∀ record, channel.opts.codec.stored record = record
  decodes : ∀ record, channel.decodes record = true
  steady : channel.opts.Steady

def Channel.decode (channel : Channel β σ) (record : Record β) : Except Err (Record β) :=
  if channel.decodes record then .ok record else .error .codec

theorem Channel.Faithful.bind_decode {channel : Channel β σ} (faithful : channel.Faithful)
    (answer : Except Err (Record β)) : answer.bind channel.decode = answer := by
  cases answer with
  | error err => rfl
  | ok record => exact if_pos (faithful.decodes record)

def Channel.reducible (channel : Channel β σ) : Bool :=
  channel.opts.onSegmentOpen.isSome

/-- A `log.Log`: the directory, the index up to which it has been fsynced, and the
pending records with the index of the first of them. -/
structure Cell (β σ : Type) where
  handle : Handle (Record β) σ
  synced : Nat
  first : Nat
  pend : List (Record β)

namespace Cell

/-- A directory that holds nothing but, for a positive base, a fork marker. -/
def fresh (forkBase : Nat) : Cell β σ where
  handle := .closed forkBase [] false
  synced := forkBase - 1
  first := 0
  pend := []

def lastIndex (cell : Cell β σ) (log : Log (Record β) σ) : Nat :=
  if cell.pend = [] then log.lastIndex else cell.first + cell.pend.length - 1

def firstIndex (cell : Cell β σ) (logs : List (Log (Record β) σ)) : Nat :=
  if Disk.firstIndex logs ≠ 0 then Disk.firstIndex logs
  else if cell.pend = [] then 0 else cell.first

/-- `pendingView.at`. -/
def pendingAt (cell : Cell β σ) (idx : Nat) : Option (Record β) :=
  if idx < cell.first then none else cell.pend[idx - cell.first]?

def read (cell : Cell β σ) (logs : List (Log (Record β) σ)) (idx : Nat) :
    Except Err (Record β) :=
  match cell.pendingAt idx with
  | some record => .ok record
  | none => Buffered.emptyAsNotFound (Disk.read logs idx)

def scanFromEnd (cell : Cell β σ) (logs : List (Log (Record β) σ)) (last : Nat) :
    Scan (Record β) :=
  if last = 0 then ⟨[], .done⟩
  else if cell.pend = [] then Disk.scanFromEnd logs last
  else
    let newest := ((cell.pend.zipIdx cell.first).map Prod.swap).reverse
    if cell.first - 1 = 0 then ⟨newest, .done⟩
    else
      let older := Disk.scanFromEnd logs (cell.first - 1)
      ⟨newest ++ older.seen, older.outcome⟩

/-- How many pending records `SyncThrough` takes up. -/
def batch (cell : Cell β σ) (target : Nat) : Nat :=
  if cell.pend = [] ∨ target < cell.first then 0
  else min cell.pend.length (target - cell.first + 1)

/-- `SyncThrough`. Records of the batch that are on disk already are skipped. -/
def syncThrough (opts : Options (Record β) σ) (log : Log (Record β) σ)
    (parents : List (Log (Record β) σ)) (target : Nat) (cell : Cell β σ) :
    Except Err Unit × Cell β σ :=
  let count := cell.batch target
  if count = 0 then (.ok (), cell)
  else
    let durable := log.lastIndex
    match persist opts parents log (max cell.first (durable + 1))
        ((cell.pend.take count).drop (durable + 1 - cell.first)) with
    | (.error err, next) => (.error err, { cell with handle := .opened next })
    | (.ok (), next) =>
      (.ok (), {
        handle := .opened next
        synced := next.lastIndex
        first := cell.first + count
        pend := cell.pend.drop count })

/-- The target `Sync` passes on: past every pending record. -/
def allPending (cell : Cell β σ) : Nat :=
  cell.first + cell.pend.length

/-- What `Write` does before it looks at the byte bound. -/
def push (cell : Cell β σ) (idx : Nat) (record : Record β) : Cell β σ :=
  { cell with
    first := if cell.pend = [] then idx else cell.first
    pend := cell.pend ++ [record] }

/-- `Write`: the record joins the pending ones, and is synced at once with all of
them when they exceed the byte bound. -/
def write (channel : Channel β σ) (maxLag : Nat) (log : Log (Record β) σ)
    (parents : List (Log (Record β) σ)) (idx : Nat) (record : Record β) (cell : Cell β σ) :
    Except Err Unit × Cell β σ :=
  if log.readOnly then (.error .readOnly, cell)
  else if idx ≠ cell.lastIndex log + 1 then (.error .outOfOrder, cell)
  else
    let pushed := cell.push idx record
    if maxLag < Buffered.totalSize channel.frameBytes pushed.pend then
      pushed.syncThrough channel.opts log parents idx
    else (.ok (), pushed)

/-- `coherentTarget`: the highest pending index whose record is keyed at or below
`limit`. A record above it that does not decode is an error. -/
def coherentTarget (channel : Channel β σ) (cell : Cell β σ) (limit : Nat) : Except Err Nat :=
  match lastMatch (fun record => !channel.decodes record || record.mainLT ≤ limit) cell.first
      cell.pend with
  | some (record, idx) => (channel.decode record).map fun _ => idx
  | none => .ok 0

def close (cell : Cell β σ) : Cell β σ :=
  { handle := cell.handle.close, synced := cell.synced, first := 0, pend := [] }

/-!
## The buffered log of a cell
-/

section Buffer

variable (size : Record β → Nat) (cell : Cell β σ) (log : Log (Record β) σ)

def buffer : Buffered.Buffer (Record β) σ where
  inner := log
  first := cell.first
  entries := cell.pend
  pendingBytes := Buffered.totalSize size cell.pend

/-- A call on a cell answers, and leaves, what the call on its buffered log does. -/
def Mirrors (done : Except Err Unit × Cell β σ)
    (called : Except Err Unit × Buffered.Buffer (Record β) σ) : Prop :=
  done.1 = called.1 ∧ done.2.buffer size called.2.inner = called.2 ∧
    (done.2.handle = cell.handle ∧ called.2.inner = log ∨ done.2.handle = .opened called.2.inner)

theorem read_mirrors (parents : List (Log (Record β) σ)) (idx : Nat) :
    cell.read (log :: parents) idx = (cell.buffer size log).read parents idx := by
  have pending : (cell.buffer size log).pendingAt idx = cell.pendingAt idx := rfl
  rw [read, Buffered.Buffer.read, pending]
  cases cell.pendingAt idx <;> rfl

theorem sync_through_mirrors (opts : Options (Record β) σ) (parents : List (Log (Record β) σ))
    (target : Nat) : cell.Mirrors size log (cell.syncThrough opts log parents target)
      ((cell.buffer size log).syncThrough opts parents size target none) := by
  have batch : (cell.buffer size log).batch target = cell.batch target := rfl
  have due : (cell.buffer size log).due (cell.batch target) =
      (cell.pend.take (cell.batch target)).drop (log.lastIndex + 1 - cell.first) := rfl
  have bytes := Buffered.total_size_split size (cell.batch target) cell.pend
  have left : (Buffered.totalSize size (cell.pend.drop (cell.batch target)) : Int) =
      Buffered.totalSize size cell.pend -
        Buffered.totalSize size (cell.pend.take (cell.batch target)) := by
    omega
  rw [syncThrough, Buffered.Buffer.syncThrough, batch]
  split_ifs
  · exact ⟨rfl, rfl, Or.inl ⟨rfl, rfl⟩⟩
  · simp only [due, Buffered.Buffer.tried, show (cell.buffer size log).inner = log from rfl,
      show (cell.buffer size log).first = cell.first from rfl]
    cases persist opts parents log (max cell.first (log.lastIndex + 1))
        ((cell.pend.take (cell.batch target)).drop (log.lastIndex + 1 - cell.first)) with
    | mk answer grown =>
      cases answer with
      | error err => exact ⟨rfl, rfl, Or.inr rfl⟩
      | ok _ =>
        refine ⟨rfl, ?_, Or.inr rfl⟩
        simp only [buffer, left]
        rfl

theorem write_mirrors (channel : Channel β σ) (parents : List (Log (Record β) σ))
    (maxLag idx : Nat) (record : Record β) :
    cell.Mirrors channel.frameBytes log (cell.write channel maxLag log parents idx record)
      ((cell.buffer channel.frameBytes log).write channel.opts parents channel.frameBytes maxLag
        idx record none) := by
  have bytes : (Buffered.totalSize channel.frameBytes (cell.pend ++ [record]) : Int) =
      Buffered.totalSize channel.frameBytes cell.pend + channel.frameBytes record := by
    rw [Buffered.total_size_append]
    simp [Buffered.totalSize]
  have pushed : (cell.buffer channel.frameBytes log).push channel.frameBytes idx record =
      (cell.push idx record).buffer channel.frameBytes log := by
    simp only [buffer, Cell.push, bytes]
    rfl
  have synced := sync_through_mirrors channel.frameBytes (cell.push idx record) log channel.opts
    parents idx
  have last : (cell.buffer channel.frameBytes log).lastIndex = cell.lastIndex log := rfl
  rw [write, Buffered.Buffer.write, pushed, last, show (cell.buffer _ log).inner = log from rfl]
  by_cases locked : log.readOnly = true
  · rw [if_pos locked, if_pos locked]
    exact ⟨rfl, rfl, Or.inl ⟨rfl, rfl⟩⟩
  · rw [if_neg locked, if_neg locked]
    by_cases order : idx = cell.lastIndex log + 1
    · rw [if_neg (not_not.mpr order), if_neg (not_not.mpr order)]
      by_cases exceeds :
          maxLag < Buffered.totalSize channel.frameBytes (cell.push idx record).pend
      · simp only [if_pos exceeds, buffer, Int.ofNat_lt]
        exact synced
      · simp only [if_neg exceeds, buffer, Int.ofNat_lt]
        exact ⟨rfl, rfl, Or.inl ⟨rfl, rfl⟩⟩
    · rw [if_pos order, if_pos order]
      exact ⟨rfl, rfl, Or.inl ⟨rfl, rfl⟩⟩

end Buffer

/-!
## What a cell stands for
-/

def base (cell : Cell β σ) : Nat :=
  firstWritableAt cell.handle.forkBase

def waiting (cell : Cell β σ) : List (Record β) :=
  cell.pend.drop (cell.base + cell.handle.records.length - cell.first)

def branch (cell : Cell β σ) : Branch (Record β) where
  base := cell.base
  own := cell.handle.records
  pend := cell.waiting

/-- The directory can be used, and a record that is pending and on disk is the same
in both places. -/
structure Sound (cell : Cell β σ) : Prop where
  usable : cell.handle.Sound
  starts : cell.pend ≠ [] → cell.base ≤ cell.first ∧
    cell.first ≤ cell.base + cell.handle.records.length
  overlap : cell.pend ≠ [] →
    cell.handle.records.drop (cell.first - cell.base) <+: cell.pend

structure Opens (opts : Options (Record β) σ) (cell : Cell β σ) (log : Log (Record β) σ) :
    Prop where
  usable : cell.handle.log opts = .ok log
  tidy : log.Tidy
  own : log.own = cell.handle.records
  forkBase : log.forkBase = cell.handle.forkBase

theorem Sound.opens {opts : Options (Record β) σ} (steady : opts.Steady) {cell : Cell β σ}
    (sound : cell.Sound) : ∃ log, cell.Opens opts log := by
  rcases sound.usable.log steady with ⟨log, opened, tidy, own, forkBase, _⟩
  exact ⟨log, opened, tidy, own, forkBase⟩

theorem base_pos (cell : Cell β σ) : 1 ≤ cell.base := by
  unfold base firstWritableAt
  split_ifs <;> omega

section Opened

variable {opts : Options (Record β) σ} {cell : Cell β σ} {log : Log (Record β) σ}
  {next : Cell β σ} {result : Except Err Unit} {written : List (Record β)}

theorem Opens.first_writable (opens : cell.Opens opts log) : log.firstWritable = cell.base := by
  rw [Log.firstWritable, opens.forkBase, base]

theorem Opens.last_index (opens : cell.Opens opts log) :
    log.lastIndex + 1 = cell.base + cell.handle.records.length := by
  have last := Log.last_index_eq opens.tidy.numbered
  rw [opens.first_writable, opens.own] at last
  exact last

theorem opened_branch {next : Log (Record β) σ} (tidy : next.Tidy)
    (forkBase : next.forkBase = cell.handle.forkBase)
    (own : next.own = cell.handle.records ++ written) (synced first : Nat)
    (pend : List (Record β)) :
    (⟨.opened next, synced, first, pend⟩ : Cell β σ).base = cell.base ∧
      (⟨.opened next, synced, first, pend⟩ : Cell β σ).handle.records =
        cell.handle.records ++ written := by
  refine ⟨?_, ?_⟩
  · have same : (Handle.opened next).forkBase = cell.handle.forkBase := forkBase
    rw [base, base, same]
  · rw [← own]
    exact Handle.records_opened tidy

/-!
## Moving records to disk
-/

variable {parents : List (Log (Record β) σ)}

theorem batch_spec (cell : Cell β σ) (target : Nat) :
    cell.batch target = 0 ∧ (cell.pend = [] ∨ target < cell.first) ∨
      cell.pend ≠ [] ∧ cell.first ≤ target ∧
        cell.batch target = min cell.pend.length (target - cell.first + 1) := by
  unfold batch
  split_ifs with idle
  · exact Or.inl ⟨rfl, idle⟩
  · rw [not_or, Nat.not_lt] at idle
    exact Or.inr ⟨idle.1, idle.2, rfl⟩

theorem waiting_of_idle (idle : cell.pend = []) : cell.waiting = [] := by
  rw [waiting, idle, drop_nil]

theorem Sound.pend_eq (sound : cell.Sound) (busy : cell.pend ≠ []) :
    cell.pend = cell.handle.records.drop (cell.first - cell.base) ++ cell.waiting := by
  rcases sound.starts busy with ⟨low, high⟩
  rcases sound.overlap busy with ⟨rest, split⟩
  have length : (cell.handle.records.drop (cell.first - cell.base)).length =
      cell.base + cell.handle.records.length - cell.first := by
    rw [length_drop]
    omega
  have left : cell.waiting = rest := by
    rw [waiting, ← split, ← length, drop_left]
  rw [left, split]

/-- The records written so far are pending still, after those that were on disk. -/
theorem Sound.overlap_written (sound : cell.Sound) (busy : cell.pend ≠ [])
    {rest : List (Record β)} (waits : cell.waiting = written ++ rest) :
    (cell.handle.records ++ written).drop (cell.first - cell.base) <+: cell.pend := by
  rcases sound.starts busy with ⟨low, high⟩
  rw [sound.pend_eq busy, waits, drop_append_of_le_length (by omega), ← append_assoc]
  exact List.prefix_append _ _

/-- A sync that has written some of what is waiting, whether it has trimmed the
pending records or not. -/
theorem synced_spec (sound : cell.Sound) (busy : cell.pend ≠ []) {grown : Log (Record β) σ}
    (tidy : grown.Tidy) (forkBase : grown.forkBase = cell.handle.forkBase) {rest : List (Record β)}
    (own : grown.own = cell.handle.records ++ written) (waits : cell.waiting = written ++ rest)
    (synced trimmed : Nat)
    (most : cell.first + trimmed ≤ cell.base + cell.handle.records.length + written.length)
    (shape : next = ⟨.opened grown, synced, cell.first + trimmed, cell.pend.drop trimmed⟩) :
    next.Sound ∧ next.branch = ⟨cell.base, cell.handle.records ++ written, rest⟩ := by
  rcases sound.starts busy with ⟨low, high⟩
  rcases opened_branch tidy forkBase own synced (cell.first + trimmed)
    (cell.pend.drop trimmed) with ⟨base, records⟩
  rw [← shape] at base records
  have first : next.first = cell.first + trimmed := by rw [shape]
  have pend : next.pend = cell.pend.drop trimmed := by rw [shape]
  have left : next.waiting = rest := by
    have place : trimmed + (cell.base + (cell.handle.records.length + written.length) -
        (cell.first + trimmed)) =
        cell.base + cell.handle.records.length - cell.first + written.length := by omega
    rw [waiting, base, records, first, pend, length_append, drop_drop, place,
      ← drop_drop, ← waiting, waits, drop_left]
  refine ⟨⟨?_, ?_, ?_⟩, ?_⟩
  · rw [shape]
    exact tidy
  · intro _
    rw [base, records, first, length_append]
    omega
  · intro _
    have more : cell.first + trimmed - cell.base = cell.first - cell.base + trimmed := by omega
    rw [base, records, first, pend, more, ← drop_drop]
    have cut : ∀ {head tail : List (Record β)},
        head.drop trimmed <+: (head ++ tail).drop trimmed := by
      intro head tail
      rw [drop_append]
      exact List.prefix_append _ _
    rcases sound.overlap_written busy waits with ⟨later, whole⟩
    rw [← whole]
    exact cut
  · rw [branch, base, records, left]

theorem sync_through_cases (sound : cell.Sound) (opens : cell.Opens opts log) (target : Nat)
    (done : cell.syncThrough opts log parents target = (result, next)) :
    result = .ok () ∧ next = cell ∧ (cell.pend = [] ∨ target < cell.first) ∨
      cell.pend ≠ [] ∧ cell.first ≤ target ∧ ∃ grown synced trimmed,
        persist opts parents log (cell.base + cell.handle.records.length)
          (cell.waiting.take (cell.batch target -
            (cell.base + cell.handle.records.length - cell.first))) = (result, grown) ∧
        next = ⟨.opened grown, synced, cell.first + trimmed, cell.pend.drop trimmed⟩ ∧
        (trimmed = 0 ∧ result ≠ .ok () ∨ trimmed = cell.batch target ∧ result = .ok ()) := by
  have durable := opens.last_index
  unfold syncThrough at done
  rcases batch_spec cell target with ⟨none, why⟩ | ⟨busy, reach, count⟩
  · simp only [none, if_true] at done
    cases done
    exact Or.inl ⟨rfl, rfl, why⟩
  · have high := (sound.starts busy).2
    have pending : 0 < cell.pend.length := length_pos_iff.mpr busy
    have place : max cell.first (log.lastIndex + 1) =
        cell.base + cell.handle.records.length := by omega
    have tried : (cell.pend.take (cell.batch target)).drop (log.lastIndex + 1 - cell.first) =
        cell.waiting.take (cell.batch target -
          (cell.base + cell.handle.records.length - cell.first)) := by
      rw [durable, waiting, drop_take]
    rw [if_neg (by omega)] at done
    simp only [place, tried] at done
    refine Or.inr ⟨busy, reach, ?_⟩
    cases wrote : persist opts parents log (cell.base + cell.handle.records.length)
        (cell.waiting.take (cell.batch target -
          (cell.base + cell.handle.records.length - cell.first))) with
    | mk answer grown =>
      rw [wrote] at done
      cases answer with
      | error err =>
        cases done
        exact ⟨grown, cell.synced, 0, rfl, rfl, Or.inl ⟨rfl, nofun⟩⟩
      | ok _ =>
        cases done
        exact ⟨grown, grown.lastIndex, cell.batch target, rfl, rfl, Or.inr ⟨rfl, rfl⟩⟩

/-- Syncing moves records that were waiting to disk, and if it succeeds, all that
the target covers. -/
theorem sync_through_spec (exact : ∀ record, opts.codec.stored record = record)
    (sound : cell.Sound) (opens : cell.Opens opts log) (target : Nat)
    (done : cell.syncThrough opts log parents target = (result, next)) :
    next.Sound ∧ Settles cell.branch next.branch ∧
      (∃ grown, next.Opens opts grown ∧ log.Grew grown) ∧
      (result = .ok () → next.waiting =
        cell.waiting.drop (target + 1 - (cell.base + cell.handle.records.length))) := by
  rcases sync_through_cases sound opens target done with
    ⟨_, rfl, why⟩ | ⟨busy, reach, grown, synced, trimmed, wrote, shape, outcome⟩
  · refine ⟨sound, Settles.refl _, ⟨log, opens, Log.Grew.refl _⟩, fun _ => ?_⟩
    by_cases idle : next.pend = []
    · rw [waiting_of_idle idle, drop_nil]
    · have starts := (sound.starts idle).2
      have below := why.resolve_left idle
      have early : target + 1 - (next.base + next.handle.records.length) = 0 := by omega
      rw [early, drop_zero]
  · rcases sound.starts busy with ⟨low, high⟩
    have pending : 0 < cell.pend.length := length_pos_iff.mpr busy
    have due : cell.base + cell.handle.records.length =
        log.firstWritable + log.own.length := by
      rw [opens.first_writable, opens.own]
    rcases persist_spec exact opens.tidy _ due wrote with
      ⟨tidy, grew, written, rest, split, own, all⟩
    rw [opens.own] at own
    have forkBase := grew.base.trans opens.forkBase
    have waits : cell.waiting = written ++ (rest ++ cell.waiting.drop (cell.batch target -
        (cell.base + cell.handle.records.length - cell.first))) := by
      rw [← append_assoc, ← split, take_append_drop]
    have count : cell.batch target = min cell.pend.length (target - cell.first + 1) := by
      rcases batch_spec cell target with ⟨none, idle | below⟩ | ⟨_, _, count⟩
      · exact absurd idle busy
      · omega
      · exact count
    have left : cell.waiting.length =
        cell.pend.length - (cell.base + cell.handle.records.length - cell.first) := by
      rw [waiting, length_drop]
    have lengths := congrArg List.length split
    rw [length_take, length_append] at lengths
    have most : cell.first + trimmed ≤
        cell.base + cell.handle.records.length + written.length := by
      rcases outcome with ⟨none, _⟩ | ⟨some, fine⟩
      · omega
      · have whole := congrArg List.length (all fine)
        rw [length_nil] at whole
        omega
    rcases synced_spec sound busy tidy forkBase own waits synced trimmed most shape with
      ⟨kept, parts⟩
    have settles : Settles cell.branch next.branch := by
      rw [parts]
      exact ⟨rfl, written, rfl, waits⟩
    refine ⟨kept, settles, ⟨grown, ⟨?_, tidy, ?_, ?_⟩, grew⟩, fun fine => ?_⟩
    · rw [shape]
      rfl
    · rw [shape]
      exact (Handle.records_opened tidy).symm
    · rw [shape]
      rfl
    · have whole := all fine
      rw [whole, length_nil] at lengths
      refine (congrArg Branch.pend parts).trans ?_
      rw [whole, nil_append]
      by_cases short : target - cell.first + 1 ≤ cell.pend.length
      · have same : cell.batch target -
            (cell.base + cell.handle.records.length - cell.first) =
            target + 1 - (cell.base + cell.handle.records.length) := by omega
        rw [same]
      · rw [drop_of_length_le (by omega), drop_of_length_le (by omega)]

/-!
## What a reader sees
-/

theorem Opens.visible_length (opens : cell.Opens opts log) (chained : Chained (log :: parents)) :
    (visible (log :: parents)).length + 1 = cell.base + cell.handle.records.length := by
  rw [Disk.visible_length chained, opens.first_writable, opens.own]

section

variable (sound : cell.Sound) (opens : cell.Opens opts log) (chained : Chained (log :: parents))

include sound opens chained

theorem Sound.shown_eq (busy : cell.pend ≠ []) :
    visible (log :: parents) ++ cell.waiting =
      (visible (log :: parents)).take (cell.first - 1) ++ cell.pend := by
  rcases sound.starts busy with ⟨low, high⟩
  have positive := cell.base_pos
  have fits := chained.2.1
  rw [opens.first_writable] at fits
  rw [visible, opens.first_writable, opens.own, take_splice_above positive (by omega) fits, splice,
    splice, sound.pend_eq busy, append_assoc, append_assoc, ← append_assoc
      (cell.handle.records.take _)]
  have place : cell.first - 1 + 1 - cell.base = cell.first - cell.base := by omega
  rw [place, take_append_drop]

/-- The buffered log of a cell stands for what the cell shows. -/
theorem Sound.tracks (size : Record β → Nat) :
    Buffered.Tracks id size parents (cell.buffer size log)
      (visible (log :: parents) ++ cell.waiting) where
  chained := chained
  onDisk := by
    rw [map_id]
    exact List.prefix_append _ _
  full idle := by rw [waiting_of_idle idle, append_nil]; rfl
  starts busy := by
    have length := opens.visible_length chained
    have positive := cell.base_pos
    rcases sound.starts busy with ⟨low, high⟩
    exact ⟨Nat.le_trans positive low, Nat.le_trans high (Nat.le_of_eq length.symm)⟩
  pending busy := by
    have length := opens.visible_length chained
    rcases sound.starts busy with ⟨low, high⟩
    have short : ((visible (log :: parents)).take (cell.first - 1)).length = cell.first - 1 := by
      rw [length_take]
      omega
    have cut := congrArg (List.drop (cell.first - 1)) (sound.shown_eq opens chained busy)
    exact cut.trans (drop_left' short)
  bytes := rfl

theorem Sound.last_index :
    cell.lastIndex log = (visible (log :: parents) ++ cell.waiting).length :=
  (sound.tracks opens chained fun _ => 0).last_index

theorem Sound.read_ok_iff (idx : Nat) (record : Record β) :
    cell.read (log :: parents) idx = .ok record ↔
      1 ≤ idx ∧ (visible (log :: parents) ++ cell.waiting)[idx - 1]? = some record := by
  rw [cell.read_mirrors (fun _ => 0) log]
  exact (sound.tracks opens chained _).read_ok_iff idx record

theorem Sound.first_index :
    cell.firstIndex (log :: parents) ≤ 1 ∧
      (visible (log :: parents) ++ cell.waiting ≠ [] → cell.firstIndex (log :: parents) = 1) := by
  have length := opens.visible_length chained
  have positive := cell.base_pos
  rcases first_index_visible chained with ⟨low, shown⟩
  unfold firstIndex
  by_cases listed : Disk.firstIndex (log :: parents) ≠ 0
  · rw [if_pos listed]
    exact ⟨low, fun _ => by omega⟩
  · have none : visible (log :: parents) = [] := by
      by_contra some
      have one := shown some
      omega
    rw [if_neg listed, none, nil_append]
    rw [none, length_nil] at length
    by_cases idle : cell.pend = []
    · rw [if_pos idle, waiting_of_idle idle]
      exact ⟨Nat.zero_le _, fun some => absurd rfl some⟩
    · rcases sound.starts idle with ⟨first, high⟩
      rw [if_neg idle]
      exact ⟨by omega, fun _ => by omega⟩

theorem Sound.scan_from_end :
    cell.scanFromEnd (log :: parents) (cell.lastIndex log) =
      ⟨((((visible (log :: parents) ++ cell.waiting).zipIdx 1).map Prod.swap).reverse), .done⟩ := by
  have last := sound.last_index opens chained
  have length := opens.visible_length chained
  have positive := cell.base_pos
  unfold scanFromEnd
  by_cases empty : cell.lastIndex log = 0
  · rw [if_pos empty]
    have none := length_eq_zero_iff.mp (last.symm.trans empty)
    rw [none]
    rfl
  · rw [if_neg empty]
    by_cases idle : cell.pend = []
    · rw [waiting_of_idle idle, append_nil] at last ⊢
      rw [if_pos idle, scan_from_end_visible chained, backlog, last, take_length]
    · rcases sound.starts idle with ⟨low, high⟩
      have short : ((visible (log :: parents)).take (cell.first - 1)).length = cell.first - 1 := by
        rw [length_take]
        omega
      rw [if_neg idle, sound.shown_eq opens chained idle, zipIdx_append, map_append,
        reverse_append, short]
      have place : 1 + (cell.first - 1) = cell.first := by omega
      rw [place]
      split_ifs with bottom
      · rw [bottom, take_zero]
        simp
      · rw [scan_from_end_visible chained, backlog]

end

/-!
## Appending
-/

theorem Sound.push (sound : cell.Sound) (opens : cell.Opens opts log) {idx : Nat}
    (due : idx = cell.lastIndex log + 1) (record : Record β) :
    (cell.push idx record).Sound ∧
      (cell.push idx record).branch =
        ⟨cell.base, cell.handle.records, cell.waiting ++ [record]⟩ := by
  have last := opens.last_index
  by_cases idle : cell.pend = []
  · have place : idx = cell.base + cell.handle.records.length := by
      rw [due, lastIndex, if_pos idle, last]
    have first : (cell.push idx record).first = idx := if_pos idle
    have pend : (cell.push idx record).pend = [record] := by
      rw [Cell.push, idle]
      rfl
    refine ⟨⟨sound.usable, fun _ => ?_, fun _ => ?_⟩, ?_⟩
    · have base : (cell.push idx record).base = cell.base := rfl
      have same : (cell.push idx record).handle = cell.handle := rfl
      rw [first, base, same]
      omega
    · have none : cell.handle.records.drop (idx - cell.base) = [] :=
        drop_of_length_le (by omega)
      rw [first]
      exact none ▸ List.nil_prefix
    · have left : (cell.push idx record).waiting = [record] := by
        have zero : cell.base + cell.handle.records.length - idx = 0 := by omega
        rw [waiting, pend, first]
        exact congrArg (fun count => List.drop count [record]) zero
      rw [waiting_of_idle idle]
      exact congrArg (Branch.mk cell.base cell.handle.records) left
  · have first : (cell.push idx record).first = cell.first := if_neg idle
    rcases sound.starts idle with ⟨low, high⟩
    refine ⟨⟨sound.usable, fun _ => ?_, fun _ => ?_⟩, ?_⟩
    · rw [first]
      exact ⟨low, high⟩
    · rw [first]
      exact (sound.overlap idle).trans (List.prefix_append _ _)
    · have reach : cell.base + cell.handle.records.length - cell.first ≤ cell.pend.length := by
        have lengths := congrArg List.length (sound.pend_eq idle)
        rw [length_append, length_drop] at lengths
        omega
      have left : (cell.push idx record).waiting = cell.waiting ++ [record] := by
        rw [waiting, first]
        exact drop_append_of_le_length reach
      exact congrArg (Branch.mk cell.base cell.handle.records) left

/-- An append that gets past its checks puts the record last, and may then move
records to disk. -/
theorem write_spec {channel : Channel β σ} (faithful : channel.Faithful) (sound : cell.Sound)
    (opens : cell.Opens channel.opts log) (maxLag idx : Nat) (record : Record β)
    (done : cell.write channel maxLag log parents idx record = (result, next)) :
    (∃ err, result = .error err ∧ next = cell) ∨
      idx = cell.lastIndex log + 1 ∧ next.Sound ∧
        next.handle.forkBase = cell.handle.forkBase ∧
        Settles ⟨cell.base, cell.handle.records, cell.waiting ++ [record]⟩ next.branch := by
  unfold write at done
  by_cases locked : log.readOnly = true
  · rw [if_pos locked] at done
    cases done
    exact Or.inl ⟨_, rfl, rfl⟩
  · rw [if_neg locked] at done
    by_cases order : idx = cell.lastIndex log + 1
    · rcases sound.push opens order record with ⟨pushed, shape⟩
      rw [if_neg (not_not.mpr order)] at done
      rw [← shape]
      refine Or.inr ⟨order, ?_⟩
      simp only at done
      split_ifs at done
      · rcases sync_through_spec faithful.keeps pushed
          ⟨opens.usable, opens.tidy, opens.own, opens.forkBase⟩ idx done with
          ⟨kept, settles, ⟨grown, after, grew⟩, _⟩
        exact ⟨kept, after.forkBase.symm.trans (grew.base.trans opens.forkBase), settles⟩
      · cases done
        exact ⟨pushed, rfl, Settles.refl _⟩
    · rw [if_pos order] at done
      cases done
      exact Or.inl ⟨_, rfl, rfl⟩

/-!
## Coherent targets and flushes that succeed
-/

/-- Past the coherent target, everything waiting is keyed above the limit. -/
theorem Sound.coherent_target {channel : Channel β σ} (faithful : channel.Faithful)
    (sound : cell.Sound) (limit : Nat) :
    ∃ target, cell.coherentTarget channel limit = .ok target ∧
      ∀ record ∈ cell.waiting.drop (target + 1 - (cell.base + cell.handle.records.length)),
        limit < record.mainLT := by
  have keyed : (fun record : Record β => !channel.decodes record || decide
      (record.mainLT ≤ limit)) =
      fun record => decide (record.mainLT ≤ limit) := by
    funext record
    rw [faithful.decodes record]
    rfl
  rw [coherentTarget, keyed]
  cases found : lastMatch (fun record : Record β => decide (record.mainLT ≤ limit)) cell.first
      cell.pend with
  | none =>
    refine ⟨0, rfl, fun record member => ?_⟩
    rw [waiting, drop_drop] at member
    have above := last_match_none found record (mem_of_mem_drop member)
    simpa using above
  | some last =>
    obtain ⟨newest, idx⟩ := last
    refine ⟨idx, ?_, fun record member => ?_⟩
    · change (channel.decode newest).map (fun _ => idx) = .ok idx
      rw [Channel.decode, if_pos (faithful.decodes newest)]
      rfl
    · rcases last_match_some found with ⟨before, after, split, place, _, above⟩
      have busy : cell.pend ≠ [] := by
        rw [split]
        exact append_ne_nil_of_right_ne_nil _ (cons_ne_nil _ _)
      rcases sound.starts busy with ⟨low, high⟩
      rw [waiting, drop_drop] at member
      have inside : record ∈ after := by
        have reach : before.length + 1 ≤ cell.base + cell.handle.records.length - cell.first +
            (idx + 1 - (cell.base + cell.handle.records.length)) := by omega
        have tail : cell.pend.drop (before.length + 1) = after := by
          rw [split, ← drop_drop, drop_left]
          rfl
        rw [← Nat.add_sub_of_le reach, ← drop_drop, tail] at member
        exact mem_of_mem_drop member
      simpa using above record inside

def Flushes (opts : Options (Record β) σ) (log : Log (Record β) σ)
    (parents : List (Log (Record β) σ)) (cell : Cell β σ) : Prop :=
  (persist opts parents log (cell.base + cell.handle.records.length) cell.waiting).1 = .ok ()

/-- If everything waiting can be written, every sync succeeds and what it leaves can
still be written. -/
theorem Flushes.sync_through (flushes : cell.Flushes opts log parents)
    (exact : ∀ record, opts.codec.stored record = record) (sound : cell.Sound)
    (opens : cell.Opens opts log) (target : Nat)
    (done : cell.syncThrough opts log parents target = (result, next)) :
    result = .ok () ∧ ∀ grown, next.Opens opts grown → next.Flushes opts grown parents := by
  rcases sync_through_cases sound opens target done with
    ⟨fine, rfl, _⟩ | ⟨busy, _, grown, synced, trimmed, wrote, shape, _⟩
  · refine ⟨fine, fun other also => ?_⟩
    have same := opens.usable.symm.trans also.usable
    cases same
    exact flushes
  · have due : cell.base + cell.handle.records.length =
        log.firstWritable + log.own.length := by
      rw [opens.first_writable, opens.own]
    rw [Flushes, ← take_append_drop (cell.batch target -
      (cell.base + cell.handle.records.length - cell.first)) cell.waiting, persist_append,
      wrote] at flushes
    have fine : result = .ok () := by
      cases result with
      | error err => cases flushes
      | ok _ => rfl
    subst fine
    refine ⟨rfl, fun other also => ?_⟩
    have same : other = grown := by
      have usable := also.usable
      rw [shape] at usable
      cases usable
      rfl
    subst same
    rcases persist_spec exact opens.tidy _ due wrote with ⟨_, _, written, rest, split, own, all⟩
    rcases sync_through_spec exact sound opens target done with ⟨_, settles, _⟩
    rcases settles.moved with ⟨moved, grew, waits⟩
    have records : next.handle.records = cell.handle.records ++ written := by
      rw [← also.own, own, opens.own]
    have base : next.base = cell.base := settles.base
    have same : moved = written := append_cancel_left (grew.symm.trans records)
    rw [all rfl, append_nil] at split
    have left : cell.waiting.drop (cell.batch target -
        (cell.base + cell.handle.records.length - cell.first)) = next.waiting := by
      have halves := take_append_drop (cell.batch target -
        (cell.base + cell.handle.records.length - cell.first)) cell.waiting
      rw [split] at halves
      have whole : cell.waiting = written ++ next.waiting := by
        rw [← same]
        exact waits
      exact append_cancel_left (halves.trans whole)
    rw [split, left] at flushes
    rw [Flushes, base, records, length_append, ← Nat.add_assoc]
    exact flushes

theorem Sound.close (sound : cell.Sound) :
    cell.close.Sound ∧ cell.close.branch = ⟨cell.base, cell.handle.records, []⟩ := by
  refine ⟨⟨sound.usable.close, fun busy => absurd rfl busy, fun busy => absurd rfl busy⟩, ?_⟩
  rw [branch, waiting_of_idle rfl]
  rfl

end Opened

end Cell

end Figwal.Xwal
