import Figwal.Disk.Room
import Figwal.Log.Runs

/-!
# Acknowledged records can be flushed

`Write` acknowledges a record after a look at its index and at a cached flag. Whether the
disk takes it shows at the next sync. If every record that is acknowledged has room on the
disk behind those that wait before it, and the directory becomes a branch point only when
nothing waits, then a sync over a working disk succeeds at any time, and every
acknowledged record is there when the log is opened again.
-/

namespace Figwal.Buffered

open Figwal.Lib Figwal.Disk List

set_option autoImplicit false

variable {α σ : Type}

/-- What happens to a log. `branch` is a child that another handle of the directory forks
off at the tail. -/
inductive HandleOp (α : Type) where
  | write (idx : Nat) (payload : α) (fault : Option Nat)
  | syncThrough (target : Nat) (fault : Option Nat)
  | sync (fault : Option Nat)
  | branch

structure Journal (α σ : Type) where
  buffer : Buffer α σ
  acknowledged : List (Nat × α)

def Journal.opened (inner : Log α σ) : Journal α σ where
  buffer := Buffer.opened inner
  acknowledged := []

def Journal.step (setup : Setup α σ) (journal : Journal α σ) : HandleOp α → Journal α σ
  | .write idx payload fault =>
    let done := journal.buffer.write setup.opts setup.parents setup.size setup.maxLag idx payload
      fault
    { buffer := done.2
      acknowledged := match done.1 with
        | .ok () => journal.acknowledged ++ [(idx, payload)]
        | .error _ => journal.acknowledged }
  | .syncThrough target fault =>
    { journal with
      buffer := (journal.buffer.syncThrough setup.opts setup.parents setup.size target fault).2 }
  | .sync fault =>
    { journal with
      buffer := (journal.buffer.sync setup.opts setup.parents setup.size fault).2 }
  | .branch =>
    { journal with
      buffer := { journal.buffer with inner := { journal.buffer.inner with subdirs := true } } }

def Buffer.behind (setup : Setup α σ) (buffer : Buffer α σ) : Log α σ :=
  (persist setup.opts setup.parents buffer.inner (buffer.inner.lastIndex + 1) buffer.waiting).2

/-- A write that is about to be acknowledged has room, and is not made in a branch point.
The directory becomes one only when nothing is waiting. -/
def Admits (setup : Setup α σ) (journal : Journal α σ) : HandleOp α → Prop
  | .write idx payload _ =>
    journal.buffer.inner.readOnly = false → idx = journal.buffer.lastIndex + 1 →
      journal.buffer.inner.subdirs = false ∧
        (journal.buffer.behind setup).Fits setup.opts setup.parents payload
  | .branch => journal.buffer.waiting.length = 0
  | _ => True

instance (setup : Setup α σ) (journal : Journal α σ) (op : HandleOp α) :
    Decidable (Admits setup journal op) := by
  cases op <;> unfold Admits <;> infer_instance

/-- A sync over a working disk succeeds, and every acknowledged record is read from disk
once the log is opened again. -/
def Flushes (setup : Setup α σ) (journal : Journal α σ) : Prop :=
  let done := journal.buffer.sync setup.opts setup.parents setup.size none
  done.1 = .ok () ∧ ∃ reopened, openDir setup.opts done.2.inner.forkBase done.2.inner.files
      done.2.inner.subdirs = .ok reopened ∧
    ∀ idx payload, (idx, payload) ∈ journal.acknowledged →
      Disk.read (reopened :: setup.parents) idx = .ok (setup.opts.codec.stored payload)

structure Flushable (setup : Setup α σ) (buffer : Buffer α σ) (items : List α) : Prop where
  tracks : Tracks setup.opts.codec.stored setup.size setup.parents buffer items
  intact : buffer.inner.Intact setup.opts
  accepted : (persist setup.opts setup.parents buffer.inner (buffer.inner.lastIndex + 1)
    buffer.waiting).1 = .ok ()

section Steps

variable {setup : Setup α σ} {buffer next : Buffer α σ} {items : List α}
  {result : Except Err Unit} {fault : Option Nat}

theorem Tracks.waiting_eq
    (tracks : Tracks setup.opts.codec.stored setup.size setup.parents buffer items) :
    buffer.waiting = items.drop (visible (buffer.inner :: setup.parents)).length := by
  by_cases idle : buffer.entries = []
  · rw [Buffer.waiting, idle, drop_nil, ← tracks.full idle, drop_length]
  · rw [tracks.waiting idle, Buffer.waiting, last_index_visible tracks.chained]

theorem sync_through_writes
    (tracks : Tracks setup.opts.codec.stored setup.size setup.parents buffer items) {target : Nat}
    (done : buffer.syncThrough setup.opts setup.parents setup.size target fault = (result, next)) :
    ∃ tried later answer, buffer.waiting = tried ++ later ∧
      persist setup.opts setup.parents buffer.inner (buffer.inner.lastIndex + 1) tried =
        (answer, next.inner) := by
  rw [Buffer.syncThrough] at done
  rcases batch_spec buffer target with ⟨none, _⟩ | ⟨busy, _, some, _⟩
  · rw [if_pos none] at done
    cases done
    exact ⟨[], buffer.waiting, .ok (), rfl, rfl⟩
  · rw [if_neg (by omega)] at done
    rcases tried_waiting tracks busy target fault with ⟨later, split⟩
    have starts := tracks.starts busy
    have last := last_index_visible tracks.chained
    have index : max buffer.first (buffer.inner.lastIndex + 1) = buffer.inner.lastIndex + 1 := by
      omega
    rw [index] at done
    cases wrote : persist setup.opts setup.parents buffer.inner (buffer.inner.lastIndex + 1)
        (Buffer.tried fault (buffer.due (buffer.batch target))) with
    | mk answer grown =>
      refine ⟨_, later, answer, tracks.waiting_eq.trans split, ?_⟩
      rw [wrote]
      simp only [wrote] at done
      cases answer with
      | error err =>
        cases done
        rfl
      | ok _ =>
        split_ifs at done <;> (cases done; rfl)

theorem persist_front_ok {opts : Options α σ} {parents : List (Log α σ)} {log : Log α σ}
    {idx : Nat} {early late : List α}
    (accepted : (persist opts parents log idx (early ++ late)).1 = .ok ()) :
    ∃ next, persist opts parents log idx early = (.ok (), next) ∧
      (persist opts parents next (idx + early.length) late).1 = .ok () := by
  rw [persist_append] at accepted
  cases wrote : persist opts parents log idx early with
  | mk answer grown =>
    rw [wrote] at accepted
    cases answer with
    | error err => cases accepted
    | ok _ => exact ⟨grown, rfl, accepted⟩

theorem persisted {parents : List (Log α σ)} {opts : Options α σ} {log grown : Log α σ}
    (chained : Chained (log :: parents)) {records : List α}
    (wrote : persist opts parents log (log.lastIndex + 1) records = (.ok (), grown)) :
    Chained (grown :: parents) ∧ grown.lastIndex = log.lastIndex + records.length := by
  have before := last_index_visible chained
  have length := visible_length chained
  rcases persist_stored chained.1 records (by omega) wrote with
    ⟨tidy, grew, written, rest, split, own, all⟩
  have base : grown.firstWritable = log.firstWritable := by
    rw [Log.firstWritable, Log.firstWritable, grew.base]
  have further : Chained (grown :: parents) := ⟨tidy, base ▸ chained.2.1, chained.2.2⟩
  have after := last_index_visible further
  have longer := visible_length further
  rw [all rfl, append_nil] at split
  rw [base, own, length_append, length_map, ← split] at longer
  exact ⟨further, by omega⟩

section

variable (flushable : Flushable setup buffer items)

include flushable

theorem Flushable.sync {target : Nat}
    (done : buffer.syncThrough setup.opts setup.parents setup.size target fault = (result, next)) :
    Flushable setup next items := by
  have tracks := (sync_through_spec flushable.tracks done).1
  rcases sync_through_writes flushable.tracks done with ⟨tried, later, answer, split, wrote⟩
  have accepted := flushable.accepted
  rw [split] at accepted
  rcases persist_front_ok accepted with ⟨grown, front, rest⟩
  rw [wrote] at front
  cases front
  have last := (persisted flushable.tracks.chained wrote).2
  have left : next.waiting = later := by
    rw [tracks.waiting_eq, ← last_index_visible tracks.chained, last, ← drop_drop,
      last_index_visible flushable.tracks.chained, ← flushable.tracks.waiting_eq, split,
      drop_left]
  refine ⟨tracks, (flushable.intact.persist_ok tried wrote).1, ?_⟩
  rw [left, last, Nat.add_right_comm]
  exact rest

theorem Flushable.push (writable : buffer.inner.readOnly = false)
    (leaf : buffer.inner.subdirs = false) {payload : α}
    (fits : (buffer.behind setup).Fits setup.opts setup.parents payload) :
    Flushable setup (buffer.push setup.size (items.length + 1) payload) (items ++ [payload]) := by
  refine ⟨flushable.tracks.push payload, flushable.intact, ?_⟩
  have accepted := flushable.accepted
  rw [push_waiting flushable.tracks]
  change (persist setup.opts setup.parents buffer.inner (buffer.inner.lastIndex + 1) _).1 = _
  rw [Buffer.behind] at fits
  rw [persist_append]
  cases wrote : persist setup.opts setup.parents buffer.inner (buffer.inner.lastIndex + 1)
      buffer.waiting with
  | mk answer grown =>
    rw [wrote] at accepted fits
    rw [show answer = .ok () from accepted] at wrote ⊢
    rcases flushable.intact.persist_ok _ wrote with ⟨intact, locked, kids⟩
    have written := intact.write_fits (locked.trans writable) (kids.trans leaf) fits
    rcases persisted flushable.tracks.chained wrote with ⟨further, last⟩
    have index : buffer.inner.lastIndex + 1 + buffer.waiting.length = grown.expected := by
      rw [Log.expected_eq intact.tidy.numbered, ← visible_length further,
        ← last_index_visible further]
      omega
    simp only [persist, index]
    cases landed : grown.write setup.opts setup.parents grown.expected payload with
    | mk final log =>
      rw [landed] at written
      rw [show final = .ok () from written]

/-- A write is refused without a trace, or its record can be flushed with the others. -/
theorem Flushable.write {idx : Nat} {payload : α}
    (admitted : buffer.inner.readOnly = false → idx = buffer.lastIndex + 1 →
      buffer.inner.subdirs = false ∧
        (buffer.behind setup).Fits setup.opts setup.parents payload)
    (done : buffer.write setup.opts setup.parents setup.size setup.maxLag idx payload fault =
      (result, next)) : (∃ err, result = .error err ∧ next = buffer) ∨
      idx = items.length + 1 ∧ Flushable setup next (items ++ [payload]) := by
  rcases write_cases done with refused | ⟨writable, apart, outcome⟩
  · exact Or.inl refused
  · have here : idx = items.length + 1 := by rw [apart, flushable.tracks.last_index]
    rcases admitted writable apart with ⟨leaf, fits⟩
    have pushed := flushable.push writable leaf fits
    rw [← here] at pushed
    refine Or.inr ⟨here, ?_⟩
    rcases outcome with ⟨_, synced⟩ | ⟨_, _, rfl⟩
    · exact pushed.sync synced
    · exact pushed

theorem Flushable.branch (idle : buffer.waiting.length = 0) :
    Flushable setup { buffer with inner := { buffer.inner with subdirs := true } } items := by
  have tracks := flushable.tracks
  have numbered := tracks.chained.1.numbered
  have tidy : ({ buffer.inner with subdirs := true } : Log α σ).Tidy :=
    ⟨⟨numbered.positive, numbered.ranges, numbered.chain, numbered.tail, numbered.fresh,
      numbered.covers⟩, tracks.chained.1.strays⟩
  refine ⟨⟨⟨tidy, tracks.chained.2⟩, tracks.onDisk, tracks.full, tracks.starts, tracks.pending,
    tracks.bytes⟩, ⟨tidy, flushable.intact.clean, fun _ leaf => nomatch leaf⟩, ?_⟩
  have none : ({ buffer with inner := { buffer.inner with subdirs := true } } :
      Buffer α σ).waiting = [] := length_eq_zero_iff.mp idle
  rw [none]
  rfl

end

/-- Every acknowledged record is among the records of a log that can be flushed. -/
structure Secured (setup : Setup α σ) (journal : Journal α σ) (items : List α) : Prop where
  flushable : Flushable setup journal.buffer items
  held : ∀ idx payload, (idx, payload) ∈ journal.acknowledged →
    1 ≤ idx ∧ items[idx - 1]? = some payload

theorem step_secured {journal : Journal α σ} (secured : Secured setup journal items)
    {op : HandleOp α} (admitted : Admits setup journal op) :
    ∃ items, Secured setup (journal.step setup op) items := by
  cases op with
  | write idx payload fault =>
    rw [Journal.step]
    cases done : journal.buffer.write setup.opts setup.parents setup.size setup.maxLag idx payload
        fault with
    | mk result next =>
      rcases secured.flushable.write admitted done with ⟨err, failed, same⟩ | ⟨here, grown⟩
      · rw [failed, same]
        exact ⟨items, secured⟩
      · have old : ∀ number record, (number, record) ∈ journal.acknowledged →
            1 ≤ number ∧ (items ++ [payload])[number - 1]? = some record := by
          intro number record member
          rcases secured.held number record member with ⟨counted, held⟩
          exact ⟨counted, (List.getElem?_append_left
            (List.getElem?_eq_some_iff.mp held).1).trans held⟩
        refine ⟨items ++ [payload], grown, fun number record member => ?_⟩
        cases result with
        | error err => exact old number record member
        | ok _ =>
          rcases mem_append.mp member with before | last
          · exact old number record before
          · cases mem_singleton.mp last
            rw [here]
            exact ⟨Nat.le_add_left _ _, by simp⟩
  | syncThrough target fault => exact ⟨items, secured.flushable.sync rfl, secured.held⟩
  | sync fault => exact ⟨items, secured.flushable.sync rfl, secured.held⟩
  | branch => exact ⟨items, secured.flushable.branch admitted, secured.held⟩

theorem Secured.flushes {journal : Journal α σ} (secured : Secured setup journal items) :
    Flushes setup journal := by
  have flushable := secured.flushable
  cases done : journal.buffer.sync setup.opts setup.parents setup.size none with
  | mk result next =>
    have answer : result = .ok () := by
      have succeeds := sync_through_ok flushable.tracks (Nat.le_succ _) flushable.accepted
      rw [Buffer.sync] at done
      rwa [done] at succeeds
    rcases sync_through_spec flushable.tracks done with ⟨tracks, trimmed⟩
    have synced := flushable.sync done
    have empty : next.entries = [] := by
      rw [(trimmed answer).2, drop_eq_nil_iff]
      rcases batch_spec journal.buffer journal.buffer.allPending with ⟨_, idle⟩ | ⟨_, _, _, count⟩
      · rcases idle with none | low
        · rw [none]
          exact Nat.zero_le _
        · rw [Buffer.allPending] at low
          omega
      · rw [count, Buffer.allPending]
        omega
    have shown : visible (next.inner :: setup.parents) =
        items.map setup.opts.codec.stored :=
      tracks.onDisk.eq_of_length (by rw [length_map, tracks.full empty])
    rcases synced.intact.reopens with ⟨reopened, opened, tidy, own, base⟩
    have same : reopened.firstWritable = next.inner.firstWritable := by
      rw [Log.firstWritable, Log.firstWritable, base]
    have chained : Chained (reopened :: setup.parents) :=
      ⟨tidy, same ▸ tracks.chained.2.1, tracks.chained.2.2⟩
    have reads : visible (reopened :: setup.parents) = items.map setup.opts.codec.stored := by
      rw [← shown, visible, visible, own, same]
    rw [Flushes, done]
    refine ⟨answer, reopened, opened, fun idx payload member => ?_⟩
    rcases secured.held idx payload member with ⟨counted, held⟩
    rw [read_visible chained, reads, getElem?_map, held]
    exact ⟨counted, rfl⟩

end Steps

/-- In a run whose acknowledged records have room, what has been acknowledged can be
flushed at any time, over any codec and from any log that could be opened. -/
theorem acknowledged_is_flushed {setup : Setup α σ} {forkBase : Nat} {files : List (Segment α σ)}
    {subdirs : Bool} {inner : Log α σ}
    (opened : openDir setup.opts forkBase files subdirs = .ok inner)
    (chained : Chained (inner :: setup.parents))
    (canonical : ∀ payload ∈ visible (inner :: setup.parents),
      setup.opts.codec.stored payload = payload)
    {run : List (HandleOp α)}
    (admitted : EveryStep (Journal.step setup) (Admits setup) (Journal.opened inner) run) :
    Flushes setup (run.foldl (Journal.step setup) (Journal.opened inner)) := by
  have start : Secured setup (Journal.opened inner) (visible (inner :: setup.parents)) :=
    ⟨⟨Tracks.opened chained canonical, (open_dir_intact opened chained.1).1, rfl⟩,
      fun _ _ member => absurd member not_mem_nil⟩
  rcases invariant_after (Journal.step setup) (fun journal => ∃ items, Secured setup journal items)
    (fun journal op secured meets => secured.elim fun _ holds => step_secured holds meets)
    ⟨_, start⟩ admitted with ⟨items, secured⟩
  exact secured.flushes

def lazyBuffer : Setup Bytes Bytes where
  opts := { codec := binaryCodec, segmentSize := 20, onSegmentOpen := none }
  parents := []
  size := byteCount
  maxLag := 100

/-- A record that no segment holds is acknowledged. Every later sync fails at it, and the
records after it stay in memory. In a directory whose only file is an unused one for
index 2 the first record is flushed under that index. -/
theorem oversized_record_blocks :
    let large := bytes [1, 2, 3, 4, 5, 6, 7, 8, 9, 10, 11, 12, 13]
    let journal := [HandleOp.write 1 large none, .write 2 (bytes [1]) none].foldl
      (Journal.step lazyBuffer) (Journal.opened (Log.blank 0))
    let stuck := (journal.buffer.sync lazyBuffer.opts [] byteCount none).2
    (journal.acknowledged = [(1, large), (2, bytes [1])] ∧
      stuck.sync lazyBuffer.opts [] byteCount none = (.error .payloadTooLarge, stuck) ∧
      ¬Flushes lazyBuffer journal) ∧
    ∃ lone, openDir lazyBuffer.opts 0 [create 2 20] false = .ok lone ∧
      ¬Flushes lazyBuffer (Journal.step lazyBuffer (Journal.opened lone)
        (.write 1 (bytes [1]) none)) := by
  refine ⟨⟨by decide, rfl, fun flushes => absurd flushes.1 (by decide)⟩, _, rfl, fun flushes => ?_⟩
  obtain ⟨_, log, reopened, shown⟩ := flushes
  cases reopened
  exact absurd (shown 1 (bytes [1]) (by decide)) (by decide)

/-- Records of several segments, syncs that fail, and a child forked off at the end. -/
def patientRun : List (HandleOp Bytes) :=
  [.write 1 (bytes [1, 2, 3, 4, 5, 6, 7, 8, 9, 10, 11, 12]) none, .write 2 (bytes [1]) none,
    .write 4 (bytes [2]) none, .syncThrough 2 (some 1), .write 3 (bytes [3]) none,
    .sync (some 2), .write 4 (bytes []) none, .sync none, .branch, .sync none]

theorem patient_run_flushed :
    (patientRun.foldl (Journal.step lazyBuffer)
      (Journal.opened (Log.blank 0))).acknowledged.map Prod.fst = [1, 2, 3, 4] ∧
    Flushes lazyBuffer (patientRun.foldl (Journal.step lazyBuffer)
      (Journal.opened (Log.blank 0))) := by
  have chained : Chained [(Log.blank 0 : Log Bytes Bytes)] :=
    ⟨Log.blank_tidy 0, by decide, trivial⟩
  have opened : openDir lazyBuffer.opts 0 [] false = .ok (Log.blank 0) := rfl
  exact ⟨by decide, acknowledged_is_flushed opened chained (fun _ _ => rfl) (by decide)⟩

end Figwal.Buffered
