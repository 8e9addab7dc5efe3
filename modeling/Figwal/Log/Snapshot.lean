import Figwal.Disk.Serving
import Figwal.Log.Runs

/-!
# Snapshots under a concurrent writer

`Log.Snapshot` loads the pending window and then the tail, and its reads combine the
captured window with the disk as it is when they run. The writer goes on meanwhile, one
atomic step at a time: it publishes a record, takes up a batch, writes one record of the
batch to disk, trims the window, or gives a sync up. `LastIndex` is itself two loads, of the
window and of the disk, and steps may fall between these too.

The two loads of a snapshot need not belong together. A record published between them is
below the captured tail, but not in the captured window.
-/

namespace Figwal.Buffered

open Figwal.Lib Figwal.Disk List

set_option autoImplicit false

variable {α σ : Type}

def Buffer.firstIndex (parents : List (Log α σ)) (buffer : Buffer α σ) : Nat :=
  if Disk.firstIndex (buffer.inner :: parents) ≠ 0 then Disk.firstIndex (buffer.inner :: parents)
  else if buffer.entries ≠ [] then buffer.first else 0

/-!
## The writer
-/

/-- A `SyncThrough` under way: its batch, and what of it is still to be written. -/
structure Job (α : Type) where
  first : Nat
  batch : List α
  todo : List (Nat × α)
  deriving DecidableEq, Repr

structure Writer (α σ : Type) where
  buffer : Buffer α σ
  job : Option (Job α)

/-- The writer's atomic steps. A failing fsync, and a write the disk fails at, abandon the sync. -/
inductive WriterStep (α : Type) where
  | publish (idx : Nat) (payload : α)
  | takeUp (target : Nat)
  | store
  | trim
  | abandon
  deriving DecidableEq, Repr

namespace Writer

def opened (inner : Log α σ) : Writer α σ where
  buffer := Buffer.opened inner
  job := none

/-- The records `write` accepts at this step. -/
def accepted (writer : Writer α σ) : WriterStep α → List α
  | .publish idx payload =>
    if writer.buffer.inner.readOnly = false ∧ idx = writer.buffer.lastIndex + 1 then [payload]
    else []
  | .takeUp _ | .store | .trim | .abandon => []

/-- The start of `SyncThrough`. The flush lock admits one sync at a time. -/
def takeUp (target : Nat) (writer : Writer α σ) : Writer α σ :=
  let count := writer.buffer.batch target
  if writer.job.isSome ∨ count = 0 then writer
  else
    let batch := writer.buffer.entries.take count
    { writer with
      job := some {
        first := writer.buffer.first
        batch := batch
        todo := (numbered writer.buffer.first batch).filter fun item =>
          writer.buffer.inner.lastIndex < item.1 } }

/-- One turn of the loop of `SyncThrough`. -/
def store (setup : Setup α σ) (writer : Writer α σ) : Writer α σ :=
  match writer.job with
  | some ⟨first, batch, (idx, payload) :: rest⟩ =>
    match writer.buffer.inner.write setup.opts setup.parents idx payload with
    | (.ok (), next) => ⟨{ writer.buffer with inner := next }, some ⟨first, batch, rest⟩⟩
    | (.error _, next) => ⟨{ writer.buffer with inner := next }, none⟩
  | _ => writer

/-- The end of `SyncThrough`, after the fsync. -/
def trim (setup : Setup α σ) (writer : Writer α σ) : Writer α σ :=
  match writer.job with
  | some ⟨first, batch, []⟩ =>
    let window :=
      if writer.buffer.first = first then
        (first + batch.length, writer.buffer.entries.drop batch.length)
      else (writer.buffer.first, writer.buffer.entries)
    { buffer := {
        inner := writer.buffer.inner
        first := window.1
        entries := window.2
        pendingBytes := writer.buffer.pendingBytes - totalSize setup.size batch }
      job := none }
  | _ => writer

def step (setup : Setup α σ) (writer : Writer α σ) : WriterStep α → Writer α σ
  | .publish idx payload =>
    if writer.buffer.inner.readOnly = false ∧ idx = writer.buffer.lastIndex + 1 then
      { writer with buffer := writer.buffer.push setup.size idx payload }
    else writer
  | .takeUp target => writer.takeUp target
  | .store => writer.store setup
  | .trim => writer.trim setup
  | .abandon => { writer with job := none }

def after (setup : Setup α σ) (writer : Writer α σ) (steps : List (WriterStep α)) : Writer α σ :=
  steps.foldl (step setup) writer

def written (setup : Setup α σ) : Writer α σ → List (WriterStep α) → List α
  | _, [] => []
  | writer, next :: rest => writer.accepted next ++ written setup (writer.step setup next) rest

end Writer

/-!
## The snapshot
-/

structure Snapshot (α : Type) where
  first : Nat
  entries : List α
  last : Nat
  deriving DecidableEq, Repr

namespace Snapshot

/-- `Log.LastIndex` as its two loads find the log: the window, and the disk where that is
empty. -/
def loadedTail (tail disk : Buffer α σ) : Nat :=
  if tail.entries = [] then disk.inner.lastIndex else tail.lastPending

/-- `Log.Snapshot`: the window is loaded first, the tail after it. -/
def capture (window tail disk : Buffer α σ) : Snapshot α where
  first := window.first
  entries := window.entries
  last := loadedTail tail disk

/-- `pendingView.at` of the captured window. -/
def pendingAt (snapshot : Snapshot α) (idx : Nat) : Option α :=
  if idx < snapshot.first then none else snapshot.entries[idx - snapshot.first]?

def read (logs : List (Log α σ)) (snapshot : Snapshot α) (idx : Nat) : Except Err α :=
  if snapshot.last < idx then .error .notFound
  else
    match snapshot.pendingAt idx with
    | some payload => .ok payload
    | none => emptyAsNotFound (Disk.read logs idx)

/-- `rangeBounded` with the captured window and tail. -/
def range (logs : List (Log α σ)) (snapshot : Snapshot α) (lowest : Nat) : Scan α :=
  let stop :=
    if snapshot.entries ≠ [] ∧ snapshot.first < snapshot.last + 1 then snapshot.first
    else snapshot.last + 1
  let below := (Disk.range logs lowest).cutAt stop
  match below.outcome with
  | .done =>
    let pending := (numbered snapshot.first snapshot.entries).filter fun item => lowest ≤ item.1
    ⟨below.seen ++ pending.takeWhile fun item => item.1 ≤ snapshot.last, .done⟩
  | _ => below

/-- `scanFromEndBounded`, which starts at the captured tail when asked for 0 or for more. -/
def scanFromEnd (logs : List (Log α σ)) (snapshot : Snapshot α) (highest : Nat) : Scan α :=
  let high := if highest = 0 ∨ snapshot.last < highest then snapshot.last else highest
  if high = 0 then ⟨[], .done⟩
  else if snapshot.entries ≠ [] ∧ snapshot.first ≤ high then
    let newest :=
      ((numbered snapshot.first snapshot.entries).filter fun item => item.1 ≤ high).reverse
    if snapshot.first - 1 = 0 then ⟨newest, .done⟩
    else
      let older := Disk.scanFromEnd logs (snapshot.first - 1)
      ⟨newest ++ older.seen, older.outcome⟩
  else Disk.scanFromEnd logs high

end Snapshot

/-- A walk ends without an error and shows the index once, with this record. -/
def Once (idx : Nat) (payload : α) (walk : Scan α) : Prop :=
  walk.outcome = .done ∧ (walk.seen.filter fun item => item.1 = idx) = [(idx, payload)]

instance [DecidableEq α] (idx : Nat) (payload : α) (walk : Scan α) :
    Decidable (Once idx payload walk) :=
  inferInstanceAs (Decidable (_ ∧ _))

/-- Every index from `FirstIndex` to the captured tail is read, and comes once in every walk
that reaches it, with the record of its index. `FirstIndex` answers 0 where there is none. -/
def Consistent (setup : Setup α σ) (start : Nat) (records : List α) (snapshot : Snapshot α)
    (reading : Buffer α σ) : Prop :=
  ∀ idx, 0 < reading.firstIndex setup.parents → reading.firstIndex setup.parents ≤ idx →
    idx ≤ snapshot.last → ∃ payload, records[idx - start]? = some payload ∧
      snapshot.read (reading.inner :: setup.parents) idx = .ok payload ∧
      (∀ lowest ≤ idx, Once idx payload (snapshot.range (reading.inner :: setup.parents) lowest)) ∧
      ∀ highest, highest = 0 ∨ idx ≤ highest →
        Once idx payload (snapshot.scanFromEnd (reading.inner :: setup.parents) highest)

/-- The loads of a snapshot belong together for a read. A captured window with records ends at
the tail that the second load finds. Where the captured window is empty, the records that the
second load finds pending have reached the disk when the read runs. -/
def Timely (window tail disk reading : Buffer α σ) : Prop :=
  if window.entries = [] then tail.entries = [] ∨ tail.lastPending ≤ reading.inner.lastIndex
  else if tail.entries = [] then disk.inner.lastIndex ≤ window.lastPending
  else tail.lastPending ≤ window.lastPending

instance (window tail disk reading : Buffer α σ) :
    Decidable (Timely window tail disk reading) := by
  unfold Timely
  infer_instance

/-!
## What the writer keeps
-/

/-- The writer has accepted the records `items`, counted from `start`. The disk has their
beginning, the window has their end, and the two leave no gap. -/
structure Sound (setup : Setup α σ) (start : Nat) (writer : Writer α σ) (items : List α) :
    Prop where
  whole : Whole (writer.buffer.inner :: setup.parents) start
    (items.take (writer.buffer.inner.lastIndex + 1 - start))
  reach : writer.buffer.inner.lastIndex + 1 ≤ start + items.length
  window : writer.buffer.entries ≠ [] → start ≤ writer.buffer.first ∧
    writer.buffer.first ≤ writer.buffer.inner.lastIndex + 1 ∧
    writer.buffer.entries = items.drop (writer.buffer.first - start)
  idle : writer.buffer.entries = [] → writer.buffer.inner.lastIndex + 1 = start + items.length
  plain : ∀ payload ∈ writer.buffer.entries, setup.opts.codec.stored payload = payload
  job : ∀ job, writer.job = some job → job.first = writer.buffer.first ∧
    job.batch <+: writer.buffer.entries ∧ job.batch ≠ [] ∧
    job.todo = (numbered job.first job.batch).filter fun item =>
      writer.buffer.inner.lastIndex < item.1

section Steps

variable {setup : Setup α σ} {start : Nat} {writer : Writer α σ} {items : List α}

theorem sound_opened {inner : Log α σ} (whole : Whole (inner :: setup.parents) start items) :
    Sound setup start (Writer.opened inner) items := by
  have last := whole.last_index
  have all : inner.lastIndex + 1 - start = items.length := by omega
  refine ⟨?_, last.le, fun busy => absurd rfl busy, fun _ => last, ?_, ?_⟩
  · change Whole (inner :: setup.parents) start (items.take (inner.lastIndex + 1 - start))
    rw [all, take_length]
    exact whole
  · intro payload inside
    cases inside
  · intro job held
    cases held

namespace Sound

variable {payload : α}

section

variable (sound : Sound setup start writer items)

include sound

theorem start_le : start ≤ writer.buffer.inner.lastIndex + 1 := by
  have last := sound.whole.last_index
  omega

theorem length_window (busy : writer.buffer.entries ≠ []) :
    writer.buffer.first + writer.buffer.entries.length = start + items.length := by
  obtain ⟨low, _, entries⟩ := sound.window busy
  have some_left := length_pos_of_ne_nil busy
  rw [entries, length_drop] at some_left ⊢
  omega

theorem last_index : writer.buffer.lastIndex + 1 = start + items.length := by
  rw [Buffer.lastIndex]
  split_ifs with empty
  · exact sound.idle empty
  · have length := sound.length_window empty
    have some_left := length_pos_of_ne_nil empty
    rw [Buffer.lastPending]
    omega

theorem busy {job : Job α} (running : writer.job = some job) : writer.buffer.entries ≠ [] := by
  intro empty
  obtain ⟨_, batch, filled, _⟩ := sound.job job running
  rw [empty] at batch
  exact filled (List.prefix_nil.mp batch)

theorem abandon : Sound setup start { writer with job := none } items :=
  { sound with
    job := by
      intro job held
      cases held }

theorem push_first (payload : α) :
    ∃ first, (writer.buffer.push setup.size (writer.buffer.lastIndex + 1) payload).first = first ∧
      start ≤ first ∧ first ≤ writer.buffer.inner.lastIndex + 1 ∧
      writer.buffer.entries = items.drop (first - start) ∧ first - start ≤ items.length := by
  have next := sound.last_index
  have low := sound.start_le
  rw [Buffer.push]
  by_cases empty : writer.buffer.entries = []
  · have last := sound.idle empty
    have none_left : items.drop (writer.buffer.lastIndex + 1 - start) = [] :=
      drop_of_length_le (by omega)
    refine ⟨writer.buffer.lastIndex + 1, if_pos empty, by omega, by omega, ?_, by omega⟩
    rw [none_left, empty]
  · obtain ⟨above, held, entries⟩ := sound.window empty
    have length := sound.length_window empty
    exact ⟨writer.buffer.first, if_neg empty, above, held, entries, by omega⟩

theorem publish (plain : setup.opts.codec.stored payload = payload) : Sound setup start
      { writer with
        buffer := writer.buffer.push setup.size (writer.buffer.lastIndex + 1) payload }
      (items ++ [payload]) := by
  have reach := sound.reach
  have low := sound.start_le
  obtain ⟨first, begins, above, held, entries, within⟩ := sound.push_first payload
  refine ⟨?_, ?_, ?_, ?_, ?_, ?_⟩
  · change Whole (writer.buffer.inner :: setup.parents) start
      ((items ++ [payload]).take (writer.buffer.inner.lastIndex + 1 - start))
    rw [take_append_of_le_length (by omega)]
    exact sound.whole
  · change writer.buffer.inner.lastIndex + 1 ≤ _
    rw [List.length_append]
    omega
  · intro _
    rw [begins]
    refine ⟨above, held, ?_⟩
    rw [drop_append_of_le_length within, ← entries]
    rfl
  · intro empty
    exact absurd empty (append_ne_nil_of_right_ne_nil _ (cons_ne_nil _ _))
  · intro other inside
    rcases mem_append.mp inside with pending | new
    · exact sound.plain other pending
    · rw [mem_singleton.mp new]
      exact plain
  · intro job running
    obtain ⟨same, batch, filled, todo⟩ := sound.job job running
    refine ⟨?_, batch.trans (List.prefix_append _ _), filled, todo⟩
    rw [same]
    simp [Buffer.push, sound.busy running]

theorem takeUp (target : Nat) : Sound setup start (writer.takeUp target) items := by
  rw [Writer.takeUp]
  split_ifs with unable
  · exact sound
  · refine { sound with job := ?_ }
    intro job started
    cases started
    refine ⟨rfl, List.take_prefix _ _, ?_, rfl⟩
    intro empty
    rcases take_eq_nil_iff.mp empty with zero | idle
    · exact unable (Or.inr zero)
    · exact unable (Or.inr (by simp [Buffer.batch, idle]))

theorem todo_head {job : Job α} (running : writer.job = some job) {idx : Nat}
    {rest : List (Nat × α)} (due : job.todo = (idx, payload) :: rest) :
    items[idx - start]? = some payload ∧ setup.opts.codec.stored payload = payload := by
  obtain ⟨same, batch, _, todo⟩ := sound.job job running
  obtain ⟨low, _, entries⟩ := sound.window (sound.busy running)
  have inside : (idx, payload) ∈ numbered job.first job.batch := by
    apply mem_of_mem_filter
    rw [← todo, due]
    exact mem_cons_self
  obtain ⟨above, found⟩ := mem_numbered.mp inside
  have pending : writer.buffer.entries[idx - job.first]? = some payload := by
    obtain ⟨later, joined⟩ := batch
    rw [← joined]
    exact List.getElem?_append_left (List.getElem?_eq_some_iff.mp found).1 ▸ found
  refine ⟨?_, sound.plain payload (List.mem_of_getElem? pending)⟩
  rw [entries, List.getElem?_drop, same] at pending
  have place : writer.buffer.first - start + (idx - writer.buffer.first) = idx - start := by
    rw [same] at above
    omega
  rwa [place] at pending

end

theorem todo_tail {first last idx : Nat} {batch : List α} {rest : List (Nat × α)}
    (todo : (idx, payload) :: rest = (numbered first batch).filter fun item => last < item.1) :
    rest = (numbered first batch).filter fun item => idx < item.1 := by
  have ascending := (numbered_ascending first batch).filter fun item => decide (last < item.1)
  rw [← todo] at ascending
  have above := (pairwise_cons.mp ascending).1
  have here : last < idx := by
    have inside : (idx, payload) ∈ (numbered first batch).filter fun item => last < item.1 := by
      rw [← todo]
      exact mem_cons_self
    exact of_decide_eq_true (mem_filter.mp inside).2
  calc
    rest = ((idx, payload) :: rest).filter fun item => idx < item.1 := by
      rw [filter_cons_of_neg (by simp)]
      exact (filter_eq_self.mpr fun item held => decide_eq_true (above item held)).symm
    _ = (numbered first batch).filter fun item => idx < item.1 := by
      rw [todo, filter_filter]
      apply filter_congr
      intro item _
      rw [Bool.eq_iff_iff]
      simp only [Bool.and_eq_true, decide_eq_true_eq]
      omega

/-- The disk has taken the whole batch once nothing of it is left to write. -/
theorem batch_stored {first last : Nat} {batch : List α} (filled : batch ≠ [])
    (todo : ((numbered first batch).filter fun item => last < item.1) = []) :
    first + batch.length ≤ last + 1 := by
  have length := length_pos_of_ne_nil filled
  have inside : (first + (batch.length - 1), batch[batch.length - 1]) ∈ numbered first batch := by
    rw [mem_numbered]
    refine ⟨Nat.le_add_right _ _, ?_⟩
    rw [Nat.add_sub_cancel_left]
    exact getElem?_eq_getElem _
  have stored := filter_eq_nil_iff.mp todo _ inside
  rw [decide_eq_true_eq] at stored
  omega

/-- One record reaches the disk, or it is refused and the disk shows what it showed. -/
theorem store_spec (sound : Sound setup start writer items) :
    Sound setup start (writer.store setup) items ∧
      writer.buffer.inner.lastIndex ≤ (writer.store setup).buffer.inner.lastIndex := by
  rw [Writer.store]
  split
  · rename_i first batch idx payload rest running
    obtain ⟨same, part, filled, todo⟩ := sound.job _ running
    obtain ⟨due, plain⟩ := sound.todo_head running rfl
    have before := sound.whole.last_index
    cases wrote : writer.buffer.inner.write setup.opts setup.parents idx payload with
    | mk result next =>
      obtain ⟨failed, succeeded⟩ := sound.whole.write wrote
      cases result with
      | error err =>
        have kept := failed err rfl
        have still : next.lastIndex = writer.buffer.inner.lastIndex := by
          have now := kept.last_index
          omega
        rw [← still] at kept
        refine ⟨⟨kept, ?_, ?_, ?_, sound.plain, ?_⟩, still.ge⟩
        · exact still.symm ▸ sound.reach
        · exact still.symm ▸ sound.window
        · exact still.symm ▸ sound.idle
        · intro job held
          cases held
      | ok _ =>
        obtain ⟨place, grown⟩ := succeeded rfl
        have reached : idx = writer.buffer.inner.lastIndex + 1 := by omega
        have within := (List.getElem?_eq_some_iff.mp due).1
        have now := grown.last_index
        rw [List.length_append, List.length_singleton] at now
        have last : next.lastIndex = idx := by omega
        have longer : items.take (next.lastIndex + 1 - start) =
            items.take (writer.buffer.inner.lastIndex + 1 - start) ++ [payload] := by
          have count : next.lastIndex + 1 - start = idx - start + 1 := by omega
          rw [count, take_add_one, due, ← reached]
          rfl
        rw [plain, ← longer] at grown
        refine ⟨⟨grown, ?_, ?_, ?_, sound.plain, ?_⟩, ?_⟩
        · change next.lastIndex + 1 ≤ start + items.length
          omega
        · intro busy
          obtain ⟨low, held, entries⟩ := sound.window busy
          exact ⟨low, held.trans (by change _ ≤ next.lastIndex + 1; omega), entries⟩
        · intro empty
          exact absurd empty (sound.busy running)
        · intro job held
          cases held
          refine ⟨same, part, filled, ?_⟩
          rw [last]
          exact todo_tail todo
        · change _ ≤ next.lastIndex
          omega
  · exact ⟨sound, le_rfl⟩

theorem trim (sound : Sound setup start writer items) :
    Sound setup start (writer.trim setup) items := by
  rw [Writer.trim]
  split
  · rename_i first batch running
    obtain ⟨same, part, filled, todo⟩ := sound.job _ running
    have stored : first + batch.length ≤ writer.buffer.inner.lastIndex + 1 :=
      batch_stored filled todo.symm
    obtain ⟨low, held, entries⟩ := sound.window (sound.busy running)
    have length := sound.length_window (sound.busy running)
    have fits : batch.length ≤ writer.buffer.entries.length := part.length_le
    have reach := sound.reach
    simp only at same
    simp only [same, if_true]
    rw [same] at stored
    refine ⟨sound.whole, reach, ?_, ?_, ?_, ?_⟩
    · intro _
      refine ⟨by change _ ≤ writer.buffer.first + batch.length; omega, stored, ?_⟩
      change writer.buffer.entries.drop batch.length =
        items.drop (writer.buffer.first + batch.length - start)
      rw [entries, drop_drop]
      congr 1
      omega
    · intro empty
      have short : writer.buffer.entries.length ≤ batch.length := drop_eq_nil_iff.mp empty
      change writer.buffer.inner.lastIndex + 1 = start + items.length
      omega
    · intro payload inside
      exact sound.plain payload (mem_of_mem_drop inside)
    · intro job started
      cases started
  · exact sound

end Sound

theorem step_sound (sound : Sound setup start writer items) (step : WriterStep α)
    (plain : ∀ payload ∈ writer.accepted step, setup.opts.codec.stored payload = payload) :
    Sound setup start (writer.step setup step) (items ++ writer.accepted step) ∧
      writer.buffer.inner.lastIndex ≤ (writer.step setup step).buffer.inner.lastIndex := by
  cases step with
  | publish idx payload =>
    rw [Writer.accepted] at plain ⊢
    rw [Writer.step]
    split_ifs at plain ⊢ with admitted
    · rw [admitted.2]
      exact ⟨sound.publish (plain payload mem_cons_self), le_rfl⟩
    · rw [append_nil]
      exact ⟨sound, le_rfl⟩
  | takeUp target =>
    rw [Writer.accepted, append_nil]
    refine ⟨sound.takeUp target, ?_⟩
    rw [Writer.step, Writer.takeUp]
    split_ifs <;> exact le_rfl
  | store =>
    rw [Writer.accepted, append_nil]
    exact sound.store_spec
  | trim =>
    rw [Writer.accepted, append_nil]
    refine ⟨sound.trim, ?_⟩
    rw [Writer.step, Writer.trim]
    split <;> exact le_rfl
  | abandon =>
    rw [Writer.accepted, append_nil]
    exact ⟨sound.abandon, le_rfl⟩

theorem run_sound (sound : Sound setup start writer items) (steps : List (WriterStep α))
    (plain : ∀ payload ∈ writer.written setup steps, setup.opts.codec.stored payload = payload) :
    Sound setup start (writer.after setup steps) (items ++ writer.written setup steps) ∧
      writer.buffer.inner.lastIndex ≤ (writer.after setup steps).buffer.inner.lastIndex := by
  induction steps generalizing writer items with
  | nil =>
    rw [Writer.written, append_nil]
    exact ⟨sound, le_rfl⟩
  | cons step rest ih =>
    rw [Writer.written] at plain ⊢
    obtain ⟨kept, grew⟩ := step_sound sound step fun payload inside =>
      plain payload (mem_append_left _ inside)
    obtain ⟨done, later⟩ := ih kept fun payload inside =>
      plain payload (mem_append_right _ inside)
    rw [← append_assoc]
    exact ⟨done, grew.trans later⟩

end Steps

/-!
## What a snapshot shows
-/

section Reading

variable {logs : List (Log α σ)} {snapshot : Snapshot α} {start : Nat} {disk shown : List α}

def Snapshot.border (snapshot : Snapshot α) : Nat :=
  if snapshot.entries = [] then snapshot.last + 1 else snapshot.first

/-- The disk below the border and the captured window make up the records `shown`, which
end at the captured tail. -/
structure Joined (logs : List (Log α σ)) (snapshot : Snapshot α) (start : Nat)
    (disk shown : List α) : Prop where
  serves : Serves logs start disk
  parts : numbered start shown =
    (numbered start disk).filter (fun item => item.1 < snapshot.border) ++
      numbered snapshot.first snapshot.entries
  bounded : ∀ item ∈ numbered start shown, item.1 ≤ snapshot.last
  ends : snapshot.entries ≠ [] → snapshot.first ≤ snapshot.last

namespace Joined

section

variable (joined : Joined logs snapshot start disk shown)

include joined

theorem read_of_mem {idx : Nat} {payload : α} (inside : (idx, payload) ∈ numbered start shown) :
    snapshot.read logs idx = .ok payload := by
  have low : ¬snapshot.last < idx := Nat.not_lt.mpr (joined.bounded _ inside)
  rw [joined.parts] at inside
  rw [Snapshot.read, if_neg low]
  rcases mem_append.mp inside with stored | pending
  · obtain ⟨held, below⟩ := mem_filter.mp stored
    rw [decide_eq_true_eq, Snapshot.border] at below
    have absent : snapshot.pendingAt idx = none := by
      by_cases empty : snapshot.entries = []
      · simp [Snapshot.pendingAt, empty]
      · rw [if_neg empty] at below
        rw [Snapshot.pendingAt, if_pos below]
    rw [absent]
    exact empty_as_not_found_ok.mpr ((joined.serves.read idx payload).mpr (mem_numbered.mp held))
  · obtain ⟨above, found⟩ := mem_numbered.mp pending
    have present : snapshot.pendingAt idx = some payload := by
      rw [Snapshot.pendingAt, if_neg (Nat.not_lt.mpr above)]
      exact found
    rw [present]

theorem range_eq (lowest : Nat) :
    snapshot.range logs lowest =
      ⟨(numbered start shown).filter fun item => lowest ≤ item.1, .done⟩ := by
  have stop : (if snapshot.entries ≠ [] ∧ snapshot.first < snapshot.last + 1 then snapshot.first
      else snapshot.last + 1) = snapshot.border := by
    rw [Snapshot.border]
    by_cases empty : snapshot.entries = []
    · rw [if_neg (fun both => both.1 empty), if_pos empty]
    · rw [if_pos ⟨empty, Nat.lt_succ_of_le (joined.ends empty)⟩, if_neg empty]
  have ascending := (numbered_ascending start disk).filter fun item => decide (lowest ≤ item.1)
  have pending : ((numbered snapshot.first snapshot.entries).filter fun item =>
      lowest ≤ item.1).takeWhile (fun item => item.1 ≤ snapshot.last) =
      (numbered snapshot.first snapshot.entries).filter fun item => lowest ≤ item.1 := by
    apply takeWhile_eq_self_iff.mpr
    intro item inside
    have held := mem_append_right
      ((numbered start disk).filter fun item => item.1 < snapshot.border)
      (mem_of_mem_filter inside)
    rw [← joined.parts] at held
    exact decide_eq_true (joined.bounded item held)
  rw [Snapshot.range, stop, joined.serves.range, cut_at_done, take_while_ascending _ ascending]
  simp only [pending]
  rw [joined.parts, filter_append, filter_filter, filter_filter]
  congr 2
  apply filter_congr
  intro item _
  exact Bool.and_comm _ _

/-- The records from the window on down, where the scan begins inside it. -/
theorem scan_inside {high : Nat} (busy : snapshot.entries ≠ []) (inside : snapshot.first ≤ high) :
    ((numbered start shown).filter fun item => item.1 ≤ high).reverse =
      ((numbered snapshot.first snapshot.entries).filter fun item => item.1 ≤ high).reverse ++
        ((numbered start disk).filter fun item => item.1 ≤ snapshot.first - 1).reverse := by
  have positive := joined.serves.positive
  rw [joined.parts, filter_append, reverse_append, filter_filter, Snapshot.border,
    if_neg busy]
  congr 2
  apply filter_congr
  intro item held
  have above := numbered_ge held
  rw [Bool.eq_iff_iff]
  simp only [Bool.and_eq_true, decide_eq_true_eq]
  omega

theorem scan_below {high : Nat} (bounded : high ≤ snapshot.last)
    (outside : ¬(snapshot.entries ≠ [] ∧ snapshot.first ≤ high)) :
    ((numbered start shown).filter fun item => item.1 ≤ high) =
      (numbered start disk).filter fun item => item.1 ≤ high := by
  have below : high < snapshot.border := by
    rw [Snapshot.border]
    split_ifs with empty
    · omega
    · by_contra reached
      exact outside ⟨empty, by omega⟩
  have none_pending : (numbered snapshot.first snapshot.entries).filter
      (fun item => item.1 ≤ high) = [] := by
    apply filter_eq_nil_iff.mpr
    intro item held
    have above := numbered_ge held
    rw [decide_eq_true_eq]
    intro low
    apply outside
    refine ⟨?_, above.trans low⟩
    intro empty
    rw [empty] at held
    cases held
  rw [joined.parts, filter_append, none_pending, append_nil, filter_filter]
  apply filter_congr
  intro item _
  rw [Bool.eq_iff_iff]
  simp only [Bool.and_eq_true, decide_eq_true_eq]
  omega

theorem scan_eq (highest : Nat) :
    snapshot.scanFromEnd logs highest =
      ⟨((numbered start shown).filter fun item => item.1 ≤
        if highest = 0 ∨ snapshot.last < highest then snapshot.last else highest).reverse,
        .done⟩ := by
  have positive := joined.serves.positive
  have bounded : (if highest = 0 ∨ snapshot.last < highest then snapshot.last else highest) ≤
      snapshot.last := by
    split_ifs <;> omega
  rw [Snapshot.scanFromEnd]
  generalize (if highest = 0 ∨ snapshot.last < highest then snapshot.last else highest) = high
    at bounded ⊢
  by_cases zero : high = 0
  · have none_left : ((numbered start shown).filter fun item => item.1 ≤ high) = [] := by
      apply filter_eq_nil_iff.mpr
      intro item held
      have above := numbered_ge held
      rw [decide_eq_true_eq]
      omega
    rw [if_pos zero, none_left]
    rfl
  · rw [if_neg zero]
    by_cases inside : snapshot.entries ≠ [] ∧ snapshot.first ≤ high
    · rw [if_pos inside, joined.scan_inside inside.1 inside.2, joined.serves.scan]
      by_cases lowest : snapshot.first - 1 = 0
      · have none_left : ((numbered start disk).filter fun item =>
            item.1 ≤ snapshot.first - 1) = [] := by
          apply filter_eq_nil_iff.mpr
          intro item held
          have above := numbered_ge held
          rw [decide_eq_true_eq]
          omega
        rw [if_pos lowest, none_left, reverse_nil, append_nil]
      · rw [if_neg lowest]
    · rw [if_neg inside, joined.scan_below bounded inside, joined.serves.scan]

end

end Joined

theorem filter_number {items : List (Nat × α)} {idx : Nat} {payload : α}
    (ascending : items.Pairwise fun early late => early.1 < late.1)
    (inside : (idx, payload) ∈ items) :
    (items.filter fun item => item.1 = idx) = [(idx, payload)] := by
  induction items with
  | nil => cases inside
  | cons head rest ih =>
    obtain ⟨above, sorted⟩ := pairwise_cons.mp ascending
    rcases mem_cons.mp inside with rfl | later
    · have none_left : (rest.filter fun item => item.1 = idx) = [] := by
        apply filter_eq_nil_iff.mpr
        intro item held
        have high := above item held
        rw [decide_eq_true_eq]
        exact Nat.ne_of_gt high
      rw [filter_cons_of_pos (by simp), none_left]
    · have high := above _ later
      rw [filter_cons_of_neg (by rw [decide_eq_true_eq]; exact Nat.ne_of_lt high)]
      exact ih sorted later

/-- An index of the shown records is read, and comes once in every walk that reaches it. -/
theorem Joined.once (joined : Joined logs snapshot start disk shown) {idx : Nat} {payload : α}
    (inside : (idx, payload) ∈ numbered start shown) :
    (∀ lowest ≤ idx, Once idx payload (snapshot.range logs lowest)) ∧
      ∀ highest, highest = 0 ∨ idx ≤ highest →
        Once idx payload (snapshot.scanFromEnd logs highest) := by
  have ascending := numbered_ascending start shown
  have bounded := joined.bounded _ inside
  constructor
  · intro lowest low
    rw [joined.range_eq]
    refine ⟨rfl, filter_number (ascending.filter _) ?_⟩
    exact mem_filter.mpr ⟨inside, decide_eq_true low⟩
  · intro highest high
    rw [joined.scan_eq]
    have low : idx ≤
        if highest = 0 ∨ snapshot.last < highest then snapshot.last else highest := by
      split_ifs with whole
      · exact bounded
      · exact high.resolve_left fun zero => whole (Or.inl zero)
    generalize (if highest = 0 ∨ snapshot.last < highest then snapshot.last else highest) = top
      at low ⊢
    have held : (idx, payload) ∈ (numbered start shown).filter fun item => item.1 ≤ top :=
      mem_filter.mpr ⟨inside, decide_eq_true low⟩
    refine ⟨rfl, ?_⟩
    rw [filter_reverse, filter_number (ascending.filter _) held]
    rfl

end Reading

section Capture

variable {setup : Setup α σ} {start : Nat} {items : List α} {writer : Writer α σ}

/-- The writer got from one state to the other, accepting the records that make up the rest. -/
structure Went (setup : Setup α σ) (start : Nat) (early late : Writer α σ)
    (before after : List α) : Prop where
  from_sound : Sound setup start early before
  to_sound : Sound setup start late after
  grew : before <+: after
  synced : early.buffer.inner.lastIndex ≤ late.buffer.inner.lastIndex

theorem went_after (sound : Sound setup start writer items) (steps : List (WriterStep α))
    (plain : ∀ payload ∈ writer.written setup steps, setup.opts.codec.stored payload = payload) :
    Went setup start writer (writer.after setup steps) items
      (items ++ writer.written setup steps) := by
  obtain ⟨kept, synced⟩ := run_sound sound steps plain
  exact ⟨sound, kept, List.prefix_append _ _, synced⟩

variable {window tail disk reading : Writer α σ} {captured found stored records : List α}

/-- The tail lies between what was accepted at the two loads of `LastIndex`. -/
theorem loaded_tail_bounds (between : Went setup start tail disk found stored) :
    start + found.length ≤ Snapshot.loadedTail tail.buffer disk.buffer + 1 ∧
      Snapshot.loadedTail tail.buffer disk.buffer + 1 ≤ start + stored.length := by
  have fits := between.grew.length_le
  have last := between.from_sound.last_index
  rw [Buffer.lastIndex] at last
  rw [Snapshot.loadedTail]
  split_ifs at last ⊢ with empty
  · have reach := between.to_sound.reach
    have synced := between.synced
    exact ⟨by omega, reach⟩
  · exact ⟨last.ge, by omega⟩

theorem window_ends (waited : Went setup start window tail captured found)
    (between : Went setup start tail disk found stored)
    (timely : Timely window.buffer tail.buffer disk.buffer reading.buffer)
    (busy : window.buffer.entries ≠ []) :
    Snapshot.loadedTail tail.buffer disk.buffer + 1 = start + captured.length := by
  obtain ⟨low, _⟩ := loaded_tail_bounds between
  have fits := waited.grew.length_le
  have length := waited.from_sound.length_window busy
  have some_left := length_pos_of_ne_nil busy
  rw [Timely, if_neg busy, Buffer.lastPending] at timely
  rw [Snapshot.loadedTail] at low ⊢
  split_ifs at timely low ⊢ <;> omega

/-- Where the captured window is empty, the disk reaches the tail when the read runs. -/
theorem disk_reaches (later : Went setup start disk reading stored records)
    (timely : Timely window.buffer tail.buffer disk.buffer reading.buffer)
    (empty : window.buffer.entries = []) :
    Snapshot.loadedTail tail.buffer disk.buffer ≤ reading.buffer.inner.lastIndex := by
  rw [Timely, if_pos empty] at timely
  rw [Snapshot.loadedTail]
  split_ifs with idle
  · exact later.synced
  · exact timely.resolve_left idle

theorem joined_capture (waited : Went setup start window tail captured found)
    (between : Went setup start tail disk found stored)
    (later : Went setup start disk reading stored records)
    (timely : Timely window.buffer tail.buffer disk.buffer reading.buffer) :
    Joined (reading.buffer.inner :: setup.parents)
      (Snapshot.capture window.buffer tail.buffer disk.buffer) start
      (records.take (reading.buffer.inner.lastIndex + 1 - start))
      (records.take (Snapshot.loadedTail tail.buffer disk.buffer + 1 - start)) := by
  have serves := later.to_sound.whole.serves
  have positive := serves.positive
  have synced := waited.synced.trans (between.synced.trans later.synced)
  refine ⟨serves, ?_, ?_, ?_⟩
  · by_cases empty : window.buffer.entries = []
    · have border : (Snapshot.capture window.buffer tail.buffer disk.buffer).border =
          Snapshot.loadedTail tail.buffer disk.buffer + 1 := if_pos empty
      have reached := disk_reaches later timely empty
      obtain ⟨low, _⟩ := loaded_tail_bounds between
      rw [border, ← numbered_below _ positive (by omega), take_take,
        Nat.min_eq_left (by omega)]
      change _ = _ ++ numbered window.buffer.first window.buffer.entries
      rw [empty]
      exact (append_nil _).symm
    · have border : (Snapshot.capture window.buffer tail.buffer disk.buffer).border =
          window.buffer.first := if_neg empty
      have tail_eq := window_ends waited between timely empty
      have length := waited.from_sound.length_window empty
      obtain ⟨low, held, entries⟩ := waited.from_sound.window empty
      obtain ⟨rest, joined⟩ := waited.grew.trans (between.grew.trans later.grew)
      have all : Snapshot.loadedTail tail.buffer disk.buffer + 1 - start = captured.length := by
        omega
      have borrowed : (captured.take (window.buffer.first - start)).length =
          window.buffer.first - start := by
        rw [List.length_take]
        omega
      have place : start + (window.buffer.first - start) = window.buffer.first := by omega
      have split := numbered_append start (captured.take (window.buffer.first - start))
        window.buffer.entries
      rw [borrowed, place, entries, take_append_drop] at split
      rw [border, ← numbered_below _ positive low, take_take, Nat.min_eq_left (by omega), all,
        ← joined, take_left, take_append_of_le_length (by omega), split]
      change _ = _ ++ numbered window.buffer.first window.buffer.entries
      rw [entries]
  · intro item inside
    obtain ⟨above, found_at⟩ := mem_numbered.mp inside
    have short := (List.getElem?_eq_some_iff.mp found_at).1
    rw [List.length_take] at short
    change item.1 ≤ Snapshot.loadedTail tail.buffer disk.buffer
    omega
  · intro busy
    have tail_eq := window_ends waited between timely busy
    have length := waited.from_sound.length_window busy
    have some_left := length_pos_of_ne_nil busy
    change window.buffer.first ≤ Snapshot.loadedTail tail.buffer disk.buffer
    change 0 < window.buffer.entries.length at some_left
    omega

theorem first_index_start (sound : Sound setup start writer items)
    (some_held : 0 < writer.buffer.firstIndex setup.parents) :
    writer.buffer.firstIndex setup.parents = start := by
  have serves := sound.whole.serves
  rw [Buffer.firstIndex] at some_held ⊢
  split_ifs at some_held ⊢ with on_disk pending
  · exact serves.first.resolve_left on_disk
  · have none_stored : items.take (writer.buffer.inner.lastIndex + 1 - start) = [] := by
      by_contra some_stored
      have positive := serves.positive
      have first := serves.shown some_stored
      omega
    have last := sound.whole.last_index
    obtain ⟨low, held, _⟩ := sound.window pending
    rw [none_stored, length_nil] at last
    omega
  · omega

theorem first_index_shown (sound : Sound setup start writer items) (some_shown : items ≠ []) :
    writer.buffer.firstIndex setup.parents = start := by
  have serves := sound.whole.serves
  have positive := serves.positive
  apply first_index_start sound
  rw [Buffer.firstIndex]
  split_ifs with on_disk pending
  · exact Nat.pos_of_ne_zero on_disk
  · exact positive.trans (sound.window pending).1
  · have idle := sound.idle (not_not.mp pending)
    have filled : items.take (writer.buffer.inner.lastIndex + 1 - start) ≠ [] := by
      rw [take_of_length_le (by omega)]
      exact some_shown
    have first := serves.shown filled
    omega

theorem joined_consistent (waited : Went setup start window tail captured found)
    (between : Went setup start tail disk found stored)
    (later : Went setup start disk reading stored records)
    (timely : Timely window.buffer tail.buffer disk.buffer reading.buffer) :
    Consistent setup start records (Snapshot.capture window.buffer tail.buffer disk.buffer)
      reading.buffer := by
  intro idx some_held above below
  change idx ≤ Snapshot.loadedTail tail.buffer disk.buffer at below
  rw [first_index_start later.to_sound some_held] at above
  have joined := joined_capture waited between later timely
  obtain ⟨_, high⟩ := loaded_tail_bounds between
  have fits := later.grew.length_le
  have within : idx - start < records.length := by omega
  have inside : (idx, records[idx - start]) ∈
      numbered start (records.take (Snapshot.loadedTail tail.buffer disk.buffer + 1 - start)) := by
    rw [mem_numbered]
    refine ⟨above, ?_⟩
    rw [getElem?_take_of_lt (by omega)]
    exact getElem?_eq_getElem within
  exact ⟨_, getElem?_eq_getElem within, joined.read_of_mem inside, joined.once inside⟩

end Capture

section Alone

variable {setup : Setup α σ} {buffer : Buffer α σ} {items : List α}

/-- A buffered log between two calls is a writer without a sync under way. -/
theorem Tracks.sound (tracks : Tracks id setup.size setup.parents buffer items)
    (exact : ∀ payload, setup.opts.codec.stored payload = payload) :
    Sound setup 1 ⟨buffer, none⟩ items := by
  have whole := tracks.chained.whole
  have last := whole.last_index
  obtain ⟨later, joined⟩ := tracks.exact_disk
  have length := tracks.length_le
  have shown : items.take (buffer.inner.lastIndex + 1 - 1) =
      visible (buffer.inner :: setup.parents) := by
    rw [← joined, Nat.add_sub_cancel]
    exact take_left' (by omega)
  refine ⟨?_, ?_, ?_, ?_, fun payload _ => exact payload, ?_⟩
  · rw [shown]
    exact whole
  · change buffer.inner.lastIndex + 1 ≤ 1 + items.length
    omega
  · intro busy
    obtain ⟨low, high⟩ := tracks.starts busy
    refine ⟨low, ?_, (tracks.pending busy).symm⟩
    change buffer.first ≤ buffer.inner.lastIndex + 1
    omega
  · intro idle
    have full := tracks.full idle
    change buffer.inner.lastIndex + 1 = 1 + items.length
    omega
  · intro job running
    cases running

/-- A snapshot taken and read while nothing else happens shows all records. -/
theorem joined_alone {start : Nat} (sound : Sound setup start ⟨buffer, none⟩ items) :
    Joined (buffer.inner :: setup.parents) (Snapshot.capture buffer buffer buffer) start
      (items.take (buffer.inner.lastIndex + 1 - start)) items := by
  have still : Went setup start ⟨buffer, none⟩ ⟨buffer, none⟩ items items :=
    ⟨sound, sound, List.prefix_rfl, le_rfl⟩
  have timely : Timely buffer buffer buffer buffer := by
    rw [Timely]
    split_ifs with empty
    · exact Or.inl empty
    · exact le_rfl
  have joined := joined_capture still still still timely
  have tail : Snapshot.loadedTail buffer buffer = buffer.lastIndex := rfl
  have last : buffer.lastIndex + 1 = start + items.length := sound.last_index
  have all : items.take (Snapshot.loadedTail buffer buffer + 1 - start) = items := by
    rw [tail]
    exact take_of_length_le (by omega)
  rw [all] at joined
  exact joined

end Alone

theorem Joined.scan_all {logs : List (Log α σ)} {snapshot : Snapshot α} {start : Nat}
    {disk shown : List α} (joined : Joined logs snapshot start disk shown) :
    snapshot.scanFromEnd logs 0 = ⟨(numbered start shown).reverse, .done⟩ := by
  have all : (numbered start shown).filter (fun item => item.1 ≤ snapshot.last) =
      numbered start shown := by
    apply filter_eq_self.mpr
    intro item inside
    exact decide_eq_true (joined.bounded item inside)
  rw [joined.scan_eq, if_pos (Or.inl rfl), all]

/-- However the writer's steps fall between the loads of a snapshot and a read of it, the read
finds every index up to the captured tail, if the loads belong together. -/
theorem snapshot_shows_captured_tail {setup : Setup α σ} {inner : Log α σ} {start : Nat}
    {items : List α} (whole : Whole (inner :: setup.parents) start items)
    (before between within later : List (WriterStep α)) :
    let window := (Writer.opened inner).after setup before
    let tail := window.after setup between
    let disk := tail.after setup within
    let reading := disk.after setup later
    let written := (Writer.opened inner).written setup before ++ window.written setup between ++
      tail.written setup within ++ disk.written setup later
    (∀ payload ∈ written, setup.opts.codec.stored payload = payload) →
      Timely window.buffer tail.buffer disk.buffer reading.buffer →
      Consistent setup start (items ++ written)
        (Snapshot.capture window.buffer tail.buffer disk.buffer) reading.buffer := by
  intro window tail disk reading written plain timely
  simp only [written, mem_append] at plain
  have captured := went_after (sound_opened whole) before fun payload inside =>
    plain payload (Or.inl (Or.inl (Or.inl inside)))
  have waited := went_after captured.to_sound between fun payload inside =>
    plain payload (Or.inl (Or.inl (Or.inr inside)))
  have loaded := went_after waited.to_sound within fun payload inside =>
    plain payload (Or.inl (Or.inr inside))
  have read := went_after loaded.to_sound later fun payload inside =>
    plain payload (Or.inr inside)
  have consistent := joined_consistent waited loaded read timely
  simp only [append_assoc] at consistent
  simp only [written, append_assoc]
  exact consistent

/-- A fork based at 2 that has lost its front: of its records 2 and 3 the second is left. -/
def holedFork (parent : Log Bytes Bytes) : Log Bytes Bytes :=
  let opts := smallBuffer.opts
  let child := ((Log.blank 2).write opts [parent] 2 (bytes [2])).2
  (child.write opts [parent] 3 (bytes [3])).2.truncateFront 3

/-- Record 2 is published between the loads of a snapshot. It is below the captured tail; it
is not found while it is pending, and once it is on disk both walks leave it out. A fork that
has lost its front answers with the parent's first index and has no record at its own base. -/
theorem published_between_loads_is_missed :
    let window := (Writer.opened (Log.blank 0)).after smallBuffer [.publish 1 (bytes [1])]
    let tail := window.after smallBuffer [.publish 2 (bytes [2])]
    let synced := tail.after smallBuffer [.takeUp 2, .store, .store, .trim]
    let snapshot := Snapshot.capture window.buffer tail.buffer tail.buffer
    let parent := ((Log.blank 0).write smallBuffer.opts [] 1 (bytes [1])).2
    let fork := Buffer.opened (holedFork parent)
    snapshot.last = 2 ∧ snapshot.read [tail.buffer.inner] 2 = .error .notFound ∧
      (snapshot.range [synced.buffer.inner] 1).seen = [(1, bytes [1])] ∧
      (snapshot.scanFromEnd [synced.buffer.inner] 0).seen = [(1, bytes [1])] ∧
      ¬Consistent smallBuffer 1 [bytes [1], bytes [2]] snapshot tail.buffer ∧
      ¬Consistent smallBuffer 1 [bytes [1], bytes [2]] snapshot synced.buffer ∧
      ¬Consistent { smallBuffer with parents := [parent] } 1 [bytes [1], bytes [2], bytes [3]]
        (Snapshot.capture fork fork fork) fork := by
  intro window tail synced snapshot parent fork
  have unread : snapshot.read [tail.buffer.inner] 2 = .error .notFound := by decide
  have skipped : (snapshot.range [synced.buffer.inner] 1).seen = [(1, bytes [1])] := by decide
  have absent : (Snapshot.capture fork fork fork).read [fork.inner, parent] 2 =
      .error .notFound := by decide
  refine ⟨by decide, unread, skipped, by decide, ?_, ?_, ?_⟩
  · intro consistent
    obtain ⟨payload, _, read, _⟩ := consistent 2 (by decide) (by decide) (by decide)
    cases unread.symm.trans read
  · intro consistent
    obtain ⟨payload, _, _, once, _⟩ := consistent 2 (by decide) (by decide) (by decide)
    have missed := (once 1 (by decide)).2
    change ((snapshot.range [synced.buffer.inner] 1).seen.filter _) = _ at missed
    rw [skipped] at missed
    cases missed
  · intro consistent
    obtain ⟨payload, _, read, _⟩ := consistent 2 (by decide) (by decide) (by decide)
    cases absent.symm.trans read

/-- Records reach the disk and leave the window between the loads, and more follow later. -/
theorem synced_between_loads_is_shown :
    let window := (Writer.opened (Log.blank 0)).after smallBuffer
      [.publish 1 (bytes [1]), .publish 2 (bytes [2]), .takeUp 2, .store]
    let tail := window.after smallBuffer [.store, .trim]
    let reading := tail.after smallBuffer [.publish 3 (bytes [3]), .takeUp 3, .store, .trim]
    Consistent smallBuffer 1 [bytes [1], bytes [2], bytes [3]]
      (Snapshot.capture window.buffer tail.buffer tail.buffer) reading.buffer := by
  intro window tail reading
  have records : ([] : List Bytes) ++ ((Writer.opened (Log.blank 0)).written smallBuffer
      [.publish 1 (bytes [1]), .publish 2 (bytes [2]), .takeUp 2, .store] ++
      window.written smallBuffer [.store, .trim] ++ tail.written smallBuffer [] ++
      tail.written smallBuffer [.publish 3 (bytes [3]), .takeUp 3, .store, .trim]) =
      [bytes [1], bytes [2], bytes [3]] := by decide
  rw [← records]
  exact @snapshot_shows_captured_tail _ _ smallBuffer (Log.blank 0) 1 []
    (.root (Log.blank_numbered 0)) _ _ [] _ (by decide) (by decide)

end Figwal.Buffered
