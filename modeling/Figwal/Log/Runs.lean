import Figwal.Log.Reading

/-!
# Runs of a buffered log

A ledger is a buffered log together with the records its writes have acknowledged. In
every run over a failing disk the log reads as the ledger's list, as long as no write
fails in the sync it runs itself when the pending bytes exceed their bound: such a
write returns an error and keeps its record.
-/

namespace Figwal.Buffered

open Figwal.Lib Figwal.Disk

set_option autoImplicit false

variable {α σ : Type}

inductive BufferOp (α : Type) where
  | write (idx : Nat) (payload : α) (fault : Option Nat)
  | syncThrough (target : Nat) (fault : Option Nat)
  | sync (fault : Option Nat)

structure Setup (α σ : Type) where
  opts : Options α σ
  parents : List (Log α σ)
  size : α → Nat
  maxLag : Nat

structure Ledger (α σ : Type) where
  buffer : Buffer α σ
  items : List α

def Ledger.opened (setup : Setup α σ) (inner : Log α σ) : Ledger α σ where
  buffer := Buffer.opened inner
  items := visible (inner :: setup.parents)

def Ledger.step (setup : Setup α σ) (ledger : Ledger α σ) : BufferOp α → Ledger α σ
  | .write idx payload fault =>
    let done := ledger.buffer.write setup.opts setup.parents setup.size setup.maxLag idx payload
      fault
    { buffer := done.2
      items := match done.1 with
        | .ok () => ledger.items ++ [payload]
        | .error _ => ledger.items }
  | .syncThrough target fault =>
    { ledger with
      buffer := (ledger.buffer.syncThrough setup.opts setup.parents setup.size target fault).2 }
  | .sync fault =>
    { ledger with
      buffer := (ledger.buffer.sync setup.opts setup.parents setup.size fault).2 }

def Buffer.waiting (buffer : Buffer α σ) : List α :=
  buffer.entries.drop (buffer.inner.lastIndex + 1 - buffer.first)

def Buffer.Accepts (setup : Setup α σ) (buffer : Buffer α σ) (payload : α) : Prop :=
  (persist setup.opts setup.parents buffer.inner (buffer.inner.lastIndex + 1)
    (buffer.waiting ++ [payload])).1 = .ok ()

def Buffer.Overflows (setup : Setup α σ) (buffer : Buffer α σ) (idx : Nat) (payload : α) : Prop :=
  buffer.inner.readOnly = false ∧ idx = buffer.lastIndex + 1 ∧
    setup.maxLag < buffer.pendingBytes + setup.size payload

def Calm (setup : Setup α σ) (ledger : Ledger α σ) : BufferOp α → Prop
  | .write idx payload fault =>
    ledger.buffer.Overflows setup idx payload →
      fault = none ∧ ledger.buffer.Accepts setup payload
  | _ => True

instance (setup : Setup α σ) (ledger : Ledger α σ) (op : BufferOp α) :
    Decidable (Calm setup ledger op) := by
  cases op <;> unfold Calm Buffer.Overflows Buffer.Accepts <;> infer_instance

/-- The log reads as the list of what it has acknowledged, and what is on disk is the
beginning of that list. -/
structure Faithful (setup : Setup α σ) (ledger : Ledger α σ) : Prop where
  read : ∀ idx payload, ledger.buffer.read setup.parents idx = .ok payload ↔
    1 ≤ idx ∧ ledger.items[idx - 1]? = some payload
  range : ∀ start, ledger.buffer.range setup.parents start = ⟨listing ledger.items start, .done⟩
  scan : ∀ start, ledger.buffer.scanFromEnd setup.parents start =
    ⟨backlog ledger.items (if start = 0 then ledger.items.length else start), .done⟩
  last : ledger.buffer.lastIndex = ledger.items.length
  bytes : ledger.buffer.pendingBytes = totalSize setup.size ledger.buffer.entries
  written : visible (ledger.buffer.inner :: setup.parents) <+: ledger.items

section Steps

variable {setup : Setup α σ} {ledger : Ledger α σ} {buffer next : Buffer α σ} {items : List α}

theorem Tracks.faithful (tracks : Tracks id setup.size setup.parents ledger.buffer ledger.items) :
    Faithful setup ledger where
  read := tracks.read_ok_iff
  range := tracks.range_eq
  scan := tracks.scan_from_end_eq
  last := tracks.last_index
  bytes := tracks.bytes
  written := tracks.exact_disk

theorem sync_through_ok
    (tracks : Tracks setup.opts.codec.stored setup.size setup.parents buffer items) {target : Nat}
    (all : buffer.allPending ≤ target + 1)
    (accepted : (persist setup.opts setup.parents buffer.inner (buffer.inner.lastIndex + 1)
      buffer.waiting).1 = .ok ()) :
    (buffer.syncThrough setup.opts setup.parents setup.size target none).1 = .ok () := by
  rw [Buffer.syncThrough]
  rcases batch_spec buffer target with ⟨none, _⟩ | ⟨busy, low, some, count⟩
  · rw [if_pos none]
  · have starts := tracks.starts busy
    have last := last_index_visible tracks.chained
    have whole : buffer.batch target = buffer.entries.length := by
      rw [Buffer.allPending] at all
      omega
    have due : buffer.due (buffer.batch target) = buffer.waiting := by
      rw [Buffer.due, whole, List.take_length]
      rfl
    have index : max buffer.first (buffer.inner.lastIndex + 1) = buffer.inner.lastIndex + 1 := by
      omega
    rw [if_neg (by omega), due, index]
    cases wrote : persist setup.opts setup.parents buffer.inner (buffer.inner.lastIndex + 1)
        buffer.waiting with
    | mk answer grown =>
      rw [wrote] at accepted
      rw [show answer = .ok () from accepted] at wrote
      simp only [Buffer.tried, wrote]
      rfl

theorem push_waiting
    (tracks : Tracks setup.opts.codec.stored setup.size setup.parents buffer items) (payload : α) :
    (buffer.push setup.size (items.length + 1) payload).waiting = buffer.waiting ++ [payload] := by
  have last := last_index_visible tracks.chained
  change (buffer.entries ++ [payload]).drop (buffer.inner.lastIndex + 1 - (if _ then _ else _)) = _
  rw [Buffer.waiting]
  split_ifs with idle
  · have length := tracks.full idle
    rw [idle, List.drop_nil, last, ← length, Nat.sub_self, List.drop_zero]
  · have shape := tracks.length_pending idle
    have short := tracks.length_le
    rw [List.drop_append_of_le_length (by omega)]

/-- A write is refused without a trace, or the record is pending, and with it the log may
be over its bound. -/
theorem write_cases {idx : Nat} {payload : α} {fault : Option Nat} {result : Except Err Unit}
    (done : buffer.write setup.opts setup.parents setup.size setup.maxLag idx payload fault =
      (result, next)) :
    (∃ err, result = .error err ∧ next = buffer) ∨
      buffer.inner.readOnly = false ∧ idx = buffer.lastIndex + 1 ∧
        (setup.maxLag < (buffer.push setup.size idx payload).pendingBytes ∧
            (buffer.push setup.size idx payload).syncThrough setup.opts setup.parents setup.size
              idx fault = (result, next) ∨
          ¬setup.maxLag < (buffer.push setup.size idx payload).pendingBytes ∧
            result = .ok () ∧ next = buffer.push setup.size idx payload) := by
  rw [Buffer.write] at done
  by_cases locked : buffer.inner.readOnly = true
  · rw [if_pos locked] at done
    cases done
    exact Or.inl ⟨_, rfl, rfl⟩
  · rw [if_neg locked] at done
    by_cases apart : idx ≠ buffer.lastIndex + 1
    · rw [if_pos apart] at done
      cases done
      exact Or.inl ⟨_, rfl, rfl⟩
    · rw [if_neg apart] at done
      refine Or.inr ⟨Bool.not_eq_true _ ▸ locked, not_not.mp apart, ?_⟩
      by_cases exceeds : setup.maxLag < (buffer.push setup.size idx payload).pendingBytes
      · simp only [if_pos exceeds] at done
        exact Or.inl ⟨exceeds, done⟩
      · simp only [if_neg exceeds] at done
        cases done
        exact Or.inr ⟨exceeds, rfl, rfl⟩

/-- A write is refused without a trace, or its record joins the acknowledged ones. The
answer is an error only if the sync it runs fails. -/
theorem write_spec
    (tracks : Tracks setup.opts.codec.stored setup.size setup.parents buffer items) {idx : Nat}
    {payload : α} {fault : Option Nat} {result : Except Err Unit}
    (done : buffer.write setup.opts setup.parents setup.size setup.maxLag idx payload fault =
      (result, next)) :
    (∃ err, result = .error err ∧ next = buffer) ∨
      Tracks setup.opts.codec.stored setup.size setup.parents next (items ++ [payload]) ∧
        ((buffer.Overflows setup idx payload → fault = none ∧ buffer.Accepts setup payload) →
          result = .ok ()) := by
  rcases write_cases done with refused | ⟨writable, here, outcome⟩
  · exact Or.inl refused
  · right
    have pushed := tracks.push payload
    rw [← tracks.last_index, ← here] at pushed
    rcases outcome with ⟨exceeds, synced⟩ | ⟨_, rfl, rfl⟩
    · refine ⟨(sync_through_spec pushed synced).1, fun calm => ?_⟩
      rcases calm ⟨writable, here, exceeds⟩ with ⟨works, accepted⟩
      have succeeds : ((buffer.push setup.size idx payload).syncThrough
          setup.opts setup.parents setup.size idx none).1 = .ok () := by
        apply sync_through_ok pushed
        · have shape := pushed.length_pending (by simp [Buffer.push])
          rw [List.length_append, List.length_singleton, ← tracks.last_index, ← here] at shape
          rw [Buffer.allPending]
          omega
        · rw [here, tracks.last_index, push_waiting tracks]
          exact accepted
      rw [works] at synced
      rw [synced] at succeeds
      exact succeeds
    · exact ⟨pushed, fun _ => rfl⟩

theorem step_tracks
    (tracks : Tracks setup.opts.codec.stored setup.size setup.parents ledger.buffer ledger.items)
    {op : BufferOp α} (calm : Calm setup ledger op) :
    Tracks setup.opts.codec.stored setup.size setup.parents (ledger.step setup op).buffer
      (ledger.step setup op).items := by
  cases op with
  | write idx payload fault =>
    rw [Ledger.step]
    cases done : ledger.buffer.write setup.opts setup.parents setup.size setup.maxLag idx payload
        fault with
    | mk result next =>
      rcases write_spec tracks done with ⟨err, failed, same⟩ | ⟨grown, answers⟩
      · rw [failed, same]
        exact tracks
      · rw [answers calm]
        exact grown
  | syncThrough target fault => exact (sync_through_spec tracks rfl).1
  | sync fault => exact (sync_through_spec tracks rfl).1

end Steps

/-- Over the binary codec a run whose over-the-bound writes meet a working disk leaves a
log that reads as the list of the acknowledged records. -/
theorem buffered_log_is_list {setup : Setup Bytes Bytes}
    (binary : setup.opts.codec = binaryCodec) {inner : Log Bytes Bytes}
    (chained : Chained (inner :: setup.parents)) {run : List (BufferOp Bytes)}
    (calm : EveryStep (Ledger.step setup) (Calm setup) (Ledger.opened setup inner) run) :
    Faithful setup (run.foldl (Ledger.step setup) (Ledger.opened setup inner)) := by
  have stored : setup.opts.codec.stored = id := by rw [binary]; rfl
  have tracks := invariant_after (Ledger.step setup)
    (fun ledger => Tracks setup.opts.codec.stored setup.size setup.parents ledger.buffer
      ledger.items)
    (fun ledger op holds meets => step_tracks holds meets)
    (Tracks.opened chained fun payload _ => by rw [stored]; rfl) calm
  rw [stored] at tracks
  exact tracks.faithful

def smallBuffer : Setup Bytes Bytes where
  opts := { codec := binaryCodec, segmentSize := 16, onSegmentOpen := none }
  parents := []
  size := byteCount
  maxLag := 3

/-- A write is refused because the sync it runs fails, and its record is read all the
same, and keeps the index. In a directory whose only file is an unused one for index 2 a
record is acknowledged as the first and not found there. -/
theorem refused_write_is_read :
    let four := bytes [1, 2, 3, 4]
    let start := Ledger.opened smallBuffer (Log.blank 0)
    let refused := start.buffer.write smallBuffer.opts [] byteCount 3 1 four (some 0)
    (refused.1 = .error .io ∧ refused.2.read [] 1 = .ok four ∧
      (refused.2.write smallBuffer.opts [] byteCount 3 1 (bytes [5]) none).1 =
        .error .outOfOrder ∧
      ¬Faithful smallBuffer (start.step smallBuffer (.write 1 four (some 0)))) ∧
    ∃ lone grown, openDir smallBuffer.opts 0 [create 2 16] false = .ok lone ∧
      (Buffer.opened lone).write smallBuffer.opts [] byteCount 3 1 four none = (.ok (), grown) ∧
      grown.read [] 1 = .error .notFound := by
  refine ⟨⟨by decide, by decide, by decide, fun faithful => ?_⟩, _, _, rfl, rfl, by decide⟩
  exact absurd ((faithful.read 1 (bytes [1, 2, 3, 4])).1 (by decide)).2 (by decide)

/-- Syncs whose write and whose fsync fail, a retry, and a write over the bound. -/
def unsteadyRun : List (BufferOp Bytes) :=
  [.write 1 (bytes [1]) none, .write 2 (bytes [2, 3]) none, .syncThrough 2 (some 1),
    .syncThrough 2 (some 1), .write 3 (bytes []) none, .syncThrough 1 none,
    .write 4 (bytes [4, 5]) none, .sync (some 3), .sync none]

theorem unsteady_run_is_list :
    (unsteadyRun.foldl (Ledger.step smallBuffer)
      (Ledger.opened smallBuffer (Log.blank 0))).items =
        [bytes [1], bytes [2, 3], bytes [], bytes [4, 5]] ∧
    Faithful smallBuffer (unsteadyRun.foldl (Ledger.step smallBuffer)
      (Ledger.opened smallBuffer (Log.blank 0))) := by
  refine ⟨by decide, buffered_log_is_list rfl ?_ (by decide)⟩
  exact ⟨Log.blank_tidy 0, by decide, trivial⟩

end Figwal.Buffered
