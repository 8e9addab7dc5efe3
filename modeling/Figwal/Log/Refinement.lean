import Figwal.Log.Buffer

/-!
# The buffered log as a list

`Tracks` relates a buffered log to the list of the records it has acknowledged. The
disk holds the first of them, in the form the codec stores, and the buffer those from
some index on; the two may overlap, and together they leave nothing out. A sync, failed
or not, keeps the relation, and a write extends the list by its record.
-/

namespace Figwal.Buffered

open Figwal.Lib Figwal.Disk List

set_option autoImplicit false

variable {α σ : Type}

theorem total_size_append (size : α → Nat) (early late : List α) :
    totalSize size (early ++ late) = totalSize size early + totalSize size late := by
  induction early with
  | nil => simp [totalSize]
  | cons record rest ih =>
    rw [cons_append, totalSize, ih, totalSize]
    omega

theorem total_size_split (size : α → Nat) (count : Nat) (records : List α) :
    totalSize size records =
      totalSize size (records.take count) + totalSize size (records.drop count) := by
  rw [← total_size_append, take_append_drop]

theorem visible_grown {log next : Log α σ} {parents : List (Log α σ)} {written : List α}
    (base : next.forkBase = log.forkBase) (own : next.own = log.own ++ written) :
    visible (next :: parents) = visible (log :: parents) ++ written := by
  rw [visible, visible, Log.firstWritable, base, own, splice, splice, append_assoc]
  rfl

structure Tracks (stored : α → α) (size : α → Nat) (parents : List (Log α σ))
    (buffer : Buffer α σ) (items : List α) : Prop where
  chained : Chained (buffer.inner :: parents)
  onDisk : visible (buffer.inner :: parents) <+: items.map stored
  full : buffer.entries = [] → items.length = (visible (buffer.inner :: parents)).length
  starts : buffer.entries ≠ [] → 1 ≤ buffer.first ∧
    buffer.first ≤ (visible (buffer.inner :: parents)).length + 1
  pending : buffer.entries ≠ [] → items.drop (buffer.first - 1) = buffer.entries
  bytes : buffer.pendingBytes = totalSize size buffer.entries

namespace Tracks

variable {stored : α → α} {size : α → Nat} {parents : List (Log α σ)} {buffer : Buffer α σ}
  {items : List α}

section

variable (tracks : Tracks stored size parents buffer items)

include tracks

theorem length_le : (visible (buffer.inner :: parents)).length ≤ items.length := by
  have short := tracks.onDisk.length_le
  rw [length_map] at short
  exact short

theorem length_pending (busy : buffer.entries ≠ []) :
    items.length + 1 = buffer.first + buffer.entries.length := by
  have positive := (tracks.starts busy).1
  have length := congrArg List.length (tracks.pending busy)
  have some : 0 < buffer.entries.length := length_pos_iff.mpr busy
  rw [length_drop] at length
  omega

theorem last_index : buffer.lastIndex = items.length := by
  rw [Buffer.lastIndex]
  split_ifs with idle
  · rw [last_index_visible tracks.chained, tracks.full idle]
  · have length := tracks.length_pending idle
    rw [Buffer.lastPending]
    omega

end

theorem opened {inner : Log α σ} (chained : Chained (inner :: parents))
    (kept : ∀ payload ∈ visible (inner :: parents), stored payload = payload) :
    Tracks stored size parents (Buffer.opened inner) (visible (inner :: parents)) where
  chained := chained
  onDisk := by
    have same : (visible (inner :: parents)).map stored = visible (inner :: parents) :=
      (map_congr_left kept).trans (map_id _)
    exact ⟨[], by rw [append_nil, same]; rfl⟩
  full _ := rfl
  starts busy := absurd rfl busy
  pending busy := absurd rfl busy
  bytes := rfl

section

variable (tracks : Tracks stored size parents buffer items)

include tracks

theorem push (payload : α) :
    Tracks stored size parents (buffer.push size (items.length + 1) payload)
      (items ++ [payload]) where
  chained := tracks.chained
  onDisk := by
    rw [map_append]
    exact tracks.onDisk.trans (List.prefix_append _ _)
  full idle := by
    have some : buffer.entries ++ [payload] ≠ [] := by simp
    exact absurd idle some
  starts _ := by
    change 1 ≤ (if _ then _ else _) ∧ (if _ then _ else _) ≤ _
    split_ifs with idle
    · have length := tracks.full idle
      change 1 ≤ items.length + 1 ∧ items.length + 1 ≤
        (visible (buffer.inner :: parents)).length + 1
      omega
    · exact tracks.starts idle
  pending _ := by
    change (items ++ [payload]).drop ((if _ then _ else _) - 1) = buffer.entries ++ [payload]
    split_ifs with idle
    · rw [idle, Nat.add_sub_cancel, drop_left]
      rfl
    · have length := tracks.length_pending idle
      have positive := (tracks.starts idle).1
      rw [drop_append_of_le_length (by omega), tracks.pending idle]
  bytes := by
    change buffer.pendingBytes + size payload = totalSize size (buffer.entries ++ [payload])
    rw [total_size_append, tracks.bytes]
    simp [totalSize]

theorem waiting (busy : buffer.entries ≠ []) :
    items.drop (visible (buffer.inner :: parents)).length =
      buffer.entries.drop ((visible (buffer.inner :: parents)).length + 1 - buffer.first) := by
  have starts := tracks.starts busy
  rw [← tracks.pending busy, drop_drop]
  congr 1
  omega

theorem grown {next : Log α σ} {written rest : List α} (tidy : next.Tidy)
    (base : next.forkBase = buffer.inner.forkBase)
    (own : next.own = buffer.inner.own ++ written.map stored)
    (split : items.drop (visible (buffer.inner :: parents)).length = written ++ rest) :
    Chained (next :: parents) ∧ visible (next :: parents) <+: items.map stored ∧
      (visible (next :: parents)).length =
        (visible (buffer.inner :: parents)).length + written.length := by
  have shown := @visible_grown α σ _ _ parents _ base own
  refine ⟨⟨tidy, ?_, tracks.chained.2.2⟩, ?_, ?_⟩
  · rw [Log.firstWritable, base]
    exact tracks.chained.2.1
  · rcases tracks.onDisk with ⟨late, whole⟩
    have taken : late = (written ++ rest).map stored := by
      rw [← split, map_drop, ← whole, drop_left]
    rw [shown, ← whole, taken, map_append, ← append_assoc]
    exact List.prefix_append _ _
  · rw [shown, length_append, length_map]

end

end Tracks

section Sync

variable {opts : Options α σ} {size : α → Nat} {parents : List (Log α σ)}
  {buffer next : Buffer α σ} {items : List α}

theorem batch_spec (buffer : Buffer α σ) (target : Nat) :
    buffer.batch target = 0 ∧ (buffer.entries = [] ∨ target < buffer.first) ∨
      buffer.entries ≠ [] ∧ buffer.first ≤ target ∧ 0 < buffer.batch target ∧
        buffer.batch target = min buffer.entries.length (target - buffer.first + 1) := by
  unfold Buffer.batch
  split_ifs with idle
  · exact Or.inl ⟨rfl, idle⟩
  · rw [not_or, Nat.not_lt] at idle
    have some : 0 < buffer.entries.length := length_pos_iff.mpr idle.1
    exact Or.inr ⟨idle.1, idle.2, by omega, rfl⟩

theorem tried_waiting (tracks : Tracks opts.codec.stored size parents buffer items)
    (busy : buffer.entries ≠ []) (target : Nat) (fault : Option Nat) :
    ∃ later, items.drop (visible (buffer.inner :: parents)).length =
      Buffer.tried fault (buffer.due (buffer.batch target)) ++ later := by
  have whole : ∃ later, items.drop (visible (buffer.inner :: parents)).length =
      buffer.due (buffer.batch target) ++ later := by
    rw [tracks.waiting busy, Buffer.due, last_index_visible tracks.chained, drop_take]
    exact ⟨_, (take_append_drop _ _).symm⟩
  rcases whole with ⟨later, split⟩
  unfold Buffer.tried
  cases fault with
  | none => exact ⟨later, split⟩
  | some call =>
    refine ⟨(buffer.due (buffer.batch target)).drop call ++ later, ?_⟩
    rw [← append_assoc, take_append_drop]
    exact split

/-- Whatever becomes of a sync, the acknowledged records are the same. A sync that
succeeds has written out its batch. -/
theorem sync_through_spec (tracks : Tracks opts.codec.stored size parents buffer items)
    {target : Nat} {fault : Option Nat} {result : Except Err Unit}
    (done : buffer.syncThrough opts parents size target fault = (result, next)) :
    Tracks opts.codec.stored size parents next items ∧ (result = .ok () →
      next.first = buffer.first + buffer.batch target ∧
        next.entries = buffer.entries.drop (buffer.batch target)) := by
  rw [Buffer.syncThrough] at done
  rcases batch_spec buffer target with ⟨none, _⟩ | ⟨busy, _, some, count⟩
  · rw [if_pos none] at done
    cases done
    rw [none]
    exact ⟨tracks, fun _ => ⟨rfl, rfl⟩⟩
  · rw [if_neg (by omega)] at done
    have starts := tracks.starts busy
    have last := last_index_visible tracks.chained
    have length := visible_length tracks.chained
    have shape := tracks.length_pending busy
    have short := tracks.length_le
    have index : max buffer.first (buffer.inner.lastIndex + 1) =
        buffer.inner.firstWritable + buffer.inner.own.length := by omega
    have part := tried_waiting tracks busy target fault
    rcases part with ⟨later, split⟩
    cases wrote : persist opts parents buffer.inner (max buffer.first (buffer.inner.lastIndex + 1))
        (Buffer.tried fault (buffer.due (buffer.batch target))) with
    | mk answer grown =>
      rcases persist_stored tracks.chained.1 _ index wrote with
        ⟨tidy, grew, written, rest, parted, own, all⟩
      have moved : items.drop (visible (buffer.inner :: parents)).length =
          written ++ (rest ++ later) := by
        rw [split, parted, append_assoc]
      rcases tracks.grown tidy grew.base own moved with ⟨chained, onDisk, longer⟩
      have still : Tracks opts.codec.stored size parents { buffer with inner := grown } items :=
        ⟨chained, onDisk, fun idle => absurd idle busy, fun _ => ⟨starts.1, by
          change buffer.first ≤ (visible (grown :: parents)).length + 1
          omega⟩, fun _ => tracks.pending busy, tracks.bytes⟩
      simp only [wrote] at done
      cases answer with
      | error err =>
        cases done
        exact ⟨still, nofun⟩
      | ok _ =>
        split_ifs at done with failed
        · cases done
          exact ⟨still, nofun⟩
        · cases done
          have everything : Buffer.tried fault (buffer.due (buffer.batch target)) =
              buffer.due (buffer.batch target) := by
            cases fault with
            | none => rfl
            | some call =>
              have beyond : ¬call ≤ (buffer.due (buffer.batch target)).length := by
                simpa using failed
              exact take_of_length_le (by omega)
          have complete : (buffer.due (buffer.batch target)).length = written.length := by
            rw [← everything, parted, all rfl, append_nil]
          have reach : (buffer.due (buffer.batch target)).length = buffer.batch target -
              ((visible (buffer.inner :: parents)).length + 1 - buffer.first) := by
            rw [Buffer.due, last, length_drop, length_take]
            omega
          refine ⟨⟨chained, onDisk, ?_, ?_, ?_, ?_⟩, fun _ => ⟨rfl, rfl⟩⟩
          · intro idle
            rw [drop_eq_nil_iff] at idle
            change items.length = (visible (grown :: parents)).length
            omega
          · intro more
            rw [ne_eq, drop_eq_nil_iff] at more
            change 1 ≤ buffer.first + buffer.batch target ∧
              buffer.first + buffer.batch target ≤ (visible (grown :: parents)).length + 1
            omega
          · intro _
            change items.drop (buffer.first + buffer.batch target - 1) =
              buffer.entries.drop (buffer.batch target)
            rw [← tracks.pending busy, drop_drop]
            congr 1
            omega
          · change buffer.pendingBytes - totalSize size (buffer.entries.take _) =
              totalSize size (buffer.entries.drop _)
            rw [tracks.bytes, total_size_split size (buffer.batch target) buffer.entries]
            omega

end Sync

end Figwal.Buffered
