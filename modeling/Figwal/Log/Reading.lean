import Figwal.Log.Refinement

/-!
# Reading a buffered log

With a codec that keeps records as they are, every way of reading cuts at the first
pending record, below which the disk agrees with what was acknowledged. Reads, ranges
and reverse scans are therefore those of the acknowledged list.
-/

namespace Figwal.Buffered

open Figwal.Lib Figwal.Disk List

set_option autoImplicit false

variable {α σ : Type}

theorem numbered_from (items : List α) (first start : Nat) :
    ((items.zipIdx first).map Prod.swap).filter (fun item => start ≤ item.1) =
      ((items.drop (start - first)).zipIdx (max start first)).map Prod.swap := by
  induction items generalizing first with
  | nil => simp
  | cons item rest ih =>
    rw [zipIdx_cons, map_cons, Prod.swap_prod_mk, filter_cons]
    by_cases inside : start ≤ first
    · have whole : start - first = 0 := by omega
      have later : start - (first + 1) = 0 := by omega
      rw [if_pos (by simpa using inside), ih, whole, later, drop_zero, drop_zero,
        Nat.max_eq_right inside, Nat.max_eq_right (by omega), zipIdx_cons, map_cons,
        Prod.swap_prod_mk]
    · have more : start - first = start - (first + 1) + 1 := by omega
      rw [if_neg (by simpa using inside), ih, more, drop_succ_cons,
        Nat.max_eq_left (by omega), Nat.max_eq_left (by omega)]

theorem numbered_through (items : List α) (first high : Nat) :
    ((items.zipIdx first).map Prod.swap).filter (fun item => item.1 ≤ high) =
      ((items.take (high + 1 - first)).zipIdx first).map Prod.swap := by
  induction items generalizing first with
  | nil => simp
  | cons item rest ih =>
    rw [zipIdx_cons, map_cons, Prod.swap_prod_mk, filter_cons]
    by_cases inside : first ≤ high
    · have more : high + 1 - first = high + 1 - (first + 1) + 1 := by omega
      rw [if_pos (by simpa using inside), ih, more, take_succ_cons, zipIdx_cons,
        map_cons, Prod.swap_prod_mk]
    · have none : high + 1 - first = 0 := by omega
      have later : high + 1 - (first + 1) = 0 := by omega
      rw [if_neg (by simpa using inside), ih, none, later]
      rfl

theorem empty_as_not_found_ok {answer : Except Err α} {payload : α} :
    emptyAsNotFound answer = .ok payload ↔ answer = .ok payload := by
  cases answer with
  | ok other => rfl
  | error err => cases err <;> simp [emptyAsNotFound]

namespace Tracks

variable {size : α → Nat} {parents : List (Log α σ)} {buffer : Buffer α σ} {items : List α}

section

variable (tracks : Tracks id size parents buffer items)

include tracks

theorem exact_disk : visible (buffer.inner :: parents) <+: items := by
  have onDisk := tracks.onDisk
  rw [map_id] at onDisk
  exact onDisk

theorem exact_idle (idle : buffer.entries = []) : visible (buffer.inner :: parents) = items :=
  tracks.exact_disk.eq_of_length (tracks.full idle).symm

theorem exact_take (busy : buffer.entries ≠ []) {count : Nat} (below : count < buffer.first) :
    (visible (buffer.inner :: parents)).take count = items.take count := by
  have starts := tracks.starts busy
  rcases tracks.exact_disk with ⟨late, whole⟩
  rw [← whole, take_append_of_le_length (by omega)]

theorem split (busy : buffer.entries ≠ []) :
    items = (visible (buffer.inner :: parents)).take (buffer.first - 1) ++ buffer.entries := by
  have starts := tracks.starts busy
  rw [tracks.exact_take busy (by omega), ← tracks.pending busy, take_append_drop]

theorem read_ok_iff (idx : Nat) (payload : α) :
    buffer.read parents idx = .ok payload ↔ 1 ≤ idx ∧ items[idx - 1]? = some payload := by
  have disk := read_visible tracks.chained idx payload
  rw [Buffer.read, Buffer.pendingAt]
  by_cases idle : buffer.entries = []
  · have none : (if idx < buffer.first then none else buffer.entries[idx - buffer.first]?) =
        (none : Option α) := by
      rw [idle]
      simp
    rw [none]
    rw [empty_as_not_found_ok, disk, tracks.exact_idle idle]
  · have starts := tracks.starts idle
    by_cases low : idx < buffer.first
    · rw [if_pos low]
      rw [empty_as_not_found_ok, disk]
      by_cases positive : 1 ≤ idx
      · have same := tracks.exact_take idle (by omega : idx < buffer.first)
        have left := @getElem?_take_of_lt α (visible (buffer.inner :: parents)) (idx - 1) idx
          (by omega)
        have right := @getElem?_take_of_lt α items (idx - 1) idx (by omega)
        rw [← left, ← right, same]
      · simp [positive]
    · have place : items[idx - 1]? = buffer.entries[idx - buffer.first]? := by
        rw [← tracks.pending idle, getElem?_drop]
        congr 1
        omega
      rw [if_neg low, place]
      cases found : buffer.entries[idx - buffer.first]? with
      | some other =>
        simp only [Except.ok.injEq, Option.some.injEq]
        exact ⟨fun same => ⟨by omega, same⟩, fun both => both.2⟩
      | none =>
        rw [empty_as_not_found_ok, disk]
        have beyond : (visible (buffer.inner :: parents))[idx - 1]? = none := by
          rw [found, getElem?_eq_none_iff] at place
          have short := tracks.length_le
          rw [getElem?_eq_none_iff]
          omega
        rw [beyond]

theorem range_eq (start : Nat) : buffer.range parents start = ⟨listing items start, .done⟩ := by
  rw [Buffer.range, range_visible tracks.chained]
  by_cases idle : buffer.entries = []
  · simp only [if_pos idle, Buffer.pendingItems, tracks.exact_idle idle]
    simp [idle]
  · have starts := tracks.starts idle
    have cut := (visible (buffer.inner :: parents)).length
    simp only [if_neg idle, cut_at_done, Buffer.pendingItems, numbered_from]
    rw [listing, listing, listing_take_while]
    congr 1
    rw [← map_append]
    congr 1
    by_cases low : start ≤ buffer.first
    · have none : start - buffer.first = 0 := by omega
      rw [none, drop_zero, Nat.max_eq_right low, tracks.split idle,
        drop_append_of_le_length (by rw [length_take]; omega), zipIdx_append,
        drop_take]
      congr 2
      · congr 1
        omega
      · rw [length_take, length_drop]
        omega
    · have past : items.drop (start - 1) = buffer.entries.drop (start - buffer.first) := by
        rw [← tracks.pending idle, drop_drop]
        congr 1
        omega
      have nothing : buffer.first - max start 1 = 0 := by omega
      rw [nothing, past, Nat.max_eq_left (by omega), Nat.max_eq_left (by omega)]
      rfl

/-- `ScanFromEnd` shows the acknowledged records up to its start, the last one first. -/
theorem scan_from_end_eq (start : Nat) :
    buffer.scanFromEnd parents start =
      ⟨backlog items (if start = 0 then items.length else start), .done⟩ := by
  have last := tracks.last_index
  have clamp : backlog items (if start = 0 then items.length else start) =
      backlog items (if start = 0 ∨ items.length < start then items.length else start) := by
    by_cases beyond : items.length < start
    · rw [if_neg (by omega), if_pos (Or.inr beyond), backlog, backlog,
        take_of_length_le (by omega), take_length]
    · simp [beyond]
  rw [clamp, Buffer.scanFromEnd, last]
  generalize high_eq : (if start = 0 ∨ items.length < start then items.length else start) = high
  have bound : high ≤ items.length := by
    rw [← high_eq]
    split_ifs <;> omega
  simp only [scan_from_end_visible tracks.chained]
  by_cases none : high = 0
  · rw [if_pos none, none]
    rfl
  · rw [if_neg none]
    by_cases idle : buffer.entries = []
    · simp only [idle, ne_eq, not_true_eq_false, false_and, if_false, tracks.exact_idle idle]
    · have starts := tracks.starts idle
      by_cases pending : buffer.first ≤ high
      · rw [if_pos ⟨idle, pending⟩, Buffer.pendingItems, numbered_through]
        have newest : (items.take high) = (visible (buffer.inner :: parents)).take
            (buffer.first - 1) ++ buffer.entries.take (high + 1 - buffer.first) := by
          have whole := tracks.split idle
          have length : ((visible (buffer.inner :: parents)).take (buffer.first - 1)).length =
              buffer.first - 1 := by
            rw [length_take]
            omega
          rw [whole, take_append, length, take_of_length_le (by omega)]
          congr 2
          omega
        have shape : backlog items high =
            (((buffer.entries.take (high + 1 - buffer.first)).zipIdx buffer.first).map
              Prod.swap).reverse ++
              backlog (visible (buffer.inner :: parents)) (buffer.first - 1) := by
          rw [backlog, newest, zipIdx_append, map_append, reverse_append, backlog,
            length_take]
          congr 5
          omega
        rw [shape]
        split_ifs with root
        · rw [root, backlog, take_zero]
          simp
        · rfl
      · rw [if_neg fun both => pending both.2, backlog, backlog,
          tracks.exact_take idle (by omega)]

end

end Tracks

end Figwal.Buffered
