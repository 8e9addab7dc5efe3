import Mathlib.Data.List.Basic
import Mathlib.Data.List.Induction

/-!
# Frames in a file

A file is a sequence of frames, each of which can be told from what follows it. Scanning
takes one frame after the other and stops at the first that is not all there, so a file
that was cut anywhere yields the frames before the cut.
-/

namespace Figwal.Lib

open List

set_option autoImplicit false

variable {β : Type}

/-- The lengths of the frames found by stepping through a file. `next` gives the length of
the frame a file starts with. -/
def scanLengths (next : List β → Option Nat) : Nat → List β → List Nat
  | 0, _ => []
  | fuel + 1, file =>
    match next file with
    | none => []
    | some length => length :: scanLengths next fuel (file.drop length)

/-- A frame that is found whatever follows it, and not found when part of it is missing. -/
structure Framed (next : List β → Option Nat) (frame : List β) : Prop where
  filled : 0 < frame.length
  found : ∀ rest, next (frame ++ rest) = some frame.length
  torn : ∀ cut < frame.length, next (frame.take cut) = none

def wholeFrames : Nat → List (List β) → List (List β)
  | _, [] => []
  | cut, frame :: rest =>
    if frame.length ≤ cut then frame :: wholeFrames (cut - frame.length) rest else []

def tornPart : Nat → List (List β) → List β
  | _, [] => []
  | cut, frame :: rest =>
    if frame.length ≤ cut then tornPart (cut - frame.length) rest else frame.take cut

section Scanning

variable {next : List β → Option Nat} {frames : List (List β)}

theorem whole_frames_leading (cut : Nat) (frames : List (List β)) :
    wholeFrames cut frames <+: frames := by
  induction frames generalizing cut with
  | nil => exact List.prefix_refl _
  | cons frame rest ih =>
    rw [wholeFrames]
    split_ifs
    · exact (List.prefix_cons_inj frame).mpr (ih _)
    · exact List.nil_prefix

theorem whole_frames_length {cut : Nat} (frames : List (List β)) :
    (wholeFrames cut frames).flatten.length ≤ cut := by
  induction frames generalizing cut with
  | nil => exact Nat.zero_le _
  | cons frame rest ih =>
    rw [wholeFrames]
    split_ifs with fits
    · have later := @ih (cut - frame.length)
      rw [flatten_cons, length_append]
      omega
    · exact Nat.zero_le _

theorem whole_torn (cut : Nat) (frames : List (List β)) :
    (wholeFrames cut frames).flatten ++ tornPart cut frames = frames.flatten.take cut := by
  induction frames generalizing cut with
  | nil => simp [wholeFrames, tornPart]
  | cons frame rest ih =>
    rw [wholeFrames, tornPart, flatten_cons]
    split_ifs with fits
    · rw [flatten_cons, append_assoc, ih, take_append, take_of_length_le fits]
    · rw [flatten_nil, nil_append, take_append_of_le_length (by omega)]

theorem torn_part_cases (cut : Nat) (frames : List (List β)) :
    tornPart cut frames = [] ∨
      ∃ frame ∈ frames, ∃ part < frame.length, tornPart cut frames = frame.take part := by
  induction frames generalizing cut with
  | nil => exact Or.inl rfl
  | cons frame rest ih =>
    rw [tornPart]
    split_ifs with fits
    · refine (ih _).imp_right ?_
      intro ⟨other, inside, part, short, torn⟩
      exact ⟨other, mem_cons_of_mem _ inside, part, short, torn⟩
    · exact Or.inr ⟨frame, mem_cons_self, cut, by omega, rfl⟩

theorem torn_part_unread (framed : ∀ frame ∈ frames, Framed next frame) (none : next [] = none)
    (cut : Nat) : next (tornPart cut frames) = Option.none := by
  rcases torn_part_cases cut frames with empty | ⟨frame, inside, part, short, torn⟩
  · rw [empty]
    exact none
  · rw [torn]
    exact (framed frame inside).torn part short

theorem whole_frames_iff {cut idx : Nat} : idx < (wholeFrames cut frames).length ↔
      idx < frames.length ∧ (frames.take (idx + 1)).flatten.length ≤ cut := by
  induction frames generalizing cut idx with
  | nil => simp [wholeFrames]
  | cons frame rest ih =>
    rw [wholeFrames, take_succ_cons, flatten_cons, length_append]
    split_ifs with fits
    · cases idx with
      | zero => simp [fits]
      | succ idx =>
        rw [length_cons, length_cons, Nat.succ_lt_succ_iff, Nat.succ_lt_succ_iff, ih]
        exact and_congr_right fun _ => by omega
    · simp only [length_nil, Nat.not_lt_zero, false_iff, not_and]
      intro _
      omega

theorem scan_lengths_append (framed : ∀ frame ∈ frames, Framed next frame) (rest : List β)
    {fuel : Nat} (enough : frames.length ≤ fuel) :
    scanLengths next fuel (frames.flatten ++ rest) =
      frames.map List.length ++ scanLengths next (fuel - frames.length) rest := by
  induction frames generalizing fuel with
  | nil => rfl
  | cons frame later ih =>
    have here := framed frame mem_cons_self
    cases fuel with
    | zero => simp at enough
    | succ fuel =>
      rw [flatten_cons, append_assoc, scanLengths, here.found]
      simp only
      rw [drop_left, ih (fun other member => framed other (mem_cons_of_mem _ member))
        (Nat.le_of_succ_le_succ enough), length_cons, Nat.succ_sub_succ]
      rfl

theorem scan_lengths_none {rest : List β} (stops : next rest = none) (fuel : Nat) :
    scanLengths next fuel rest = [] := by
  cases fuel with
  | zero => rfl
  | succ fuel => rw [scanLengths, stops]

theorem scan_lengths_flatten (framed : ∀ frame ∈ frames, Framed next frame) {rest : List β}
    (stops : next rest = none) {fuel : Nat} (enough : frames.length ≤ fuel) :
    scanLengths next fuel (frames.flatten ++ rest) = frames.map List.length := by
  rw [scan_lengths_append framed rest enough, scan_lengths_none stops, append_nil]

theorem framed_length (framed : ∀ frame ∈ frames, Framed next frame) :
    frames.length ≤ frames.flatten.length := by
  induction frames with
  | nil => exact Nat.le_refl _
  | cons frame rest ih =>
    have here := (framed frame mem_cons_self).filled
    have later := ih fun other member => framed other (mem_cons_of_mem _ member)
    rw [flatten_cons, length_append, length_cons]
    omega

end Scanning

def offsetsFrom : Nat → List Nat → List Nat
  | _, [] => []
  | start, length :: rest => start :: offsetsFrom (start + length) rest

def total : List Nat → Nat
  | [] => 0
  | length :: rest => length + total rest

theorem offsets_length (start : Nat) (lengths : List Nat) :
    (offsetsFrom start lengths).length = lengths.length := by
  induction lengths generalizing start with
  | nil => rfl
  | cons length rest ih => rw [offsetsFrom, length_cons, length_cons, ih]

theorem total_lengths (frames : List (List β)) :
    total (frames.map List.length) = frames.flatten.length := by
  induction frames with
  | nil => rfl
  | cons frame rest ih =>
    rw [map_cons, total, ih, flatten_cons, length_append]

theorem total_append (early late : List Nat) :
    total (early ++ late) = total early + total late := by
  induction early with
  | nil => exact (Nat.zero_add _).symm
  | cons length rest ih => rw [cons_append, total, total, ih, Nat.add_assoc]

theorem offsets_append (start : Nat) (early late : List Nat) :
    offsetsFrom start (early ++ late) =
      offsetsFrom start early ++ offsetsFrom (start + total early) late := by
  induction early generalizing start with
  | nil => rfl
  | cons length rest ih =>
    rw [cons_append, offsetsFrom, offsetsFrom, ih, total, Nat.add_assoc]
    rfl

theorem offsets_end {start idx : Nat} {lengths : List Nat} (inside : idx < lengths.length) :
    (offsetsFrom start lengths).getD (idx + 1) (start + total lengths) =
      start + total (lengths.take (idx + 1)) := by
  induction lengths generalizing start idx with
  | nil => cases inside
  | cons length rest ih =>
    rw [offsetsFrom, getD_cons_succ, total, ← Nat.add_assoc, take_succ_cons, total,
      ← Nat.add_assoc]
    cases idx with
    | zero =>
      cases rest with
      | nil => simp [offsetsFrom, total]
      | cons second more => simp [offsetsFrom, total]
    | succ idx => exact ih (Nat.lt_of_succ_lt_succ inside)

def sliceAt (file : List β) (offsets : List Nat) (size idx : Nat) : List β :=
  let start := offsets.getD idx 0
  (file.drop start).take (offsets.getD (idx + 1) size - start)

theorem slice_at_frame {header rest : List β} {frames : List (List β)} {idx : Nat}
    {frame : List β} (there : frames[idx]? = some frame) :
    sliceAt (header ++ frames.flatten ++ rest)
      (offsetsFrom header.length (frames.map List.length))
      (header.length + frames.flatten.length) idx = frame := by
  induction frames generalizing header idx with
  | nil => cases there
  | cons first later ih =>
    cases idx with
    | zero =>
      cases there
      have next : (offsetsFrom header.length ((frame :: later).map List.length)).getD 1
          (header.length + (frame :: later).flatten.length) = header.length + frame.length := by
        cases later with
        | nil => simp [offsetsFrom]
        | cons second more => simp [offsetsFrom]
      rw [sliceAt, next]
      have start : (offsetsFrom header.length ((frame :: later).map List.length)).getD 0 0 =
          header.length := rfl
      simp only [start, append_assoc, drop_left, flatten_cons,
        Nat.add_sub_cancel_left, take_left]
    | succ idx =>
      have shifted := @ih (header ++ first) idx there
      have file : header ++ first ++ later.flatten ++ rest =
          header ++ (first :: later).flatten ++ rest := by simp
      rw [file, length_append] at shifted
      rw [← shifted, sliceAt, sliceAt]
      simp [offsetsFrom, Nat.add_assoc]

end Figwal.Lib
