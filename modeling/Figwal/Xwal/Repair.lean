import Mathlib.Data.List.DropRight
import Mathlib.Data.List.Pairwise
import Figwal.Xwal.Catalog

/-!
# Repair after an unclean shutdown

`repairCoherentCuts` visits the nodes without children. In each related channel it drops
the newest records whose main entry did not survive; a reducible channel may be one
ahead. A node's segments are listed newest first, as the repair visits them. Truncating
or removing one file is one effect, and the repair may be cut short before any of them.

Positions are `uint64`. The root is its own parent in the index, so it counts as a node
with children and is never visited.
-/

namespace Figwal.Xwal.Repair

open List

set_option autoImplicit false

variable {β : Type}

/-- The whole frames of a segment file, without the header of a reducible channel. -/
structure Segment (β : Type) where
  base : Nat
  entries : List β
  deriving DecidableEq, Repr

def history : List (Segment β) → List β
  | [] => []
  | file :: older => history older ++ file.entries

/-- `forkBase` is what the marker `.fork` says, if there is one. -/
def nodeMainTail (forkBase : Option Nat) : List (Segment β) → Nat
  | [] => forkBase.elim 0 fun base => (base + 18446744073709551616 - 1) % 18446744073709551616
  | file :: older =>
    if file.entries.isEmpty then nodeMainTail forkBase older
    else (file.base + file.entries.length - 1) % 18446744073709551616

section Trim

variable (mainLT : β → Nat) (headered : Bool) (bound : Nat)

/-- What the loop over one file's frames leaves, from the newest back. -/
def Segment.kept (file : Segment β) : List β :=
  file.entries.rdropWhile fun record => bound < mainLT record

/-- The loop of `trimChannelNode`, with the number of records dropped. It stops before
its next effect when `limit` effects are done, if a limit is given. -/
def trimSegments (limit : Option Nat) :
    List (Segment β) → Nat × List (Segment β)
  | [] => (0, [])
  | file :: older =>
    if (file.kept mainLT bound).length = file.entries.length then
      if file.entries.isEmpty then
        let later := trimSegments limit older
        (later.1, file :: later.2)
      else (0, file :: older)
    else if limit = some 0 then (0, file :: older)
    else if (file.kept mainLT bound).isEmpty then
      let later := trimSegments (limit.map (· - 1)) older
      (file.entries.length + later.1,
        -- A log segment goes with its last record unless it is the oldest.
        if headered || older.isEmpty then { file with entries := [] } :: later.2 else later.2)
    else (file.entries.length - (file.kept mainLT bound).length,
      { file with entries := file.kept mainLT bound } :: older)

def cutBound (mainTail : Nat) : Nat :=
  if headered then (mainTail + 1) % 18446744073709551616 else mainTail

def trimChannelNode (mainTail : Nat) (limit : Option Nat) (files : List (Segment β)) :
    Nat × List (Segment β) :=
  trimSegments mainLT headered (cutBound headered mainTail) limit files

end Trim

/-!
## What a node's repair leaves
-/

section Outcome

variable {mainLT : β → Nat} {headered : Bool} {bound : Nat}

theorem history_kept (file : Segment β) (older : List (Segment β)) :
    (history (file :: older)).rdropWhile (fun record => bound < mainLT record) =
      if file.kept mainLT bound = [] then
        (history older).rdropWhile fun record => bound < mainLT record
      else history older ++ file.kept mainLT bound := by
  simp only [history, Segment.kept, rdropWhile, reverse_append, dropWhile_append,
    List.isEmpty_iff, reverse_eq_nil_iff]
  split_ifs
  · rfl
  · rw [reverse_append, reverse_reverse]

theorem trim_history {limit : Option Nat} (unlimited : limit = none)
    (files : List (Segment β)) :
    history (trimSegments mainLT headered bound limit files).2 =
      (history files).rdropWhile fun record => bound < mainLT record := by
  fun_induction trimSegments mainLT headered bound limit files with
  | case1 => rfl
  | case2 limit file older same bare later ih =>
    have empty := List.isEmpty_iff.mp bare
    simp [history, empty, later, ih unlimited]
  | case3 limit file older same filled =>
    have front : file.kept mainLT bound <+: file.entries := rdropWhile_prefix _ _
    have whole := front.eq_of_length same
    rw [history_kept, whole, if_neg (mt List.isEmpty_iff.mpr filled)]
    rfl
  | case4 => cases unlimited
  | case5 limit file older shorter spent gone later ih =>
    rw [history_kept, if_pos (List.isEmpty_iff.mp gone), ← ih (by simp [unlimited])]
    split_ifs
    · exact append_nil _
    · rfl
  | case6 limit file older shorter spent left =>
    rw [history_kept, if_neg (mt List.isEmpty_iff.mpr left)]
    rfl

/-- What is cut off refers to lost main entries. What is left does not, if the records
refer to main entries in order. -/
structure Cut (mainLT : β → Nat) (bound : Nat) (before after : List β) : Prop where
  lost : ∃ lost, before = after ++ lost ∧ ∀ record ∈ lost, bound < mainLT record
  coherent : before.Pairwise (fun older newer => mainLT older ≤ mainLT newer) →
    ∀ record ∈ after, mainLT record ≤ bound

theorem rdrop_while_cut (records : List β) :
    Cut mainLT bound records (records.rdropWhile fun record => bound < mainLT record) where
  lost := by
    refine ⟨_, rdropWhile_append_rtakeWhile.symm, fun record inside => ?_⟩
    simpa using mem_rtakeWhile_imp inside
  coherent ordered record inside := by
    have newest := rdropWhile_last_not _ _ (ne_nil_of_mem inside)
    have front := rdropWhile_prefix (bound < mainLT ·) records
    have kept := ordered.sublist front.sublist
    exact (kept.rel_getLast_of_rel_getLast_getLast inside (Nat.le_refl _)).trans
      (by simpa using newest)

/-- A repair that was cut short and one that runs through after it do together what one
repair does. -/
theorem trim_resumed (limit : Option Nat) (files : List (Segment β)) :
    (trimSegments mainLT headered bound none (trimSegments mainLT headered bound limit files).2).2 =
      (trimSegments mainLT headered bound none files).2 := by
  fun_induction trimSegments mainLT headered bound limit files with
  | case1 => rfl
  | case2 limit file older same bare later ih => simp [trimSegments, same, bare, later, ih]
  | case3 => rfl
  | case4 => rfl
  | case5 limit file older shorter spent gone later ih =>
    have bare : Segment.kept mainLT bound { file with entries := [] } = [] := rfl
    by_cases stays : (headered || older.isEmpty) = true
    · simp [trimSegments, stays, bare, shorter, gone, later, ih]
    · simp [trimSegments, stays, shorter, gone, later, ih]
  | case6 limit file older shorter spent left =>
    have again : Segment.kept mainLT bound { file with entries := file.kept mainLT bound } =
        file.kept mainLT bound := rdropWhile_idempotent _ _
    simp [trimSegments, again, left, shorter]

/-- Each segment starts where the older ones end. -/
def Numbered (first : Nat) : List (Segment β) → Prop
  | [] => True
  | file :: older => file.base = first + (history older).length ∧ Numbered first older

/-- At every point of the repair of a log channel its segments are numbered without a
gap. A reducible channel keeps the segments it empties, and with them their bases. -/
theorem trimmed_log_numbered (mainLT : β → Nat) (mainTail first : Nat) (limit : Option Nat)
    (files : List (Segment β)) (numbered : Numbered first files)
    (filled : ∀ file ∈ files, file.entries ≠ []) :
    Numbered first (trimChannelNode mainLT false mainTail limit files).2 := by
  unfold trimChannelNode
  generalize log : false = headered, cutBound false mainTail = bound
  fun_induction trimSegments mainLT headered bound limit files with
  | case1 => trivial
  | case2 limit file older same bare =>
    exact absurd (List.isEmpty_iff.mp bare) (filled file mem_cons_self)
  | case3 | case4 => exact numbered
  | case5 limit file older shorter spent gone later ih =>
    have rest := ih numbered.2 fun file inside => filled file (mem_cons_of_mem _ inside)
    split_ifs with stays
    · obtain rfl : older = [] := by simpa [← log] using stays
      exact ⟨numbered.1, trivial⟩
    · exact rest
  | case6 limit file older shorter spent left => exact ⟨numbered.1, numbered.2⟩

theorem trimmed_after_crash_numbered :
    Numbered 1 (trimChannelNode id false 4 (some 1) [⟨4, [6, 7]⟩, ⟨3, [5]⟩, ⟨1, [3, 4]⟩]).2 :=
  trimmed_log_numbered id 4 1 (some 1) _ ⟨rfl, rfl, rfl, trivial⟩ (by decide)

end Outcome

/-!
## The whole store
-/

/-- What the repair finds: the index, the main channel of each node with its fork base, the
related channels with their kind, and the directories there are. -/
structure Wreck (β : Type) where
  catalog : Catalog
  main : String → Option Nat × List (Segment β)
  related : List (String × Bool)
  files : String → String → Option (List (Segment β))

namespace Wreck

def Leaf (wreck : Wreck β) (node : String) : Prop :=
  node ∈ wreck.catalog.nodes.map Prod.fst ∧ wreck.catalog.childrenOf node = []

instance leafDecidable (wreck : Wreck β) (node : String) : Decidable (wreck.Leaf node) :=
  inferInstanceAs (Decidable (_ ∧ _))

def mainTail (wreck : Wreck β) (node : String) : Nat :=
  nodeMainTail (wreck.main node).1 (wreck.main node).2

def repairDir (mainLT : β → Nat) (wreck : Wreck β) (channel node : String) (limit : Option Nat)
    (files : List (Segment β)) : List (Segment β) :=
  match wreck.related.lookup channel with
  | none => files
  | some headered =>
    if wreck.Leaf node then
      (trimChannelNode mainLT headered (wreck.mainTail node) limit files).2
    else files

/-- Index and manifest are walked in any order, so `limit` says for each directory how
far the repair came. -/
def repairCoherentCuts (mainLT : β → Nat) (limit : String → String → Option Nat)
    (wreck : Wreck β) : Wreck β :=
  { wreck with
    files := fun channel node =>
      (wreck.files channel node).map (wreck.repairDir mainLT channel node (limit channel node)) }

/-- Repairs that were cut short, one after the other. -/
def interrupted (mainLT : β → Nat) (limits : List (String → String → Option Nat))
    (wreck : Wreck β) : Wreck β :=
  limits.foldl (fun wreck limit => wreck.repairCoherentCuts mainLT limit) wreck

variable {mainLT : β → Nat} {wreck : Wreck β}

theorem repair_dir_resumed (channel node : String) (limit : Option Nat)
    (files : List (Segment β)) :
    wreck.repairDir mainLT channel node none (wreck.repairDir mainLT channel node limit files) =
      wreck.repairDir mainLT channel node none files := by
  unfold repairDir
  cases wreck.related.lookup channel with
  | none => rfl
  | some headered =>
    dsimp only
    split_ifs
    · exact trim_resumed limit files
    · rfl

theorem repair_resumed (limit : String → String → Option Nat) :
    (wreck.repairCoherentCuts mainLT limit).repairCoherentCuts mainLT (fun _ _ => none) =
      wreck.repairCoherentCuts mainLT fun _ _ => none := by
  simp only [repairCoherentCuts, Option.map_map]
  congr 1
  funext channel node
  exact congrArg (Option.map · _) (funext (repair_dir_resumed channel node _))

theorem repair_interrupted (limits : List (String → String → Option Nat)) :
    (wreck.interrupted mainLT limits).repairCoherentCuts mainLT (fun _ _ => none) =
      wreck.repairCoherentCuts mainLT fun _ _ => none := by
  induction limits generalizing wreck with
  | nil => rfl
  | cons limit rest ih => exact ih.trans (repair_resumed limit)

/-- However often the repair was cut short, once it has run through, every related channel
of a leaf is cut back to what the main channel still holds. The next position has to be a
`uint64`. -/
theorem repaired_store_coherent (mainLT : β → Nat) (wreck : Wreck β)
    (limits : List (String → String → Option Nat)) (channel node : String) (headered : Bool)
    (files : List (Segment β)) (related : wreck.related.lookup channel = some headered)
    (leaf : wreck.Leaf node) (found : wreck.files channel node = some files)
    (fits : wreck.mainTail node + 1 < 18446744073709551616) :
    ∃ after, ((wreck.interrupted mainLT limits).repairCoherentCuts mainLT
        fun _ _ => none).files channel node = some after ∧
      Cut mainLT (if headered then wreck.mainTail node + 1 else wreck.mainTail node)
        (history files) (history after) := by
  refine ⟨(trimChannelNode mainLT headered (wreck.mainTail node) none files).2, ?_, ?_⟩
  · rw [repair_interrupted]
    change (wreck.files channel node).map _ = _
    rw [found, Option.map_some, repairDir, related]
    exact congrArg some (if_pos leaf)
  · rw [trimChannelNode, trim_history rfl, cutBound, Nat.mod_eq_of_lt fits]
    exact rdrop_while_cut _

/-- A fork whose main channel kept one entry. -/
def sampleWreck : Wreck Nat where
  catalog := ⟨[("", ⟨⟨"", "", "null"⟩, true⟩), ("n0", ⟨⟨"t0", "", "conversation"⟩, false⟩)],
    [("t0", "n0")], 1, 1⟩
  main := fun _ => (some 3, [⟨3, [3]⟩])
  related := [("chat", false)]
  files := fun _ _ => some [⟨2, [4, 5]⟩, ⟨1, [3]⟩]

theorem sample_wreck_repaired :
    ∃ after, ((sampleWreck.interrupted id [fun _ _ => some 1]).repairCoherentCuts id
        fun _ _ => none).files "chat" "n0" = some after ∧ Cut id 3 [3, 4, 5] (history after) :=
  repaired_store_coherent id sampleWreck _ "chat" "n0" false _ rfl (by decide) rfl (by decide)

/-- The root is not visited, not even in a store without forks. -/
example : ¬{ sampleWreck with catalog := (Forest.fresh false).catalog }.Leaf "" := by decide

end Wreck

end Figwal.Xwal.Repair
