import Figwal.Disk.Log
import Figwal.Forest.Steps

/-!
# The cuts of a lineage

The keys of a range belong to the nodes of a lineage by the bases of its forks, as the
reads of a log do: a key below the base of a fork is its parent's. `split` cuts a range
at these bases. It takes the base 0 for that of a root, wherever it stands.
-/

namespace Figwal.Forest

open List

set_option autoImplicit false

variable {lineage rest : List Ref} {ref next : Ref} {lo toKey key : Nat}

def deepest (lineage : List Ref) (key : Nat) : Option Ref :=
  (lineage.filter fun ref => decide (ref.base ≤ key)).getLast?

structure Rooted (lineage : List Ref) : Prop where
  root : lineage.head?.map Ref.base = some 0
  grows : lineage.Pairwise fun parent child => parent.base ≤ child.base

def Forked (lineage : List Ref) : Prop := ∀ child ∈ lineage.tail, 0 < child.base

/-- Cuts that follow on each other from one key to another, none of them empty. -/
def Tiles : List Coord → Nat → Nat → Prop
  | [], lo, hi => lo = hi
  | cut :: rest, lo, hi => cut.fromKey = lo ∧ lo < cut.toKey ∧ Tiles rest cut.toKey hi

theorem deepest_before (begun : ref.base ≤ key) (before : ∀ child ∈ rest, key < child.base) :
    deepest (ref :: rest) key = some ref := by
  have others : rest.filter (fun child => decide (child.base ≤ key)) = [] := by
    apply filter_eq_nil_iff.mpr
    intro child member
    simpa using before child member
  rw [deepest, filter_cons_of_pos (by simpa using begun), others]
  rfl

theorem deepest_behind (begun : next.base ≤ key) :
    deepest (ref :: next :: rest) key = deepest (next :: rest) key := by
  have filled : (next :: rest).filter (fun child => decide (child.base ≤ key)) ≠ [] := by
    rw [filter_cons_of_pos (by simpa using begun)]
    exact cons_ne_nil _ _
  unfold deepest
  rw [filter_cons]
  split_ifs
  · exact getLast?_cons_of_ne_nil filled
  · rfl

theorem split_deepest (grows : lineage.Pairwise fun parent child => parent.base ≤ child.base)
    (forked : Forked lineage) (begun : ∀ first ∈ lineage.head?, first.base ≤ lo + 1)
    {cut : Coord} (member : cut ∈ split lineage lo toKey) (above : cut.fromKey < key)
    (below : key ≤ cut.toKey) :
    lo < key ∧ ∃ owner, deepest lineage key = some owner ∧ owner.node = cut.node := by
  induction lineage generalizing lo with
  | nil => cases member
  | cons ref rest ih =>
    have first := begun ref rfl
    obtain ⟨_, later⟩ := pairwise_cons.mp grows
    rcases mem_split.mp member with ⟨ahead, rfl⟩ | ⟨more, inside⟩
    · refine ⟨above, ref, deepest_before (Nat.le_trans first above) ?_, rfl⟩
      intro child inside
      cases rest with
      | nil => cases inside
      | cons next rest =>
        have positive := forked next mem_cons_self
        have least : next.base ≤ child.base := by
          rcases mem_cons.mp inside with rfl | behind
          · exact Nat.le_refl _
          · exact (pairwise_cons.mp later).1 child behind
        dsimp only [cutEnd] at below
        split_ifs at below <;> omega
    · cases rest with
      | nil => cases inside
      | cons next rest =>
        have reached : next.base ≤ max lo (cutEnd (next :: rest) toKey) + 1 := by
          dsimp only [cutEnd] at more ⊢
          split_ifs at more ⊢ <;> omega
        obtain ⟨past, owner, owned, same⟩ := ih later
          (fun child held => forked child (mem_of_mem_tail held))
          (fun first here => Option.some.inj here ▸ reached) inside
        refine ⟨by omega, owner, ?_, same⟩
        rw [deepest_behind (Nat.le_trans reached past)]
        exact owned

theorem split_tiles (filled : lineage ≠ []) (ordered : lo ≤ toKey) :
    Tiles (split lineage lo toKey) lo toKey := by
  induction lineage generalizing lo with
  | nil => exact absurd rfl filled
  | cons ref rest ih =>
    have bound := cut_end_le rest toKey
    -- The last node of a lineage takes the rest of the range.
    have more : cutEnd rest toKey < toKey → rest ≠ [] := by
      intro short last
      rw [last] at short
      exact absurd short (Nat.lt_irrefl _)
    rw [split]
    split_ifs with ahead ended ended
    · exact ⟨rfl, ahead, Nat.le_antisymm bound ended⟩
    · exact ⟨rfl, ahead, ih (more (Nat.not_le.mp ended)) bound⟩
    · exact Nat.le_antisymm ordered ended
    · exact ih (more (by omega)) ordered

/-- Each key of the range is in one of the cuts, and no other key in any. -/
theorem Tiles.once {cuts : List Coord} {hi : Nat} (tiles : Tiles cuts lo hi) (key : Nat) :
    lo ≤ hi ∧ cuts.countP (fun cut => decide (cut.fromKey < key ∧ key ≤ cut.toKey)) =
      if lo < key ∧ key ≤ hi then 1 else 0 := by
  induction cuts generalizing lo with
  | nil =>
    have same : lo = hi := tiles
    rw [if_neg (by omega)]
    exact ⟨Nat.le_of_eq same, rfl⟩
  | cons cut rest ih =>
    obtain ⟨rfl, ahead, later⟩ := tiles
    obtain ⟨high, counted⟩ := ih later
    refine ⟨by omega, ?_⟩
    rw [countP_cons, counted]
    simp only [decide_eq_true_eq]
    split_ifs <;> omega

/-- A chain of logs with these fork bases serves a key from the log of the deepest node. -/
theorem read_deepest {α σ : Type} {handles : List (Ref × Disk.Log α σ)}
    (based : ∀ handle ∈ handles, handle.2.forkBase = handle.1.base)
    (begun : ∀ first ∈ handles.head?, first.1.base ≤ key) (filled : handles ≠ []) :
    ∃ handle ∈ handles, deepest (handles.map Prod.fst) key = some handle.1 ∧
      Disk.read (handles.map Prod.snd).reverse key = handle.2.readOwn key := by
  induction handles using List.reverseRecOn with
  | nil => exact absurd rfl filled
  | append_singleton parents last ih =>
    have base := based last (mem_append_right _ mem_cons_self)
    rw [map_append, map_append, reverse_append, map_singleton,
      map_singleton, reverse_singleton, singleton_append, Disk.read, deepest,
      filter_append]
    by_cases own : last.1.base ≤ key
    · refine ⟨last, mem_append_right _ mem_cons_self, ?_, ?_⟩
      · rw [filter_cons_of_pos (by simpa using own), filter_nil,
          getLast?_concat]
      · rw [if_neg]
        rintro ⟨_, short⟩
        omega
    · have more : parents ≠ [] := by
        rintro rfl
        exact own (begun last rfl)
      obtain ⟨handle, member, found, served⟩ := ih
        (fun handle inside => based handle (mem_append_left _ inside))
        (fun first here => begun first (by
          rw [head?_append_of_ne_nil _ more]
          exact here)) more
      refine ⟨handle, mem_append_left _ member, ?_, ?_⟩
      · rw [filter_cons_of_neg (by simpa using own), filter_nil, append_nil]
        exact found
      · rw [if_pos ⟨by simpa using more, by omega⟩]
        exact served

/-- `split` cuts a range along a lineage whose forks have positive bases: the cuts follow
on each other from one end of the range to the other, each key lies in one of them, and in
the node that a chain of logs with these fork bases serves it from. -/
theorem split_follows_reads (lineage : List Ref) (rooted : Rooted lineage)
    (forked : Forked lineage) {fromKey toKey : Nat} (ordered : fromKey ≤ toKey) :
    Tiles (split lineage fromKey toKey) fromKey toKey ∧
    (∀ key, (split lineage fromKey toKey).countP
        (fun cut => decide (cut.fromKey < key ∧ key ≤ cut.toKey)) =
      if fromKey < key ∧ key ≤ toKey then 1 else 0) ∧
    ∀ cut ∈ split lineage fromKey toKey, ∀ key, cut.fromKey < key → key ≤ cut.toKey →
      (deepest lineage key).map Ref.node = some cut.node ∧
      ∀ {α σ : Type} (handles : List (Ref × Disk.Log α σ)), handles.map Prod.fst = lineage →
        (∀ handle ∈ handles, handle.2.forkBase = handle.1.base) →
        ∃ handle ∈ handles, handle.1.node = cut.node ∧
          Disk.read (handles.map Prod.snd).reverse key = handle.2.readOwn key := by
  obtain ⟨root, grows⟩ := rooted
  obtain ⟨first, here, zero⟩ := Option.map_eq_some_iff.mp root
  have filled : lineage ≠ [] := by
    rintro rfl
    cases here
  have tiles := split_tiles filled ordered
  refine ⟨tiles, fun key => (tiles.once key).2, ?_⟩
  intro cut member key above below
  obtain ⟨_, owner, owned, same⟩ := split_deepest grows forked
    (fun other there => by
      cases here.symm.trans there
      omega) member above below
  refine ⟨by rw [owned, ← same]; rfl, ?_⟩
  intro α σ handles nodes based
  have start : ∀ first ∈ handles.head?, first.1.base ≤ key := by
    intro handle front
    have head : lineage.head? = some handle.1 := by
      rw [← nodes, head?_map, front]
      rfl
    cases here.symm.trans head
    omega
  obtain ⟨handle, inside, found, served⟩ := read_deepest based start (by
    rintro rfl
    exact filled nodes.symm)
  rw [nodes, owned] at found
  exact ⟨handle, inside, by rw [← Option.some.inj found]; exact same, served⟩

/-- Two forks at one key, one of them empty, and a request that starts on a boundary. -/
theorem twin_forks_split :
    Rooted [⟨"r", 0⟩, ⟨"a", 3⟩, ⟨"b", 3⟩, ⟨"c", 6⟩] ∧
    Forked [⟨"r", 0⟩, ⟨"a", 3⟩, ⟨"b", 3⟩, ⟨"c", 6⟩] ∧
    split [⟨"r", 0⟩, ⟨"a", 3⟩, ⟨"b", 3⟩, ⟨"c", 6⟩] 2 9 = [⟨"b", 2, 5⟩, ⟨"c", 5, 9⟩] ∧
    Tiles (split [⟨"r", 0⟩, ⟨"a", 3⟩, ⟨"b", 3⟩, ⟨"c", 6⟩] 2 9) 2 9 := by
  have rooted : Rooted [⟨"r", 0⟩, ⟨"a", 3⟩, ⟨"b", 3⟩, ⟨"c", 6⟩] := ⟨rfl, by decide⟩
  have forked : Forked [⟨"r", 0⟩, ⟨"a", 3⟩, ⟨"b", 3⟩, ⟨"c", 6⟩] := by
    unfold Forked
    decide
  exact ⟨rooted, forked, by decide, (split_follows_reads _ rooted forked (by decide)).1⟩

/-- A fork at 0 has every key, and the cut goes to its parent. -/
theorem fork_at_zero_passed_over :
    Rooted [⟨"r", 0⟩, ⟨"c", 0⟩] ∧ split [⟨"r", 0⟩, ⟨"c", 0⟩] 0 1 = [⟨"r", 0, 1⟩] ∧
      (deepest [⟨"r", 0⟩, ⟨"c", 0⟩] 1).map Ref.node = some "c" :=
  ⟨⟨rfl, by decide⟩, by decide, by decide⟩

end Figwal.Forest
