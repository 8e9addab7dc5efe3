import Mathlib.Data.List.Induction
import Mathlib.Data.List.Basic
import Mathlib.Data.List.GetD

/-!
# Consecutively numbered blocks

A long sequence is stored as a list of blocks. Each block knows the number of
its first item, and the numbering runs on without a gap from block to block.
Nothing here mentions a particular store: `first` and `items` are the two
projections a client supplies for its own block type.
-/

namespace Figwal.Lib

open List

variable {Item : Type}

set_option autoImplicit false

section Blocks

variable {Block Item : Type} (first : Block → Nat) (items : Block → List Item)
  {blocks : List Block} {start : Nat}

def joined (blocks : List Block) : List Item :=
  (blocks.map items).flatten

/-- Every block is non-empty and starts at the number its predecessor ended. -/
def Consecutive : Nat → List Block → Prop
  | _, [] => True
  | start, block :: rest =>
    first block = start ∧ items block ≠ [] ∧
      Consecutive (start + (items block).length) rest

@[simp] theorem joined_nil : joined items [] = [] := rfl

@[simp] theorem joined_cons (block : Block) (rest : List Block) :
    joined items (block :: rest) = items block ++ joined items rest := rfl

@[simp] theorem joined_append (left right : List Block) :
    joined items (left ++ right) = joined items left ++ joined items right := by
  simp [joined]

@[simp] theorem consecutive_nil (start : Nat) :
    Consecutive first items start [] := trivial

theorem consecutive_append (start : Nat) (left right : List Block) :
    Consecutive first items start (left ++ right) ↔
      Consecutive first items start left ∧
        Consecutive first items (start + (joined items left).length) right := by
  induction left generalizing start with
  | nil => simp [Consecutive]
  | cons block rest ih =>
    simp only [cons_append, Consecutive, joined_cons, length_append, ih,
      Nat.add_assoc]
    tauto

/-- A block divided in two is numbered as before. -/
theorem consecutive_halves {left right : List Block} {block low high : Block}
    (chain : Consecutive first items start (left ++ block :: right))
    (same : first low = first block) (next : first high = first low + (items low).length)
    (whole : items low ++ items high = items block) (lowFilled : items low ≠ [])
    (highFilled : items high ≠ []) :
    Consecutive first items start (left ++ [low] ++ high :: right) := by
  rw [consecutive_append] at chain
  obtain ⟨before, base, _, after⟩ := chain
  rw [← whole, length_append, ← Nat.add_assoc] at after
  rw [append_assoc, consecutive_append]
  exact ⟨before, same.trans base, lowFilled, next.trans (by rw [same, base]), highFilled, after⟩

section

variable (chain : Consecutive first items start blocks)

include chain

theorem joined_ne_nil_of_consecutive (some : blocks ≠ []) : joined items blocks ≠ [] := by
  cases blocks with
  | nil => exact absurd rfl some
  | cons block rest =>
    have filled := chain.2.1
    simp [filled]

/-- A block's items are a contiguous part of the whole, at the place its first
number says. -/
theorem consecutive_split {block : Block} (member : block ∈ blocks) :
    ∃ before after, joined items blocks = before ++ items block ++ after ∧
      first block = start + before.length ∧ items block ≠ [] := by
  obtain ⟨left, right, rfl⟩ := append_of_mem member
  rw [consecutive_append] at chain
  obtain ⟨_, base, filled, _⟩ := chain
  exact ⟨joined items left, joined items right, by simp, base, filled⟩

/-- Every block of a consecutive list lies inside the numbers the list covers. -/
theorem consecutive_bounds {block : Block} (member : block ∈ blocks) : start ≤ first block ∧
      first block + (items block).length ≤ start + (joined items blocks).length := by
  obtain ⟨before, after, split, base, _⟩ := consecutive_split first items chain member
  rw [split, length_append, length_append]
  omega

theorem exists_block_of_covered {index : Nat} (low : start ≤ index)
    (high : index < start + (joined items blocks).length) :
    ∃ block ∈ blocks, first block ≤ index ∧
      index < first block + (items block).length := by
  induction blocks generalizing start with
  | nil =>
    simp only [joined_nil, length_nil] at high
    omega
  | cons head rest ih =>
    rcases chain with ⟨base, filled, tail⟩
    by_cases inside : index < start + (items head).length
    · exact ⟨head, by simp, by omega, by omega⟩
    · rw [joined_cons, length_append] at high
      obtain ⟨block, member, bounds⟩ := ih tail (by omega) (by omega)
      exact ⟨block, by simp [member], bounds⟩

/-- Blocks further down a consecutive list start after the earlier ones end. -/
theorem consecutive_pairwise :
    blocks.Pairwise fun early late =>
      first early + (items early).length ≤ first late := by
  induction blocks generalizing start with
  | nil => exact List.Pairwise.nil
  | cons head rest ih =>
    rcases chain with ⟨base, filled, tail⟩
    refine List.Pairwise.cons ?_ (ih tail)
    intro late member
    have bounds := consecutive_bounds first items tail member
    omega

end

theorem block_unique
    (sorted : blocks.Pairwise fun early late => first early + (items early).length ≤ first late)
    {left right : Block} (inLeft : left ∈ blocks) (inRight : right ∈ blocks) {index : Nat}
    (leftLow : first left ≤ index) (leftHigh : index < first left + (items left).length)
    (rightLow : first right ≤ index) (rightHigh : index < first right + (items right).length) :
    left = right := by
  induction sorted with
  | nil => cases inLeft
  | cons later _ ih =>
    rcases mem_cons.mp inLeft with rfl | leftRest
    · rcases mem_cons.mp inRight with same | rightRest
      · exact same.symm
      · have apart := later right rightRest
        omega
    · rcases mem_cons.mp inRight with rfl | rightRest
      · have apart := later left leftRest
        omega
      · exact ih leftRest rightRest

/-- A number inside the covered range falls between two blocks or inside one. -/
theorem consecutive_cut {cut : Nat} (chain : Consecutive first items start blocks)
    (low : start ≤ cut) (high : cut ≤ start + (joined items blocks).length) :
    (∃ lower upper, blocks = lower ++ upper ∧
        start + (joined items lower).length = cut) ∨
      ∃ lower boundary upper, blocks = lower ++ boundary :: upper ∧
        first boundary = start + (joined items lower).length ∧
        first boundary < cut ∧ cut < first boundary + (items boundary).length := by
  induction blocks generalizing start with
  | nil =>
    rw [joined_nil, length_nil] at high
    exact Or.inl ⟨[], [], rfl, by rw [joined_nil, length_nil]; omega⟩
  | cons head rest ih =>
    obtain ⟨base, filled, tail⟩ := chain
    rw [joined_cons, length_append] at high
    by_cases here : cut = start
    · exact Or.inl ⟨[], head :: rest, rfl, by rw [joined_nil, length_nil]; omega⟩
    · by_cases inside : cut < start + (items head).length
      · refine Or.inr ⟨[], head, rest, rfl, ?_, by omega, by omega⟩
        rw [joined_nil, length_nil, base]
        rfl
      · rcases ih tail (by omega) (by omega) with
          ⟨lower, upper, split, ends⟩ | ⟨lower, boundary, upper, split, begins, bounds⟩
        · refine Or.inl ⟨head :: lower, upper, by rw [split]; rfl, ?_⟩
          rw [joined_cons, length_append]
          omega
        · refine Or.inr ⟨head :: lower, boundary, upper, by rw [split]; rfl, ?_, bounds⟩
          rw [joined_cons, length_append]
          omega

theorem consecutive_map {Entry : Type} (block : Entry → Block) (start : Nat)
    (entries : List Entry) :
    Consecutive first items start (entries.map block) ↔
      Consecutive (first ∘ block) (items ∘ block) start entries := by
  induction entries generalizing start with
  | nil => exact Iff.rfl
  | cons head rest ih => simp only [map_cons, Consecutive, ih, Function.comp_apply]

theorem joined_map {Entry : Type} (block : Entry → Block) (entries : List Entry) :
    joined items (entries.map block) = joined (items ∘ block) entries := by
  simp [joined]

end Blocks

/-- Filtering a sorted list by a lower bound drops a leading part of it. -/
theorem filter_lower_bound_suffix {Entry : Type} (key : Entry → Nat) (bound : Nat)
    (entries : List Entry) (sorted : (entries.map key).Pairwise (· ≤ ·)) :
    ∃ dropped, entries = dropped ++ entries.filter (fun entry => bound ≤ key entry) ∧
      ∀ entry ∈ dropped, key entry < bound := by
  induction entries with
  | nil => exact ⟨[], rfl, by simp⟩
  | cons head rest ih =>
    rw [map_cons, pairwise_cons] at sorted
    by_cases kept : bound ≤ key head
    · have all : ∀ entry ∈ rest, bound ≤ key entry := fun entry member =>
        Nat.le_trans kept (sorted.1 _ (mem_map_of_mem member))
      refine ⟨[], ?_, by simp⟩
      rw [nil_append, filter_eq_self.mpr]
      intro entry member
      rcases mem_cons.mp member with same | later
      · simpa [same] using kept
      · simpa using all entry later
    · obtain ⟨dropped, split, low⟩ := ih sorted.2
      refine ⟨head :: dropped, ?_, ?_⟩
      · rw [filter_cons_of_neg (by simpa using kept), cons_append, ← split]
      · intro entry member
        rcases mem_cons.mp member with same | later
        · rw [same]
          omega
        · exact low entry later

/-!
## Binary search

`searchLoop` is the usual half-open search for the first entry at or above a
target. The fuel only bounds the recursion; any fuel of at least `hi - lo` is
enough.
-/

def searchLoop (keys : List Nat) (target : Nat) : Nat → Nat → Nat → Nat
  | 0, lo, _ => lo
  | fuel + 1, lo, hi =>
    if lo < hi then
      let mid := (lo + hi) / 2
      if keys.getD mid 0 ≥ target then searchLoop keys target fuel lo mid
      else searchLoop keys target fuel (mid + 1) hi
    else lo

def search (keys : List Nat) (target : Nat) : Nat :=
  searchLoop keys target keys.length 0 keys.length

/-- What the loop keeps: everything left of `lo` is below the target and
everything from `hi` on is at or above it. -/
theorem search_loop_spec (keys : List Nat) (target : Nat)
    (sorted : keys.Pairwise (· ≤ ·)) (fuel lo hi : Nat)
    (enough : hi - lo ≤ fuel) (ordered : lo ≤ hi) (inside : hi ≤ keys.length)
    (below : ∀ j, j < lo → keys.getD j 0 < target)
    (above : ∀ j, hi ≤ j → j < keys.length → target ≤ keys.getD j 0) :
    let found := searchLoop keys target fuel lo hi
    found ≤ keys.length ∧ (∀ j, j < found → keys.getD j 0 < target) ∧
      (∀ j, found ≤ j → j < keys.length → target ≤ keys.getD j 0) := by
  have monotone : ∀ i j, i ≤ j → j < keys.length → keys.getD i 0 ≤ keys.getD j 0 := by
    intro i j le bound
    rw [getD_eq_getElem _ _ (by omega), getD_eq_getElem _ _ bound]
    rcases Nat.lt_or_eq_of_le le with strict | same
    · exact pairwise_iff_getElem.mp sorted i j (by omega) bound strict
    · subst same
      exact Nat.le_refl _
  induction fuel generalizing lo hi with
  | zero =>
    have same : lo = hi := by omega
    subst same
    exact ⟨inside, below, above⟩
  | succ fuel ih =>
    simp only [searchLoop]
    split_ifs with live probe
    · refine ih lo ((lo + hi) / 2) (by omega) (by omega) (by omega) below ?_
      intro j from_mid bound
      exact Nat.le_trans probe (monotone _ j from_mid bound)
    · refine ih ((lo + hi) / 2 + 1) hi (by omega) (by omega) inside ?_ above
      intro j upto_mid
      have step := monotone j ((lo + hi) / 2) (by omega) (by omega)
      omega
    · have same : lo = hi := by omega
      subst same
      exact ⟨inside, below, above⟩

theorem search_spec (keys : List Nat) (target : Nat)
    (sorted : keys.Pairwise (· ≤ ·)) :
    search keys target ≤ keys.length ∧
      (∀ j, j < search keys target → keys.getD j 0 < target) ∧
      (∀ j, search keys target ≤ j → j < keys.length → target ≤ keys.getD j 0) := by
  refine search_loop_spec keys target sorted keys.length 0 keys.length
    (by omega) (by omega) (Nat.le_refl _) ?_ ?_
  · intro j impossible
    omega
  · intro j from_end bound
    omega

/-- The last item with a property, with its number. Nothing after it has the
property, and if there is none, nothing has. -/
def lastMatch {Item : Type} (holds : Item → Bool) (start : Nat) (items : List Item) :
    Option (Item × Nat) :=
  (items.zipIdx start).reverse.find? fun item => holds item.1

theorem last_match_snoc (holds : Item → Bool) (start : Nat) (items : List Item) (item : Item) :
    lastMatch holds start (items ++ [item]) =
      if holds item then some (item, start + items.length) else lastMatch holds start items := by
  rw [lastMatch, zipIdx_append, reverse_append]
  cases fits : holds item with
  | true => simp [fits]
  | false => simp [fits, lastMatch]

theorem last_match_append (holds : Item → Bool) (start : Nat) (early late : List Item) :
    lastMatch holds start (early ++ late) =
      (lastMatch holds (start + early.length) late).or (lastMatch holds start early) := by
  rw [lastMatch, zipIdx_append, reverse_append, find?_append]
  rfl

theorem last_match_some {holds : Item → Bool} {start : Nat} {items : List Item} {item : Item}
    {number : Nat} (found : lastMatch holds start items = some (item, number)) :
    ∃ before after, items = before ++ item :: after ∧ number = start + before.length ∧
      holds item = true ∧ ∀ later ∈ after, holds later = false := by
  induction items using List.reverseRecOn with
  | nil => cases found
  | append_singleton rest newest ih =>
    rw [last_match_snoc] at found
    split_ifs at found with fits
    · cases found
      exact ⟨rest, [], rfl, rfl, fits, fun later none => nomatch none⟩
    · rcases ih found with ⟨before, after, split, place, good, bad⟩
      refine ⟨before, after ++ [newest], ?_, place, good, ?_⟩
      · rw [split, append_assoc]
        rfl
      · intro later member
        rcases mem_append.mp member with old | new
        · exact bad later old
        · rw [mem_singleton.mp new]
          exact Bool.eq_false_iff.mpr fits

theorem last_match_none {holds : Item → Bool} {start : Nat} {items : List Item}
    (missing : lastMatch holds start items = none) : ∀ item ∈ items, holds item = false := by
  induction items using List.reverseRecOn with
  | nil =>
    intro item none
    cases none
  | append_singleton rest newest ih =>
    rw [last_match_snoc] at missing
    split_ifs at missing with fits
    intro item member
    rcases mem_append.mp member with old | new
    · exact ih missing item old
    · rw [mem_singleton.mp new]
      exact Bool.eq_false_iff.mpr fits

end Figwal.Lib
