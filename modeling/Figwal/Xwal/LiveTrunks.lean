import Mathlib.Data.List.Sort
import Figwal.Xwal.IndexRebuild

/-!
# The list of live trunks

With a minter of the caller's the ids with a head are listed as they stand in the index;
without one the counter is counted up to, and the ids the default minter forms are looked
up. The counter is read back from the ids themselves, so an id in another shape, or the
last one the counter could reach, is not met on the way.
-/

namespace Figwal.Xwal

open Figwal.Lib

set_option autoImplicit false

/-- The id `MintTrunk` forms from its counter. -/
def trunkName (seq : Nat) : String :=
  "t" ++ toString seq

namespace Catalog

def liveTrunks (catalog : Catalog) (minter : Bool) : List String :=
  if minter then (catalog.heads.map Prod.fst).insertionSort (· ≤ ·)
  else
    ((List.range catalog.trunkSeq.toNat).map trunkName).filter fun id =>
      (catalog.heads.lookup id).getD "" ≠ ""

/-- `RebuildFrom`; `own` is the marker in the main directory itself. -/
def rebuildRooted (fsEncode : Bool) (own : Option (List Char)) (mainDir : MainDir) :
    Except Fault Catalog :=
  match empty.addLocked own "" true with
  | .error fault => .error fault
  | .ok rooted => addAll fsEncode (readDir mainDir) rooted

def ListsLive (catalog : Catalog) (minter : Bool) : Prop :=
  (catalog.liveTrunks minter).Nodup ∧
    ∀ trunk, trunk ∈ catalog.liveTrunks minter ↔ (catalog.heads.lookup trunk).isSome

end Catalog

inductive IndexOp where
  | mintNode
  | mintTrunk
  | spawnFlat (parent child trunk kind : String)
  | rebuild (own : Option (List Char)) (mainDir : MainDir)

def Catalog.apply (fsEncode minter : Bool) (catalog : Catalog) : IndexOp → Catalog
  | .mintNode => catalog.mintNode.2
  | .mintTrunk => if minter then catalog else catalog.mintTrunk.2
  | .spawnFlat parent child trunk kind => catalog.spawnFlat parent child trunk kind
  | .rebuild own mainDir => (rebuildRooted fsEncode own mainDir).toOption.getD catalog

def Counted (trunk key : String) : Prop :=
  key ≠ "" ∧ ∃ seq : Nat, (seq : Int) < maxInt ∧ trunk = trunkName seq

def CountedMarker (marker : Option (List Char)) (key : String) : Prop :=
  ∀ text ∈ marker, (readNodeMarker text).trunk = "" ∨ Counted (readNodeMarker text).trunk key

/-- The markers are accepted, and unless there is a minter all ids are counted. -/
def IndexOp.Lists (fsEncode minter : Bool) (catalog : Catalog) : IndexOp → Prop
  | .mintNode => True
  | .mintTrunk => minter = true ∨ catalog.trunkSeq < maxInt
  | .spawnFlat _ child trunk _ => minter = true ∨ trunk = "" ∨ Counted trunk child
  | .rebuild own mainDir =>
    (∃ rebuilt, Catalog.rebuildRooted fsEncode own mainDir = .ok rebuilt) ∧
      (minter = true ∨ CountedMarker own "" ∧
        ∀ entry ∈ mainDir, entry.1.toList.head? ≠ some '.' →
          CountedMarker entry.2 (keyName fsEncode entry.1))

section Names

theorem trunk_name_chars (seq : Nat) : (trunkName seq).toList = 't' :: Nat.toDigits 10 seq := by
  rw [trunkName, String.toList_append]
  exact congrArg (fun digits => 't' :: digits) Nat.toList_repr

theorem num_suffix_int_trunk_name {seq : Nat} (fits : (seq : Int) ≤ maxInt) :
    numSuffixInt (trunkName seq) 't' = seq := by
  have low : minInt ≤ (seq : Int) := by
    unfold minInt
    omega
  rw [numSuffixInt, num_suffix_lettered (trunk_name_chars seq)]
  exact if_pos ⟨low, fits⟩

theorem trunk_name_inj {one two : Nat} (same : trunkName one = trunkName two) : one = two := by
  have first := num_suffix_lettered (trunk_name_chars one)
  rw [same, num_suffix_lettered (trunk_name_chars two)] at first
  exact Int.ofNat.inj first.symm

end Names

namespace Catalog

/-- No trunk has two heads, and without a minter the counter is past every id. -/
structure Tracked (minter : Bool) (catalog : Catalog) : Prop where
  keys : (catalog.heads.map Prod.fst).Nodup
  low : 0 ≤ catalog.trunkSeq
  counted : minter = false → ∀ trunk key, catalog.heads.lookup trunk = some key →
    key ≠ "" ∧ ∃ seq : Nat, trunk = trunkName seq ∧ (seq : Int) < catalog.trunkSeq

section Tracking

variable {minter fsEncode : Bool} {catalog next : Catalog} {key : String}

theorem Tracked.lists (tracked : Tracked minter catalog) : catalog.ListsLive minter := by
  cases minter with
  | true =>
    have order := List.perm_insertionSort (· ≤ ·) (catalog.heads.map Prod.fst)
    refine ⟨order.nodup_iff.mpr tracked.keys, fun trunk => ?_⟩
    rw [liveTrunks, if_pos rfl, order.mem_iff]
    constructor
    · intro member
      obtain ⟨⟨id, key⟩, inside, rfl⟩ := List.mem_map.mp member
      rw [lookup_of_mem tracked.keys inside]
      rfl
    · intro held
      obtain ⟨key, found⟩ := Option.isSome_iff_exists.mp held
      exact List.mem_map_of_mem (mem_of_lookup found)
  | false =>
    constructor
    · apply List.Nodup.filter
      apply List.nodup_range.map
      intro one two same
      exact trunk_name_inj same
    · intro trunk
      rw [liveTrunks, if_neg Bool.false_ne_true, List.mem_filter]
      constructor
      · intro ⟨_, shown⟩
        by_contra none
        rw [Option.not_isSome_iff_eq_none.mp none] at shown
        simp at shown
      · intro held
        obtain ⟨key, found⟩ := Option.isSome_iff_exists.mp held
        obtain ⟨named, seq, rfl, below⟩ := tracked.counted rfl trunk key found
        refine ⟨List.mem_map_of_mem (List.mem_range.mpr (by omega)), ?_⟩
        rw [found]
        simpa using named

theorem bump_trunk_seq (catalog : Catalog) (key trunk : String) :
    catalog.trunkSeq ≤ (catalog.bumpSeqs key trunk).trunkSeq ∧
      ∀ seq : Nat, (seq : Int) < maxInt → trunk = trunkName seq →
        (seq : Int) < (catalog.bumpSeqs key trunk).trunkSeq := by
  refine ⟨bump_int_le _ _ _, ?_⟩
  rintro seq small rfl
  have number := num_suffix_int_trunk_name (Int.le_of_lt small)
  rcases bump_int_above catalog.trunkSeq (trunkName seq) 't' with above | last
  · rw [number] at above
    exact above
  · omega

theorem Tracked.grow (tracked : Tracked minter catalog) {trunk : String}
    (counted : minter = true ∨ trunk = "" ∨ Counted trunk key) (grown : Catalog)
    (heads : grown.heads = if trunk = "" then catalog.heads else assign trunk key catalog.heads)
    (seq : grown.trunkSeq = (catalog.bumpSeqs key trunk).trunkSeq) : Tracked minter grown := by
  obtain ⟨onward, passed⟩ := bump_trunk_seq catalog key trunk
  rw [← seq] at onward passed
  constructor
  · rw [heads]
    split_ifs
    · exact tracked.keys
    · exact nodup_assign tracked.keys
  · exact Int.le_trans tracked.low onward
  · intro none other held found
    have older : ∀ {id node}, catalog.heads.lookup id = some node →
        node ≠ "" ∧ ∃ seq : Nat, id = trunkName seq ∧ (seq : Int) < grown.trunkSeq := by
      intro id node there
      obtain ⟨named, number, same, below⟩ := tracked.counted none id node there
      exact ⟨named, number, same, Int.lt_of_lt_of_le below onward⟩
    rw [heads] at found
    split_ifs at found with blank
    · exact older found
    · rw [lookup_assign] at found
      split_ifs at found with here
      · cases found
        have numbered : Counted trunk key := by
          rcases counted with minted | empty | numbered
          · cases none.symm.trans minted
          · exact absurd empty blank
          · exact numbered
        obtain ⟨named, number, small, same⟩ := numbered
        exact ⟨named, number, here.trans same, passed number small same⟩
      · exact older found

/-- A directory is passed over, or its marker makes a node and, with a trunk, a head. -/
theorem add_locked_cases {marker : Option (List Char)} {isRoot : Bool}
    (added : catalog.addLocked marker key isRoot = .ok next) :
    next = catalog ∨ ∃ info, info.trunk = ((marker.map readNodeMarker).getD ⟨"", "", ""⟩).trunk ∧
      next.nodes = assign key ⟨info, isRoot⟩ catalog.nodes ∧
      next.heads = (if info.trunk = "" then catalog.heads
        else assign info.trunk key catalog.heads) ∧
      next.trunkSeq = (catalog.bumpSeqs key info.trunk).trunkSeq := by
  rw [addLocked] at added
  by_cases unfinished : marker = none ∧ isRoot = false
  · rw [if_pos unfinished] at added
    cases added
    exact Or.inl rfl
  · rw [if_neg unfinished] at added
    generalize (marker.map readNodeMarker).getD ⟨"", "", ""⟩ = read at added ⊢
    have kept : (if isRoot then { read with kind := "null" } else read).trunk = read.trunk := by
      split_ifs
      · rfl
      · rfl
    dsimp only at added
    generalize (if isRoot then { read with kind := "null" } else read) = info at added kept
    refine Or.inr ⟨info, kept, ?_⟩
    by_cases blank : info.trunk = ""
    · simp only [if_pos blank] at added ⊢
      cases added
      exact ⟨rfl, rfl, rfl⟩
    · simp only [if_neg blank] at added ⊢
      split at added
      · cases added
      · cases added
        exact ⟨rfl, rfl, rfl⟩

theorem add_all_invariant (invariant : Catalog → Prop) {mainDir : MainDir}
    (each : ∀ catalog next name marker, (name, marker) ∈ mainDir →
      name.toList.head? ≠ some '.' → invariant catalog →
      catalog.addLocked marker (keyName fsEncode name) false = .ok next → invariant next)
    (start : invariant catalog) (added : addAll fsEncode mainDir catalog = .ok next) :
    invariant next := by
  induction mainDir generalizing catalog with
  | nil =>
    cases added
    exact start
  | cons entry rest ih =>
    obtain ⟨name, marker⟩ := entry
    have later := fun state after other text inside =>
      each state after other text (List.mem_cons_of_mem _ inside)
    rw [addAll] at added
    by_cases hidden : name.toList.head? = some '.'
    · rw [if_pos hidden] at added
      exact ih later start added
    · rw [if_neg hidden] at added
      cases one : catalog.addLocked marker (keyName fsEncode name) false with
      | error fault =>
        rw [one] at added
        cases added
      | ok grown =>
        rw [one] at added
        exact ih later (each _ _ _ _ List.mem_cons_self hidden start one) added

/-- What the root's marker and every other one keep holds of a rebuilt index. -/
theorem rebuild_invariant (invariant : Catalog → Prop) {own : Option (List Char)}
    {mainDir : MainDir} {rebuilt : Catalog}
    (root : ∀ next, empty.addLocked own "" true = .ok next → invariant next)
    (each : ∀ catalog next name marker, (name, marker) ∈ mainDir →
      name.toList.head? ≠ some '.' → invariant catalog →
      catalog.addLocked marker (keyName fsEncode name) false = .ok next → invariant next)
    (accepted : rebuildRooted fsEncode own mainDir = .ok rebuilt) : invariant rebuilt := by
  rw [rebuildRooted] at accepted
  cases rooted : empty.addLocked own "" true with
  | error fault =>
    rw [rooted] at accepted
    cases accepted
  | ok begun =>
    rw [rooted] at accepted
    refine add_all_invariant invariant (fun catalog next name marker inside => ?_)
      (root begun rooted) accepted
    exact each catalog next name marker ((List.perm_insertionSort _ _).mem_iff.mp inside)

theorem Tracked.add_locked (tracked : Tracked minter catalog) {marker : Option (List Char)}
    {isRoot : Bool} (counted : minter = true ∨ CountedMarker marker key)
    (added : catalog.addLocked marker key isRoot = .ok next) : Tracked minter next := by
  rcases add_locked_cases added with same | ⟨info, carried, _, heads, seq⟩
  · rw [same]
    exact tracked
  · refine tracked.grow (counted.imp_right fun all => ?_) next heads seq
    cases marker with
    | none => exact Or.inl carried
    | some text =>
      rw [carried]
      exact all text rfl

theorem empty_tracked (minter : Bool) : Tracked minter empty :=
  ⟨List.nodup_nil, Int.le_refl _, fun _ _ _ found => nomatch found⟩

theorem Tracked.apply (tracked : Tracked minter catalog) {op : IndexOp}
    (lists : op.Lists fsEncode minter catalog) :
    Tracked minter (catalog.apply fsEncode minter op) := by
  cases op with
  | mintNode => exact ⟨tracked.keys, tracked.low, tracked.counted⟩
  | mintTrunk =>
    rw [Catalog.apply]
    split_ifs with minted
    · exact tracked
    · have room : catalog.trunkSeq < maxInt := lists.resolve_left minted
      have next : wrapInt (catalog.trunkSeq + 1) = catalog.trunkSeq + 1 :=
        wrap_int_succ (Int.le_trans (by decide) tracked.low) room
      have low := tracked.low
      refine ⟨tracked.keys, ?_, fun none trunk key found => ?_⟩
      · change 0 ≤ wrapInt (catalog.trunkSeq + 1)
        omega
      · obtain ⟨named, seq, same, below⟩ := tracked.counted none trunk key found
        refine ⟨named, seq, same, ?_⟩
        change (seq : Int) < wrapInt (catalog.trunkSeq + 1)
        omega
  | spawnFlat parent child trunk kind => exact tracked.grow lists _ rfl rfl
  | rebuild own mainDir =>
    obtain ⟨⟨rebuilt, accepted⟩, counted⟩ := lists
    rw [Catalog.apply, accepted]
    apply rebuild_invariant (Tracked minter) _ _ accepted
    · intro root added
      exact (empty_tracked minter).add_locked (counted.imp_right And.left) added
    · intro before after name marker inside shown held added
      exact held.add_locked
        (counted.imp_right fun all => all.2 (name, marker) inside shown) added

end Tracking

end Catalog

/-- Every trunk with a head is listed once after every operation: always with a minter, and
without one as long as all ids are ones the counter comes by. -/
theorem live_trunks_listed (fsEncode minter : Bool) (run : List IndexOp)
    (lists : EveryStep (Catalog.apply fsEncode minter)
      (fun catalog op => op.Lists fsEncode minter catalog) Catalog.empty run) :
    Catalog.empty.ListsLive minter ∧
      EveryStep (Catalog.apply fsEncode minter)
        (fun catalog op => (catalog.apply fsEncode minter op).ListsLive minter)
        Catalog.empty run := by
  have start := Catalog.empty_tracked minter
  refine ⟨start.lists, every_step_of_invariant _ (Catalog.Tracked minter) ?_ start lists⟩
  intro catalog op tracked meets
  have kept := tracked.apply meets
  exact ⟨kept.lists, kept⟩

def namedDir : MainDir := [("n0", some (writeNodeMarker ⟨"a", "", "conversation"⟩))]

def paddedDir : MainDir := [("n0", some (writeNodeMarker ⟨"t05", "", "conversation"⟩))]

theorem named_trunk_not_listed :
    ((Catalog.rebuildRooted false none namedDir).toOption.map fun rebuilt =>
        (rebuilt.heads.lookup "a", rebuilt.liveTrunks false)) = some (some "n0", []) ∧
      ((Catalog.rebuildRooted false none paddedDir).toOption.map fun rebuilt =>
        (rebuilt.heads.lookup "t05", rebuilt.liveTrunks false)) = some (some "n0", []) ∧
      ((Catalog.rebuildRooted false (some (writeNodeMarker ⟨"t0", "", ""⟩)) []).toOption.map
        fun rebuilt => (rebuilt.heads.lookup "t0", rebuilt.liveTrunks false)) =
          some (some "", []) := by
  decide +kernel

def countedRun : List IndexOp :=
  [.rebuild none [("n0", some (writeNodeMarker ⟨"t0", "", "conversation"⟩))], .mintTrunk,
    .spawnFlat "n0" "n1" "t1" "conversation"]

theorem counted_run_listed :
    Catalog.empty.ListsLive false ∧
      EveryStep (Catalog.apply false false)
        (fun catalog op => (catalog.apply false false op).ListsLive false)
        Catalog.empty countedRun := by
  have marked : CountedMarker (some (writeNodeMarker ⟨"t0", "", "conversation"⟩)) "n0" := by
    intro text held
    cases held
    exact Or.inr ⟨by decide, 0, by decide, by decide +kernel⟩
  apply live_trunks_listed
  refine ⟨⟨⟨_, rfl⟩, Or.inr ⟨?_, ?_⟩⟩, Or.inr ?_, ?_, trivial⟩
  · intro text held
    cases held
  · intro entry inside _
    cases List.mem_singleton.mp inside
    exact marked
  · decide +kernel
  · exact Or.inr (Or.inr ⟨by decide, 1, by decide, by decide +kernel⟩)

end Figwal.Xwal
