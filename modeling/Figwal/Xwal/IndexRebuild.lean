import Figwal.Xwal.Catalog

/-!
# The patched index is the rebuilt one

What the markers say is an `Index`. `RebuildFrom` succeeds on it if no two nodes
carry the same trunk, and then holds exactly its nodes and heads. Creating a node
patches the index in memory the way the new marker changes the rebuilt one, provided
the marker reads back as it was written and the minted key is new.
-/

namespace Figwal.Xwal

open Figwal.Lib

set_option autoImplicit false

def MainDir.listed (fsEncode : Bool) (mainDir : MainDir) : Index :=
  mainDir.filterMap fun entry =>
    if entry.1.toList.head? = some '.' then none
    else entry.2.map fun text => (keyName fsEncode entry.1, readNodeMarker text)

/-!
## Rebuilding
-/

namespace Index

theorem head_cons (entry : String × NodeInfo) (rest : Index) (trunk : String) :
    Index.head (entry :: rest) trunk =
      if trunk = "" then none else if entry.2.trunk = trunk then some entry.1 else rest.head
        trunk := by
  unfold head
  split_ifs with none same
  · rfl
  · rw [List.find?_cons, decide_eq_true same]
    rfl
  · rw [List.find?_cons, decide_eq_false same]

theorem head_none {index : Index} {trunk : String}
    (unused : ∀ entry ∈ index, entry.2.trunk ≠ trunk) : index.head trunk = none := by
  unfold head
  split_ifs
  · rfl
  · rw [Option.map_eq_none_iff, List.find?_eq_none]
    intro entry member
    simpa using unused entry member

theorem unused_of_head_none {index : Index} {trunk : String} (carries : trunk ≠ "")
    (none : index.head trunk = none) : ∀ entry ∈ index, entry.2.trunk ≠ trunk := by
  intro entry member
  unfold head at none
  rw [if_neg carries, Option.map_eq_none_iff, List.find?_eq_none] at none
  simpa using none entry member

end Index

namespace Catalog

/-- What `RebuildFrom` adds to an index, given that no trunk occurs twice. -/
structure Grown (listed : Index) (before after : Catalog) : Prop where
  nodes : ∀ key, after.nodes.lookup key =
    ((listed.lookup key).map fun info => (⟨info, false⟩ : Node)).or (before.nodes.lookup key)
  heads : ∀ trunk, after.heads.lookup trunk = (listed.head trunk).or (before.heads.lookup trunk)
  seq : before.nodeSeq ≤ after.nodeSeq
  above : ∀ entry ∈ listed, Passes after.nodeSeq entry.1

theorem add_locked_marker (catalog : Catalog) (text : List Char) {key : String} (named : key ≠ "")
    (free : (readNodeMarker text).trunk ≠ "" →
      catalog.heads.lookup (readNodeMarker text).trunk = none) :
    ∃ next, catalog.addLocked (some text) key false = .ok next ∧
      Grown [(key, readNodeMarker text)] catalog next := by
  have present : ¬((some text : Option (List Char)) = none ∧ false = false) := by simp
  unfold addLocked
  rw [if_neg present]
  simp only [Option.map_some, Option.getD_some, Bool.false_eq_true, if_false]
  have single : ∀ other, (([(key, readNodeMarker text)] : Index).lookup other) =
      if other = key then some (readNodeMarker text) else none := by
    intro other
    rw [List.lookup_cons]
    by_cases same : other = key
    · simp [same]
    · have differ : (other == key) = false := beq_eq_false_iff_ne.mpr same
      simp [differ, same]
  have nodes : ∀ other,
      (if other = key then some (⟨readNodeMarker text, false⟩ : Node)
        else catalog.nodes.lookup other) =
      ((([(key, readNodeMarker text)] : Index).lookup other).map
        fun info => (⟨info, false⟩ : Node)).or (catalog.nodes.lookup other) := by
    intro other
    rw [single]
    split_ifs <;> rfl
  have seq : catalog.nodeSeq ≤ bumpSeq catalog.nodeSeq key := bump_seq_le _ _
  have above : ∀ entry ∈ ([(key, readNodeMarker text)] : Index),
      Passes (bumpSeq catalog.nodeSeq key) entry.1 := by
    intro entry member
    rw [List.mem_singleton.mp member, bumpSeq, if_neg named]
    exact bump_int_above _ _ _
  by_cases carries : (readNodeMarker text).trunk = ""
  · rw [if_pos carries]
    refine ⟨_, rfl, ?_, ?_, ?_, ?_⟩
    · intro other
      simp only [bumpSeqs, lookup_assign]
      exact nodes other
    · intro trunk
      rw [Index.head_cons, carries]
      simp only [bumpSeqs]
      split_ifs with blank same
      · rfl
      · exact absurd same.symm blank
      · simp [Index.head]
    · exact seq
    · exact above
  · have vacant := free carries
    rw [if_neg carries]
    simp only [bumpSeqs, vacant]
    refine ⟨_, rfl, ?_, ?_, ?_, ?_⟩
    · intro other
      simp only [lookup_assign]
      exact nodes other
    · intro trunk
      simp only [lookup_assign]
      rw [Index.head_cons]
      by_cases same : trunk = (readNodeMarker text).trunk
      · rw [if_pos same, same, if_neg carries, if_pos rfl]
        rfl
      · rw [if_neg same, if_neg (Ne.symm same)]
        split_ifs
        · rfl
        · simp [Index.head]
    · exact seq
    · exact above

theorem add_all_grows (fsEncode : Bool) {mainDir : MainDir} {catalog : Catalog}
    (named : ∀ entry ∈ mainDir.listed fsEncode, entry.1 ≠ "")
    (nodup : (mainDir.listed fsEncode).keys.Nodup)
    (distinct : (mainDir.listed fsEncode).Distinct)
    (apart : ∀ entry ∈ mainDir.listed fsEncode, entry.2.trunk ≠ "" →
      catalog.heads.lookup entry.2.trunk = none) :
    ∃ next, addAll fsEncode mainDir catalog = .ok next ∧
      Grown (mainDir.listed fsEncode) catalog next := by
  induction mainDir generalizing catalog with
  | nil =>
    exact ⟨catalog, rfl, fun _ => rfl, fun trunk => by simp [MainDir.listed, Index.head],
      Int.le_refl _, fun entry member => by cases member⟩
  | cons head rest ih =>
    obtain ⟨name, marker⟩ := head
    rw [addAll]
    by_cases hidden : name.toList.head? = some '.'
    · have same : MainDir.listed fsEncode ((name, marker) :: rest) =
          MainDir.listed fsEncode rest := by
        simp [MainDir.listed, hidden]
      rw [if_pos hidden]
      rw [same] at named nodup distinct apart ⊢
      exact ih named nodup distinct apart
    · rw [if_neg hidden]
      cases marker with
      | none =>
        have same : MainDir.listed fsEncode ((name, none) :: rest) =
            MainDir.listed fsEncode rest := by
          simp [MainDir.listed]
        rw [same] at named nodup distinct apart ⊢
        have skipped : catalog.addLocked none (keyName fsEncode name) false = .ok catalog := by
          simp [addLocked]
        rw [skipped]
        exact ih named nodup distinct apart
      | some text =>
        have same : MainDir.listed fsEncode ((name, some text) :: rest) =
            (keyName fsEncode name, readNodeMarker text) :: MainDir.listed fsEncode rest := by
          simp [MainDir.listed, hidden]
        rw [same] at named nodup distinct apart ⊢
        obtain ⟨differs, later⟩ := List.pairwise_cons.mp distinct
        obtain ⟨unlisted, restNodup⟩ := List.nodup_cons.mp nodup
        obtain ⟨middle, added, grown⟩ := add_locked_marker catalog text
          (named _ List.mem_cons_self) (apart _ List.mem_cons_self)
        have restApart : ∀ entry ∈ MainDir.listed fsEncode rest, entry.2.trunk ≠ "" →
            middle.heads.lookup entry.2.trunk = none := by
          intro entry member carries
          have other : (readNodeMarker text).trunk ≠ entry.2.trunk := by
            intro equal
            exact differs entry member (fun blank => carries (equal ▸ blank)) equal
          rw [grown.heads, Index.head_cons, if_neg carries, if_neg other,
            apart entry (List.mem_cons_of_mem _ member) carries]
          simp [Index.head]
        obtain ⟨next, all, more⟩ := ih (fun entry member =>
          named entry (List.mem_cons_of_mem _ member)) restNodup later restApart
        rw [added]
        refine ⟨next, all, ?_, ?_, Int.le_trans grown.seq more.seq, ?_⟩
        · intro key
          rw [more.nodes, grown.nodes, List.lookup_cons, List.lookup_cons]
          by_cases here : key = keyName fsEncode name
          · have none : (MainDir.listed fsEncode rest).lookup key = none := by
              rw [List.lookup_eq_none_iff]
              intro entry member
              rw [bne_iff_ne]
              intro equal
              rw [← here, equal] at unlisted
              exact unlisted (List.mem_map.mpr ⟨entry, member, rfl⟩)
            rw [none, here]
            simp
          · have differ : (key == keyName fsEncode name) = false := beq_eq_false_iff_ne.mpr here
            simp [differ]
        · intro trunk
          rw [more.heads, grown.heads, Index.head_cons, Index.head_cons]
          split_ifs with blank carries
          · simp [blank, Index.head]
          · have none : (MainDir.listed fsEncode rest).head trunk = none := by
              apply Index.head_none
              intro entry member equal
              exact differs entry member (fun empty => blank (carries ▸ empty))
                (carries.trans equal.symm)
            rw [none]
            rfl
          · simp [Index.head]
        · intro entry member
          rcases List.mem_cons.mp member with rfl | older
          · refine (grown.above _ List.mem_cons_self).imp ?_ id
            intro below
            exact Int.lt_of_lt_of_le below more.seq
          · exact more.above entry older

theorem listed_read_dir (fsEncode : Bool) (mainDir : MainDir) :
    ((readDir mainDir).listed fsEncode).Perm (mainDir.listed fsEncode) :=
  (List.perm_insertionSort _ _).filterMap _

/-- What is added does not depend on the order of the directories. -/
theorem Grown.perm {listed other : Index} {before after : Catalog} (perm : listed.Perm other)
    (nodup : listed.keys.Nodup) (distinct : listed.Distinct) (grown : Grown listed before after) :
    Grown other before after where
  nodes key := by rw [grown.nodes, lookup_perm perm nodup]
  heads trunk := by
    rw [grown.heads, Index.head, Index.head]
    split_ifs with blank
    · rfl
    · rw [find_perm perm]
      refine List.Pairwise.imp (fun differ both => ?_) distinct
      have first := of_decide_eq_true both.1
      exact differ (fun empty => blank (first.symm.trans empty))
        (first.trans (of_decide_eq_true both.2).symm)
  seq := grown.seq
  above entry member := grown.above entry (perm.mem_iff.mpr member)

theorem rebuild_grows (fsEncode : Bool) {mainDir : MainDir} {catalog : Catalog}
    (named : ∀ entry ∈ mainDir.listed fsEncode, entry.1 ≠ "")
    (nodup : (mainDir.listed fsEncode).keys.Nodup)
    (distinct : (mainDir.listed fsEncode).Distinct)
    (apart : ∀ entry ∈ mainDir.listed fsEncode, entry.2.trunk ≠ "" →
      catalog.heads.lookup entry.2.trunk = none) :
    ∃ next, addAll fsEncode (readDir mainDir) catalog = .ok next ∧
      Grown (mainDir.listed fsEncode) catalog next := by
  have perm := listed_read_dir fsEncode mainDir
  have sortedNodup : ((readDir mainDir).listed fsEncode).keys.Nodup :=
    (perm.map Prod.fst).nodup_iff.mpr nodup
  have sortedDistinct : ((readDir mainDir).listed fsEncode).Distinct := by
    refine (perm.pairwise_iff ?_).mpr distinct
    intro left right differ carries same
    exact differ (fun blank => carries (same.trans blank)) same.symm
  obtain ⟨next, added, grown⟩ := @add_all_grows fsEncode (readDir mainDir) catalog
    (fun entry member => named entry (perm.mem_iff.mp member)) sortedNodup sortedDistinct
    (fun entry member => apart entry (perm.mem_iff.mp member))
  exact ⟨next, added, grown.perm perm sortedNodup sortedDistinct⟩

end Catalog

end Figwal.Xwal
