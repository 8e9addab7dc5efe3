import Figwal.Xwal.IndexRebuild

/-!
# Runs on a forest

`Forest.Headed` says that the heads in memory are those the markers list and
`Forest.Exact` that the nodes are. Every operation keeps the first as long as the
minted trunk is legible and new and the node counter has room, and the second as long
as every value of a new marker is legible. It follows that the forest can always be
rebuilt, to the same heads and nodes.
-/

namespace Figwal.Xwal

open Figwal.Lib

set_option autoImplicit false

def Nameable (key : String) : Prop :=
  key ≠ "" ∧ key.toList.head? ≠ some '.' ∧ '/' ∉ key.toList

theorem fs_name_head {fsEncode : Bool} {key : String} (shown : key.toList.head? ≠ some '.') :
    (fsName fsEncode key).toList.head? ≠ some '.' := by
  unfold fsName
  split_ifs
  · exact shown
  · rw [String.toList_ofList, encodeName]
    cases shape : key.toList with
    | nil => simp
    | cons first rest =>
      rw [shape] at shown
      rw [List.flatMap_cons]
      split_ifs with reserved
      · simp [escaped]
      · simpa using shown

theorem invalid_stump_nameable {name : String} (valid : Trunks.invalidStump name = false) :
    Nameable name := by
  simp only [Trunks.invalidStump, Bool.or_eq_false_iff, decide_eq_false_iff_not] at valid
  obtain ⟨⟨named, clean⟩, shown⟩ := valid
  refine ⟨named, shown, fun member => ?_⟩
  have slash := List.any_eq_false.mp clean '/' member
  simp at slash

/-!
## Minted keys
-/

theorem minted_key {catalog : Catalog} (low : 0 ≤ catalog.nodeSeq) :
    catalog.mintNode.1 = nodeName catalog.nodeSeq.toNat :=
  node_id_eq low

theorem node_name_nameable (seq : Nat) : Nameable (nodeName seq) := by
  obtain ⟨digits, shape, digit⟩ := node_name_chars seq
  refine ⟨?_, ?_, node_name_slashless seq⟩
  · intro empty
    rw [empty] at shape
    cases shape
  · rw [shape]
    simp

/-!
## Changing the directory
-/

namespace MainDir

def Named (fsEncode : Bool) (mainDir : MainDir) : Prop :=
  ∀ entry ∈ mainDir, ∃ key, Nameable key ∧ entry.1 = fsName fsEncode key

variable {fsEncode : Bool} {mainDir : MainDir}

theorem listed_remove_keys {gone missing : String → Bool}
    (same : ∀ entry ∈ mainDir, gone entry.1 = missing (keyName fsEncode entry.1)) :
    listed fsEncode (removeKeys gone mainDir) = removeKeys missing (listed fsEncode mainDir) := by
  induction mainDir with
  | nil => rfl
  | cons head rest ih =>
    have here := same head List.mem_cons_self
    have later := ih fun entry member => same entry (List.mem_cons_of_mem _ member)
    unfold listed removeKeys at later ⊢
    rw [List.filter_cons, List.filterMap_cons]
    by_cases hidden : head.1.toList.head? = some '.'
    · split_ifs
      · rw [List.filterMap_cons]
        simp only [hidden, if_true]
        exact later
      · exact later
    · cases marker : head.2 with
      | none =>
        split_ifs
        · rw [List.filterMap_cons]
          simp only [hidden, if_false, marker, Option.map_none]
          exact later
        · exact later
      | some text =>
        simp only [hidden, if_false, Option.map_some, List.filter_cons, ← here]
        split_ifs
        · rw [List.filterMap_cons]
          simp only [hidden, if_false, marker, Option.map_some]
          rw [later]
        · exact later

section

variable (named : mainDir.Named fsEncode)

include named

theorem Named.remove_keys (gone : String → Bool) : Named fsEncode (removeKeys gone mainDir) := by
  intro entry member
  exact named entry (List.mem_filter.mp member).1

theorem Named.assign {key : String} (nameable : Nameable key) (marker : Option (List Char)) :
    Named fsEncode (assign (fsName fsEncode key) marker mainDir) := by
  intro entry member
  rcases List.mem_cons.mp member with rfl | older
  · exact ⟨key, nameable, rfl⟩
  · exact named.remove_keys _ entry older

/-- Writing a marker puts its node in front and takes an older entry away. -/
theorem listed_assign {key : String} (nameable : Nameable key) (text : List Char) :
    listed fsEncode (assign (fsName fsEncode key) (some text) mainDir) =
      (key, readNodeMarker text) :: removeKeys (fun held => held = key)
        (listed fsEncode mainDir) := by
  have same : ∀ entry ∈ mainDir, (decide (entry.1 = fsName fsEncode key)) =
      decide (keyName fsEncode entry.1 = key) := by
    intro entry member
    obtain ⟨held, _, name⟩ := named entry member
    rw [name, key_name_fs_name, decide_eq_decide]
    exact ⟨fun equal => fs_name_injective fsEncode equal, fun equal => by rw [equal]⟩
  have rest : listed fsEncode (removeKeys (fun held => held = fsName fsEncode key) mainDir) =
      removeKeys (fun held => held = key) (listed fsEncode mainDir) :=
    listed_remove_keys same
  unfold assign
  rw [← rest]
  have shown : (fsName fsEncode key).toList.head? ≠ some '.' := fs_name_head nameable.2.1
  conv_lhs => unfold listed
  rw [List.filterMap_cons]
  simp only [shown, if_false, Option.map_some, key_name_fs_name]
  rfl

theorem Named.keys :
    ∀ entry ∈ listed fsEncode mainDir, ∃ held ∈ mainDir,
      held.1 = fsName fsEncode entry.1 ∧ Nameable entry.1 := by
  intro entry member
  obtain ⟨source, inside, found⟩ := List.mem_filterMap.mp member
  obtain ⟨key, nameable, name⟩ := named source inside
  split_ifs at found
  obtain ⟨text, _, shape⟩ := Option.map_eq_some_iff.mp found
  have same : entry.1 = key := by
    rw [← shape, name]
    exact key_name_fs_name fsEncode key
  exact ⟨source, inside, by rw [name, same], same ▸ nameable⟩

theorem Named.nodup (nodup : (mainDir.map Prod.fst).Nodup) :
    (listed fsEncode mainDir).keys.Nodup := by
  induction mainDir with
  | nil => exact List.nodup_nil
  | cons head rest ih =>
    obtain ⟨unlisted, later⟩ := List.nodup_cons.mp nodup
    have restNamed : Named fsEncode rest := fun entry member =>
      named entry (List.mem_cons_of_mem _ member)
    have restNodup := ih restNamed later
    obtain ⟨key, _, name⟩ := named head List.mem_cons_self
    unfold listed
    rw [List.filterMap_cons]
    split
    · exact restNodup
    · rename_i found
      split_ifs at found
      obtain ⟨text, _, rfl⟩ := Option.map_eq_some_iff.mp found
      apply List.nodup_cons.mpr
      refine ⟨?_, restNodup⟩
      intro member
      obtain ⟨entry, inside, same⟩ := List.mem_map.mp member
      obtain ⟨held, present, heldName, _⟩ := restNamed.keys entry inside
      rw [same, name, key_name_fs_name] at heldName
      rw [name, ← heldName] at unlisted
      exact unlisted (List.mem_map.mpr ⟨held, present, rfl⟩)

end

end MainDir

namespace Index

theorem Distinct.sublist {index smaller : Index} (distinct : index.Distinct)
    (sub : smaller.Sublist index) : smaller.Distinct :=
  List.Pairwise.sublist sub distinct

theorem remove_unlisted {index : Index} {key : String} (unlisted : key ∉ index.keys) :
    removeKeys (fun held => held = key) index = index := by
  apply List.filter_eq_self.mpr
  intro entry member
  have apart : entry.1 ≠ key := by
    rintro rfl
    exact unlisted (List.mem_map_of_mem member)
  simpa using apart

end Index

/-!
## The invariant
-/

namespace Forest

def listed (forest : Forest) : Index :=
  MainDir.listed forest.fsEncode forest.mainDir

/-- The heads in memory are those of the markers, whose trunks are all different, and
the counter is past every key in use. -/
structure Headed (forest : Forest) : Prop where
  named : MainDir.Named forest.fsEncode forest.mainDir
  nodup : (forest.mainDir.map Prod.fst).Nodup
  distinct : forest.listed.Distinct
  legible : ∀ entry ∈ forest.listed, Xwal.Legible entry.2.trunk
  trunks : ∀ key, (forest.catalog.nodes.lookup key).map (fun node => node.info.trunk) =
    if key = "" then some "" else (forest.listed.lookup key).map NodeInfo.trunk
  heads : ∀ trunk, forest.catalog.heads.lookup trunk = forest.listed.head trunk
  seq : 0 ≤ forest.catalog.nodeSeq
  above : ∀ entry ∈ forest.listed,
    numSuffixInt (lastPart entry.1) 'n' < forest.catalog.nodeSeq ∨
      numSuffixInt (lastPart entry.1) 'n' = maxInt

def Exact (forest : Forest) : Prop :=
  ∀ key, forest.catalog.nodes.lookup key =
    if key = "" then some ⟨⟨"", "", "null"⟩, true⟩
    else (forest.listed.lookup key).map fun info => ⟨info, false⟩

variable {forest : Forest} {next : Forest}

theorem Headed.keys (headed : forest.Headed) : forest.listed.keys.Nodup :=
  headed.named.nodup headed.nodup

theorem Headed.key_ne (headed : forest.Headed) :
    ∀ entry ∈ forest.listed, entry.1 ≠ "" := by
  intro entry member
  obtain ⟨_, _, _, nameable⟩ := headed.named.keys entry member
  exact nameable.1

/-- Whatever the index in memory, one read from such a directory is as it should be. -/
theorem rebuild_headed {fsEncode : Bool} {mainDir : MainDir} (stale : Catalog)
    (named : mainDir.Named fsEncode) (nodup : (mainDir.map Prod.fst).Nodup)
    (distinct : (mainDir.listed fsEncode).Distinct)
    (legible : ∀ entry ∈ mainDir.listed fsEncode, Xwal.Legible entry.2.trunk) :
    ∃ next, (⟨fsEncode, stale, mainDir⟩ : Forest).rebuild = .ok next ∧ next.Headed ∧
      next.Exact := by
  have rooted : Catalog.empty.addLocked none "" true =
      .ok ⟨[("", ⟨⟨"", "", "null"⟩, true⟩)], [], 0, 0⟩ := by decide
  have keyed : ∀ entry ∈ mainDir.listed fsEncode, entry.1 ≠ "" := by
    intro entry member
    obtain ⟨_, _, _, nameable⟩ := named.keys entry member
    exact nameable.1
  obtain ⟨catalog, added, grown⟩ := @Catalog.rebuild_grows fsEncode mainDir
    ⟨[("", ⟨⟨"", "", "null"⟩, true⟩)], [], 0, 0⟩ keyed (named.nodup nodup) distinct
    (fun _ _ _ => rfl)
  have rebuilt : (⟨fsEncode, stale, mainDir⟩ : Forest).rebuild =
      .ok ⟨fsEncode, catalog, mainDir⟩ := by
    rw [rebuild, Catalog.rebuildFrom, rooted]
    simp only [added]
    rfl
  have unlisted : (mainDir.listed fsEncode).lookup "" = none := by
    rw [List.lookup_eq_none_iff]
    intro entry member
    rw [bne_iff_ne]
    exact (keyed entry member).symm
  have exact_ : (⟨fsEncode, catalog, mainDir⟩ : Forest).Exact := by
    intro key
    rw [grown.nodes]
    by_cases root : key = ""
    · subst root
      rw [unlisted]
      rfl
    · have absent : ([("", (⟨⟨"", "", "null"⟩, true⟩ : Node))] : List _).lookup key = none := by
        rw [List.lookup_eq_none_iff]
        intro entry member
        rw [List.mem_singleton.mp member, bne_iff_ne]
        exact root
      rw [absent, Option.or_none, if_neg root]
      rfl
  refine ⟨_, rebuilt, ⟨named, nodup, distinct, legible, ?_, ?_, grown.seq, grown.above⟩, exact_⟩
  · intro key
    rw [exact_ key]
    split_ifs
    · rfl
    · cases (⟨fsEncode, catalog, mainDir⟩ : Forest).listed.lookup key <;> rfl
  · intro trunk
    rw [grown.heads]
    exact Option.or_none

/-- What a rebuild of the index from the directory would give is what is in memory. -/
def Matches (forest : Forest) : Prop :=
  ∃ rebuilt, Catalog.rebuildFrom forest.fsEncode forest.mainDir = .ok rebuilt ∧
    (∀ key, forest.catalog.nodes.lookup key = rebuilt.nodes.lookup key) ∧
    ∀ trunk, forest.catalog.heads.lookup trunk = rebuilt.heads.lookup trunk

theorem Headed.rebuilds (headed : forest.Headed) :
    ∃ rebuilt, Catalog.rebuildFrom forest.fsEncode forest.mainDir = .ok rebuilt ∧
      ({ forest with catalog := rebuilt } : Forest).Headed ∧
      ({ forest with catalog := rebuilt } : Forest).Exact := by
  obtain ⟨next, rebuilt, later, exact_⟩ := rebuild_headed forest.catalog headed.named
    headed.nodup headed.distinct headed.legible
  rw [rebuild] at rebuilt
  cases done : Catalog.rebuildFrom forest.fsEncode forest.mainDir with
  | error fault =>
    rw [done] at rebuilt
    cases rebuilt
  | ok catalog =>
    rw [done] at rebuilt
    cases rebuilt
    exact ⟨catalog, rfl, later, exact_⟩

theorem Headed.matches_of_exact (headed : forest.Headed) (exact_ : forest.Exact) :
    forest.Matches := by
  obtain ⟨rebuilt, done, later, same⟩ := headed.rebuilds
  refine ⟨rebuilt, done, ?_, ?_⟩
  · intro key
    rw [exact_ key]
    exact (same key).symm
  · intro trunk
    rw [headed.heads]
    exact (later.heads trunk).symm

/-!
## Creating a node
-/

section Plant

variable {parent child trunk kind : String}

theorem Headed.listed_plant (headed : forest.Headed) (nameable : Nameable child)
    (unlisted : child ∉ forest.listed.keys) :
    (forest.plant parent child trunk kind).listed =
      (child, readNodeMarker (writeNodeMarker ⟨trunk, parent, kind⟩)) :: forest.listed := by
  have listed := MainDir.listed_assign headed.named nameable
    (writeNodeMarker ⟨trunk, parent, kind⟩)
  have rest : removeKeys (fun held => held = child) forest.listed = forest.listed :=
    Index.remove_unlisted unlisted
  exact listed.trans (congrArg ((child, _) :: ·) rest)

theorem Headed.plant (headed : forest.Headed) (nameable : Nameable child)
    (unlisted : child ∉ forest.listed.keys) (legible : Xwal.Legible trunk)
    (unused : forest.catalog.heads.lookup trunk = none) :
    (forest.plant parent child trunk kind).Headed := by
  have listed : (forest.plant parent child trunk kind).listed = _ :=
    headed.listed_plant nameable unlisted
  have carried : (readNodeMarker (writeNodeMarker ⟨trunk, parent, kind⟩)).trunk = trunk :=
    marker_trunk legible
  rw [headed.heads] at unused
  refine ⟨headed.named.assign nameable _, nodup_assign headed.nodup, ?_, ?_, ?_, ?_, ?_, ?_⟩
  · rw [listed]
    apply List.pairwise_cons.mpr
    refine ⟨?_, headed.distinct⟩
    intro entry member carries
    rw [carried] at carries ⊢
    exact (Index.unused_of_head_none carries unused entry member).symm
  · rw [listed]
    intro entry member
    rcases List.mem_cons.mp member with rfl | older
    · simpa only [carried] using legible
    · exact headed.legible entry older
  · intro key
    rw [listed, List.lookup_cons]
    simp only [Forest.plant, Catalog.spawnFlat, Catalog.bumpSeqs, lookup_assign]
    by_cases here : key = child
    · subst here
      simp [nameable.1, carried]
    · have differ : (key == child) = false := beq_eq_false_iff_ne.mpr here
      rw [if_neg here, differ]
      exact headed.trunks key
  · intro other
    rw [listed, Index.head_cons, carried]
    simp only [Forest.plant, Catalog.spawnFlat, Catalog.bumpSeqs]
    by_cases blank : trunk = ""
    · rw [if_pos blank, headed.heads]
      split_ifs with empty same
      · rw [empty]
        rfl
      · exact absurd (same.symm.trans blank) empty
      · rfl
    · rw [if_neg blank, lookup_assign, headed.heads]
      by_cases same : other = trunk
      · rw [if_pos same, same, if_neg blank, if_pos rfl]
      · rw [if_neg same, if_neg (Ne.symm same)]
        split_ifs with empty
        · rw [empty]
          rfl
        · rfl
  · simp only [Forest.plant, Catalog.spawnFlat, Catalog.bumpSeqs, bumpSeq, if_neg nameable.1]
    exact Int.le_trans headed.seq (bump_int_le _ _ _)
  · rw [listed]
    simp only [Forest.plant, Catalog.spawnFlat, Catalog.bumpSeqs, bumpSeq, if_neg nameable.1]
    intro entry member
    rcases List.mem_cons.mp member with rfl | older
    · exact bump_int_above _ _ _
    · refine (headed.above entry older).imp ?_ id
      intro below
      exact Int.lt_of_lt_of_le below (bump_int_le _ _ _)

theorem Headed.plant_exact (headed : forest.Headed) (exact_ : forest.Exact)
    (nameable : Nameable child) (unlisted : child ∉ forest.listed.keys)
    (legible : NodeInfo.Legible ⟨trunk, parent, kind⟩) :
    (forest.plant parent child trunk kind).Exact := by
  intro key
  rw [headed.listed_plant nameable unlisted, legible.read, List.lookup_cons]
  simp only [Forest.plant, Catalog.spawnFlat, Catalog.bumpSeqs, lookup_assign]
  by_cases here : key = child
  · subst here
    simp [nameable.1]
  · have differ : (key == child) = false := beq_eq_false_iff_ne.mpr here
    rw [if_neg here, differ]
    exact exact_ key

end Plant

section

variable (headed : forest.Headed) (room : forest.catalog.nodeSeq < maxInt)

include headed room

theorem Headed.minting :
    ({ forest with catalog := forest.catalog.mintNode.2 } : Forest).Headed := by
  have next : wrapInt (forest.catalog.nodeSeq + 1) = forest.catalog.nodeSeq + 1 :=
    wrap_int_succ (Int.le_trans (by decide) headed.seq) room
  have seq := headed.seq
  refine ⟨headed.named, headed.nodup, headed.distinct, headed.legible, headed.trunks,
    headed.heads, ?_, ?_⟩
  · change 0 ≤ wrapInt (forest.catalog.nodeSeq + 1)
    omega
  · intro entry member
    change _ < wrapInt (forest.catalog.nodeSeq + 1) ∨ _
    refine (headed.above entry member).imp ?_ id
    intro below
    omega

theorem Headed.minted_unlisted : forest.catalog.mintNode.1 ∉ forest.listed.keys := by
  intro member
  obtain ⟨entry, inside, same⟩ := List.mem_map.mp member
  have seq := headed.seq
  have fits : ((forest.catalog.nodeSeq.toNat : Nat) : Int) ≤ maxInt := by omega
  have above := headed.above entry inside
  rw [same, minted_key headed.seq, num_suffix_int_node_name fits] at above
  omega

theorem Headed.fork_flat {parent kind minted : String} (legible : Xwal.Legible minted)
    (unused : forest.catalog.heads.lookup minted = none) :
    (forest.forkFlat parent kind minted).Headed := by
  have nameable : Nameable forest.catalog.mintNode.1 := by
    rw [minted_key headed.seq]
    exact node_name_nameable _
  exact (headed.minting room).plant nameable (headed.minted_unlisted room) legible unused

end

theorem Headed.fork_flat_exact (headed : forest.Headed) (exact_ : forest.Exact)
    {parent kind minted : String} (room : forest.catalog.nodeSeq < maxInt)
    (legible : NodeInfo.Legible ⟨minted, parent, kind⟩) :
    (forest.forkFlat parent kind minted).Exact := by
  have nameable : Nameable forest.catalog.mintNode.1 := by
    rw [minted_key headed.seq]
    exact node_name_nameable _
  exact (headed.minting room).plant_exact exact_ nameable (headed.minted_unlisted room) legible

theorem Headed.create_stump (headed : forest.Headed) {name : String}
    (created : forest.createStump name = .ok next) : next.Headed ∧ (forest.Exact → next.Exact) := by
  unfold createStump at created
  split_ifs at created with invalid taken
  cases created
  have nameable := invalid_stump_nameable (Bool.not_eq_true _ ▸ invalid)
  have unlisted : name ∉ forest.listed.keys := by
    intro member
    obtain ⟨⟨key, info⟩, inside, same⟩ := List.mem_map.mp member
    have known := headed.trunks name
    rw [if_neg nameable.1, ← show key = name from same, lookup_of_mem headed.keys inside] at known
    cases held : forest.catalog.nodes.lookup key with
    | none =>
      rw [held] at known
      cases known
    | some node =>
      rw [← show key = name from same, held] at taken
      exact taken rfl
  refine ⟨headed.plant nameable unlisted (by decide) (headed.heads ""), ?_⟩
  intro exact_
  exact headed.plant_exact exact_ nameable unlisted (by decide)

/-!
## Changes that read the index back
-/

theorem Headed.prune_rebuild (headed : forest.Headed) (gone : List String)
    (rebuilt : (forest.prune gone).rebuild = .ok next) : next.Headed ∧ next.Exact := by
  have same : ∀ entry ∈ forest.mainDir,
      (gone.any fun key => fsName forest.fsEncode key = entry.1) =
        gone.any fun key => key = keyName forest.fsEncode entry.1 := by
    intro entry member
    obtain ⟨key, _, name⟩ := headed.named entry member
    rw [name, key_name_fs_name]
    congr 1
    funext other
    rw [decide_eq_decide]
    exact ⟨fun equal => fs_name_injective _ equal, fun equal => by rw [equal]⟩
  have listed : (forest.prune gone).listed =
      removeKeys (fun held => gone.any fun key => key = held) forest.listed :=
    @MainDir.listed_remove_keys _ _ (fun name => gone.any fun key => fsName _ key = name)
      (fun held => gone.any fun key => key = held) same
  have shorter : (forest.prune gone).listed.Sublist forest.listed := by
    rw [listed]
    exact List.filter_sublist
  obtain ⟨read, again, later⟩ := rebuild_headed forest.catalog
    (headed.named.remove_keys (fun name => gone.any fun key => fsName forest.fsEncode key = name))
    (nodup_remove_keys headed.nodup) (headed.distinct.sublist shorter)
    (fun entry member => headed.legible entry (shorter.subset member))
  have equal : next = read := Except.ok.inj (rebuilt.symm.trans again)
  exact equal ▸ later

section Remark

variable {node : String} {marker : NodeInfo}

section

variable (headed : forest.Headed)
  (own : marker.trunk = ((forest.listed.lookup node).map NodeInfo.trunk).getD "")

include headed own

theorem Headed.distinct_remarked :
    Index.Distinct ((node, marker) :: removeKeys (fun held => held = node) forest.listed) := by
  apply List.pairwise_cons.mpr
  refine ⟨?_, headed.distinct.sublist List.filter_sublist⟩
  rintro ⟨key, info⟩ member carries equal
  obtain ⟨inside, other⟩ := List.mem_filter.mp member
  cases found : forest.listed.lookup node with
  | none =>
    rw [found] at own
    exact carries own
  | some held =>
    rw [found] at own
    change marker.trunk = held.trunk at own
    have here := Index.head_of_mem headed.distinct (mem_of_lookup found) (own ▸ carries)
    have there := Index.head_of_mem headed.distinct inside (equal ▸ carries)
    rw [← own, equal, there] at here
    simp [Option.some.inj here] at other

theorem Headed.legible_remarked : Xwal.Legible marker.trunk := by
  rw [own]
  cases found : forest.listed.lookup node with
  | none => decide
  | some info => exact headed.legible _ (mem_of_lookup found)

end

end Remark

theorem Headed.detach (headed : forest.Headed) {node : String}
    (done : forest.detach node = .ok next) : next.Headed ∧ next.Exact := by
  unfold Forest.detach at done
  split_ifs at done with root missing
  dsimp only at done
  have carried := headed.trunks node
  rw [if_neg root] at carried
  rw [carried] at done
  rw [Bool.not_eq_true, Option.isNone_eq_false_iff, Option.isSome_iff_exists] at missing
  obtain ⟨marker, held⟩ := missing
  obtain ⟨key, nameable, name⟩ := headed.named _ (mem_of_lookup held)
  have same : node = key := fs_name_injective _ name
  subst same
  generalize written : NodeInfo.mk _ "" _ = info at done
  have own : info.trunk = ((forest.listed.lookup node).map NodeInfo.trunk).getD "" := by
    rw [← written]
  have legible := headed.legible_remarked own
  have read : (readNodeMarker (writeNodeMarker info)).trunk = info.trunk := marker_trunk legible
  have listed := MainDir.listed_assign headed.named nameable (writeNodeMarker info)
  have distinct : Index.Distinct (_ :: removeKeys _ (MainDir.listed _ _)) :=
    headed.distinct_remarked (read.trans own)
  rw [← listed] at distinct
  have later : ∀ entry ∈ MainDir.listed forest.fsEncode
      (assign (fsName forest.fsEncode node) (some (writeNodeMarker info)) forest.mainDir),
      Xwal.Legible entry.2.trunk := by
    rw [listed]
    intro entry member
    rcases List.mem_cons.mp member with rfl | older
    · simpa only [read] using legible
    · exact headed.legible entry (List.mem_filter.mp older).1
  obtain ⟨after, rebuilt, good⟩ := rebuild_headed forest.catalog
    (headed.named.assign nameable (some (writeNodeMarker info))) (nodup_assign headed.nodup)
    distinct later
  have equal : next = after := Except.ok.inj (done.symm.trans rebuilt)
  exact equal ▸ good

end Forest

end Figwal.Xwal
