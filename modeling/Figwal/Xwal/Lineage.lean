import Figwal.Lib.Descent
import Figwal.Xwal.LiveTrunks

/-!
# Walks along the lineage

Parent links are free text: they may point at nothing, at the node itself or around in a
circle. The climbs of `ownerOf` and of the migration count their hops. The recursion that
opens a node's ancestors and the one that collects a subtree do not, so they end exactly
where they meet no circle.
-/

namespace Figwal.Xwal

open Figwal.Lib Relation

set_option autoImplicit false

inductive Opening where
  | missing
  | failing (fault : Fault)
  | log

namespace Catalog

/-- `openFlatParent`: the nodes whose logs the reader delegates to, the nearest first. An
ancestor without a directory is passed through. -/
def openFlatParent (catalog : Catalog) (directory : String → Opening) :
    Nat → String → Option (Except Fault (List String))
  | 0, _ => none
  | fuel + 1, node =>
    if node = "" then some (.ok [])
    else
      let up := catalog.parentOf node
      match (if up = "" then some (.ok []) else catalog.openFlatParent directory fuel up) with
      | none => none
      | some (.error fault) => some (.error fault)
      | some (.ok above) =>
        match directory node with
        | .missing => some (.ok above)
        | .failing fault => some (.error fault)
        | .log => some (.ok (node :: above))

def gather (visit : String → Option (List String)) : List String → Option (List String)
  | [] => some []
  | key :: rest =>
    match visit key with
    | none => none
    | some found => (gather visit rest).map (found ++ ·)

/-- The walk of `remove` over a subtree. -/
def collectSubtree (catalog : Catalog) : Nat → String → Option (List String)
  | 0, _ => none
  | fuel + 1, key =>
    if (catalog.nodes.lookup key).isNone then some []
    else (gather (catalog.collectSubtree fuel) (catalog.childrenOf key)).map (key :: ·)

/-- One pass of the loop in `ownerOf`: the hops that are left, and the node. -/
def ownerPass (catalog : Catalog) (readForkBase : String → Except Fault Nat) (atMainLT : Nat)
    (state : Int × String) : (Int × String) ⊕ Except Fault String :=
  if state.2 = "" then .inr (.ok "")
  else if state.1 - 1 < 0 then .inr (.error (.lineageCycle state.2))
  else
    match readForkBase state.2 with
    | .error fault => .inr (.error fault)
    | .ok base =>
      if base ≤ atMainLT then .inr (.ok state.2)
      else .inl (state.1 - 1, catalog.parentOf state.2)

def Climbs (catalog : Catalog) (node up : String) : Prop :=
  node ≠ "" ∧ up ≠ "" ∧ catalog.parentOf node = up

def Begets (catalog : Catalog) (key child : String) : Prop :=
  (catalog.nodes.lookup key).isSome ∧ child ∈ catalog.childrenOf key

end Catalog

/-- The nodes of a main channel under migration: where they are, and their markers. -/
structure Migration where
  paths : List String
  marker : String → Option (List Char)

namespace Migration

def parentLeaf (rel : String) : String :=
  match rel.toList.reverse.dropWhile (· ≠ '/') with
  | [] => ""
  | _ :: above => lastPart (String.ofList above.reverse)

def mainParentLeaf (migration : Migration) (rel : String) : String :=
  if parentLeaf rel ≠ "" then parentLeaf rel
  else
    match migration.marker rel with
    | some text => (readNodeMarker text).fromKey
    | none => ""

/-- `lineageIndex`: of two paths with one leaf name the later counts. -/
def byLeaf (migration : Migration) (leaf : String) : Option String :=
  migration.paths.reverse.find? fun rel => lastPart rel = leaf

def leafCount (migration : Migration) : Nat :=
  (migration.paths.map lastPart).dedup.length

/-- One pass of the inner loop of `lineageDepths`: the passes that are left, the node and its
depth so far. -/
def depthPass (migration : Migration) (state : Nat × String × Nat) :
    (Nat × String × Nat) ⊕ Nat :=
  if state.1 = 0 then .inr state.2.2
  else
    match migration.byLeaf (migration.mainParentLeaf state.2.1) with
    | none => .inr state.2.2
    | some next => .inl (state.1 - 1, next, state.2.2 + 1)

/-- One pass of the loop of `isAncestorOf`: the passes that were made, and the node. -/
def ancestorPass (migration : Migration) (anc : String) (state : Nat × String) :
    (Nat × String) ⊕ Bool :=
  if migration.leafCount ≤ state.1 then .inr false
  else
    let parent := migration.mainParentLeaf state.2
    if parent = "" then .inr false
    else if parent = lastPart anc then .inr true
    else
      match migration.byLeaf parent with
      | none => .inr false
      | some next => .inl (state.1 + 1, next)

end Migration

namespace Catalog

section Climbing

variable {catalog : Catalog} {node up : String}

theorem parent_known (climbs : catalog.Climbs node up) :
    node ∈ catalog.nodes.map Prod.fst := by
  obtain ⟨_, named, parent⟩ := climbs
  rw [parentOf] at parent
  cases found : catalog.nodes.lookup node with
  | none =>
    rw [found] at parent
    exact absurd parent.symm named
  | some entry => exact List.mem_map_of_mem (mem_of_lookup found)

theorem open_flat_parent_step (directory : String → Opening)
    (above : node ≠ "" → catalog.parentOf node ≠ "" → ∃ fuel result,
      catalog.openFlatParent directory fuel (catalog.parentOf node) = some result) :
    ∃ fuel result, catalog.openFlatParent directory fuel node = some result := by
  by_cases root : node = ""
  · exact ⟨1, .ok [], if_pos root⟩
  · have ready : ∃ fuel result, (if catalog.parentOf node = "" then some (.ok [])
        else catalog.openFlatParent directory fuel (catalog.parentOf node)) = some result := by
      by_cases top : catalog.parentOf node = ""
      · exact ⟨0, _, if_pos top⟩
      · obtain ⟨fuel, result, opened⟩ := above root top
        exact ⟨fuel, result, (if_neg top).trans opened⟩
    obtain ⟨fuel, result, opened⟩ := ready
    refine ⟨fuel + 1, ?_⟩
    simp only [openFlatParent, if_neg root, opened]
    cases result with
    | error fault => exact ⟨_, rfl⟩
    | ok logs =>
      cases directory node with
      | missing => exact ⟨_, rfl⟩
      | failing fault => exact ⟨_, rfl⟩
      | log => exact ⟨_, rfl⟩

theorem open_flat_parent_acc {directory : String → Opening} {fuel : Nat}
    {result : Except Fault (List String)}
    (opened : catalog.openFlatParent directory fuel node = some result) :
    Acc (fun up node => catalog.Climbs node up) node := by
  induction fuel generalizing node result with
  | zero => cases opened
  | succ fuel ih =>
    refine Acc.intro node fun up climbs => ?_
    obtain ⟨below, named, parent⟩ := climbs
    simp only [openFlatParent, if_neg below, parent, if_neg named] at opened
    cases above : catalog.openFlatParent directory fuel up with
    | none =>
      rw [above] at opened
      cases opened
    | some logs => exact ih above

/-- The recursion of `openFlatParent` ends exactly where no ancestor is its own. -/
theorem open_flat_parent_ends_iff (catalog : Catalog) (directory : String → Opening)
    (node : String) :
    (∃ fuel result, catalog.openFlatParent directory fuel node = some result) ↔
      ∀ key, ReflTransGen catalog.Climbs node key → ¬TransGen catalog.Climbs key key := by
  constructor
  · intro ⟨fuel, result, opened⟩ key reached
    exact acyclic_of_acc (open_flat_parent_acc opened) reached
  · intro acyclic
    have listed : ∀ here next, catalog.Climbs here next → here ∈ catalog.nodes.map Prod.fst :=
      fun _ _ climbs => parent_known climbs
    induction acc_of_acyclic listed acyclic with
    | intro node _ ih =>
      apply open_flat_parent_step
      intro below up
      have climbs : catalog.Climbs node (catalog.parentOf node) := ⟨below, up, rfl⟩
      exact ih _ climbs fun key reached => acyclic key (.head climbs reached)

end Climbing

section Descending

variable {catalog : Catalog} {key : String} {found : List String}

theorem gather_mono {first second : String → Option (List String)} {keys : List String}
    (more : ∀ key ∈ keys, ∀ list, first key = some list → second key = some list)
    (gathered : gather first keys = some found) : gather second keys = some found := by
  induction keys generalizing found with
  | nil => exact gathered
  | cons key rest ih =>
    rw [gather] at gathered ⊢
    cases visited : first key with
    | none =>
      rw [visited] at gathered
      cases gathered
    | some list =>
      rw [visited] at gathered
      obtain ⟨others, later, rfl⟩ := Option.map_eq_some_iff.mp gathered
      rw [more key List.mem_cons_self list visited]
      exact Option.map_eq_some_iff.mpr ⟨others,
        ih (fun other held => more other (List.mem_cons_of_mem _ held)) later, rfl⟩

theorem collect_subtree_mono {fuel more : Nat}
    (collected : catalog.collectSubtree fuel key = some found) (enough : fuel ≤ more) :
    catalog.collectSubtree more key = some found := by
  induction fuel generalizing key more found with
  | zero => cases collected
  | succ fuel ih =>
    obtain ⟨extra, rfl⟩ : ∃ extra, more = extra + 1 := ⟨more - 1, by omega⟩
    rw [collectSubtree] at collected ⊢
    split_ifs at collected ⊢
    · exact collected
    · obtain ⟨below, gathered, rfl⟩ := Option.map_eq_some_iff.mp collected
      exact Option.map_eq_some_iff.mpr ⟨below, gather_mono
        (fun child _ list visited => ih visited (by omega)) gathered, rfl⟩

theorem gather_visits {visit : String → Option (List String)} {keys : List String}
    (gathered : gather visit keys = some found) {key : String} (held : key ∈ keys) :
    ∃ list, visit key = some list := by
  induction keys generalizing found with
  | nil => cases held
  | cons first rest ih =>
    rw [gather] at gathered
    cases visited : visit first with
    | none =>
      rw [visited] at gathered
      cases gathered
    | some list =>
      rw [visited] at gathered
      obtain ⟨others, later, _⟩ := Option.map_eq_some_iff.mp gathered
      rcases List.mem_cons.mp held with rfl | behind
      · exact ⟨list, visited⟩
      · exact ih later behind

theorem collect_subtree_acc {fuel : Nat}
    (collected : catalog.collectSubtree fuel key = some found) :
    Acc (fun child key => catalog.Begets key child) key := by
  induction fuel generalizing key found with
  | zero => cases collected
  | succ fuel ih =>
    refine Acc.intro key fun child begets => ?_
    have known : ¬(catalog.nodes.lookup key).isNone := by
      rw [Option.isNone_iff_eq_none]
      exact Option.isSome_iff_ne_none.mp begets.1
    rw [collectSubtree, if_neg known] at collected
    obtain ⟨below, gathered, _⟩ := Option.map_eq_some_iff.mp collected
    obtain ⟨list, visited⟩ := gather_visits gathered begets.2
    exact ih visited

theorem gather_ends {keys : List String}
    (each : ∀ child ∈ keys, ∃ fuel found, catalog.collectSubtree fuel child = some found) :
    ∃ fuel found, gather (catalog.collectSubtree fuel) keys = some found := by
  induction keys with
  | nil => exact ⟨0, [], rfl⟩
  | cons child rest ih =>
    obtain ⟨few, list, visited⟩ := each child List.mem_cons_self
    obtain ⟨many, others, gathered⟩ := ih fun other held =>
      each other (List.mem_cons_of_mem _ held)
    refine ⟨max few many, list ++ others, ?_⟩
    rw [gather, collect_subtree_mono visited (Nat.le_max_left _ _)]
    exact Option.map_eq_some_iff.mpr ⟨others, gather_mono
      (fun _ _ _ found => collect_subtree_mono found (Nat.le_max_right _ _)) gathered, rfl⟩

theorem child_parent (nodup : (catalog.nodes.map Prod.fst).Nodup) {parent child : String}
    (begets : catalog.Begets parent child) :
    (catalog.nodes.lookup child).map (fun node => node.info.fromKey) = some parent := by
  obtain ⟨⟨name, node⟩, held, rfl⟩ := List.mem_map.mp begets.2
  obtain ⟨inside, from_⟩ := List.mem_filter.mp held
  rw [lookup_of_mem nodup inside, Option.map_some]
  exact congrArg some (of_decide_eq_true from_)

/-- The walk of `remove` ends exactly where its top is not its own descendant. -/
theorem collect_subtree_ends_iff (nodup : (catalog.nodes.map Prod.fst).Nodup) (key : String) :
    (∃ fuel found, catalog.collectSubtree fuel key = some found) ↔
      ¬TransGen catalog.Begets key key := by
  constructor
  · intro ⟨fuel, found, collected⟩
    exact acyclic_of_acc (collect_subtree_acc collected) .refl
  intro acyclic
  have listed : ∀ here next, catalog.Begets here next → here ∈ catalog.nodes.map Prod.fst := by
    intro here next begets
    obtain ⟨node, found⟩ := Option.isSome_iff_exists.mp begets.1
    exact List.mem_map_of_mem (mem_of_lookup found)
  have one : ∀ first second next, catalog.Begets first next → catalog.Begets second next →
      first = second := by
    intro first second next begets again
    have same := child_parent nodup begets
    rw [child_parent nodup again] at same
    exact (Option.some.inj same).symm
  have ahead : ∀ place, ReflTransGen catalog.Begets key place →
      ¬TransGen catalog.Begets place place := fun place reached cycle =>
    acyclic (start_on_cycle one reached cycle)
  induction acc_of_acyclic listed ahead with
  | intro key _ ih =>
    by_cases known : (catalog.nodes.lookup key).isNone
    · exact ⟨1, [], if_pos known⟩
    · have there : (catalog.nodes.lookup key).isSome :=
        Option.isSome_iff_ne_none.mpr fun none => known (by rw [none]; rfl)
      obtain ⟨fuel, found, gathered⟩ := @gather_ends catalog (catalog.childrenOf key)
        fun child held => ih child ⟨there, held⟩
          (fun around => ahead child (.single ⟨there, held⟩) around)
          fun place reached => ahead place (.head ⟨there, held⟩ reached)
      refine ⟨fuel + 1, key :: found, ?_⟩
      rw [collectSubtree, if_neg known, gathered]
      rfl

end Descending

section Rebuilding

variable {fsEncode : Bool} {catalog next : Catalog}

theorem add_locked_nodup {marker : Option (List Char)} {key : String} {isRoot : Bool}
    (nodup : (catalog.nodes.map Prod.fst).Nodup)
    (added : catalog.addLocked marker key isRoot = .ok next) :
    (next.nodes.map Prod.fst).Nodup := by
  rcases add_locked_cases added with same | ⟨info, _, nodes, _⟩
  · rw [same]
    exact nodup
  · rw [nodes]
    exact nodup_assign nodup

theorem rebuilt_nodup {own : Option (List Char)} {mainDir : MainDir}
    (rebuilt : rebuildRooted fsEncode own mainDir = .ok catalog) :
    (catalog.nodes.map Prod.fst).Nodup := by
  apply rebuild_invariant (fun catalog => (catalog.nodes.map Prod.fst).Nodup) _ _ rebuilt
  · intro root added
    exact @add_locked_nodup empty root _ _ _ List.nodup_nil added
  · intro before after name marker _ _ nodup added
    exact add_locked_nodup nodup added

end Rebuilding

theorem owner_ends (catalog : Catalog) (readForkBase : String → Except Fault Nat) (atMainLT : Nat)
    (node : String) :
    LoopEnds (catalog.ownerPass readForkBase atMainLT) (catalog.nodes.length, node) := by
  apply loop_ends_of_measure _ fun state => state.1.toNat
  intro state next passed
  rw [ownerPass] at passed
  split_ifs at passed with root hops
  cases base : readForkBase state.2 with
  | error fault =>
    rw [base] at passed
    cases passed
  | ok low =>
    rw [base] at passed
    simp only at passed
    split_ifs at passed
    cases passed
    omega

end Catalog

namespace Migration

theorem depth_ends (migration : Migration) (rel : String) :
    LoopEnds migration.depthPass (migration.paths.length, rel, 0) := by
  apply loop_ends_of_measure _ fun state => state.1
  intro state next passed
  rw [depthPass] at passed
  split_ifs at passed with left
  cases found : migration.byLeaf (migration.mainParentLeaf state.2.1) with
  | none =>
    rw [found] at passed
    cases passed
  | some up =>
    rw [found] at passed
    cases passed
    exact Nat.sub_lt (Nat.pos_of_ne_zero left) Nat.one_pos

theorem ancestor_ends (migration : Migration) (anc desc : String) :
    LoopEnds (migration.ancestorPass anc) (0, desc) := by
  apply loop_ends_of_measure _ fun state => migration.leafCount - state.1
  intro state next passed
  rw [ancestorPass] at passed
  simp only at passed
  split_ifs at passed with last orphan found
  cases there : migration.byLeaf (migration.mainParentLeaf state.2) with
  | none =>
    rw [there] at passed
    cases passed
  | some up =>
    rw [there] at passed
    cases passed
    omega

end Migration

/-- On every index that can be rebuilt the bounded climbs end whatever the links are, the
opening of ancestors exactly where no ancestor is its own, and the collection of a subtree
exactly where its top is not its own descendant. -/
theorem lineage_walks_end {fsEncode : Bool} {own : Option (List Char)} {mainDir : MainDir}
    {catalog : Catalog} (rebuilt : Catalog.rebuildRooted fsEncode own mainDir = .ok catalog) :
    (∀ directory node,
      (∃ fuel result, catalog.openFlatParent directory fuel node = some result) ↔
        ∀ key, ReflTransGen catalog.Climbs node key → ¬TransGen catalog.Climbs key key) ∧
    (∀ key, (∃ fuel found, catalog.collectSubtree fuel key = some found) ↔
      ¬TransGen catalog.Begets key key) ∧
    (∀ readForkBase atMainLT node,
      LoopEnds (catalog.ownerPass readForkBase atMainLT) (catalog.nodes.length, node)) ∧
    (∀ (migration : Migration) rel,
      LoopEnds migration.depthPass (migration.paths.length, rel, 0)) ∧
    ∀ (migration : Migration) anc desc, LoopEnds (migration.ancestorPass anc) (0, desc) :=
  ⟨catalog.open_flat_parent_ends_iff,
    Catalog.collect_subtree_ends_iff (Catalog.rebuilt_nodup rebuilt), catalog.owner_ends,
    Migration.depth_ends, Migration.ancestor_ends⟩

def plainLineage : MainDir :=
  [("n0", some (writeNodeMarker ⟨"t0", "", "conversation"⟩)),
    ("n1", some (writeNodeMarker ⟨"t1", "n0", "conversation"⟩))]

def plainCatalog : Catalog where
  nodes := [("n1", ⟨⟨"t1", "n0", "conversation"⟩, false⟩),
    ("n0", ⟨⟨"t0", "", "conversation"⟩, false⟩), ("", ⟨⟨"", "", "null"⟩, true⟩)]
  heads := [("t1", "n1"), ("t0", "n0")]
  nodeSeq := 2
  trunkSeq := 2

/-- The climb goes from `n1` through `n0` to the root, and the walk from `n0` to its child. -/
theorem plain_lineage_walks_end :
    (∃ fuel result, plainCatalog.openFlatParent (fun _ => .log) fuel "n1" = some result) ∧
      ∃ fuel found, plainCatalog.collectSubtree fuel "n0" = some found := by
  have rebuilt : Catalog.rebuildRooted false none plainLineage = .ok plainCatalog := by
    decide +kernel
  obtain ⟨opens, walks, _⟩ := lineage_walks_end rebuilt
  constructor
  · have only : ∀ node up, plainCatalog.Climbs node up → node = "n1" ∧ up = "n0" := by
      intro node up climbs
      have known : node ∈ ["n1", "n0", ""] := Catalog.parent_known climbs
      obtain ⟨below, named, rfl⟩ := climbs
      simp only [List.mem_cons, List.not_mem_nil, or_false] at known
      rcases known with rfl | rfl | rfl
      · exact ⟨rfl, by decide⟩
      · exact absurd (by decide) named
      · exact absurd rfl below
    apply (opens _ _).mpr
    intro key _ cycle
    obtain ⟨up, step, back⟩ := TransGen.head'_iff.mp cycle
    obtain ⟨rfl, rfl⟩ := only key up step
    rcases ReflTransGen.cases_head back with same | ⟨next, again, _⟩
    · exact absurd same (by decide)
    · exact absurd (only _ _ again).1 (by decide)
  · have child : ∀ child, plainCatalog.Begets "n0" child → child = "n1" := fun child begets =>
      List.mem_singleton.mp begets.2
    have leaf : ∀ child, ¬plainCatalog.Begets "n1" child := fun child begets =>
      absurd begets.2 List.not_mem_nil
    apply (walks _).mpr
    intro cycle
    obtain ⟨next, step, back⟩ := TransGen.head'_iff.mp cycle
    rw [child next step] at back
    rcases ReflTransGen.cases_head back with same | ⟨other, again, _⟩
    · exact absurd same (by decide)
    · exact leaf other again

def selfParent : MainDir := [("n0", some (writeNodeMarker ⟨"t0", "n0", "conversation"⟩))]

def mutualParents : MainDir :=
  [("n0", some (writeNodeMarker ⟨"t0", "n1", "conversation"⟩)),
    ("n1", some (writeNodeMarker ⟨"t1", "n0", "conversation"⟩))]

def selfCatalog : Catalog where
  nodes := [("n0", ⟨⟨"t0", "n0", "conversation"⟩, false⟩), ("", ⟨⟨"", "", "null"⟩, true⟩)]
  heads := [("t0", "n0")]
  nodeSeq := 1
  trunkSeq := 1

def mutualCatalog : Catalog where
  nodes := [("n1", ⟨⟨"t1", "n0", "conversation"⟩, false⟩),
    ("n0", ⟨⟨"t0", "n1", "conversation"⟩, false⟩), ("", ⟨⟨"", "", "null"⟩, true⟩)]
  heads := [("t1", "n1"), ("t0", "n0")]
  nodeSeq := 2
  trunkSeq := 2

theorem circular_lineage_hangs :
    (Catalog.rebuildRooted false none selfParent = .ok selfCatalog ∧
      ∀ directory fuel, selfCatalog.openFlatParent directory fuel "n0" = none) ∧
    Catalog.rebuildRooted false none mutualParents = .ok mutualCatalog ∧
      mutualCatalog.foundingNode "t0" = some "n0" ∧
      ∀ fuel, mutualCatalog.collectSubtree fuel "n0" = none := by
  refine ⟨⟨by decide +kernel, ?_⟩, by decide +kernel, by decide +kernel, ?_⟩
  · intro directory fuel
    apply Option.eq_none_iff_forall_ne_some.mpr
    intro result opened
    have itself : selfCatalog.Climbs "n0" "n0" := by
      unfold Catalog.Climbs
      decide
    exact (selfCatalog.open_flat_parent_ends_iff directory "n0").mp ⟨fuel, result, opened⟩ "n0"
      .refl (.single itself)
  · intro fuel
    apply Option.eq_none_iff_forall_ne_some.mpr
    intro found collected
    have down : mutualCatalog.Begets "n0" "n1" := by
      unfold Catalog.Begets
      decide
    have up : mutualCatalog.Begets "n1" "n0" := by
      unfold Catalog.Begets
      decide
    exact (Catalog.collect_subtree_ends_iff (by decide) "n0").mp ⟨fuel, found, collected⟩
      (.head down (.single up))

end Figwal.Xwal
