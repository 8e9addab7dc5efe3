import Figwal.Xwal.IndexRuns

/-!
# Trunk ids and the index over whole runs

An operation that creates a trunk takes the id it is given. As long as the id is
not in use and reads back from a marker, every trunk keeps its one head and the
store can be opened again. If every other value of the marker reads back too, the
index in memory is the one a rebuild gives.
-/

namespace Figwal.Xwal

open Figwal.Lib

set_option autoImplicit false

def ForestOp.minted : ForestOp → Option String
  | .spawnUnderRootKind _ minted => some minted
  | .spawnUnderStumpKind _ _ minted => some minted
  | .spawnChildKind _ _ minted => some minted
  | .forkTail _ minted => some minted
  | .forkAt _ _ minted => some minted
  | .createStump _ | .detach _ | .remove _ _ | .removeStump _ => none

def Catalog.trunkExists (catalog : Catalog) (trunk : String) : Bool :=
  catalog.nodes.any fun entry => entry.2.info.trunk = trunk

namespace Forest

def written (forest : Forest) : ForestOp → Option NodeInfo
  | .createStump _ => some ⟨"", "", "loadout"⟩
  | .spawnUnderRootKind kind minted => some ⟨minted, "", kind⟩
  | .spawnUnderStumpKind name kind minted =>
    (forest.stumpKey name).toOption.map fun parent => ⟨minted, parent, kind⟩
  | .spawnChildKind trunk kind minted =>
    (forest.anchorKey trunk).toOption.map fun parent => ⟨minted, parent, kind⟩
  | .forkTail trunk minted =>
    (forest.headKey trunk).toOption.map fun parent => ⟨minted, parent, "conversation"⟩
  | .forkAt trunk owner minted =>
    (forest.ownerKey trunk owner).toOption.map fun parent => ⟨minted, parent, "conversation"⟩
  | .detach _ | .remove _ _ | .removeStump _ => none

inductive Change (forest : Forest) (op : ForestOp) (next : Forest) : Prop
  | stump (name : String) (silent : op.minted = none)
      (created : forest.createStump name = .ok next)
  | node (parent kind minted : String) (mints : op.minted = some minted)
      (writes : forest.written op = some ⟨minted, parent, kind⟩)
      (made : next = forest.forkFlat parent kind minted)
  | detached (node : String) (silent : op.minted = none) (done : forest.detach node = .ok next)
  | pruned (gone : List String) (silent : op.minted = none)
      (rebuilt : (forest.prune gone).rebuild = .ok next)

variable {forest next : Forest} {op : ForestOp} {trunk : String}

theorem spawn_ok {anchor : Except Fault String} {kind minted : String}
    (done : forest.spawn anchor kind minted = .ok next) :
    ∃ parent, anchor = .ok parent ∧ next = forest.forkFlat parent kind minted := by
  cases anchor with
  | error fault => cases done
  | ok parent =>
    cases done
    exact ⟨parent, rfl, rfl⟩

theorem remove_ok {recursive : Bool} (done : forest.remove trunk recursive = .ok next) :
    ∃ gone, (forest.prune gone).rebuild = .ok next := by
  unfold remove at done
  split_ifs at done
  split at done
  · cases done
  · dsimp only at done
    split_ifs at done
    exact ⟨_, done⟩

theorem remove_stump_ok {name : String} (done : forest.removeStump name = .ok next) :
    ∃ gone, (forest.prune gone).rebuild = .ok next := by
  unfold removeStump at done
  split at done
  · cases done
  · dsimp only at done
    split_ifs at done
    exact ⟨_, done⟩

theorem step_change (done : forest.step op = .ok next) : forest.Change op next := by
  cases op with
  | createStump name => exact .stump name rfl done
  | spawnUnderRootKind kind minted =>
    obtain ⟨parent, root, made⟩ := spawn_ok done
    cases root
    exact .node "" kind minted rfl rfl made
  | spawnUnderStumpKind name kind minted =>
    obtain ⟨parent, found, made⟩ := spawn_ok done
    exact .node parent kind minted rfl (by rw [written, found]; rfl) made
  | spawnChildKind trunk kind minted =>
    obtain ⟨parent, found, made⟩ := spawn_ok done
    exact .node parent kind minted rfl (by rw [written, found]; rfl) made
  | forkTail trunk minted =>
    obtain ⟨parent, found, made⟩ := spawn_ok done
    exact .node parent "conversation" minted rfl (by rw [written, found]; rfl) made
  | forkAt trunk owner minted =>
    obtain ⟨parent, found, made⟩ := spawn_ok done
    exact .node parent "conversation" minted rfl (by rw [written, found]; rfl) made
  | detach node => exact .detached node rfl done
  | remove trunk recursive =>
    obtain ⟨gone, rebuilt⟩ := remove_ok done
    exact .pruned gone rfl rebuilt
  | removeStump name =>
    obtain ⟨gone, rebuilt⟩ := remove_stump_ok done
    exact .pruned gone rfl rebuilt

theorem apply_cases (forest : Forest) (op : ForestOp) :
    forest.Change op (forest.apply op) ∨ forest.apply op = forest := by
  unfold apply
  cases done : forest.step op with
  | error fault => exact Or.inr rfl
  | ok next => exact Or.inl (step_change done)

/-!
## Trunks keep their heads
-/

def MintsUnused (forest : Forest) (op : ForestOp) : Prop :=
  ∀ minted ∈ op.minted, forest.catalog.trunkExists minted = false ∧ Xwal.Legible minted ∧
    forest.catalog.nodeSeq < maxInt

instance (forest : Forest) (op : ForestOp) : Decidable (forest.MintsUnused op) :=
  inferInstanceAs (Decidable (∀ minted ∈ op.minted, _ ∧ _ ∧ _))

theorem Headed.carries_iff (headed : forest.Headed) (trunk key : String) :
    forest.catalog.heads.lookup trunk = some key ↔ trunk ≠ "" ∧
      (forest.catalog.nodes.lookup key).map (fun node => node.info.trunk) = some trunk := by
  rw [headed.heads, headed.trunks]
  constructor
  · intro found
    obtain ⟨info, member, carries, named⟩ := Index.head_mem found
    refine ⟨named, ?_⟩
    rw [if_neg (headed.key_ne _ member), lookup_of_mem headed.keys member]
    exact congrArg some carries
  · rintro ⟨named, carried⟩
    split_ifs at carried with root
    · exact absurd (Option.some.inj carried).symm named
    · obtain ⟨info, found, same⟩ := Option.map_eq_some_iff.mp carried
      have head := Index.head_of_mem headed.distinct (mem_of_lookup found) (same ▸ named)
      rwa [same] at head

theorem Headed.unused (headed : forest.Headed) (free : forest.catalog.trunkExists trunk = false) :
    forest.catalog.heads.lookup trunk = none := by
  cases held : forest.catalog.heads.lookup trunk with
  | none => rfl
  | some key =>
    obtain ⟨_, carried⟩ := (headed.carries_iff trunk key).mp held
    obtain ⟨node, found, same⟩ := Option.map_eq_some_iff.mp carried
    have clear := List.any_eq_false.mp free _ (mem_of_lookup found)
    exact absurd (by simpa using same) clear

theorem fresh_headed (fsEncode : Bool) : (fresh fsEncode).Headed := by
  refine ⟨?_, List.nodup_nil, List.Pairwise.nil, ?_, ?_, ?_, ?_, ?_⟩
  · intro entry member
    cases member
  · intro entry member
    cases member
  · intro key
    by_cases root : key = ""
    · rw [if_pos root, root]
      rfl
    · rw [if_neg root, fresh, List.lookup_cons, beq_eq_false_iff_ne.mpr root]
      rfl
  · intro trunk
    unfold Index.head
    split_ifs <;> rfl
  · exact Int.le_refl 0
  · intro entry member
    cases member

theorem fresh_exact (fsEncode : Bool) : (fresh fsEncode).Exact := by
  intro key
  by_cases root : key = ""
  · rw [if_pos root, root]
    rfl
  · rw [if_neg root, fresh, List.lookup_cons, beq_eq_false_iff_ne.mpr root]
    rfl

theorem Headed.apply (headed : forest.Headed) (unused : forest.MintsUnused op) :
    (forest.apply op).Headed := by
  rcases forest.apply_cases op with change | same
  · cases change with
    | stump name _ created => exact (headed.create_stump created).1
    | node parent kind minted mints _ made =>
      obtain ⟨free, legible, room⟩ := unused minted mints
      rw [made]
      exact headed.fork_flat room legible (headed.unused free)
    | detached node _ done => exact (headed.detach done).1
    | pruned gone _ rebuilt => exact (headed.prune_rebuild gone rebuilt).1
  · rw [same]
    exact headed

/-- Every trunk in the index is carried by the one node the index names, and the same
trunks are found when the store is opened again. -/
structure Addressed (forest : Forest) : Prop where
  carries : ∀ trunk key, forest.catalog.heads.lookup trunk = some key ↔ trunk ≠ "" ∧
    (forest.catalog.nodes.lookup key).map (fun node => node.info.trunk) = some trunk
  reopens : ∃ rebuilt, Catalog.rebuildFrom forest.fsEncode forest.mainDir = .ok rebuilt ∧
    (∀ trunk, rebuilt.heads.lookup trunk = forest.catalog.heads.lookup trunk) ∧
    ∀ key, (rebuilt.nodes.lookup key).map (fun node => node.info.trunk) =
      (forest.catalog.nodes.lookup key).map fun node => node.info.trunk

structure KeepsTrunks (forest : Forest) (op : ForestOp) : Prop where
  addressed : (forest.apply op).Addressed
  kept : ∀ minted ∈ op.minted, ∀ trunk key, forest.catalog.heads.lookup trunk = some key →
    (forest.apply op).catalog.heads.lookup trunk = some key
  added : ∀ minted ∈ op.minted, (forest.step op).isOk = true →
    ((forest.apply op).catalog.heads.lookup minted).isSome = true

theorem Headed.addressed (headed : forest.Headed) : forest.Addressed := by
  refine ⟨headed.carries_iff, ?_⟩
  obtain ⟨rebuilt, done, later, _⟩ := headed.rebuilds
  refine ⟨rebuilt, done, ?_, ?_⟩
  · intro trunk
    rw [headed.heads]
    exact later.heads trunk
  · intro key
    rw [headed.trunks]
    exact later.trunks key

theorem fork_flat_heads (forest : Forest) (parent kind minted trunk : String) :
    (forest.forkFlat parent kind minted).catalog.heads.lookup trunk =
      if minted ≠ "" ∧ trunk = minted then some forest.catalog.mintNode.1
      else forest.catalog.heads.lookup trunk := by
  by_cases blank : minted = ""
  · simp [forkFlat, plant, Catalog.spawnFlat, Catalog.bumpSeqs, Catalog.mintNode, blank]
  · simp [forkFlat, plant, Catalog.spawnFlat, Catalog.bumpSeqs, Catalog.mintNode, blank]

theorem Headed.mints_named (headed : forest.Headed)
    (free : forest.catalog.trunkExists trunk = false) : trunk ≠ "" := by
  rintro rfl
  have root := headed.trunks ""
  rw [if_pos rfl] at root
  obtain ⟨node, found, blank⟩ := Option.map_eq_some_iff.mp root
  exact absurd (by simpa using blank) (List.any_eq_false.mp free _ (mem_of_lookup found))

theorem Headed.keeps_trunks (headed : forest.Headed) (unused : forest.MintsUnused op) :
    forest.KeepsTrunks op := by
  refine ⟨(headed.apply unused).addressed, ?_, ?_⟩
  · intro minted mints trunk key held
    obtain ⟨free, _, _⟩ := unused minted mints
    rcases forest.apply_cases op with change | same
    · cases change with
      | node parent kind id names _ made =>
        have equal : minted = id := Option.some.inj (mints.symm.trans names)
        subst equal
        rw [made, fork_flat_heads, if_neg]
        · exact held
        · rintro ⟨_, rfl⟩
          rw [headed.unused free] at held
          cases held
      | stump _ silent | detached _ silent | pruned _ silent =>
        rw [silent] at mints
        cases mints
    · rw [same]
      exact held
  · intro minted mints accepted
    obtain ⟨free, _, _⟩ := unused minted mints
    unfold Forest.apply
    cases done : forest.step op with
    | error fault =>
      rw [done] at accepted
      cases accepted
    | ok next =>
      cases step_change done with
      | node parent kind id names _ made =>
        have equal : minted = id := Option.some.inj (mints.symm.trans names)
        subst equal
        change (next.catalog.heads.lookup minted).isSome = true
        rw [made, fork_flat_heads, if_pos ⟨headed.mints_named free, rfl⟩]
        rfl
      | stump _ silent | detached _ silent | pruned _ silent =>
        rw [silent] at mints
        cases mints

/-- In every run whose minted ids are unused and legible and that has room for its
nodes, trunks stay unique and addressable and the store can be opened again. -/
theorem trunk_ids_stay_unique (fsEncode : Bool) (run : List ForestOp)
    (unused : EveryStep apply MintsUnused (fresh fsEncode) run) :
    EveryStep apply KeepsTrunks (fresh fsEncode) run := by
  apply every_step_of_invariant apply Headed _ (fresh_headed fsEncode) unused
  intro forest op headed mints
  exact ⟨headed.keeps_trunks mints, headed.apply mints⟩

/-- Two trunks get one id: the first is lost and the store does not open. -/
theorem minted_twice_loses_trunk :
    ¬EveryStep apply KeepsTrunks (fresh false)
        [.spawnUnderRootKind "conversation" "a", .spawnUnderRootKind "conversation" "a"] ∧
      (([.spawnUnderRootKind "conversation" "a", .spawnUnderRootKind "conversation" "a"] :
        List ForestOp).foldl apply (fresh false)).rebuild =
          .error (.multipleHeads "a" "n0" "n1") := by
  constructor
  · intro good
    have moved := good.2.1.kept "a" rfl "a" "n0" (by decide +kernel)
    exact absurd moved (by decide +kernel)
  · decide +kernel

theorem distinct_ids_stay_unique :
    EveryStep apply KeepsTrunks (fresh true)
      [.createStump "base", .spawnUnderStumpKind "base" "form" "a", .forkTail "a" "b",
        .forkAt "b" "base" "c", .detach "n1", .remove "a" true, .spawnChildKind "b" "" "a"] :=
  trunk_ids_stay_unique true _ (by decide +kernel)

/-!
## The index in memory is the rebuilt one
-/

def MintsFresh (forest : Forest) (op : ForestOp) : Prop :=
  ∀ minted ∈ op.minted, minted ≠ "" ∧ forest.catalog.heads.lookup minted = none

/-- Every value of the new marker reads back, and there is room for a node. -/
def Records (forest : Forest) (op : ForestOp) : Prop :=
  (∀ info ∈ forest.written op, info.Legible) ∧
    (op.minted ≠ none → forest.catalog.nodeSeq < maxInt)

instance (forest : Forest) (op : ForestOp) : Decidable (forest.MintsFresh op) :=
  inferInstanceAs (Decidable (∀ minted ∈ op.minted, _ ∧ _))

instance (forest : Forest) (op : ForestOp) : Decidable (forest.Records op) :=
  inferInstanceAs (Decidable ((∀ info ∈ forest.written op, _) ∧ (_ → _)))

theorem Headed.apply_exact (headed : forest.Headed) (exact_ : forest.Exact)
    (mints : forest.MintsFresh op) (records : forest.Records op) :
    (forest.apply op).Headed ∧ (forest.apply op).Exact := by
  obtain ⟨legible, room⟩ := records
  rcases forest.apply_cases op with change | same
  · cases change with
    | stump name _ created =>
      obtain ⟨kept, patched⟩ := headed.create_stump created
      exact ⟨kept, patched exact_⟩
    | node parent kind minted names writes made =>
      have readable := legible _ writes
      have space := room (by rw [names]; exact Option.some_ne_none minted)
      rw [made]
      exact ⟨headed.fork_flat space readable.2.2 (mints minted names).2,
        headed.fork_flat_exact exact_ space readable⟩
    | detached node _ done => exact headed.detach done
    | pruned gone _ rebuilt => exact headed.prune_rebuild gone rebuilt
  · rw [same]
    exact ⟨headed, exact_⟩

/-- In every run with fresh ids whose markers are legible and that has room for its
nodes, the index in memory is the one that a rebuild gives. -/
theorem patched_index_is_rebuilt (fsEncode : Bool) (run : List ForestOp)
    (mints : EveryStep apply MintsFresh (fresh fsEncode) run)
    (records : EveryStep apply Records (fresh fsEncode) run) :
    (run.foldl apply (fresh fsEncode)).Matches := by
  have kept := invariant_after apply (fun forest => forest.Headed ∧ forest.Exact)
    (fun forest op held both => held.1.apply_exact held.2 both.1 both.2)
    ⟨fresh_headed fsEncode, fresh_exact fsEncode⟩ (every_step_and apply mints records)
  exact kept.1.matches_of_exact kept.2

def blankKind : List ForestOp := [.spawnUnderRootKind "form " "a"]

def spentCounter : List ForestOp :=
  [.createStump "n9223372036854775806", .spawnUnderRootKind "form" "a", .createStump "other",
    .removeStump "other", .spawnUnderRootKind "form" "b"]

/-- The marker loses the blank of a kind, and the second node of a key takes the
marker of the first. -/
theorem patched_index_drifts :
    EveryStep apply MintsFresh (fresh false) blankKind ∧
      ¬(blankKind.foldl apply (fresh false)).Matches ∧
      EveryStep apply MintsFresh (fresh false) spentCounter ∧
      ¬(spentCounter.foldl apply (fresh false)).Matches := by
  refine ⟨by decide +kernel, ?_, by decide +kernel, ?_⟩
  · rintro ⟨rebuilt, done, nodes, _⟩
    have read : (Catalog.rebuildFrom (blankKind.foldl apply (fresh false)).fsEncode
        (blankKind.foldl apply (fresh false)).mainDir).map
          (fun catalog => catalog.nodes.lookup "n0") = .ok (some ⟨⟨"a", "", "form"⟩, false⟩) := by
      decide +kernel
    rw [done] at read
    have found := (nodes "n0").trans (Except.ok.inj read)
    exact absurd found (by decide +kernel)
  · rintro ⟨rebuilt, done, _, heads⟩
    have read : (Catalog.rebuildFrom (spentCounter.foldl apply (fresh false)).fsEncode
        (spentCounter.foldl apply (fresh false)).mainDir).map
          (fun catalog => catalog.heads.lookup "a") = .ok none := by
      decide +kernel
    rw [done] at read
    have found := (heads "a").trans (Except.ok.inj read)
    exact absurd found (by decide +kernel)

theorem legible_run_is_rebuilt :
    (([.createStump "base", .spawnUnderStumpKind "base" "a = b" "a", .forkTail "a" "b c",
        .forkAt "b c" "base" "c", .detach "n1", .remove "a" true,
        .spawnChildKind "b c" "" "a"] : List ForestOp).foldl apply (fresh true)).Matches :=
  patched_index_is_rebuilt true _ (by decide +kernel) (by decide +kernel)

end Forest

end Figwal.Xwal
