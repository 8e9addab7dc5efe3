import Figwal.Xwal.Detaching

/-!
# Who owns a main record

`ownerOf` climbs the lineage of a head and compares the bases in the fork markers. A read
climbs the opened logs, each of which hands indexes below its own base to its parent. In
every state a store can get into, both end at the same node, and a fork at an index the head
does not end with records that node as its parent. Clearing a trunk's own part of a channel is
the exception: it deletes the markers with the records.

A fork at the tail of a head forks the head itself, also where the head has no records of its
own and its last record belongs to a node above.
-/

namespace Figwal.Xwal

open Figwal.Lib Figwal.Disk

set_option autoImplicit false

variable {β σ : Type}

/-!
## Operations
-/

inductive StoreOp (β σ : Type) where
  | trunk (op : TrunkOp β σ)
  | appendStump (stump : String) (body : β) (extra : List (String × Nat))
  | appendStumpChannel (stump channel : String) (mainLT : Nat) (body : β)
  | detach (node : String)
  | clear (trunk channel : String)

/-- The channel that an operation declares, if it declares one, is faithful. -/
def StoreOp.Faithful : StoreOp β σ → Prop
  | .trunk op => op.Faithful
  | _ => True

/-- The channel's part of a node in an empty directory: `seedWatermark` or `seedEmptyLog`. -/
def Channel.seeded (channel : Channel β σ) : Except Fault (Cell β σ) :=
  match channel.initial with
  | none => .ok { (Cell.fresh 0 : Cell β σ) with handle := .closed 0 [create 1 0] false }
  | some initial => ((Cell.fresh 0).ensureWatermark channel.opts 1 initial).mapError .disk

namespace Trunks

/-- `Store.Clear`. The node's directory is removed with its markers and seeded anew. The index in
memory keeps a node whose marker goes with the main channel. -/
def clear (state : Trunks β σ) (trunk name : String) : Except Fault Unit × Trunks β σ :=
  match state.beginMutation with
  | (.error fault, next) => (.error fault, next)
  | (.ok (), synced) =>
    match synced.retire.index.head trunk with
    | none => (.error (.unknownTrunk trunk), synced.retire)
    | some node =>
      match synced.retire.recover with
      | (.error fault, next) => (.error fault, next)
      | (.ok (), opened) =>
        match opened.channel name with
        | none => (.error (.noChannel name), opened)
        | some channel =>
          let wiped := { opened with
            unmarked := if name = opened.main then node :: opened.unmarked else opened.unmarked }
          match channel.seeded with
          | .error fault => (.error fault, wiped.setCell name node (Cell.fresh 0))
          | .ok cell => (.ok (), wiped.setCell name node cell)

/-- `StumpHead`, and an append through it. -/
def atStump (state : Trunks β σ) (stump : String)
    (use : Trunks β σ → String → Except Fault Nat × Trunks β σ) :
    Except Fault Nat × Trunks β σ :=
  match stumpKey stump state with
  | .error fault => (.error fault, state)
  | .ok node =>
    match state.recover with
    | (.error fault, next) => (.error fault, next)
    | (.ok (), opened) => use opened node

def perform (state : Trunks β σ) : StoreOp β σ → Trunks β σ
  | .trunk op => state.step op
  | .appendStump stump body extra =>
    (state.atStump stump fun opened node => opened.appendMain node body extra).2
  | .appendStumpChannel stump channel mainLT body =>
    (state.atStump stump fun opened node => opened.appendRelated node channel mainLT body).2
  | .detach node => (state.detach node).2
  | .clear trunk name => (state.clear trunk name).2

section Appending

variable {state : Trunks β σ} {node : String}

theorem Kept.append_main (kept : state.Kept) (inside : node ∈ state.index.keys) (body : β)
    (extra : List (String × Nat)) : (state.appendMain node body extra).2.Kept := by
  have proper := kept.proper
  cases done : state.appendMain node body extra with
  | mk result next =>
    rcases append_main_spec proper.sound proper.main (Or.inr inside) done with
      ⟨_, _, same⟩ | appended
    · rw [same]
      exact kept
    · refine ⟨appended.proper proper proper.main inside (fun _ => rfl) ?_,
        kept.clean.appended proper.main (Or.inr inside) appended⟩
      intro channel _ _ _ related
      exact absurd rfl related

theorem Kept.append_related (kept : state.Kept) (inside : node ∈ state.index.keys)
    (name : String) (mainLT : Nat) (body : β) :
    (state.appendRelated node name mainLT body).2.Kept := by
  have proper := kept.proper
  cases done : state.appendRelated node name mainLT body with
  | mk result next =>
    rcases append_related_spec proper.sound (Or.inr inside) done with
      ⟨_, _, same⟩ | ⟨channel, key, found, related, appended, plain, _⟩
    · rw [same]
      exact kept
    · have listed := name_mem (channel_mem found)
      rw [channel_name found] at listed
      refine ⟨appended.proper proper listed inside (fun same => absurd same related) ?_,
        kept.clean.appended listed (Or.inr inside) appended⟩
      intro other isMember sameName keying _
      have again := channel_of_mem proper.sound.distinct isMember
      rw [sameName, found] at again
      cases again
      exact plain keying

theorem stump_listed {stump : String} (found : stumpKey stump state = .ok node) :
    node ∈ state.index.keys := by
  rcases stump_key_finds rfl found with ⟨known, rfl⟩
  apply known.resolve_left
  rintro rfl
  rw [stumpKey, Index.node, if_pos rfl] at found
  cases found

theorem Kept.at_stump (kept : state.Kept) {stump : String}
    {use : Trunks β σ → String → Except Fault Nat × Trunks β σ}
    (uses : ∀ {key}, key ∈ state.index.keys → (use state key).2.Kept) :
    (state.atStump stump use).2.Kept := by
  rw [atStump]
  cases found : stumpKey stump state with
  | error fault => exact kept
  | ok key =>
    simp only [recover_idle kept.proper.plan]
    exact uses (stump_listed found)

/-- A `Clear` that finds nothing to clear. -/
theorem Kept.clear (kept : state.Kept) {trunk name : String}
    (nothing : state.index.head trunk = none ∨ state.channel name = none) :
    (state.clear trunk name).2.Kept := by
  rw [Trunks.clear]
  cases begun : state.beginMutation with
  | mk answer synced =>
    rcases begin_mutation_spec kept.proper begun with ⟨flushed, _, _⟩
    have after : synced.Kept := kept.settled flushed.settled
    have retired := retire_retired after.proper.sound
    have resting := after.retire.kept
    cases answer with
    | error fault => exact after
    | ok _ =>
      cases head : synced.retire.index.head trunk with
      | none =>
        simp only [head]
        exact resting
      | some node =>
        have unlisted : synced.retire.channel name = none := by
          rw [retired.index, flushed.settled.index] at head
          rcases nothing with missing | missing
          · rw [missing] at head
            cases head
          · rw [channel, retired.channels, flushed.settled.channels]
            exact missing
        simp only [head, recover_idle resting.proper.plan, unlisted]
        exact resting

end Appending

/-!
## Owners
-/

/-- A segment of the node's own part of the main channel has the record at an index. -/
def Stores (state : Trunks β σ) (node : String) (idx : Nat) (record : Record β) : Prop :=
  let own := state.branches state.main node
  own.base ≤ idx ∧ own.own[idx - own.base]? = some record

/-- The record at an index waits in the node's buffer of the main channel. -/
def Buffers (state : Trunks β σ) (node : String) (idx : Nat) (record : Record β) : Prop :=
  let own := state.branches state.main node
  own.base + own.own.length ≤ idx ∧ own.pend[idx - (own.base + own.own.length)]? = some record

instance [DecidableEq β] (state : Trunks β σ) (node : String) (idx : Nat) (record : Record β) :
    Decidable (state.Stores node idx record) :=
  inferInstanceAs (Decidable (_ ∧ _))

/-- `ownerOf` answers with the node that has the record the head reads at a main LT, the
nearest one of the lineage. What is not on disk yet is in the buffer of the head. -/
structure OwnedBy (state : Trunks β σ) (trunk head : String) (mainLT : Nat) (owner : String) :
    Prop where
  answer : state.ownerOf mainLT (state.index.lineage head) = .ok owner
  stored : ∃ record, state.read trunk state.main mainLT = .ok record ∧
    (state.Stores owner mainLT record ∨
      (state.settled state.main head).length < mainLT ∧ owner = head ∧
        state.Buffers owner mainLT record)
  nearest : ∃ lower upper, state.index.lineage head = lower ++ owner :: upper ∧
    ∀ node ∈ lower, ∀ record, ¬state.Stores node mainLT record

def Owned (state : Trunks β σ) : Prop :=
  ∀ trunk head, state.index.head trunk = some head → ∀ mainLT, 1 ≤ mainLT →
    mainLT ≤ state.mainTail head → ∃ owner, state.OwnedBy trunk head mainLT owner

section Owners

variable {state next : Trunks β σ} {head owner : String} {mainLT : Nat}

theorem owner_of_ok {path : List String} (marked : ∀ node ∈ path, node ≠ "" →
    0 < (state.cells state.main node).handle.forkBase) :
    ∃ owner, state.ownerOf mainLT path = .ok owner := by
  induction path with
  | nil => exact ⟨"", rfl⟩
  | cons node up ih =>
    rw [ownerOf]
    by_cases root : node = ""
    · exact ⟨"", if_pos root⟩
    · have positive := marked node List.mem_cons_self root
      simp only [if_neg root, if_neg (Nat.ne_of_gt positive)]
      split_ifs
      · exact ⟨node, rfl⟩
      · exact ih fun other above => marked other (List.mem_cons_of_mem _ above)

section

variable (kept : state.Kept)

include kept

theorem Kept.owner_of_ok (known : state.index.Known head) (mainLT : Nat) :
    ∃ owner, state.ownerOf mainLT (state.index.lineage head) = .ok owner := by
  apply Trunks.owner_of_ok
  intro node inside named
  apply kept.clean.marked kept.proper.main
  exact (Index.known_lineage kept.proper.sound.ordered known inside).resolve_left named

theorem Kept.owns_base (positive : 1 ≤ mainLT) (owns : state.Owns head owner mainLT) :
    (state.branches state.main owner).base ≤ mainLT := by
  rcases owns with ⟨_, _, _, _, rfl | starts⟩
  · have base : (state.branches state.main "").base = 1 :=
      kept.proper.sound.root_base kept.proper.main
    omega
  · exact starts

theorem Kept.owns_of_answer (positive : 1 ≤ mainLT)
    (answer : state.ownerOf mainLT (state.index.lineage head) = .ok owner) :
    state.Owns head owner mainLT := by
  rcases owner_of_spec answer with found | below
  · exact found
  · exfalso
    have root := below "" (Family.root_mem_lineage "" state.index.family head)
    have base : (state.branches state.main "").base = 1 :=
      kept.proper.sound.root_base kept.proper.main
    omega

/-- The climb has one end: below an owner every base lies above the main LT. -/
theorem Kept.owns_unique (positive : 1 ≤ mainLT) {other : String}
    (first : state.Owns head owner mainLT) (second : state.Owns head other mainLT) :
    owner = other := by
  have firstBase := kept.owns_base positive first
  have secondBase := kept.owns_base positive second
  rcases first with ⟨lower, upper, path, below, _⟩
  rcases second with ⟨lowerOther, upperOther, pathOther, belowOther, _⟩
  rw [path] at pathOther
  rcases List.append_eq_append_iff.mp pathOther with ⟨rest, longer, tail⟩ | ⟨rest, longer, tail⟩
  · cases rest with
    | nil => exact (List.cons.inj tail).1
    | cons entry more =>
      have same : owner = entry := (List.cons.inj tail).1
      have high := belowOther owner (by rw [longer, same]; simp)
      omega
  · cases rest with
    | nil => exact (List.cons.inj tail).1.symm
    | cons entry more =>
      have same : other = entry := (List.cons.inj tail).1
      have high := below other (by rw [longer, same]; simp)
      omega

theorem Kept.owner_stores (known : state.index.Known head) (positive : 1 ≤ mainLT)
    (owns : state.Owns head owner mainLT) {record : Record β}
    (shown : (state.shown state.main head)[mainLT - 1]? = some record) :
    state.Stores owner mainLT record ∨
      (state.settled state.main head).length < mainLT ∧ owner = head ∧
        state.Buffers owner mainLT record := by
  have base := kept.owns_base positive owns
  have sound := kept.proper.sound
  have listed := kept.proper.main
  rcases owns with ⟨lower, upper, path, below, _⟩
  have based := sound.based listed known
  rw [path] at based
  cases lower with
  | nil =>
    -- The head itself: its own records and what is waiting follow one another.
    rw [List.nil_append] at path based
    have whole : state.shown state.main head =
        splice (state.branches state.main owner).base
          (durable (state.branches state.main) upper)
          ((state.branches state.main owner).own ++ (state.branches state.main owner).pend) := by
      rw [Trunks.shown, path, unfolded, durable, splice, splice, List.append_assoc]
    rw [whole, splice_get_own based.1 based.2.1 base] at shown
    by_cases written : mainLT - (state.branches state.main owner).base <
        (state.branches state.main owner).own.length
    · rw [List.getElem?_append_left written] at shown
      exact Or.inl ⟨base, shown⟩
    · rw [List.getElem?_append_right (by omega)] at shown
      have length := durable_length based
      have same : owner = head := by
        rcases Family.lineage_eq_cons "" state.index.family head with ⟨above, start⟩
        rw [Index.lineage, start] at path
        exact (List.cons.inj path).1.symm
      refine Or.inr ⟨?_, same, by omega, ?_⟩
      · rw [Trunks.settled, path]
        omega
      · rw [Nat.sub_sub] at shown
        exact shown
  | cons first rest =>
    -- A node above: the main LT lies below the head's base, so its record is on disk.
    have onDisk : mainLT ≤ (state.settled state.main head).length := by
      have length : (durable (state.branches state.main)
          (first :: rest ++ owner :: upper)).length + 1 =
          (state.branches state.main first).base +
            (state.branches state.main first).own.length := durable_length based
      have high := below first List.mem_cons_self
      rw [Trunks.settled, path]
      omega
    have upperBased : Based (state.branches state.main) (owner :: upper) := by
      obtain ⟨knownOwner, tail⟩ := sound.above known path
      have hangs := sound.based listed knownOwner
      rw [tail] at hangs
      exact hangs
    have cut := durable_take based below
    have found : (durable (state.branches state.main) (owner :: upper))[mainLT - 1]? =
        some record := by
      rw [shown_eq, List.getElem?_append_left (by omega), Trunks.settled, path,
        ← List.getElem?_take_of_lt (show mainLT - 1 < mainLT by omega), cut,
        List.getElem?_take_of_lt (by omega)] at shown
      exact shown
    rw [durable, splice_get_own upperBased.1 upperBased.2.1 base] at found
    exact Or.inl ⟨base, found⟩

/-- In a store that is kept proper and clean, ownership follows storage. -/
theorem Kept.owned_by {trunk : String} (isHead : state.index.head trunk = some head)
    (positive : 1 ≤ mainLT) (inside : mainLT ≤ state.mainTail head)
    (owns : state.Owns head owner mainLT) : state.OwnedBy trunk head mainLT owner := by
  have known := Index.head_known isHead
  rcases kept.owner_of_ok known mainLT with ⟨answer, answered⟩
  have same := kept.owns_unique positive (kept.owns_of_answer positive answered) owns
  subst same
  rcases channel_exists kept.proper.main with ⟨main, found⟩
  rw [kept.proper.main_tail known] at inside
  have shown := List.getElem?_eq_getElem (l := state.shown state.main head)
    (i := mainLT - 1) (by omega)
  refine ⟨answered, ⟨_, (kept.proper.sound.read kept.proper.plan isHead found mainLT _).mpr
    ⟨positive, shown⟩, kept.owner_stores known positive owns shown⟩, ?_⟩
  rcases owns with ⟨lower, upper, path, below, _⟩
  refine ⟨lower, upper, path, fun node member record stores => ?_⟩
  have high := below node member
  have low : (state.branches state.main node).base ≤ mainLT := stores.1
  omega

theorem Kept.owned : state.Owned := by
  intro trunk head isHead mainLT positive inside
  rcases kept.owner_of_ok (Index.head_known isHead) mainLT with ⟨owner, answered⟩
  exact ⟨owner, kept.owned_by isHead positive inside (kept.owns_of_answer positive answered)⟩

end

end Owners

/-!
## Runs
-/

/-- The trunk ids an operation mints are new and can be written down, a channel that is gone
over again can be completed, what `Detach` copies can be framed, and nothing is cleared. -/
def Admitted (state : Trunks β σ) : StoreOp β σ → Prop
  | .trunk (.ensureChannel spec) => state.Completable spec
  | .trunk op => state.Lawful op
  | .detach node => state.Absorbable node
  | .clear trunk name => state.index.head trunk = none ∨ (state.channel name).isNone
  | _ => True

instance (state : Trunks β σ) : (op : StoreOp β σ) → Decidable (state.Admitted op)
  | .trunk (.ensureChannel spec) => inferInstanceAs (Decidable (state.Completable spec))
  | .trunk (.forkAt _ _ minted) | .trunk (.forkTail _ minted) =>
    inferInstanceAs (Decidable (state.Mints minted "conversation"))
  | .trunk (.spawnChildKind _ kind minted) | .trunk (.spawnUnderRootKind kind minted)
  | .trunk (.spawnUnderStumpKind _ kind minted) =>
    inferInstanceAs (Decidable (state.Mints minted kind))
  | .detach node => inferInstanceAs (Decidable (state.Absorbable node))
  | .clear trunk name =>
    inferInstanceAs (Decidable (state.index.head trunk = none ∨ (state.channel name).isNone))
  | .trunk (.append ..) | .trunk (.appendChannel ..) | .trunk (.createStump ..)
  | .trunk (.remove ..) | .trunk (.removeStump ..) | .trunk (.reopen ..) | .appendStump ..
  | .appendStumpChannel .. => inferInstanceAs (Decidable True)

def EndsOwn (state : Trunks β σ) : StoreOp β σ → Prop
  | .trunk (.forkAt trunk mainLT _) => ∀ head ∈ state.index.head trunk,
      mainLT = state.mainTail head → (state.branches state.main head).base ≤ mainLT
  | _ => True

/-- What is promised of an operation: ownership follows storage before and after it, and a fork
at a main LT records the owner as the parent. -/
structure Upholds (state : Trunks β σ) (op : StoreOp β σ) : Prop where
  before : state.Owned
  after : (state.perform op).Owned
  forks : ∀ {trunk mainLT minted head answer next}, op = .trunk (.forkAt trunk mainLT minted) →
    state.index.head trunk = some head → 1 ≤ mainLT → mainLT ≤ state.mainTail head →
    state.forkAt trunk mainLT minted = (.ok answer, next) → state.EndsOwn op →
      ∃ owner child info, state.OwnedBy trunk head mainLT owner ∧
        next.index.head answer = some child ∧ next.index.node child = some info ∧
        info.fromKey = owner

section Runs

variable {state : Trunks β σ}

theorem Admitted.lawful {op : TrunkOp β σ} (admitted : state.Admitted (.trunk op)) :
    state.Lawful op := by
  cases op with
  | ensureChannel spec => trivial
  | _ => exact admitted

theorem perform_kept (kept : state.Kept) {op : StoreOp β σ} (faithful : op.Faithful)
    (admitted : state.Admitted op) : (state.perform op).Kept := by
  cases op with
  | trunk op =>
    apply step_kept kept faithful admitted.lawful
    intro spec isEnsure
    subst isEnsure
    exact admitted
  | appendStump stump body extra =>
    exact kept.at_stump fun inside => kept.append_main inside body extra
  | appendStumpChannel stump channel mainLT body =>
    exact kept.at_stump fun inside => kept.append_related inside channel mainLT body
  | detach node => exact kept.detach admitted
  | clear trunk name => exact kept.clear (admitted.imp id Option.isNone_iff_eq_none.mp)

theorem ForkSource.owns {trunk head parent : String} {mainLT upTo : Nat} {tailFork : Bool}
    (kept : state.Kept) (source : state.ForkSource trunk mainLT parent tailFork upTo)
    (isHead : state.index.head trunk = some head) (positive : 1 ≤ mainLT)
    (inside : mainLT ≤ state.mainTail head)
    (ends : mainLT = state.mainTail head → (state.branches state.main head).base ≤ mainLT) :
    state.Owns head parent mainLT := by
  rw [kept.proper.main_tail (Index.head_known isHead)] at inside ends
  rcases source with ⟨other, found, source⟩
  rw [isHead] at found
  cases found
  rcases source with ⟨atTail, rfl, _⟩ | ⟨_, _, owns, _⟩
  · have last : mainLT = (state.shown state.main parent).length := by omega
    rcases Family.lineage_eq_cons "" state.index.family parent with ⟨above, path⟩
    exact ⟨[], above, path, (fun key member => nomatch member), Or.inr (ends last)⟩
  · exact owns

theorem ForkEnd.records_owner {loads : String → Prop} {trunk head child minted answer : String}
    {mainLT : Nat} {next : Trunks β σ} (kept : state.Kept)
    (isHead : state.index.head trunk = some head) (positive : 1 ≤ mainLT)
    (inside : mainLT ≤ state.mainTail head) (carries : minted ≠ "")
    (ends : mainLT = state.mainTail head → (state.branches state.main head).base ≤ mainLT)
    (forks : ForkEnd state next loads (fun node => ⟨minted, node, "conversation"⟩) child
      (state.ForkSource trunk mainLT) (.ok answer)) :
    ∃ owner child info, state.OwnedBy trunk head mainLT owner ∧
      next.index.head answer = some child ∧ next.index.node child = some info ∧
      info.fromKey = owner := by
  cases forks with
  | forked middle parent tailFork upTo staged later known from_ forked =>
    have owns := from_.owns kept isHead positive inside ends
    have member : (child, (⟨minted, parent, "conversation"⟩ : NodeInfo)) ∈ next.index := by
      rw [forked.index]
      exact List.mem_cons_self
    have named : child ≠ "" := fun root => forked.unlisted (Or.inl root)
    refine ⟨parent, child, ⟨minted, parent, "conversation"⟩,
      kept.owned_by isHead positive inside owns, Index.head_of_mem later.trunks member carries, ?_,
      rfl⟩
    rw [Index.node, if_neg named, forked.index]
    exact List.lookup_cons_self

theorem perform_upholds (kept : state.Kept) {op : StoreOp β σ} (faithful : op.Faithful)
    (admitted : state.Admitted op) : state.Upholds op ∧ (state.perform op).Kept := by
  have later := perform_kept kept faithful admitted
  refine ⟨⟨kept.owned, later.owned, ?_⟩, later⟩
  intro trunk mainLT minted head answer next isFork isHead positive inside done ends
  subst isFork
  have lawful : state.Mints minted "conversation" := admitted
  have forks := @Kept.fork_at _ _ _ kept trunk minted mainLT lawful
  rw [done] at forks
  exact forks.records_owner kept isHead positive inside lawful.1 fun last => ends head isHead last

end Runs

/-- In every run on a created store whose steps are admitted, ownership follows storage, and
every fork that is not at the tail of a head without records records the owner. -/
theorem ownership_follows_storage {main : String} {maxLag : Nat} {channels : List (Channel β σ)}
    {genesis patch : β} {start : Trunks β σ} (faithful : ∀ channel ∈ channels, channel.Faithful)
    (created : create main maxLag channels genesis patch = .ok start)
    {run : List (StoreOp β σ)} (declares : ∀ op ∈ run, op.Faithful)
    (admitted : EveryStep perform Admitted start run) : EveryStep perform Upholds start run := by
  rcases create_spec faithful created with ⟨proper, clean, _⟩
  exact every_step_of_invariant perform Kept
    (fun state op kept (meets : op.Faithful ∧ state.Admitted op) =>
      perform_upholds kept meets.1 meets.2) ⟨proper, clean⟩
    (every_step_and _ (every_step_of_forall _ declares) admitted)

/-!
## A head without records of its own
-/

def emptyHeadRun : List (StoreOp Nat Nat) :=
  [.trunk (.spawnUnderRootKind "conversation" "a"), .trunk (.append "a" 3 []),
    .trunk (.forkTail "a" "b")]

def emptyHead : Trunks Nat Nat :=
  emptyHeadRun.foldl perform sampleStore

set_option maxRecDepth 4000 in
/-- The last record of the fork is stored at `n0`. Forking there records `n1`, which stores
nothing. -/
theorem tail_fork_misses_owner :
    create "ir" 1000 [sampleChannel "ir", sampleChannel "tr"] 1 0 = .ok sampleStore ∧
      EveryStep perform Admitted sampleStore
        (emptyHeadRun ++ [.trunk (.forkAt "b" 2 "c")]) ∧
      emptyHead.index.head "b" = some "n1" ∧ emptyHead.mainTail "n1" = 2 ∧
      emptyHead.read "b" "ir" 2 = .ok ⟨2, 3, []⟩ ∧ emptyHead.Stores "n0" 2 ⟨2, 3, []⟩ ∧
      emptyHead.ownerOf 2 (emptyHead.index.lineage "n1") = .ok "n0" ∧
      (emptyHead.forkAt "b" 2 "c").1 = .ok "c" ∧
      (emptyHead.forkAt "b" 2 "c").2.index.node "n2" = some ⟨"c", "n1", "conversation"⟩ :=
  ⟨sample_store_created, by decide, by decide, by decide, by decide, by decide, by decide,
    by decide, by decide⟩

/-- A run that forks at the tail, inside the head's own records and before them, writes to a
stump, detaches a fork and forks it where it used to inherit. -/
def ownershipRun : List (StoreOp Nat Nat) :=
  [.trunk (.spawnUnderRootKind "conversation" "a"), .trunk (.append "a" 3 []),
    .trunk (.append "a" 3 []), .trunk (.forkAt "a" 3 "b"), .trunk (.append "b" 4 []),
    .trunk (.forkAt "b" 2 "c"), .trunk (.createStump "s"), .appendStump "s" 5 [],
    .trunk (.spawnUnderStumpKind "s" "conversation" "d"), .detach "n1",
    .trunk (.forkAt "b" 2 "e"), .clear "b" "nt", .trunk (.reopen [])]

theorem ownership_run_faithful : ∀ op ∈ ownershipRun, op.Faithful := by
  simp [ownershipRun, StoreOp.Faithful, TrunkOp.Faithful]

set_option maxRecDepth 8000 in
theorem ownership_follows_storage_sample : EveryStep perform Upholds sampleStore ownershipRun :=
  ownership_follows_storage sample_channels_faithful sample_store_created ownership_run_faithful
    (by decide +kernel)

end Trunks

end Figwal.Xwal
