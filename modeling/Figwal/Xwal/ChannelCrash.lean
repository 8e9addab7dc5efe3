import Figwal.Lib.Outcome
import Figwal.Lib.Recovery
import Figwal.Xwal.ChannelRefusal

/-!
# Crashes while a channel is added

Adding a channel writes a plan, goes over the directories of the channel one durable
crash the next open goes over everything again. What it finds done it leaves as it
is, so it ends where the interrupted run would have ended.
-/

namespace Figwal.Xwal

open Figwal.Lib Figwal.Disk List

set_option autoImplicit false

variable {β σ : Type}

/-!
## Durable changes
-/

namespace Channel

/-- The base `ensureBackfillFork` takes for a node. -/
def baseFor (channel : Channel β σ) (root : Log (Record β) σ) (mainForkBase : Nat)
    (cell : Cell β σ) : Except Fault Nat :=
  if 0 < cell.handle.forkBase then .ok cell.handle.forkBase
  else
    match cell.firstSegmentBase with
    | some base => .ok base
    | none => channel.missingBase root mainForkBase

/-- The directory of a node after each durable change `ensureBackfillFork` makes: the
fork marker, and the watermark. -/
def forkSteps (channel : Channel β σ) (root : Log (Record β) σ) (mainForkBase : Nat)
    (cell : Cell β σ) : List (Cell β σ) :=
  if cell.handle.forkBase = 0 ∧ cell.firstSegmentBase = some 1 then
    (channel.seedInitial cell).toOption.toList
  else
    match channel.baseFor root mainForkBase cell with
    | .error _ => []
    | .ok base =>
      cell.marked base :: (channel.backfillWatermark root base (cell.marked base)).toOption.toList

end Channel

namespace Trunks

/-- The store after each durable change of the walk over the nodes. Making the
directory of a node comes first; an empty directory is one that does not exist. -/
def backfillSteps (channel : Channel β σ) (root : Log (Record β) σ) :
    List String → Trunks β σ → List (Trunks β σ)
  | [], _ => []
  | node :: rest, state =>
    let mainForkBase := (state.cells state.main node).handle.forkBase
    let cell := state.cells channel.name node
    let here := state ::
      (channel.forkSteps root mainForkBase cell).map (state.setCell channel.name node)
    match channel.ensureBackfillFork root mainForkBase cell with
    | .error _ => here
    | .ok filled => here ++ backfillSteps channel root rest (state.setCell channel.name node filled)

/-- The last changes of `recoverChannelPending`: the manifest and the plan. -/
def finishSteps (state : Trunks β σ) (spec : Channel β σ) : List (Trunks β σ) :=
  match state.channel spec.name with
  | none =>
    [{ state with channels := state.channels ++ [spec] },
      { state with channels := state.channels ++ [spec], plan := none }]
  | some existing => if existing.sameManifest spec then [{ state with plan := none }] else []

/-- The store after each durable change of `recoverChannelPending`. -/
def recoverSteps (state : Trunks β σ) : List (Trunks β σ) :=
  match state.plan with
  | none => []
  | some spec =>
    match spec.seedInitial (state.cells spec.name "") with
    | .error _ => []
    | .ok cell =>
      let rooted := state.setCell spec.name "" cell
      match cell.handle.log spec.opts with
      | .error _ => [rooted]
      | .ok root =>
        rooted :: backfillSteps spec root (rooted.index.keys ++ rooted.strays) rooted ++
          match state.backfillChannel spec with
          | (.error _, _) => []
          | (.ok (), filled) => filled.finishSteps spec

def openTrunks (state : Trunks β σ) (declared : List (String × Bool)) :
    Except Fault Unit × Trunks β σ :=
  match state.recover with
  | (.error fault, next) => (.error fault, next)
  | (.ok (), opened) =>
    match reconcile declared opened.channels with
    | .error fault => (.error fault, opened)
    | .ok channels => (.ok (), { opened with channels }.rebuild)

end Trunks

/-!
## What is done stays as it is
-/

section Rewriting

variable {opts : Options (Record β) σ} {header : σ} {base : Nat}

theorem reheader_again {file done : Segment (Record β) σ}
    (rewritten : reheader opts header file = .ok done) :
    reheader opts header done = .ok done := by
  unfold reheader at rewritten ⊢
  cases frames : opts.codec.headerLen header with
  | none =>
    rw [frames] at rewritten
    cases rewritten
  | some length =>
    rw [frames] at rewritten
    cases rewritten
    simp only [Option.bind_some, frames, Option.getD_some, Nat.add_sub_cancel_left]

theorem reheader_base {file done : Segment (Record β) σ}
    (rewritten : reheader opts header file = .ok done) : done.baseIndex = file.baseIndex := by
  unfold reheader at rewritten
  split at rewritten
  · cases rewritten
  · cases rewritten
    rfl

theorem map_reheader_again {files done : List (Segment (Record β) σ)}
    (rewritten : files.mapM (fun file =>
      if file.baseIndex = base then reheader opts header file else .ok file) = .ok done) :
    done.map Segment.baseIndex = files.map Segment.baseIndex ∧
      done.mapM (fun file =>
        if file.baseIndex = base then reheader opts header file else .ok file) = .ok done := by
  rw [calls_eq_ok] at rewritten ⊢
  induction rewritten with
  | nil => exact ⟨rfl, .nil⟩
  | @cons file first rest others here _ ih =>
    have kept : first.baseIndex = file.baseIndex := by
      split_ifs at here
      · exact reheader_base here
      · rw [Except.ok.inj here]
    have fixed : (if first.baseIndex = base then reheader opts header first else .ok first) =
        .ok first := by
      rw [kept]
      split_ifs at here ⊢
      · exact reheader_again here
      · rfl
    exact ⟨by rw [map_cons, map_cons, ih.1, kept], .cons fixed ih.2⟩

theorem Cell.ensure_watermark_again {cell done : Cell β σ}
    (written : cell.ensureWatermark opts base header = .ok done) :
    done.ensureWatermark opts base header = .ok done ∧
      done.handle.forkBase = cell.handle.forkBase ∧ done.handle.close = done.handle ∧
      done.pend = cell.pend ∧ (base ∈ cell.handle.files.map Segment.baseIndex →
        done.firstSegmentBase = cell.firstSegmentBase) := by
  obtain ⟨files, rewritten, rfl⟩ := map_eq_ok.mp written
  -- The rewritten files have one at the base, and rewriting them changes nothing.
  have settled : (base ∈ files.map Segment.baseIndex ∧ files.mapM (fun file =>
        if file.baseIndex = base then reheader opts header file else .ok file) = .ok files) ∧
      (base ∈ cell.handle.files.map Segment.baseIndex →
        files.map Segment.baseIndex = cell.handle.files.map Segment.baseIndex) := by
    split_ifs at rewritten with present
    · obtain ⟨bases, again⟩ := map_reheader_again rewritten
      exact ⟨⟨bases ▸ present, again⟩, fun _ => bases⟩
    · obtain ⟨file, made, rfl⟩ := map_eq_ok.mp rewritten
      have own : file.baseIndex = base := reheader_base made
      refine ⟨⟨?_, calls_eq_ok.mpr (.cons ?_ (List.forall₂_same.mpr ?_))⟩,
        fun listed => absurd listed present⟩
      · rw [map_cons, own]
        exact mem_cons_self
      · rw [if_pos own]
        exact reheader_again made
      · intro other member
        apply if_neg
        rintro rfl
        exact present (mem_map_of_mem member)
  refine ⟨?_, rfl, rfl, rfl, fun listed => congrArg List.min? (settled.2 listed)⟩
  apply map_eq_ok.mpr
  refine ⟨files, ?_, rfl⟩
  rw [← settled.1.2]
  exact if_pos settled.1.1

end Rewriting

namespace Channel

variable {channel : Channel β σ} {root : Log (Record β) σ} {cell done stage : Cell β σ}
  {base mainForkBase : Nat}

/-- What a watermark leaves of a directory: it is done, closed, and starts where it
started. -/
structure Settled (watermark : Cell β σ → Except Fault (Cell β σ)) (base : Nat)
    (cell done : Cell β σ) : Prop where
  again : watermark done = .ok done
  marker : done.handle.forkBase = cell.handle.forkBase
  shut : cell.handle.close = cell.handle → done.handle.close = done.handle
  pend : done.pend = cell.pend
  first : base ∈ cell.handle.files.map Segment.baseIndex →
    done.firstSegmentBase = cell.firstSegmentBase

theorem watermark_settled {opts : Options (Record β) σ} {header : σ}
    (written : (cell.ensureWatermark opts base header).mapError Fault.disk = .ok done) :
    Settled (fun cell => (cell.ensureWatermark opts base header).mapError .disk) base cell
      done := by
  obtain ⟨again, marker, shut, pend, first⟩ :=
    Cell.ensure_watermark_again (map_error_eq_ok.mp written)
  exact ⟨map_error_eq_ok.mpr again, marker, fun _ => shut, pend, first⟩

theorem seed_settled (seeded : channel.seedInitial cell = .ok done) :
    Settled channel.seedInitial 1 cell done := by
  unfold seedInitial at seeded ⊢
  cases start : channel.initial with
  | none =>
    rw [start] at seeded
    cases seeded
    exact ⟨rfl, rfl, id, rfl, fun _ => rfl⟩
  | some initial =>
    rw [start] at seeded
    exact watermark_settled seeded

theorem backfill_settled (written : channel.backfillWatermark root base cell = .ok done) :
    Settled (channel.backfillWatermark root base) base cell done := by
  unfold backfillWatermark at written ⊢
  cases start : channel.initial with
  | none =>
    rw [start] at written
    cases written
    exact ⟨rfl, rfl, id, rfl, fun _ => rfl⟩
  | some initial =>
    rw [start] at written
    dsimp only at written ⊢
    cases state : (if base ≤ 1 then .ok initial else stateAt channel.opts [root] (base - 1) :
        Except Err σ) with
    | error err =>
      rw [state] at written
      cases written
    | ok header =>
      rw [state] at written
      exact watermark_settled written

theorem ensure_backfill_fork_eq (mainForkBase : Nat) (cell : Cell β σ) :
    channel.ensureBackfillFork root mainForkBase cell =
      if cell.handle.forkBase = 0 ∧ cell.firstSegmentBase = some 1 then channel.seedInitial cell
      else (channel.baseFor root mainForkBase cell).bind fun base =>
        channel.backfillWatermark root base (cell.marked base) := by
  unfold ensureBackfillFork baseFor
  split_ifs
  · rfl
  · rfl
  · cases cell.firstSegmentBase with
    | some base => rfl
    | none => cases channel.missingBase root mainForkBase <;> rfl

theorem first_of_base_zero (found : channel.baseFor root mainForkBase cell = .ok 0) :
    cell.firstSegmentBase = some 0 := by
  unfold baseFor at found
  split_ifs at found with named
  · have zero : cell.handle.forkBase = 0 := Except.ok.inj found
    omega
  · cases start : cell.firstSegmentBase with
    | some least =>
      rw [start] at found
      rw [Except.ok.inj found]
    | none =>
      rw [start] at found
      unfold missingBase at found
      dsimp only at found
      split at found
      · cases found
      · split at found
        · cases found
        · split_ifs at found
          cases found

/-- A directory with its marker is completed like the one it was written into. -/
theorem marked_same (found : channel.baseFor root mainForkBase cell = .ok base)
    (marker : stage.handle.forkBase = base)
    (first : base = 0 → stage.firstSegmentBase = cell.firstSegmentBase) :
    channel.ensureBackfillFork root mainForkBase stage =
      channel.backfillWatermark root base (stage.marked base) := by
  rw [ensure_backfill_fork_eq]
  by_cases positive : 0 < base
  · have own : channel.baseFor root mainForkBase stage = .ok base := by
      unfold baseFor
      rw [marker, if_pos positive]
    rw [if_neg (by omega), own]
    rfl
  · have zero : base = 0 := by omega
    subst zero
    have same := (first rfl).trans (first_of_base_zero found)
    have own : channel.baseFor root mainForkBase stage = .ok 0 := by
      unfold baseFor
      rw [marker, if_neg positive, same]
    rw [if_neg (by rw [same]; simp), own]
    rfl

theorem marked_self (shut : cell.handle.close = cell.handle)
    (marker : cell.handle.forkBase = base) : cell.marked base = cell := by
  rw [Cell.marked, ← marker]
  change { cell with handle := cell.handle.close } = cell
  rw [shut]

theorem mem_fork_steps (member : stage ∈ channel.forkSteps root mainForkBase cell) :
    (cell.handle.forkBase = 0 ∧ cell.firstSegmentBase = some 1) ∧
        channel.seedInitial cell = .ok stage ∨
      ¬(cell.handle.forkBase = 0 ∧ cell.firstSegmentBase = some 1) ∧
        ∃ base, channel.baseFor root mainForkBase cell = .ok base ∧
          (stage = cell.marked base ∨
            channel.backfillWatermark root base (cell.marked base) = .ok stage) := by
  unfold forkSteps at member
  split_ifs at member with branch
  · exact .inl ⟨branch, mem_answers.mp member⟩
  · cases found : channel.baseFor root mainForkBase cell with
    | error fault =>
      rw [found] at member
      cases member
    | ok base =>
      rw [found] at member
      exact .inr ⟨branch, base, rfl, (mem_cons.mp member).imp_right mem_answers.mp⟩

/-- Whatever the walk left of a node, going over it again has the same result. -/
theorem ensure_backfill_fork_again (member : stage ∈ channel.forkSteps root mainForkBase cell) :
    channel.ensureBackfillFork root mainForkBase stage =
      channel.ensureBackfillFork root mainForkBase cell := by
  rcases mem_fork_steps member with ⟨branch, seeded⟩ | ⟨branch, base, found, either⟩
  · have settled := seed_settled seeded
    have listed : 1 ∈ cell.handle.files.map Segment.baseIndex := min?_mem branch.2
    rw [ensure_backfill_fork_eq, ensure_backfill_fork_eq, if_pos branch,
      if_pos ⟨settled.marker.trans branch.1, (settled.first listed).trans branch.2⟩,
      settled.again, seeded]
  · have whole : channel.ensureBackfillFork root mainForkBase cell =
        channel.backfillWatermark root base (cell.marked base) := by
      rw [ensure_backfill_fork_eq, if_neg branch, found]
      rfl
    rcases either with rfl | written
    · rw [whole]
      exact marked_same found rfl fun _ => rfl
    · have settled := backfill_settled written
      have first : base = 0 → stage.firstSegmentBase = cell.firstSegmentBase := by
        rintro rfl
        have least := first_of_base_zero found
        exact settled.first (min?_mem least)
      have self : stage.marked base = stage := marked_self (settled.shut rfl) settled.marker
      rw [whole, written, marked_same found settled.marker first, self, settled.again]

end Channel

/-!
## What a completed walk leaves
-/

namespace Channel

structure Walked (channel : Channel β σ) (root : Log (Record β) σ) (main : String)
    (nodes : List String) (before after : String → String → Cell β σ) : Prop where
  done : ∀ node ∈ nodes, channel.ensureBackfillFork root (before main node).handle.forkBase
    (before channel.name node) = .ok (after channel.name node)
  others : ∀ name node, ¬(name = channel.name ∧ node ∈ nodes) → after name node = before name node

/-- The channel's root is seeded, and the walk over the nodes has gone through. -/
structure Completed (channel : Channel β σ) (main : String) (nodes : List String)
    (before after : String → String → Cell β σ) : Prop where
  seeded : channel.seedInitial (before channel.name "") = .ok (after channel.name "")
  walked : ∃ root, (after channel.name "").handle.log channel.opts = .ok root ∧
    ∀ node ∈ nodes, channel.ensureBackfillFork root (before main node).handle.forkBase
      (before channel.name node) = .ok (after channel.name node)
  others : ∀ name node, ¬(name = channel.name ∧ node ∈ "" :: nodes) →
    after name node = before name node

end Channel

namespace Trunks

section Walks

variable {state final : Trunks β σ} {channel : Channel β σ} {root : Log (Record β) σ}

theorem framed_set_cell_iff {name node : String} {cell : Cell β σ} :
    Framed (state.setCell name node cell) final ↔ Framed state final :=
  Iff.rfl

theorem ensured_again {mainForkBase : Nat} {cell filled : Cell β σ}
    (done : channel.ensureBackfillFork root mainForkBase cell = .ok filled) :
    filled ∈ channel.forkSteps root mainForkBase cell ∧
      channel.ensureBackfillFork root mainForkBase filled = .ok filled := by
  have member : filled ∈ channel.forkSteps root mainForkBase cell := by
    unfold Channel.forkSteps
    rw [Channel.ensure_backfill_fork_eq] at done
    split_ifs at done ⊢ with branch
    · exact mem_answers.mpr done
    · cases found : channel.baseFor root mainForkBase cell with
      | error fault =>
        rw [found] at done
        cases done
      | ok base =>
        rw [found] at done
        exact mem_cons_of_mem _ (mem_answers.mpr done)
  exact ⟨member, (Channel.ensure_backfill_fork_again member).trans done⟩

/-- Once a node is set, what holds beside the other nodes holds beside all of them. -/
theorem beside_set_cell {name node : String} {nodes : List String} {filled : Cell β σ}
    {after : String → String → Cell β σ} (kept : after name node = filled) :
    (∀ other key, ¬(other = name ∧ key ∈ nodes) →
        after other key = (state.setCell name node filled).cells other key) ↔
      ∀ other key, ¬(other = name ∧ key ∈ node :: nodes) →
        after other key = state.cells other key := by
  constructor
  · intro others other key away
    rw [others other key fun inside => away ⟨inside.1, mem_cons_of_mem _ inside.2⟩]
    apply set_cell_other
    rintro ⟨rfl, rfl⟩
    exact away ⟨rfl, mem_cons_self⟩
  · intro others other key away
    by_cases same : other = name ∧ key = node
    · rw [same.1, same.2, set_cell_here, kept]
    · rw [set_cell_other same]
      apply others
      rintro ⟨named, inside⟩
      rcases mem_cons.mp inside with first | later
      · exact same ⟨named, first⟩
      · exact away ⟨named, later⟩

theorem backfill_nodes_iff (apart : channel.name ≠ state.main) (nodes : List String) :
    backfillNodes channel root nodes state = (.ok (), final) ↔
      Framed state final ∧ channel.Walked root state.main nodes state.cells final.cells := by
  induction nodes generalizing state with
  | nil =>
    constructor
    · intro done
      cases done
      exact ⟨Framed.refl _, fun node inside => absurd inside not_mem_nil,
        fun _ _ _ => rfl⟩
    · rintro ⟨framed, walked⟩
      have cells : final.cells = state.cells := by
        funext name node
        exact walked.others name node fun inside => not_mem_nil inside.2
      rw [Framed, cells] at framed
      rw [framed]
      rfl
  | cons node rest ih =>
    rw [backfillNodes]
    cases here : channel.ensureBackfillFork root (state.cells state.main node).handle.forkBase
        (state.cells channel.name node) with
    | error fault =>
      constructor
      · intro done
        cases done
      · rintro ⟨_, walked⟩
        have done := walked.done node mem_cons_self
        rw [here] at done
        cases done
    | ok filled =>
      have main : ∀ key, (state.setCell channel.name node filled).cells state.main key =
          state.cells state.main key :=
        fun key => set_cell_other fun same => apart same.1.symm
      have next := @ih (state.setCell channel.name node filled) apart
      rw [next]
      apply and_congr_right
      intro _
      change channel.Walked root state.main rest (state.setCell channel.name node filled).cells
        final.cells ↔ _
      constructor
      · intro walked
        have kept : final.cells channel.name node = filled := by
          by_cases again : node ∈ rest
          · have done := walked.done node again
            rw [main, set_cell_here, (ensured_again here).2] at done
            exact (Except.ok.inj done).symm
          · rw [walked.others _ _ fun inside => again inside.2, set_cell_here]
        refine ⟨?_, (beside_set_cell kept).mp walked.others⟩
        intro key inside
        by_cases same : key = node
        · rw [same, here, kept]
        · have done := walked.done key (mem_of_ne_of_mem same inside)
          rw [main, set_cell_other fun both => same both.2] at done
          exact done
      · intro walked
        have kept : final.cells channel.name node = filled := by
          have done := walked.done node mem_cons_self
          rw [here] at done
          exact (Except.ok.inj done).symm
        refine ⟨?_, (beside_set_cell kept).mpr walked.others⟩
        intro key inside
        rw [main]
        by_cases same : key = node
        · rw [same, set_cell_here, (ensured_again here).2, kept]
        · rw [set_cell_other fun both => same both.2]
          exact walked.done key (mem_cons_of_mem _ inside)

theorem backfill_channel_iff (apart : channel.name ≠ state.main)
    (fresh : "" ∉ state.index.keys ++ state.strays) :
    state.backfillChannel channel = (.ok (), final) ↔ Framed state final ∧
      channel.Completed state.main (state.index.keys ++ state.strays) state.cells final.cells := by
  unfold backfillChannel
  cases seeded : channel.seedInitial (state.cells channel.name "") with
  | error fault =>
    constructor
    · intro done
      cases done
    · rintro ⟨_, completed⟩
      have done := completed.seeded
      rw [seeded] at done
      cases done
  | ok cell =>
    have inside : ∀ {name node}, node ∈ state.index.keys ++ state.strays →
        (state.setCell channel.name "" cell).cells name node = state.cells name node := by
      intro name node member
      apply set_cell_other
      rintro ⟨_, rfl⟩
      exact fresh member
    cases opens : cell.handle.log channel.opts with
    | error err =>
      simp only [opens]
      constructor
      · intro done
        cases done
      · rintro ⟨_, completed⟩
        have done := completed.seeded
        rw [seeded] at done
        obtain ⟨root, opened, _⟩ := completed.walked
        rw [← Except.ok.inj done, opens] at opened
        cases opened
    | ok root =>
      simp only [opens]
      rw [@backfill_nodes_iff _ _ (state.setCell channel.name "" cell) _ _ _ apart,
        framed_set_cell_iff]
      apply and_congr_right
      intro _
      constructor
      · intro walked
        have kept : final.cells channel.name "" = cell := by
          rw [walked.others _ _ fun inside => fresh inside.2, set_cell_here]
        refine ⟨by rw [seeded, kept], ⟨root, by rw [kept]; exact opens, ?_⟩,
          (beside_set_cell kept).mp walked.others⟩
        intro node member
        have done := walked.done node member
        rw [inside member, inside member] at done
        exact done
      · intro completed
        have kept : final.cells channel.name "" = cell := by
          have done := completed.seeded
          rw [seeded] at done
          exact (Except.ok.inj done).symm
        obtain ⟨found, opened, done⟩ := completed.walked
        rw [kept, opens] at opened
        cases opened
        refine ⟨?_, (beside_set_cell kept).mpr completed.others⟩
        intro node member
        rw [inside member, inside member]
        exact done node member

end Walks

end Trunks

/-!
## Every durable change leaves the same to be done
-/

namespace Channel

structure Resumed (channel : Channel β σ) (root : Log (Record β) σ) (main : String)
    (nodes : List String) (before later : String → String → Cell β σ) : Prop where
  same : ∀ node ∈ nodes, channel.ensureBackfillFork root (before main node).handle.forkBase
    (later channel.name node) = channel.ensureBackfillFork root
      (before main node).handle.forkBase (before channel.name node)
  others : ∀ name node, ¬(name = channel.name ∧ node ∈ nodes) → later name node = before name node

variable {channel : Channel β σ} {root : Log (Record β) σ} {main : String} {nodes : List String}
  {before later after : String → String → Cell β σ}

theorem Resumed.refl : channel.Resumed root main nodes before before :=
  ⟨fun _ _ => rfl, fun _ _ _ => rfl⟩

theorem Completed.carry (completed : channel.Completed main nodes before after)
    (seeds : channel.seedInitial (later channel.name "") =
      channel.seedInitial (before channel.name ""))
    (walks : ∀ root, (after channel.name "").handle.log channel.opts = .ok root →
      ∀ node ∈ nodes, channel.ensureBackfillFork root (later main node).handle.forkBase
        (later channel.name node) = channel.ensureBackfillFork root
          (before main node).handle.forkBase (before channel.name node))
    (others : ∀ name node, ¬(name = channel.name ∧ node ∈ "" :: nodes) →
      later name node = before name node) :
    channel.Completed main nodes later after := by
  obtain ⟨root, opened, done⟩ := completed.walked
  refine ⟨seeds.trans completed.seeded, ⟨root, opened, fun node member => ?_⟩,
    fun name node away => ?_⟩
  · rw [walks root opened node member]
    exact done node member
  · rw [completed.others name node away, others name node away]

theorem Resumed.completed (resumed : channel.Resumed root main nodes before later)
    (opens : (before channel.name "").handle.log channel.opts = .ok root)
    (seeded : channel.seedInitial (before channel.name "") = .ok (before channel.name ""))
    (fresh : "" ∉ nodes) (apart : channel.name ≠ main) :
    channel.Completed main nodes later after ↔ channel.Completed main nodes before after := by
  have start : later channel.name "" = before channel.name "" :=
    resumed.others _ _ fun inside => fresh inside.2
  have elsewhere : ∀ name node, ¬(name = channel.name ∧ node ∈ "" :: nodes) →
      later name node = before name node := fun name node away =>
    resumed.others _ _ fun inside => away ⟨inside.1, mem_cons_of_mem _ inside.2⟩
  have walks : channel.seedInitial (before channel.name "") = .ok (after channel.name "") →
      ∀ other, (after channel.name "").handle.log channel.opts = .ok other → ∀ node ∈ nodes,
        channel.ensureBackfillFork other (later main node).handle.forkBase
          (later channel.name node) = channel.ensureBackfillFork other
            (before main node).handle.forkBase (before channel.name node) := by
    intro done other opened node member
    rw [seeded] at done
    rw [← Except.ok.inj done, opens] at opened
    cases opened
    rw [resumed.others main node fun inside => apart inside.1.symm]
    exact resumed.same node member
  constructor
  · intro completed
    have first := completed.seeded
    rw [start] at first
    exact completed.carry (by rw [start])
      (fun other opened node member => (walks first other opened node member).symm)
      fun name node away => (elsewhere name node away).symm
  · intro completed
    exact completed.carry (by rw [start]) (walks completed.seeded) elsewhere

end Channel

namespace Trunks

section Steps

variable {state later final : Trunks β σ} {channel : Channel β σ} {root : Log (Record β) σ}
  {cell : Cell β σ} {nodes : List String} {after : String → String → Cell β σ}

theorem resumed_set_cell {node : String} {nodes : List String} (member : node ∈ nodes)
    {stage : Cell β σ} (steps : stage ∈ channel.forkSteps root
      (state.cells state.main node).handle.forkBase (state.cells channel.name node)) :
    channel.Resumed root state.main nodes state.cells
      (state.setCell channel.name node stage).cells := by
  refine ⟨fun key inside => ?_, fun name key away => ?_⟩
  · by_cases same : key = node
    · rw [same, set_cell_here, Channel.ensure_backfill_fork_again steps]
    · rw [set_cell_other fun both => same both.2]
  · apply set_cell_other
    rintro ⟨rfl, rfl⟩
    exact away ⟨rfl, member⟩

theorem mem_backfill_steps_cons {node : String} {rest : List String}
    (steps : later ∈ backfillSteps channel root (node :: rest) state) :
    later = state ∨ ∃ stage ∈ channel.forkSteps root
        (state.cells state.main node).handle.forkBase (state.cells channel.name node),
      later = state.setCell channel.name node stage ∨
        later ∈ backfillSteps channel root rest (state.setCell channel.name node stage) := by
  have early : ∀ {later}, later ∈ state :: (channel.forkSteps root
      (state.cells state.main node).handle.forkBase (state.cells channel.name node)).map
        (state.setCell channel.name node) → later = state ∨ ∃ stage ∈ channel.forkSteps root
          (state.cells state.main node).handle.forkBase (state.cells channel.name node),
        later = state.setCell channel.name node stage ∨
          later ∈ backfillSteps channel root rest (state.setCell channel.name node stage) := by
    intro later inside
    refine (mem_cons.mp inside).imp_right fun mapped => ?_
    obtain ⟨stage, member, rfl⟩ := mem_map.mp mapped
    exact ⟨stage, member, .inl rfl⟩
  rw [backfillSteps] at steps
  cases here : channel.ensureBackfillFork root (state.cells state.main node).handle.forkBase
      (state.cells channel.name node) with
  | error fault =>
    simp only [here] at steps
    exact early steps
  | ok filled =>
    simp only [here] at steps
    rcases mem_append.mp steps with inside | further
    · exact early inside
    · exact .inr ⟨filled, (ensured_again here).1, .inr further⟩

theorem mem_backfill_steps (apart : channel.name ≠ state.main) {nodes : List String}
    (steps : later ∈ backfillSteps channel root nodes state) :
    Framed state later ∧ channel.Resumed root state.main nodes state.cells later.cells := by
  induction nodes generalizing state with
  | nil => cases steps
  | cons node rest ih =>
    rcases mem_backfill_steps_cons steps with rfl | ⟨stage, member, rfl | further⟩
    · exact ⟨Framed.refl _, Channel.Resumed.refl⟩
    · exact ⟨framed_set_cell _ _ _, resumed_set_cell mem_cons_self member⟩
    · obtain ⟨framed, resumed⟩ := @ih (state.setCell channel.name node stage) apart further
      have first := @resumed_set_cell _ _ state channel root node (node :: rest)
        mem_cons_self _ member
      have main : ∀ key, (state.setCell channel.name node stage).cells state.main key =
          state.cells state.main key :=
        fun key => set_cell_other fun same => apart same.1.symm
      refine ⟨framed_set_cell_iff.mp framed, fun key inside => ?_, fun name key away => ?_⟩
      · by_cases member : key ∈ rest
        · have after := resumed.same key member
          change channel.ensureBackfillFork root ((state.setCell channel.name node
            stage).cells state.main key).handle.forkBase _ =
              channel.ensureBackfillFork root ((state.setCell channel.name node
                stage).cells state.main key).handle.forkBase _ at after
          rw [main] at after
          rw [after]
          exact first.same key inside
        · rw [resumed.others _ _ fun within => member within.2]
          exact first.same key inside
      · rw [resumed.others name key fun within =>
          away ⟨within.1, mem_cons_of_mem _ within.2⟩]
        exact first.others name key away

/-- The manifest once the plan is done, unless it says something else already. -/
def listing (state : Trunks β σ) (spec : Channel β σ) : Option (List (Channel β σ)) :=
  match state.channel spec.name with
  | none => some (state.channels ++ [spec])
  | some existing => if existing.sameManifest spec then some state.channels else none

structure Stored (cell : Cell β σ) : Prop where
  shut : cell.handle.close = cell.handle
  pend : cell.pend = []

structure Recoverable (state : Trunks β σ) : Prop where
  apart : ∀ spec, state.plan = some spec → spec.name ≠ state.main
  fresh : "" ∉ state.index.keys ++ state.strays
  stored : ∀ name node, Stored (state.cells name node)

theorem recover_ok_iff {spec : Channel β σ} (plan : state.plan = some spec)
    (apart : spec.name ≠ state.main) (fresh : "" ∉ state.index.keys ++ state.strays) :
    state.recover = (.ok (), final) ↔ ∃ channels, state.listing spec = some channels ∧
      final = { state with cells := final.cells, channels, plan := none } ∧
      spec.Completed state.main (state.index.keys ++ state.strays) state.cells final.cells := by
  have whole := fun filled => @backfill_channel_iff _ _ state filled spec apart fresh
  unfold recover
  cases result : state.backfillChannel spec with
  | mk answer filled =>
    cases answer with
    | error fault =>
      simp only [plan, result]
      constructor
      · intro done
        cases done
      · rintro ⟨channels, _, _, completed⟩
        have done := (whole { state with cells := final.cells }).mpr ⟨rfl, completed⟩
        rw [result] at done
        cases done
    | ok _ =>
      obtain ⟨framed, completed⟩ := (whole filled).mp result
      have only : ∀ {cells}, spec.Completed state.main (state.index.keys ++ state.strays)
          state.cells cells → filled = { state with cells } := by
        intro cells other
        have done := (whole { state with cells }).mpr ⟨rfl, other⟩
        rw [result] at done
        exact congrArg Prod.snd done
      have named : filled.channel spec.name = state.channel spec.name := by
        rw [framed]
        rfl
      simp only [plan, result, named]
      unfold listing
      cases state.channel spec.name with
      | none =>
        constructor
        · intro done
          cases done
          exact ⟨_, rfl, by rw [framed], completed⟩
        · rintro ⟨listed, same, shape, other⟩
          cases same
          rw [shape, only other]
      | some existing =>
        by_cases agrees : existing.sameManifest spec
        · simp only [agrees, if_true]
          constructor
          · intro done
            cases done
            exact ⟨_, rfl, by rw [framed], completed⟩
          · rintro ⟨listed, same, shape, other⟩
            cases same
            rw [shape, only other]
        · simp only [agrees, Bool.false_eq_true, if_false]
          constructor
          · intro done
            cases done
          · rintro ⟨listed, same, _⟩
            cases same

/-- A store that differs in cells only, and in none the outcome depends on. -/
theorem recover_same {spec : Channel β σ} (ready : state.Recoverable)
    (plan : state.plan = some spec) (framed : Framed state later)
    (same : ∀ after, spec.Completed state.main (state.index.keys ++ state.strays) later.cells
      after ↔ spec.Completed state.main (state.index.keys ++ state.strays) state.cells after) :
    later.recover = (.ok (), final) ↔ state.recover = (.ok (), final) := by
  have apart := ready.apart spec plan
  rw [recover_ok_iff plan apart ready.fresh]
  rw [framed] at same ⊢
  rw [@recover_ok_iff _ _ { state with cells := later.cells } _ _ plan apart ready.fresh]
  exact exists_congr fun channels => and_congr_right fun _ => and_congr_right fun _ => same _

theorem Stored.seeded {done : Cell β σ} (stored : Stored cell)
    (seeded : channel.seedInitial cell = .ok done) : Stored done := by
  have settled := Channel.seed_settled seeded
  exact ⟨settled.shut stored.shut, settled.pend.trans stored.pend⟩

theorem stored_fork_steps {mainForkBase : Nat} {stage : Cell β σ} (stored : Stored cell)
    (member : stage ∈ channel.forkSteps root mainForkBase cell) : Stored stage := by
  rcases Channel.mem_fork_steps member with ⟨_, seeded⟩ | ⟨_, base, _, rfl | written⟩
  · exact stored.seeded seeded
  · exact ⟨rfl, stored.pend⟩
  · have settled := Channel.backfill_settled written
    exact ⟨settled.shut rfl, settled.pend.trans stored.pend⟩

theorem stored_set_cell {name node : String} {cell : Cell β σ}
    (stored : ∀ name node, Stored (state.cells name node)) (here : Stored cell) :
    ∀ other key, Stored ((state.setCell name node cell).cells other key) := by
  intro other key
  by_cases same : other = name ∧ key = node
  · rw [same.1, same.2, set_cell_here]
    exact here
  · rw [set_cell_other same]
    exact stored other key

theorem stored_backfill_steps (stored : ∀ name node, Stored (state.cells name node))
    (steps : later ∈ backfillSteps channel root nodes state) :
    ∀ name node, Stored (later.cells name node) := by
  induction nodes generalizing state with
  | nil => cases steps
  | cons node rest ih =>
    rcases mem_backfill_steps_cons steps with rfl | ⟨stage, member, either⟩
    · exact stored
    · have set := @stored_set_cell _ _ state channel.name node stage stored
        (stored_fork_steps (stored _ _) member)
      rcases either with rfl | further
      · exact set
      · exact ih set further

theorem stored_completed {main : String} {before : String → String → Cell β σ}
    (stored : ∀ name node, Stored (before name node))
    (completed : channel.Completed main nodes before after) :
    ∀ name node, Stored (after name node) := by
  intro name node
  by_cases within : name = channel.name ∧ node ∈ "" :: nodes
  · obtain ⟨rfl, inside⟩ := within
    obtain ⟨root, _, done⟩ := completed.walked
    rcases mem_cons.mp inside with rfl | member
    · exact (stored _ _).seeded completed.seeded
    · exact stored_fork_steps (stored _ _) (ensured_again (done node member)).1
  · rw [completed.others name node within]
    exact stored name node

theorem completed_again {main : String} {before : String → String → Cell β σ}
    (apart : channel.name ≠ main) (completed : channel.Completed main nodes before after) :
    channel.Completed main nodes after after := by
  obtain ⟨root, opens, done⟩ := completed.walked
  refine ⟨(Channel.seed_settled completed.seeded).again, ⟨root, opens, ?_⟩, fun _ _ _ => rfl⟩
  intro node member
  rw [completed.others main node fun inside => apart inside.1.symm]
  exact (ensured_again (done node member)).2

theorem completed_rooted (fresh : "" ∉ nodes)
    (seeded : channel.seedInitial (state.cells channel.name "") = .ok cell) :
    channel.Completed state.main nodes (state.setCell channel.name "" cell).cells after ↔
      channel.Completed state.main nodes state.cells after := by
  have seeds : channel.seedInitial ((state.setCell channel.name "" cell).cells channel.name "") =
      channel.seedInitial (state.cells channel.name "") := by
    rw [set_cell_here, seeded]
    exact (Channel.seed_settled seeded).again
  have inside : ∀ name node, node ∈ nodes →
      (state.setCell channel.name "" cell).cells name node = state.cells name node := by
    intro name node member
    apply set_cell_other
    rintro ⟨_, rfl⟩
    exact fresh member
  have outside : ∀ name node, ¬(name = channel.name ∧ node ∈ "" :: nodes) →
      (state.setCell channel.name "" cell).cells name node = state.cells name node := by
    intro name node away
    apply set_cell_other
    rintro ⟨rfl, rfl⟩
    exact away ⟨rfl, mem_cons_self⟩
  constructor
  · intro completed
    exact completed.carry seeds.symm
      (fun root _ node member => by rw [inside _ node member, inside _ node member])
      fun name node away => (outside name node away).symm
  · intro completed
    exact completed.carry seeds
      (fun root _ node member => by rw [inside _ node member, inside _ node member]) outside

theorem Recoverable.framed (ready : state.Recoverable) (framed : Framed state later)
    (stored : ∀ name node, Stored (later.cells name node)) : later.Recoverable := by
  rw [framed]
  exact ⟨ready.apart, ready.fresh, stored⟩

/-- Listed in the manifest, the channel is found and agrees with its plan. -/
theorem listing_listed {spec : Channel β σ} {channels : List (Channel β σ)}
    (listed : state.listing spec = some channels) :
    { state with channels }.listing spec = some channels := by
  have agrees : spec.sameManifest spec = true := by simp [Channel.sameManifest]
  unfold listing at listed ⊢
  cases found : state.channel spec.name with
  | none =>
    rw [found] at listed
    cases listed
    have last : { state with channels := state.channels ++ [spec] }.channel spec.name =
        some spec := by
      unfold Trunks.channel at found ⊢
      rw [find?_append, found]
      simp
    rw [last]
    simp only [agrees, if_true]
  | some existing =>
    rw [found] at listed
    dsimp only at listed
    split_ifs at listed with same
    cases listed
    have still : { state with channels := state.channels }.channel spec.name = some existing :=
      found
    rw [still]
    simp only [same, if_true]

theorem mem_finish_steps {spec : Channel β σ} {filled : Trunks β σ} (ready : state.Recoverable)
    (plan : state.plan = some spec) (walked : state.backfillChannel spec = (.ok (), filled))
    (steps : later ∈ filled.finishSteps spec) :
    later.Recoverable ∧
      ∀ final, later.recover = (.ok (), final) ↔ state.recover = (.ok (), final) := by
  have apart := ready.apart spec plan
  obtain ⟨framed, completed⟩ := (backfill_channel_iff apart ready.fresh).mp walked
  have stored := stored_completed ready.stored completed
  have whole := fun final => @recover_ok_iff _ _ state final _ plan apart ready.fresh
  have done : ∀ {channels}, state.listing spec = some channels →
      state.recover = (.ok (), { state with cells := filled.cells, channels, plan := none }) :=
    fun listed => (whole _).mpr ⟨_, listed, rfl, completed⟩
  have removed : ∀ {channels}, state.listing spec = some channels →
      later = { state with cells := filled.cells, channels, plan := none } →
      later.Recoverable ∧
        ∀ final, later.recover = (.ok (), final) ↔ state.recover = (.ok (), final) := by
    rintro channels listed rfl
    refine ⟨⟨fun other named => ?_, ready.fresh, stored⟩, fun final => ?_⟩
    · cases named
    · rw [done listed, recover_idle rfl]
  have named : filled.channel spec.name = state.channel spec.name := by
    rw [framed]
    rfl
  unfold finishSteps at steps
  rw [named] at steps
  cases found : state.channel spec.name with
  | none =>
    rw [found] at steps
    have listed : state.listing spec = some (state.channels ++ [spec]) := by
      unfold listing
      rw [found]
    rcases mem_cons.mp steps with rfl | last
    · have shape : { filled with channels := filled.channels ++ [spec] } =
          { state with cells := filled.cells, channels := state.channels ++ [spec] } := by
        rw [framed]
      rw [shape]
      refine ⟨⟨ready.apart, ready.fresh, stored⟩, fun final => ?_⟩
      have again : { state with
          cells := filled.cells
          channels := state.channels ++ [spec] }.recover = (.ok (), { state with
            cells := filled.cells
            channels := state.channels ++ [spec]
            plan := none }) := by
        apply (@recover_ok_iff _ _ { state with
          cells := filled.cells
          channels := state.channels ++ [spec] } _ _ plan apart ready.fresh).mpr
        exact ⟨_, @listing_listed _ _ { state with cells := filled.cells } _ _ listed, rfl,
          completed_again apart completed⟩
      rw [again, done listed]
    · apply removed listed
      rw [mem_singleton.mp last, framed]
  | some existing =>
    rw [found] at steps
    dsimp only at steps
    split_ifs at steps with agrees
    · have listed : state.listing spec = some state.channels := by
        unfold listing
        simp only [found, agrees, if_true]
      apply removed listed
      rw [mem_singleton.mp steps, framed]
    · cases steps

theorem mem_recover_steps (ready : state.Recoverable) (steps : later ∈ state.recoverSteps) :
    later.Recoverable ∧
      ∀ final, later.recover = (.ok (), final) ↔ state.recover = (.ok (), final) := by
  unfold recoverSteps at steps
  cases plan : state.plan with
  | none =>
    rw [plan] at steps
    cases steps
  | some spec =>
    have apart := ready.apart spec plan
    rw [plan] at steps
    dsimp only at steps
    cases seeded : spec.seedInitial (state.cells spec.name "") with
    | error fault =>
      rw [seeded] at steps
      cases steps
    | ok cell =>
      have stored := @stored_set_cell _ _ state spec.name "" cell ready.stored
        ((ready.stored _ _).seeded seeded)
      have rooted : Framed state (state.setCell spec.name "" cell) := framed_set_cell _ _ _
      have start : ∀ final, (state.setCell spec.name "" cell).recover = (.ok (), final) ↔
          state.recover = (.ok (), final) := fun final =>
        recover_same ready plan rooted fun after => completed_rooted ready.fresh seeded
      rw [seeded] at steps
      cases opens : cell.handle.log spec.opts with
      | error err =>
        simp only [opens, mem_singleton] at steps
        rw [steps]
        exact ⟨ready.framed rooted stored, start⟩
      | ok root =>
        simp only [opens, cons_append, mem_cons, mem_append] at steps
        rcases steps with rfl | walk | finish
        · exact ⟨ready.framed rooted stored, start⟩
        · obtain ⟨framed, resumed⟩ := @mem_backfill_steps _ _
            (state.setCell spec.name "" cell) _ _ _ apart _ walk
          have ends := framed_set_cell_iff.mp framed
          refine ⟨ready.framed ends (stored_backfill_steps stored walk), fun final => ?_⟩
          apply recover_same ready plan ends
          intro after
          rw [← completed_rooted ready.fresh seeded]
          exact resumed.completed (by rw [set_cell_here]; exact opens)
            (by rw [set_cell_here]; exact (Channel.seed_settled seeded).again) ready.fresh apart
        · cases result : state.backfillChannel spec with
          | mk answer filled =>
            rw [result] at finish
            cases answer with
            | error fault => cases finish
            | ok _ => exact mem_finish_steps ready plan result finish

end Steps

/-!
## Rolling forward
-/

section RollingForward

variable {store synced opened : Trunks β σ} {config : ChannelConfig β σ} {isFile : Bool}
  {spec : ChannelSpec}

def planned (opened : Trunks β σ) (spec : Channel β σ) : Trunks β σ :=
  { opened.retire with plan := some spec }

theorem retire_frame (state : Trunks β σ) : Framed state state.retire := by
  have synced : ∀ (places : List (Channel β σ × String)) (state : Trunks β σ),
      Framed state (syncPlaces places state) := by
    intro places
    induction places with
    | nil => exact fun state => Framed.refl state
    | cons place rest ih =>
      intro state
      exact (framed_flush place.1 place.2 _).trans (ih _)
  have flushed := synced state.places state
  unfold Framed at flushed ⊢
  rw [retire, flushed]

theorem planned_recoverable (apart : (config.channel spec).name ≠ opened.main)
    (fresh : "" ∉ opened.index.keys ++ opened.strays) :
    (opened.planned (config.channel spec)).Recoverable := by
  have framed := retire_frame opened
  refine ⟨?_, ?_, fun name node => ⟨retire_shut opened name node, rfl⟩⟩
  · intro other named
    cases named
    change _ ≠ opened.retire.main
    rw [framed]
    exact apart
  · change "" ∉ opened.retire.index.keys ++ opened.retire.strays
    rw [framed]
    exact fresh

theorem open_trunks_ok_iff {state final : Trunks β σ} {declared : List (String × Bool)} :
    state.openTrunks declared = (.ok (), final) ↔ ∃ done, state.recover = (.ok (), done) ∧
      ∃ channels, reconcile declared done.channels = .ok channels ∧
        { done with channels }.rebuild = final := by
  unfold openTrunks
  cases result : state.recover with
  | mk answer done =>
    cases answer with
    | error fault =>
      constructor
      · intro ends
        cases ends
      · rintro ⟨other, ends, _⟩
        cases ends
    | ok _ =>
      cases agreed : reconcile declared done.channels with
      | error fault =>
        simp only [agreed]
        constructor
        · intro ends
          cases ends
        · rintro ⟨other, ends, channels, ok, _⟩
          cases ends
          rw [agreed] at ok
          cases ok
      | ok channels =>
        simp only [agreed]
        constructor
        · intro ends
          exact ⟨done, rfl, channels, agreed, congrArg Prod.snd ends⟩
        · rintro ⟨other, ends, listed, ok, rfl⟩
          cases ends
          rw [agreed] at ok
          cases ok
          rfl

theorem ensure_channel_spec_ok_iff {final : Trunks β σ}
    (begun : store.beginMutation = (.ok (), synced)) (settled : synced.recover = (.ok (), opened))
    (valid : validateChannelSpec config.registry (opened.channels.map Channel.manifest) isFile spec
      = .ok ()) :
    store.ensureChannelSpec config isFile false spec = (.ok (), final) ↔
      ∃ done, (opened.planned (config.channel spec)).recover = (.ok (), done) ∧
        done.rebuild = final := by
  unfold ensureChannelSpec
  simp only [begun, settled, valid, Bool.false_eq_true, if_false]
  change (match (opened.planned (config.channel spec)).recover with
    | (Except.error fault, next) => (Except.error (ChannelFault.store fault), next)
    | (Except.ok (), next) => (Except.ok (), next.rebuild)) = _ ↔ _
  cases (opened.planned (config.channel spec)).recover with
  | mk answer done =>
    cases answer with
    | error fault =>
      constructor
      · intro ends
        cases ends
      · rintro ⟨other, ends, _⟩
        cases ends
    | ok _ =>
      constructor
      · intro ends
        exact ⟨done, rfl, congrArg Prod.snd ends⟩
      · rintro ⟨other, ends, rfl⟩
        cases ends
        rfl

/-- Crash after any durable change once the plan is there, and again during any number
of recoveries: the next open that succeeds leaves the store the addition would have
left. The channel is listed, the cells of other channels are as they were, and another
recovery, with or without the plan, changes nothing. -/
theorem channel_rolls_forward (config : ChannelConfig β σ) (isFile : Bool) (spec : ChannelSpec)
    (store synced opened : Trunks β σ) (begun : store.beginMutation = (.ok (), synced))
    (settled : synced.recover = (.ok (), opened))
    (valid : validateChannelSpec config.registry (opened.channels.map Channel.manifest) isFile spec
      = .ok ())
    (unlisted : opened.channel spec.name = none) (apart : spec.name ≠ opened.main)
    (fresh : "" ∉ opened.index.keys ++ opened.strays) (declared : List (String × Bool))
    (agrees : reconcile declared (opened.channels ++ [config.channel spec]) =
      .ok (opened.channels ++ [config.channel spec]))
    (crashes : List Nat) :
    (∀ final, (crashes.foldl (crashAt recoverSteps)
        (opened.planned (config.channel spec))).openTrunks declared = (.ok (), final) ↔
      store.ensureChannelSpec config isFile false spec = (.ok (), final)) ∧
    (∀ name node, Stored ((crashes.foldl (crashAt recoverSteps)
        (opened.planned (config.channel spec))).cells name node)) ∧
    ∀ done, (crashes.foldl (crashAt recoverSteps)
        (opened.planned (config.channel spec))).recover = (.ok (), done) →
      done.channels = opened.channels ++ [config.channel spec] ∧
      (∀ name node, name ≠ spec.name → done.cells name node = opened.retire.cells name node) ∧
      done.recover = (.ok (), done) ∧
      { done with plan := some (config.channel spec) }.recover = (.ok (), done) := by
  have named := config.name spec
  have ready := @planned_recoverable _ _ opened config spec (by rw [named]; exact apart) fresh
  obtain ⟨safe, same⟩ := outcome_after_crashes recoverSteps Recoverable
    (fun state final => state.recover = (.ok (), final))
    (fun state ready later steps => by
      obtain ⟨kept, ends⟩ := mem_recover_steps ready steps
      exact ⟨kept, funext fun final => propext (ends final)⟩) ready crashes
  have ends_same : ∀ done, (crashes.foldl (crashAt recoverSteps)
      (opened.planned (config.channel spec))).recover = (.ok (), done) ↔
        (opened.planned (config.channel spec)).recover = (.ok (), done) :=
    fun done => iff_of_eq (congrFun same done)
  have framed := retire_frame opened
  have listed : (opened.planned (config.channel spec)).listing (config.channel spec) =
      some (opened.channels ++ [config.channel spec]) := by
    have found : (opened.planned (config.channel spec)).channel (config.channel spec).name =
        none := by
      change opened.retire.channel _ = none
      rw [framed, named]
      exact unlisted
    unfold listing
    rw [found]
    change some (opened.retire.channels ++ _) = _
    rw [framed]
  have whole := fun final => @recover_ok_iff _ _ (opened.planned (config.channel spec)) final _ rfl
    (ready.apart _ rfl) ready.fresh
  have manifest : ∀ done, (opened.planned (config.channel spec)).recover = (.ok (), done) →
      done.channels = opened.channels ++ [config.channel spec] := by
    intro done ends
    obtain ⟨channels, shown, shape, _⟩ := (whole done).mp ends
    rw [listed] at shown
    cases shown
    rw [shape]
  refine ⟨fun final => ?_, safe.stored, fun done ends => ?_⟩
  · rw [open_trunks_ok_iff, ensure_channel_spec_ok_iff begun settled valid]
    apply exists_congr
    intro done
    rw [ends_same]
    apply and_congr_right
    intro ends
    have channels := manifest done ends
    constructor
    · rintro ⟨other, ok, rfl⟩
      rw [channels, agrees] at ok
      rw [← Except.ok.inj ok, ← channels]
    · intro rebuilt
      refine ⟨_, by rw [channels]; exact agrees, ?_⟩
      rw [← channels]
      exact rebuilt
  · rw [ends_same] at ends
    obtain ⟨channels, shown, shape, completed⟩ := (whole done).mp ends
    rw [listed] at shown
    cases shown
    have idle : done.plan = none := by rw [shape]
    refine ⟨manifest done ends, fun name node other => ?_, recover_idle idle, ?_⟩
    · apply completed.others
      rintro ⟨equal, _⟩
      exact other (equal.trans named)
    · rw [shape]
      apply (@recover_ok_iff _ _ { opened.planned (config.channel spec) with
        cells := done.cells
        channels := opened.channels ++ [config.channel spec] } _ _ rfl (ready.apart _ rfl)
          ready.fresh).mpr
      exact ⟨_, listing_listed listed, rfl, completed_again (ready.apart _ rfl) completed⟩

end RollingForward

def spawnedStore : Trunks Nat Nat :=
  [.spawnUnderRootKind "conversation" "a", .append "a" 3 []].foldl step sampleStore

set_option maxRecDepth 4000 in
/-- A reducible channel is added to it, with a crash before the fork marker of the
branch, one before its watermark and one before the manifest. -/
theorem interrupted_channel_completes :
    (([2, 2, 3].foldl (crashAt recoverSteps) (spawnedStore.beginMutation.2.planned
      (sampleConfig.channel ⟨"nt", .reducible, "zero", false, false⟩))).openTrunks
        [("nt", false)]).1 = .ok () ∧
      (spawnedStore.ensureChannelSpec sampleConfig false false
        ⟨"nt", .reducible, "zero", false, false⟩).1 = .ok () ∧
      (([2, 2, 3].foldl (crashAt recoverSteps) (spawnedStore.beginMutation.2.planned
        (sampleConfig.channel ⟨"nt", .reducible, "zero", false, false⟩))).openTrunks
          [("nt", false)]).2 =
        (spawnedStore.ensureChannelSpec sampleConfig false false
          ⟨"nt", .reducible, "zero", false, false⟩).2 := by
  have completes : (spawnedStore.ensureChannelSpec sampleConfig false false
      ⟨"nt", .reducible, "zero", false, false⟩).1 = .ok () := by decide
  have rolls := channel_rolls_forward sampleConfig false ⟨"nt", .reducible, "zero", false, false⟩
    spawnedStore spawnedStore.beginMutation.2 spawnedStore.beginMutation.2
    (Prod.ext (by decide) rfl) (recover_idle (by rfl)) (by decide) (by rfl) (by decide)
    (by decide) [("nt", false)] (by rfl) [2, 2, 3]
  have opens := (rolls.1 _).mpr (Prod.ext completes rfl)
  exact ⟨congrArg Prod.fst opens, completes, congrArg Prod.snd opens⟩

end Trunks

end Figwal.Xwal
