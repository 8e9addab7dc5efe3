import Figwal.Disk.ForkParts
import Figwal.Xwal.Isolation
import Figwal.Xwal.Marker

/-!
# Detaching a node of a store

`Detach` copies, in every channel, the records a node inherits into a segment of its own,
rewrites the fork markers to base 1 and last the node marker, which then names no parent.
The index is rebuilt from the markers afterwards, with the hot store retired.

The copies do not touch the files the hot store writes to, so the store is taken to be
retired before they are published. A key that names no node gets directories when it is
opened, and so becomes a node without records.

All nodes show what they showed: those below the node read through it, and it shows its
whole history by itself.
-/

namespace Figwal.Xwal

open Figwal.Lib Figwal.Disk

set_option autoImplicit false

section Prefix

variable {α σ : Type} {files : List (Segment α σ)} {first : Nat} {file : Segment α σ}

/-- A file as `OpenHeadered` reads it: the first frame is taken for the header. -/
def asHeadered (asHeader : α → σ) (segment : Segment α σ) : Segment α σ :=
  match segment.header, segment.payloads with
  | none, first :: rest => { segment with header := some (asHeader first), payloads := rest }
  | _, _ => segment

/-- The segment `absorbPrefix` renames into place. A nil initial state leaves it
without a header. -/
def absorbPrefix (opts : Options α σ) (initial : Option σ) (asHeader : α → σ)
    (records : List α) : Except Err (Segment α σ) :=
  let appendAll := fun segment : Segment α σ =>
    records.foldlM (fun grown payload => grown.append opts.codec payload) segment
  match opts.onSegmentOpen, initial with
  | none, _ => appendAll (create 1 0)
  | some _, some header =>
    match (create 1 0 : Segment α σ).writeHeader opts.codec header with
    | .error err => .error err
    | .ok headed => appendAll headed
  | some _, none => (appendAll (create 1 0)).map (asHeadered asHeader)

theorem absorb_prefix_spec {opts : Options α σ} {initial : Option σ} {asHeader : α → σ}
    {records : List α} (initialised : opts.onSegmentOpen ≠ none → initial ≠ none)
    (stored : ∀ payload ∈ records, opts.codec.stored payload = payload) {segment : Segment α σ}
    (done : absorbPrefix opts initial asHeader records = .ok segment) :
    segment.baseIndex = 1 ∧ segment.payloads = records := by
  unfold absorbPrefix at done
  cases mode : opts.onSegmentOpen with
  | none =>
    simp only [mode] at done
    rcases append_all_spec records stored done with ⟨base, _, held⟩
    exact ⟨base, held⟩
  | some fold =>
    rcases Option.ne_none_iff_exists'.mp (initialised (by simp [mode])) with ⟨header, known⟩
    simp only [mode, known] at done
    split at done
    · cases done
    · rename_i headed written
      rcases write_header_ok written with ⟨freshBase, freshHeld, _⟩
      rcases append_all_spec records stored done with ⟨base, _, held⟩
      refine ⟨base.trans freshBase, ?_⟩
      rw [held, freshHeld]
      rfl

theorem stacked_cons (base : file.baseIndex = first) (filled : file.payloads ≠ [])
    (stacked : Stacked (first + file.payloads.length) files) : Stacked first (file :: files) := by
  rcases stacked with ⟨full, spare, shape, chain, ends⟩
  refine ⟨file :: full, spare, by rw [shape]; rfl, ⟨base, filled, chain⟩, ?_⟩
  intro unused held
  rcases ends unused held with ⟨empty, position⟩
  refine ⟨empty, ?_⟩
  rw [position, joined_cons, List.length_append, Nat.add_assoc]

theorem stacked_base_le (stacked : Stacked first files) (member : file ∈ files) :
    first ≤ file.baseIndex := by
  rcases stacked with ⟨full, spare, shape, chain, ends⟩
  rw [shape, List.mem_append, Option.mem_toList] at member
  rcases member with inFull | inSpare
  · exact (consecutive_bounds _ _ chain inFull).1
  · rw [(ends file inSpare).2]
    exact Nat.le_add_right _ _

end Prefix

variable {β σ : Type}

/-- The copy `Detach` makes in one channel, if the node inherits anything there. -/
def Channel.copy (channel : Channel β σ) (logs : List (Log (Record β) σ)) (forkBase : Nat) :
    Except Err (Option (Segment (Record β) σ)) :=
  if forkBase ≤ 1 then .ok none
  else
    let scan := (range logs 1).cutAt forkBase
    match scan.outcome with
    | .failed err => .error err
    | .stuck => .error .notFound
    | .done =>
      (absorbPrefix channel.opts channel.initial (fun _ => channel.opts.codec.nilHeader)
        (scan.seen.map Prod.snd)).map some

namespace Cell

def published (copy : Option (Segment (Record β) σ)) (cell : Cell β σ) : Cell β σ :=
  { cell with
    handle := .closed 1
      (copy.toList ++ cell.handle.files.filter fun file => copy.isNone || file.baseIndex ≠ 1)
      cell.handle.subdirs }

/-- The directory with the copy in it, next to what a live handle knows of. -/
def beside (copy : Option (Segment (Record β) σ)) (cell : Cell β σ) : Cell β σ :=
  match cell.handle with
  | .opened log => { cell with handle := .opened { log with stray := log.stray ++ copy.toList } }
  | .closed forkBase files subdirs =>
    { cell with handle := .closed forkBase (copy.toList ++ files) subdirs }

end Cell

def Index.detached (index : Index) (node : String) : Index :=
  match index.lookup node with
  | none => (node, ⟨"", "", "conversation"⟩) :: index
  | some _ => index.map fun entry =>
    if entry.1 = node then
      (node, ⟨entry.2.trunk, "", if entry.2.kind = "" then "conversation" else entry.2.kind⟩)
    else entry

namespace Trunks

/-- The copies `Detach` makes, channel by channel, up to the first one that fails. -/
def copies (state : Trunks β σ) (node : String) :
    List (Channel β σ) → List (String × Option (Segment (Record β) σ)) × Except Err Unit
  | [] => ([], .ok ())
  | channel :: rest =>
    match state.logs channel node with
    | .error err => ([], .error err)
    | .ok logs =>
      match channel.copy logs (state.cells channel.name node).handle.forkBase with
      | .error err => ([], .error err)
      | .ok copy =>
        let later := state.copies node rest
        ((channel.name, copy) :: later.1, later.2)

def atCopies (state : Trunks β σ) (node : String)
    (held : List (String × Option (Segment (Record β) σ)))
    (change : Option (Segment (Record β) σ) → Cell β σ → Cell β σ) : Trunks β σ :=
  { state with
    cells := fun name key =>
      if key = node then
        match held.lookup name with
        | some copy => change copy (state.cells name key)
        | none => state.cells name key
      else state.cells name key }

def publish (state : Trunks β σ) (node : String)
    (held : List (String × Option (Segment (Record β) σ))) : Trunks β σ :=
  { state.atCopies node held Cell.published with
    index := state.index.detached node
    strays := state.strays.filter (· ≠ node)
    unmarked := state.unmarked.filter (· ≠ node)
    nodeSeq := bumpSeq state.nodeSeq node }

def detach (state : Trunks β σ) (node : String) : Except Fault Unit × Trunks β σ :=
  if node = "" then (.error .detachRoot, state)
  else
    match state.beginMutation with
    | (.error fault, next) => (.error fault, next)
    | (.ok (), synced) =>
      match synced.recover with
      | (.error fault, next) => (.error fault, next)
      | (.ok (), opened) =>
        match opened.copies node opened.channels with
        | (held, .error err) => (.error (.disk err), opened.atCopies node held Cell.beside)
        | (held, .ok ()) => (.ok (), (opened.retire.publish node held).rebuild)

end Trunks

/-!
## The copies
-/

/-- What a copy holds, for a node whose records up to the fork base are `above`. -/
def Duplicates (above : List (Record β)) (forkBase : Nat)
    (copy : Option (Segment (Record β) σ)) : Prop :=
  forkBase ≤ 1 ∧ copy = none ∨
    1 < forkBase ∧ ∃ segment, copy = some segment ∧ segment.baseIndex = 1 ∧
      segment.payloads = above.take (forkBase - 1)

theorem Channel.initial_of_reducible {channel : Channel β σ} (steady : channel.opts.Steady)
    (mode : channel.opts.onSegmentOpen ≠ none) : channel.initial ≠ none := by
  rcases Option.ne_none_iff_exists'.mp mode with ⟨fold, known⟩
  rcases steady fold known none [] with ⟨header, _, folded, _⟩
  rw [Channel.initial, known, Option.bind_some, folded]
  exact Option.some_ne_none header

theorem Channel.copy_spec {channel : Channel β σ} (faithful : channel.Faithful)
    {logs : List (Log (Record β) σ)} (chained : Chained logs) {forkBase : Nat}
    {copy : Option (Segment (Record β) σ)} (done : channel.copy logs forkBase = .ok copy) :
    Duplicates (visible logs) forkBase copy := by
  rw [Channel.copy] at done
  by_cases low : forkBase ≤ 1
  · rw [if_pos low] at done
    cases done
    exact Or.inl ⟨low, rfl⟩
  · rw [if_neg low, range_visible chained, cut_at_done, listing, listing_take_while] at done
    have given : ((((visible logs).drop (1 - 1)).take (forkBase - max 1 1)).zipIdx (max 1 1)).map
        (Prod.snd ∘ Prod.swap) = (visible logs).take (forkBase - 1) :=
      List.zipIdx_map_fst _ _
    simp only [List.map_map, given] at done
    cases built : absorbPrefix channel.opts channel.initial
        (fun _ => channel.opts.codec.nilHeader) ((visible logs).take (forkBase - 1)) with
    | error err =>
      rw [built] at done
      cases done
    | ok segment =>
      rw [built] at done
      cases done
      rcases absorb_prefix_spec (Channel.initial_of_reducible faithful.steady)
        (fun payload _ => faithful.keeps payload) built with ⟨base, held⟩
      exact Or.inr ⟨Nat.lt_of_not_le low, segment, rfl, base, held⟩

theorem append_all_ok {codec : Codec (Record β) σ} {payloads : List (Record β)}
    {segment : Segment (Record β) σ} (unbounded : segment.maxSize = 0)
    (framed : ∀ entry ∈ payloads.zipIdx (segment.baseIndex + segment.count),
      (codec.frameLen entry.2 entry.1).isSome) :
    ∃ next, payloads.foldlM (fun grown payload => grown.append codec payload) segment =
      .ok next := by
  induction payloads generalizing segment with
  | nil => exact ⟨segment, rfl⟩
  | cons payload rest ih =>
    rw [List.zipIdx_cons] at framed
    rcases Option.isSome_iff_exists.mp (framed _ List.mem_cons_self) with ⟨length, known⟩
    have appended : segment.append codec payload = .ok { segment with
        size := segment.size + length
        payloads := segment.payloads ++ [codec.stored payload] } := by
      rw [Segment.append, known, unbounded]
      exact if_neg fun both => absurd both.1 (Int.lt_irrefl 0)
    rw [List.foldlM_cons, appended]
    apply ih
    · exact unbounded
    · intro entry member
      apply framed entry
      apply List.mem_cons_of_mem
      simpa [Segment.count, Nat.add_assoc] using member

theorem Channel.copy_ok {channel : Channel β σ} (steady : channel.opts.Steady)
    {logs : List (Log (Record β) σ)} (chained : Chained logs) {forkBase : Nat}
    (framed : ∀ entry ∈ ((visible logs).take (forkBase - 1)).zipIdx 1,
      (channel.opts.codec.frameLen entry.2 entry.1).isSome) :
    ∃ copy, channel.copy logs forkBase = .ok copy := by
  rw [Channel.copy]
  split_ifs
  · exact ⟨none, rfl⟩
  · rw [range_visible chained, cut_at_done, listing, listing_take_while]
    have given : ((((visible logs).drop (1 - 1)).take (forkBase - max 1 1)).zipIdx (max 1 1)).map
        (Prod.snd ∘ Prod.swap) = (visible logs).take (forkBase - 1) :=
      List.zipIdx_map_fst _ _
    simp only [List.map_map, given, absorbPrefix]
    cases mode : channel.opts.onSegmentOpen with
    | none =>
      rcases append_all_ok (rfl : (create 1 0 : Segment (Record β) σ).maxSize = 0) framed with
        ⟨segment, built⟩
      simp only [built]
      exact ⟨some segment, rfl⟩
    | some fold =>
      rcases steady fold mode none [] with ⟨header, length, folded, framedHeader⟩
      have initial : channel.initial = some header := by
        rw [Channel.initial, mode, Option.bind_some, folded]
        rfl
      have headed : (create 1 0 : Segment (Record β) σ).writeHeader channel.opts.codec header =
          .ok { (create 1 0 : Segment (Record β) σ) with
            size := length, header := some header } := by
        rw [Segment.writeHeader, framedHeader]
      simp only [initial, headed]
      rcases @append_all_ok _ _ channel.opts.codec _ { (create 1 0 : Segment (Record β) σ) with
        size := length, header := some header } rfl framed with ⟨segment, built⟩
      simp only [built]
      exact ⟨some segment, rfl⟩

theorem Cell.published_spec {cell : Cell β σ} {copy : Option (Segment (Record β) σ)}
    {above upper : List (Record β)} (sound : cell.Sound) (idle : cell.pend = [])
    (whole : above = splice cell.base upper cell.handle.records)
    (fits : cell.base ≤ upper.length + 1) (copies : Duplicates above cell.handle.forkBase copy) :
    (cell.published copy).Sound ∧ (cell.published copy).branch = ⟨1, above, []⟩ := by
  have stacked := sound.usable.stacked
  have quiet : (cell.published copy).pend = [] := idle
  have still : (cell.published copy).waiting = [] := Cell.waiting_of_idle quiet
  have loose : Stacked 1 (cell.published copy).handle.files →
      (cell.published copy).handle.records = above →
      (cell.published copy).Sound ∧ (cell.published copy).branch = ⟨1, above, []⟩ := by
    intro files records
    refine ⟨⟨files, fun busy => absurd quiet busy, fun busy => absurd quiet busy⟩, ?_⟩
    rw [Cell.branch, still, records]
    rfl
  rcases copies with ⟨low, rfl⟩ | ⟨forked, segment, rfl, base, held⟩
  · have first : cell.base = 1 := by
      rw [Cell.base, firstWritableAt]
      split_ifs <;> omega
    have files : (cell.published none).handle.files = cell.handle.files := by
      change [] ++ cell.handle.files.filter (fun _ => true) = _
      rw [List.nil_append, List.filter_true]
    apply loose
    · rw [files, ← first]
      exact stacked
    · rw [Handle.records, files, whole, first, splice, Nat.sub_self, List.take_zero]
      rfl
  · have first : cell.base = cell.handle.forkBase := by
      rw [Cell.base, firstWritableAt, if_pos (by omega)]
    have files : (cell.published (some segment)).handle.files = segment :: cell.handle.files := by
      change [segment] ++ cell.handle.files.filter (fun file => false || file.baseIndex ≠ 1) = _
      rw [List.singleton_append, List.filter_eq_self.mpr]
      intro file member
      have low : cell.base ≤ file.baseIndex := stacked_base_le stacked member
      simp only [Bool.false_or, decide_eq_true_eq]
      omega
    have lower : segment.payloads = upper.take (cell.base - 1) := by
      rw [held, ← first, whole]
      exact take_splice_below (by omega) fits
    have length : segment.payloads.length + 1 = cell.base := by
      rw [lower, List.length_take]
      omega
    apply loose
    · rw [files]
      apply stacked_cons base
      · intro none
        rw [none, List.length_nil] at length
        omega
      · rw [Nat.add_comm, length]
        exact stacked
    · rw [Handle.records, files, joined_cons, whole, lower]
      rfl

/-!
## The index
-/

namespace Index

variable {index : Index} {node : String}

theorem lookup_none (missing : index.lookup node = none) : node ∉ index.keys := by
  intro listed
  rcases List.mem_map.mp listed with ⟨entry, member, rfl⟩
  rw [List.lookup_eq_none_iff] at missing
  simpa using missing entry member

theorem lookup_some {info : NodeInfo} (found : index.lookup node = some info) :
    node ∈ index.keys :=
  List.mem_map_of_mem (f := Prod.fst) (mem_of_lookup found)

/-- The family once a node that is listed starts anew, or a new one starts. -/
theorem family_detached (index : Index) (node : String) :
    node ∉ index.keys ∧ (index.detached node).family = (node, "") :: index.family ∨
      node ∈ index.keys ∧ (index.detached node).family = index.family.reroot "" node := by
  rw [detached]
  cases found : index.lookup node with
  | none => exact Or.inl ⟨lookup_none found, rfl⟩
  | some info =>
    refine Or.inr ⟨lookup_some found, ?_⟩
    rw [family, family, Family.reroot, List.map_map, List.map_map]
    apply List.map_congr_left
    intro entry _
    simp only [Function.comp_apply]
    split_ifs <;> rfl

theorem known_detached {key : String} :
    (index.detached node).Known key ↔ index.Known key ∨ key = node := by
  rw [Known, Known, ← family_members, ← family_members]
  rcases family_detached index node with ⟨_, shape⟩ | ⟨listed, shape⟩
  · rw [shape, Family.members, List.map_cons, List.mem_cons, or_assoc, or_comm (a := key = node)]
    rfl
  · rw [shape, Family.members_reroot]
    constructor
    · exact Or.inl
    · rintro (known | rfl)
      · exact known
      · rw [family_members]
        exact Or.inr listed

theorem mem_detached {entry : String × NodeInfo} (member : entry ∈ index.detached node) :
    entry ∈ index ∨ entry.1 = node ∧ entry.2.fromKey = "" ∧
      (entry.2 = ⟨"", "", "conversation"⟩ ∨ ∃ old ∈ index, old.1 = node ∧
        entry.2.trunk = old.2.trunk ∧ (entry.2.kind = "conversation" ∨
          entry.2.kind = old.2.kind)) := by
  rw [detached] at member
  cases found : index.lookup node with
  | none =>
    rw [found] at member
    rcases List.mem_cons.mp member with rfl | older
    · exact Or.inr ⟨rfl, rfl, Or.inl rfl⟩
    · exact Or.inl older
  | some info =>
    rw [found] at member
    rcases List.mem_map.mp member with ⟨old, inside, shape⟩
    split_ifs at shape with here unkinded
    · subst shape
      exact Or.inr ⟨rfl, rfl, Or.inr ⟨old, inside, here, rfl, Or.inl rfl⟩⟩
    · subst shape
      exact Or.inr ⟨rfl, rfl, Or.inr ⟨old, inside, here, rfl, Or.inr rfl⟩⟩
    · subst shape
      exact Or.inl inside

theorem detached_survives (survives : ∀ entry ∈ index, entry.2.Survives) :
    ∀ entry ∈ index.detached node, entry.2.Survives := by
  intro entry member
  rcases mem_detached member with old | ⟨_, root, fresh | ⟨old, inside, _, trunk, kind⟩⟩
  · exact survives entry old
  · rw [fresh]
    decide
  · have legible := (survives old inside).legible
    apply survives_of_legible
    · rw [root]
      decide
    · rcases kind with default | kept
      · rw [default]
        decide
      · rw [kept]
        exact legible.2.1
    · rw [trunk]
      exact legible.2.2

theorem detached_distinct (distinct : index.Distinct) : (index.detached node).Distinct := by
  rw [detached]
  cases index.lookup node with
  | none => exact List.pairwise_cons.mpr ⟨fun _ _ carries => absurd rfl carries, distinct⟩
  | some info =>
    apply List.Pairwise.map _ _ distinct
    intro left right apart
    split_ifs <;> exact apart

variable (ordered : Family.Ordered "" index.family) (named : node ≠ "")

include ordered named

theorem detached_ordered : Family.Ordered "" (index.detached node).family := by
  rcases family_detached index node with ⟨fresh, shape⟩ | ⟨_, shape⟩
  · rw [shape]
    rw [← family_members] at fresh
    exact ⟨named, fresh, Or.inl rfl, ordered⟩
  · rw [shape]
    exact ordered.reroot

theorem detached_lineage {key : String} (known : (index.detached node).Known key) :
    node ∉ index.lineage key ∧ (index.detached node).lineage key = index.lineage key ∨
      ∃ lower upper, index.lineage key = lower ++ node :: upper ∧ node ∉ lower ∧
        (index.detached node).lineage key = lower ++ [node, ""] := by
  rcases family_detached index node with ⟨fresh, shape⟩ | ⟨_, shape⟩
  · rw [lineage, lineage, shape]
    by_cases same : key = node
    · subst same
      rcases Family.lineage_eq_cons "" index.family key with ⟨above, path⟩
      refine Or.inr ⟨[], above, path, List.not_mem_nil, ?_⟩
      rw [Family.lineage_cons_self, Family.lineage_root ordered]
      rfl
    · have older : index.Known key := (known_detached.mp known).resolve_right same
      refine Or.inl ⟨fun inside => ?_, Family.lineage_cons_of_ne same⟩
      rcases known_lineage ordered older inside with root | listed
      · exact named root
      · exact fresh listed
  · rw [lineage, lineage, shape]
    exact Family.lineage_reroot ordered named key

end Index

/-!
## The store
-/

namespace Trunks

section Publish

variable {state : Trunks β σ} {node : String}
  {held : List (String × Option (Segment (Record β) σ))} {key name : String}

structure Held (state : Trunks β σ) (node : String)
    (held : List (String × Option (Segment (Record β) σ))) : Prop where
  listed : ∀ {name}, name ∈ state.names → ∃ copy, held.lookup name = some copy ∧
    Duplicates (state.settled name node) (state.cells name node).handle.forkBase copy
  others : ∀ {name}, name ∉ state.names → held.lookup name = none

theorem copies_spec {list : List (Channel β σ)} (faithful : ∀ channel ∈ list, channel.Faithful)
    (distinct : (list.map Channel.name).Nodup)
    (opens : ∀ channel ∈ list, ∃ logs, state.logs channel node = .ok logs ∧ Chained logs ∧
      visible logs = state.settled channel.name node)
    (done : state.copies node list = (held, .ok ())) :
    (∀ name ∈ list.map Channel.name, ∃ copy, held.lookup name = some copy ∧
      Duplicates (state.settled name node) (state.cells name node).handle.forkBase copy) ∧
      ∀ name ∉ list.map Channel.name, held.lookup name = none := by
  induction list generalizing held with
  | nil =>
    cases done
    exact ⟨(fun name inside => nomatch inside), fun _ _ => rfl⟩
  | cons channel rest ih =>
    rcases opens channel List.mem_cons_self with ⟨logs, opened, chained, shown⟩
    rw [copies, opened] at done
    cases copied : channel.copy logs (state.cells channel.name node).handle.forkBase with
    | error err =>
      simp only [copied] at done
      cases done
    | ok copy =>
      simp only [copied, Prod.mk.injEq] at done
      rcases done with ⟨rfl, fine⟩
      rw [List.map_cons, List.nodup_cons] at distinct
      have fits := Channel.copy_spec (faithful channel List.mem_cons_self) chained copied
      rw [shown] at fits
      rcases ih (fun other inside => faithful other (List.mem_cons_of_mem _ inside)) distinct.2
        (fun other inside => opens other (List.mem_cons_of_mem _ inside)) (Prod.ext rfl fine) with
          ⟨listed, others⟩
      refine ⟨fun name inside => ?_, fun name outside => ?_⟩
      · by_cases same : name = channel.name
        · subst same
          exact ⟨copy, List.lookup_cons_self, fits⟩
        · rw [List.lookup_cons, beq_false_of_ne same]
          exact listed name ((List.mem_cons.mp inside).resolve_left same)
      · rw [List.map_cons, List.mem_cons, not_or] at outside
        rw [List.lookup_cons, beq_false_of_ne outside.1]
        exact others name outside.2

theorem publish_elsewhere (other : key ≠ node) :
    (state.publish node held).cells name key = state.cells name key :=
  if_neg other

theorem publish_unlisted (missing : held.lookup name = none) (key : String) :
    (state.publish node held).cells name key = state.cells name key := by
  change (if key = node then _ else _) = _
  rw [missing]
  exact ite_self _

theorem publish_here {copy : Option (Segment (Record β) σ)} (found : held.lookup name = some copy) :
    (state.publish node held).cells name node = (state.cells name node).published copy := by
  change (if node = node then _ else _) = _
  rw [if_pos rfl, found]

theorem publish_idle (idle : ∀ name key, (state.cells name key).pend = []) (name key : String) :
    ((state.publish node held).cells name key).pend = [] := by
  by_cases here : key = node
  · subst here
    cases found : held.lookup name with
    | none =>
      rw [publish_unlisted found]
      exact idle name key
    | some copy =>
      rw [publish_here found]
      exact idle name key
  · rw [publish_elsewhere here]
    exact idle name key

/-- Every key has usable directories: those of a node, or ones that are made for it. -/
theorem Kept.hangs (kept : state.Kept) (listed : name ∈ state.names) (key : String) :
    (state.cells name key).Sound ∧ Based (state.branches name) (state.index.lineage key) := by
  by_cases known : state.index.Known key
  · exact ⟨kept.proper.sound.usable listed known, kept.proper.sound.based listed known⟩
  · have apart : key ≠ "" := fun root => known (Or.inl root)
    have unlisted : key ∉ state.index.family.members := by
      rw [Index.family_members]
      exact fun inside => known (Or.inr inside)
    rcases (kept.clean.blank (Or.inr known) : (state.cells name key).Blank).spec with
      ⟨sound, branch⟩
    refine ⟨sound, ?_⟩
    have root := kept.proper.sound.based listed (Or.inl rfl)
    rw [Index.lineage, Family.lineage_root kept.proper.sound.ordered] at root
    rw [Index.lineage, Family.lineage_unlisted apart unlisted, Based, branches, branch]
    exact ⟨Nat.le_refl 1, Nat.le_add_left 1 _, root⟩

theorem Kept.opens (kept : state.Kept) {channel : Channel β σ} (member : channel ∈ state.channels)
    (key : String) : ∃ logs, state.logs channel key = .ok logs ∧ Chained logs ∧
      visible logs = state.settled channel.name key := by
  have listed := name_mem member
  rcases Family.lineage_eq_cons "" state.index.family key with ⟨above, path⟩
  have based := (kept.hangs listed key).2
  have usable : ∀ other ∈ key :: above, (state.cells channel.name other).Sound :=
    fun other _ => (kept.hangs listed other).1
  rw [Trunks.settled, Trunks.logs, Index.lineage, path]
  rw [Index.lineage, path] at based
  rcases open_logs_spec (kept.proper.sound.faithful channel member).steady usable based with
    ⟨log, parents, opened, _, chained, shown⟩
  exact ⟨log :: parents, opened, chained, shown⟩

structure Resting (state : Trunks β σ) : Prop where
  kept : state.Kept
  idle : ∀ name key, (state.cells name key).pend = []

section

variable (resting : state.Resting) (copied : state.Held node held)

include resting copied

theorem Resting.publish_branch (listed : name ∈ state.names) :
    ((state.publish node held).cells name node).Sound ∧
      (state.publish node held).branches name node = ⟨1, state.settled name node, []⟩ := by
  rcases copied.listed listed with ⟨copy, found, copies⟩
  rcases resting.kept.hangs listed node with ⟨sound, based⟩
  rcases Family.lineage_eq_cons "" state.index.family node with ⟨above, path⟩
  rw [Index.lineage, path] at based
  rw [branches, publish_here found]
  apply Cell.published_spec sound (resting.idle name node) _ based.2.1 copies
  rw [settled, Index.lineage, path]
  rfl

/-- Every node shows on disk what it showed, and starts no later than where the records above
it end. -/
theorem Resting.publish_settled (named : node ≠ "") (listed : name ∈ state.names)
    (known : (state.publish node held).index.Known key) :
    (state.publish node held).settled name key = state.settled name key ∧
      Based ((state.publish node held).branches name)
        ((state.publish node held).index.lineage key) := by
  have ordered := resting.kept.proper.sound.ordered
  have based := (resting.kept.hangs listed key).2
  have elsewhere : ∀ {path : List String}, node ∉ path → ∀ other ∈ path,
      (state.publish node held).branches name other = state.branches name other := by
    intro path missing other inside
    have apart : other ≠ node := fun same => missing (same ▸ inside)
    rw [branches, publish_elsewhere apart]
    rfl
  rw [settled, settled]
  rcases Index.detached_lineage ordered named known with ⟨missing, same⟩ | found
  · have shape : (state.publish node held).index.lineage key = state.index.lineage key := same
    rw [shape]
    exact ⟨durable_congr (elsewhere missing), based_congr (elsewhere missing) based⟩
  · rcases found with ⟨lower, upper, path, missing, short⟩
    have shape : (state.publish node held).index.lineage key = lower ++ [node, ""] := short
    have own := (resting.publish_branch copied listed).2
    have tail : state.index.lineage node = node :: upper := by
      rcases Index.known_detached.mp known with older | same
      · exact Family.lineage_suffix ordered (by rw [Index.family_members]; exact older) path
      · subst same
        cases lower with
        | nil => exact path
        | cons first rest =>
          rcases Family.lineage_eq_cons "" state.index.family key with ⟨above, whole⟩
          rw [Index.lineage, whole, List.cons_append] at path
          rw [(List.cons.inj path).1] at missing
          exact absurd List.mem_cons_self missing
    have above : durable (state.branches name) (node :: upper) = state.settled name node := by
      rw [Trunks.settled, tail]
    have joint : durable ((state.publish node held).branches name) [node, ""] =
        durable (state.branches name) (node :: upper) := by
      rw [above, durable, own, splice, Nat.sub_self, List.take_zero]
      rfl
    have root : Based ((state.publish node held).branches name) [""] := by
      have start := (resting.kept.hangs listed "").2
      rw [Index.lineage, Family.lineage_root ordered] at start
      apply based_congr _ start
      apply elsewhere
      rw [List.mem_singleton]
      exact named
    rw [shape, path]
    rw [path] at based
    refine ⟨durable_graft (elsewhere missing) joint, based_graft (elsewhere missing) joint based ?_⟩
    rw [Based, own]
    exact ⟨Nat.le_refl 1, Nat.le_add_left 1 _, root⟩

theorem Resting.publish_sound (named : node ≠ "") : (state.publish node held).Sound where
  faithful := resting.kept.proper.sound.faithful
  distinct := resting.kept.proper.sound.distinct
  ordered := Index.detached_ordered resting.kept.proper.sound.ordered named
  usable {name key} listed known := by
    by_cases here : key = node
    · subst here
      exact (resting.publish_branch copied listed).1
    · rw [publish_elsewhere here]
      exact (resting.kept.hangs listed key).1
  based listed known := (resting.publish_settled copied named listed known).2

theorem Resting.publish_shown (named : node ≠ "") (listed : name ∈ state.names)
    (known : (state.publish node held).index.Known key) :
    (state.publish node held).shown name key = state.shown name key := by
  rw [shown_eq, shown_eq, (resting.publish_settled copied named listed known).1,
    Cell.waiting_of_idle (publish_idle resting.idle name key),
    Cell.waiting_of_idle (resting.idle name key)]

end

theorem Resting.shown_unknown (resting : state.Resting) (unknown : ¬state.index.Known key) :
    state.shown name key = [] := by
  have apart : key ≠ "" := fun root => unknown (Or.inl root)
  have unlisted : key ∉ state.index.family.members := by
    rw [Index.family_members]
    exact fun inside => unknown (Or.inr inside)
  have blank : (state.cells name key).Blank := resting.kept.clean.blank (Or.inr unknown)
  rw [shown, Index.lineage, Family.lineage_unlisted apart unlisted, unfolded, durable, branches,
    blank.spec.2]
  rfl

theorem Resting.publish_proper (resting : state.Resting) (copied : state.Held node held)
    (named : node ≠ "") : (state.publish node held).Proper where
  sound := resting.publish_sound copied named
  main := resting.kept.proper.main
  numbered {key} known := by
    change Numbered ((state.publish node held).shown state.main key)
    rw [resting.publish_shown copied named resting.kept.proper.main known]
    by_cases older : state.index.Known key
    · exact resting.kept.proper.numbered older
    · rw [resting.shown_unknown older]
      intro position record found
      cases found
  plain {channel key} _ _ _ _ record waits := by
    rw [Cell.waiting_of_idle (publish_idle resting.idle _ _)] at waits
    cases waits
  idle _ := Cell.waiting_of_idle (publish_idle resting.idle _ _)
  trunks := Index.detached_distinct resting.kept.proper.trunks
  survives := Index.detached_survives resting.kept.proper.survives
  counts := Int.le_trans resting.kept.proper.counts (bump_seq_le _ _)
  minted key inside := by
    change Passes (bumpSeq state.nodeSeq node) key
    rcases Index.known_detached.mp (Or.inr inside) with (root | older) | here
    · exfalso
      apply (resting.publish_sound copied named).ordered.root_unlisted
      rw [Index.family_members, ← root]
      exact inside
    · exact (resting.kept.proper.minted key older).mono (bump_seq_le _ _)
    · rw [here]
      exact bump_seq_passes resting.kept.proper.counts _
  plan := resting.kept.proper.plan
  markers := by
    change state.unmarked.filter _ = []
    rw [resting.kept.proper.markers]
    rfl

theorem Resting.publish_clean (resting : state.Resting) (copied : state.Held node held)
    (named : node ≠ "") : (state.publish node held).Clean where
  strays := by
    change state.strays.filter _ = []
    rw [resting.kept.clean.strays]
    rfl
  marked {name key} listed inside := by
    by_cases here : key = node
    · subst here
      rcases copied.listed listed with ⟨copy, found, _⟩
      rw [publish_here found]
      exact Nat.one_pos
    · rw [publish_elsewhere here]
      apply resting.kept.clean.marked listed
      rcases (Index.known_detached.mp (Or.inr inside)).resolve_right here with root | older
      · exfalso
        apply (resting.publish_sound copied named).ordered.root_unlisted
        rw [Index.family_members, ← root]
        exact inside
      · exact older
  blank {name key} outside := by
    rcases outside with unlisted | unknown
    · rw [publish_unlisted (copied.others unlisted)]
      exact resting.kept.clean.blank (Or.inl unlisted)
    · have both : ¬(state.index.Known key ∨ key = node) :=
        fun either => unknown (Index.known_detached.mpr either)
      rw [not_or] at both
      rw [publish_elsewhere both.2]
      exact resting.kept.clean.blank (Or.inr both.1)

end Publish

section Step

variable {state next : Trunks β σ} {node : String}

theorem Kept.retire (kept : state.Kept) : state.retire.Resting := by
  have retired := retire_retired kept.proper.sound
  refine ⟨⟨retired.proper kept.proper, ?_, ?_, ?_⟩, retired.idle⟩
  · rw [retired.frame]
    exact kept.clean.strays
  · intro name key listed inside
    rw [retired.names] at listed
    rw [retired.index] at inside
    rw [retired.marker]
    exact kept.clean.marked listed inside
  · intro name key outside
    rw [retired.names, retired.index] at outside
    have blank : (state.cells name key).Blank := kept.clean.blank outside
    rw [retired.blank blank.pend]
    exact blank.close

/-- The records a node inherits can be framed once more. They were when they were written. -/
def Absorbable (state : Trunks β σ) (node : String) : Prop :=
  ∀ channel ∈ state.channels, ∀ entry ∈ ((state.shown channel.name node).take
      ((state.cells channel.name node).handle.forkBase - 1)).zipIdx 1,
    (channel.opts.codec.frameLen entry.2 entry.1).isSome

instance (state : Trunks β σ) (node : String) : Decidable (state.Absorbable node) := by
  unfold Absorbable
  infer_instance

theorem Kept.inherits (kept : state.Kept) {name : String} (listed : name ∈ state.names)
    (key : String) : (state.cells name key).handle.forkBase - 1 ≤
      (state.settled name key).length := by
  have based := (kept.hangs listed key).2
  rcases Family.lineage_eq_cons "" state.index.family key with ⟨above, path⟩
  rw [Index.lineage, path] at based
  have length := durable_length based
  have base : (state.cells name key).handle.forkBase ≤ (state.branches name key).base := by
    change _ ≤ firstWritableAt _
    unfold firstWritableAt
    split_ifs <;> omega
  rw [Trunks.settled, Index.lineage, path]
  omega

theorem Kept.copies_ok (kept : state.Kept) (absorbable : state.Absorbable node)
    {list : List (Channel β σ)} (members : ∀ channel ∈ list, channel ∈ state.channels) :
    ∃ held, state.copies node list = (held, .ok ()) := by
  induction list with
  | nil => exact ⟨[], rfl⟩
  | cons channel rest ih =>
    have member := members channel List.mem_cons_self
    rcases kept.opens member node with ⟨logs, opened, chained, shown⟩
    have inside := kept.inherits (name_mem member) node
    have copied : ∃ copy, channel.copy logs (state.cells channel.name node).handle.forkBase =
        .ok copy := by
      apply Channel.copy_ok (kept.proper.sound.faithful channel member).steady chained
      have framed := absorbable channel member
      rw [shown_eq, List.take_append_of_le_length inside] at framed
      rw [shown]
      exact framed
    rcases copied with ⟨copy, made⟩
    rcases ih fun other later => members other (List.mem_cons_of_mem _ later) with
      ⟨held, others⟩
    refine ⟨(channel.name, copy) :: held, ?_⟩
    rw [copies, opened]
    simp only [made, others]

theorem Kept.held_retired (kept : state.Kept)
    {held : List (String × Option (Segment (Record β) σ))}
    (done : state.copies node state.channels = (held, .ok ())) : state.retire.Held node held := by
  have retired := retire_retired kept.proper.sound
  rcases copies_spec kept.proper.sound.faithful kept.proper.sound.distinct
    (fun channel member => kept.opens member node) done with ⟨listed, others⟩
  refine ⟨?_, ?_⟩
  · intro name inside
    rw [retired.names] at inside
    rcases listed name inside with ⟨copy, found, copies⟩
    refine ⟨copy, found, ?_⟩
    rw [retired.marker]
    refine copies.imp id fun ⟨forked, segment, shape, base, payloads⟩ =>
      ⟨forked, segment, shape, base, ?_⟩
    have longer : state.settled name node <+: state.retire.settled name node := by
      rw [Trunks.settled, Trunks.settled, retired.index]
      exact durable_longer (kept.hangs inside node).2 fun other _ => retired.grown name other
    rw [payloads]
    rcases longer with ⟨more, whole⟩
    rw [← whole, List.take_append_of_le_length (kept.inherits inside node)]
  · intro name outside
    rw [retired.names] at outside
    exact others name outside

theorem Kept.detach (kept : state.Kept) (absorbable : state.Absorbable node) :
    (state.detach node).2.Kept := by
  rw [Trunks.detach]
  by_cases root : node = ""
  · rw [if_pos root]
    exact kept
  · rw [if_neg root]
    cases begun : state.beginMutation with
    | mk answer synced =>
      rcases begin_mutation_spec kept.proper begun with ⟨flushed, proper, _⟩
      have after : synced.Kept := kept.settled flushed.settled
      cases answer with
      | error fault => exact after
      | ok _ =>
        simp only [recover_idle proper.plan]
        have settled := flushed.settled
        have absorbableLater : synced.Absorbable node := by
          intro channel member
          rw [settled.channels] at member
          have shown : synced.shown channel.name node = state.shown channel.name node := by
            rw [Trunks.shown, Trunks.shown, settled.lineage]
            exact unfolded_settles (kept.hangs (name_mem member) node).2
              fun other _ => settled.settles channel.name other
          rw [shown, settled.marker]
          exact absorbable channel member
        rcases after.copies_ok absorbableLater (fun channel member => member) with
          ⟨held, made⟩
        simp only [made]
        have resting := after.retire
        have copied := after.held_retired made
        have renewed := rebuild_renewed (resting.publish_proper copied root)
          (resting.publish_clean copied root) (publish_idle resting.idle)
        exact ⟨renewed.proper, renewed.clean⟩

end Step

end Trunks

end Figwal.Xwal
