import Figwal.Log.Snapshot
import Figwal.Xwal.Isolation

/-!
# Looking records up by main LT

A related channel orders its records by the main LT they refer to, its key. `Lookup` answers
from an index of the newest records, which it extends backwards as far as a question needs:
`fkNext` is where the next scan begins, `fkFloor` the key of the oldest indexed record.
Appends enter the index once a scan has begun. `RecordsFrom` and `LatestChannelRecord` scan a
snapshot and keep nothing.

An append that returns an error because the sync it ran failed keeps its record, which is
then visible and missing from the index.
-/

namespace Figwal.Xwal

open Figwal.Lib Figwal.Disk Figwal.Buffered List

set_option autoImplicit false

variable {β σ : Type}

/-- The fields of `channel` that make up the foreign key index. -/
structure ForeignKeys where
  fk : Nat → Option Nat
  fkBuilt : Bool
  fkNext : Nat
  fkFloor : Nat
  fkScan : Bool

namespace ForeignKeys

def fresh : ForeignKeys where
  fk := fun _ => none
  fkBuilt := false
  fkNext := 0
  fkFloor := 0
  fkScan := false

def inUse (keys : ForeignKeys) : Bool := keys.fkScan || keys.fkBuilt

def put (mainLT idx : Nat) (keys : ForeignKeys) : ForeignKeys :=
  { keys with fk := Function.update keys.fk mainLT (some idx) }

def note (idx mainLT : Nat) (keys : ForeignKeys) : ForeignKeys :=
  { keys with
    fk := if (keys.fk mainLT).isSome then keys.fk else Function.update keys.fk mainLT (some idx)
    fkFloor := mainLT
    fkNext := if 0 < idx then idx - 1 else keys.fkNext }

/-- The scan of `lookup` over the records it meets, and whether it stopped by itself. -/
def scan (mainLT : Nat) : List (Nat × Record β) → ForeignKeys → Bool × ForeignKeys
  | [], keys => (false, keys)
  | (idx, record) :: rest, keys =>
    if record.mainLT ≤ mainLT then (true, keys.note idx record.mainLT)
    else scan mainLT rest (keys.note idx record.mainLT)

end ForeignKeys

/-- A channel's log and the records its decoders take. -/
structure KeyedSetup (β σ : Type) extends Setup (Record β) σ where
  decodes : Record β → Bool

namespace KeyedSetup

def decode (setup : KeyedSetup β σ) (record : Record β) : Except Err (Record β) :=
  if setup.decodes record then .ok record else .error .codec

/-- A walk whose callback decodes the records ends at the first one it cannot decode. -/
def decoded (setup : KeyedSetup β σ) (walk : Scan (Record β)) : Scan (Record β) where
  seen := walk.seen.takeWhile fun item => setup.decodes item.2
  outcome := if walk.seen.all fun item => setup.decodes item.2 then walk.outcome else .failed .codec

structure Faithful (setup : KeyedSetup β σ) : Prop where
  keeps : ∀ record, setup.opts.codec.stored record = record
  decodes : ∀ record, setup.decodes record = true

variable {setup : KeyedSetup β σ} (faithful : setup.Faithful)

include faithful

theorem Faithful.bind_decode (answer : Except Err (Record β)) :
    answer.bind setup.decode = answer := by
  cases answer with
  | error err => rfl
  | ok record => exact if_pos (faithful.decodes record)

theorem Faithful.decoded_eq (walk : Scan (Record β)) : setup.decoded walk = walk := by
  have all : (fun item : Nat × Record β => setup.decodes item.2) = fun _ => true :=
    funext fun item => faithful.decodes item.2
  rw [decoded, all, if_pos (all_eq_true.mpr fun _ _ => rfl),
    takeWhile_eq_self_iff.mpr fun _ _ => rfl]

end KeyedSetup

structure KeyedLog (β σ : Type) where
  buffer : Buffer (Record β) σ
  keys : ForeignKeys

/-- The records a buffered log shows: those on disk below the window, then the window. -/
def shownBy (parents : List (Log (Record β) σ)) (buffer : Buffer (Record β) σ) :
    List (Record β) :=
  if buffer.entries = [] then visible (buffer.inner :: parents)
  else (visible (buffer.inner :: parents)).take (buffer.first - 1) ++ buffer.entries

def scanned {γ : Type} (answer : γ) : Outcome → Except Fault γ
  | .done => .ok answer
  | .failed err => .error (.disk err)
  | .stuck => .error (.disk .notFound)

namespace KeyedLog

variable (setup : KeyedSetup β σ)

def opened (inner : Log (Record β) σ) : KeyedLog β σ where
  buffer := Buffer.opened inner
  keys := ForeignKeys.fresh

def tailMain (log : KeyedLog β σ) : Except Fault (Option Nat) :=
  let last := log.buffer.lastIndex
  let first := log.buffer.firstIndex setup.parents
  if first = 0 ∨ last < first then .ok none
  else
    match (log.buffer.read setup.parents last).bind setup.decode with
    | .ok record => .ok (some record.mainLT)
    | .error err => .error (.disk err)

def write (record : Record β) (fault : Option Nat) (log : KeyedLog β σ) :
    Except Fault Nat × KeyedLog β σ :=
  let next := log.buffer.lastIndex + 1
  match log.buffer.write setup.opts setup.parents setup.size setup.maxLag next record fault with
  | (.error err, grown) => (.error (.disk err), { log with buffer := grown })
  | (.ok (), grown) =>
    (.ok next, {
      buffer := grown
      keys := if log.keys.inUse then log.keys.put record.mainLT next else log.keys })

def appendMain (body : β) (cursors : List (String × Nat)) (fault : Option Nat)
    (log : KeyedLog β σ) : Except Fault Nat × KeyedLog β σ :=
  log.write setup ⟨log.buffer.lastIndex + 1, body, cursors⟩ fault

/-- The check `Append` makes before it writes to a keyed channel. -/
def admits (mainLT : Nat) (log : KeyedLog β σ) : Except Fault Unit :=
  match log.tailMain setup with
  | .error fault => .error fault
  | .ok none => .ok ()
  | .ok (some last) => if mainLT < last then .error (.decreasingMainLT mainLT last) else .ok ()

def append (mainLT : Nat) (body : β) (fault : Option Nat) (log : KeyedLog β σ) :
    Except Fault Nat × KeyedLog β σ :=
  match log.admits setup mainLT with
  | .error refused => (.error refused, log)
  | .ok () => log.write setup ⟨mainLT, body, []⟩ fault

/-- The scan of `lookup`, from where the index ends. -/
def extend (mainLT : Nat) (begun : ForeignKeys) (log : KeyedLog β σ) :
    Except Fault (Option Nat) × KeyedLog β σ :=
  let walk := setup.decoded (log.buffer.scanFromEnd setup.parents begun.fkNext)
  match begun.scan mainLT walk.seen with
  | (true, keys) => (.ok (keys.fk mainLT), { log with keys := keys })
  | (false, keys) =>
    match walk.outcome with
    | .done => (.ok (keys.fk mainLT), { log with keys := { keys with fkBuilt := true } })
    | .failed err => (.error (.disk err), { log with keys := keys })
    | .stuck => (.error (.disk .notFound), { log with keys := keys })

def lookup (mainLT : Nat) (log : KeyedLog β σ) : Except Fault (Option Nat) × KeyedLog β σ :=
  match log.keys.fk mainLT with
  | some idx => (.ok (some idx), log)
  | none =>
    if log.keys.fkBuilt ∨ (log.keys.fkScan ∧ log.keys.fkFloor ≤ mainLT) then (.ok none, log)
    else if log.keys.fkScan then log.extend setup mainLT log.keys
    else
      log.extend setup mainLT
        { log.keys with fkNext := log.buffer.lastIndex, fkScan := true }

def readAt (idx : Nat) (log : KeyedLog β σ) : Except Fault (Option (Nat × Record β)) :=
  match (log.buffer.read setup.parents idx).bind setup.decode with
  | .ok record => .ok (some (idx, record))
  | .error err => .error (.disk err)

/-- `Lookup`. The main channel's keys are its indices, so it needs no index. -/
def lookupRecord (isMain : Bool) (mainLT : Nat) (log : KeyedLog β σ) :
    Except Fault (Option (Nat × Record β)) × KeyedLog β σ :=
  if isMain then
    let first := log.buffer.firstIndex setup.parents
    if first = 0 ∨ mainLT < first ∨ log.buffer.lastIndex < mainLT then (.ok none, log)
    else (log.readAt setup mainLT, log)
  else
    match log.lookup setup mainLT with
    | (.error fault, next) => (.error fault, next)
    | (.ok none, next) => (.ok none, next)
    | (.ok (some idx), next) => (next.readAt setup idx, next)

def snapshot (log : KeyedLog β σ) : Snapshot (Record β) :=
  Snapshot.capture log.buffer log.buffer log.buffer

/-- `RecordsFrom`: backwards to the oldest record of the range, then forwards from it. -/
def recordsFrom (fromMainLT : Nat) (limit : Int) (log : KeyedLog β σ) :
    Except Fault (List (Nat × Record β)) :=
  if limit < 0 then .error (.negativeLimit limit)
  else
    let logs := log.buffer.inner :: setup.parents
    let back := setup.decoded (log.snapshot.scanFromEnd logs 0)
    let suffix := back.seen.takeWhile fun item => fromMainLT ≤ item.2.mainLT
    let ended := if suffix.length < back.seen.length then .done else back.outcome
    match scanned (suffix.getLast?.elim 0 Prod.fst) ended with
    | .error fault => .error fault
    | .ok first =>
      if first = 0 then .ok []
      else
        let walk := setup.decoded (log.snapshot.range logs first)
        let found := walk.seen.filter fun item => fromMainLT ≤ item.2.mainLT
        if 0 < limit ∧ limit ≤ found.length then .ok (found.take limit.toNat)
        else scanned found walk.outcome

def latestChannelRecord (minMainLT : Nat) (log : KeyedLog β σ) :
    Except Fault (Option (Nat × Record β)) :=
  let back := setup.decoded (log.snapshot.scanFromEnd (log.buffer.inner :: setup.parents) 0)
  match back.seen.head? with
  | some item => .ok (if minMainLT ≤ item.2.mainLT then some item else none)
  | none => scanned none back.outcome

end KeyedLog

/-!
## The index
-/

def newestWith (key start : Nat) (records : List (Record β)) : Option (Record β × Nat) :=
  lastMatch (fun record => record.mainLT = key) start records

/-- The index knows the records `indexed`, which come behind those not read yet. -/
def ForeignKeys.Covers (keys : ForeignKeys) (unread indexed : List (Record β)) : Prop :=
  ∀ key, keys.fk key = (newestWith key (unread.length + 1) indexed).map Prod.snd

/-- What the index knows of a channel's records: nothing while it is not in use, the records
from the oldest one it has met, or all of them. -/
inductive ForeignKeys.Indexes (keys : ForeignKeys) (records : List (Record β)) : Prop
  | unused (idle : keys.inUse = false) (empty : ∀ key, keys.fk key = none)
  | partly (unread rest : List (Record β)) (oldest : Record β)
      (split : records = unread ++ oldest :: rest) (covers : keys.Covers unread (oldest :: rest))
      (begun : keys.fkScan = true) (unbuilt : keys.fkBuilt = false)
      (next : keys.fkNext = unread.length) (floor : keys.fkFloor = oldest.mainLT)
  | whole (built : keys.fkBuilt = true) (covers : keys.Covers [] records)

section Index

variable {keys : ForeignKeys} {unread indexed records : List (Record β)} {record : Record β}

theorem newest_with_append (key start : Nat) (early late : List (Record β)) :
    newestWith key start (early ++ late) =
      (newestWith key (start + early.length) late).or (newestWith key start early) :=
  last_match_append _ _ _ _

theorem newest_with_singleton (key start : Nat) (record : Record β) :
    newestWith key start [record] = if record.mainLT = key then some (record, start) else none := by
  by_cases same : record.mainLT = key <;> simp [newestWith, lastMatch, same]

theorem newest_with_eq_none {key start : Nat} :
    newestWith key start records = none ↔ ∀ record ∈ records, record.mainLT ≠ key := by
  constructor
  · intro missing record inside
    exact of_decide_eq_false (last_match_none missing record inside)
  · intro differ
    cases found : newestWith key start records with
    | none => rfl
    | some entry =>
      obtain ⟨before, after, split, _, fits, _⟩ := last_match_some found
      have inside : entry.1 ∈ records := by
        rw [split]
        exact mem_append_right _ mem_cons_self
      exact absurd (of_decide_eq_true fits) (differ _ inside)

namespace ForeignKeys

theorem Covers.note (covers : keys.Covers (unread ++ [record]) indexed) :
    (keys.note (unread.length + 1) record.mainLT).Covers unread (record :: indexed) := by
  intro key
  have before := covers key
  have place : (unread ++ [record]).length + 1 = unread.length + 1 + [record].length := by
    rw [length_append]
    omega
  rw [place] at before
  have split : record :: indexed = [record] ++ indexed := rfl
  rw [split, newest_with_append, newest_with_singleton]
  change (if (keys.fk record.mainLT).isSome then keys.fk
    else Function.update keys.fk record.mainLT (some (unread.length + 1))) key = _
  by_cases same : key = record.mainLT
  · subst same
    rw [if_pos rfl]
    cases found : newestWith record.mainLT (unread.length + 1 + [record].length) indexed with
    | none =>
      rw [found] at before
      simp [before]
    | some entry =>
      rw [found] at before
      simp [before]
  · rw [if_neg (Ne.symm same), Option.or_none, ← before]
    split_ifs
    · rfl
    · exact Function.update_of_ne same _ _

theorem Covers.put (covers : keys.Covers unread indexed) (record : Record β) :
    (keys.put record.mainLT ((unread ++ indexed).length + 1)).Covers unread
      (indexed ++ [record]) := by
  intro key
  have before := covers key
  have place : (unread ++ indexed).length + 1 = unread.length + 1 + indexed.length := by
    rw [length_append]
    omega
  rw [newest_with_append, newest_with_singleton]
  change Function.update keys.fk record.mainLT (some ((unread ++ indexed).length + 1)) key = _
  by_cases same : key = record.mainLT
  · subst same
    rw [if_pos rfl, Function.update_self, place]
    rfl
  · rw [if_neg (Ne.symm same), Function.update_of_ne same, before]
    rfl

theorem Indexes.append (indexes : keys.Indexes records) (record : Record β) :
    (if keys.inUse then keys.put record.mainLT (records.length + 1) else keys).Indexes
      (records ++ [record]) := by
  cases indexes with
  | unused idle empty =>
    rw [if_neg (by simp [idle])]
    exact .unused idle empty
  | partly unread rest oldest split covers begun unbuilt next floor =>
    have used : keys.inUse = true := by simp [inUse, begun]
    rw [if_pos used, split]
    refine .partly unread (rest ++ [record]) oldest ?_ (covers.put record) begun unbuilt next
      floor
    rw [append_assoc]
    rfl
  | whole built covers =>
    have used : keys.inUse = true := by simp [inUse, built]
    rw [if_pos used]
    exact .whole built (covers.put record)

/-- The scan over unread records: it stops at one whose key is small enough, or takes all of
them into the index. -/
theorem scan_spec (covers : keys.Covers unread indexed) (mainLT : Nat) :
    ∃ stopped next, keys.scan mainLT (numbered 1 unread).reverse = (stopped, next) ∧
      next.fkScan = keys.fkScan ∧ next.fkBuilt = keys.fkBuilt ∧
      (stopped = false → next.Covers [] (unread ++ indexed)) ∧
      (stopped = true → ∃ left rest oldest, unread = left ++ oldest :: rest ∧
        next.Covers left (oldest :: rest ++ indexed) ∧ oldest.mainLT ≤ mainLT ∧
        next.fkNext = left.length ∧ next.fkFloor = oldest.mainLT) := by
  induction unread using List.reverseRecOn generalizing keys indexed with
  | nil =>
    refine ⟨false, keys, rfl, rfl, rfl, fun _ => covers, ?_⟩
    intro early
    cases early
  | append_singleton unread record ih =>
    have listed : (numbered 1 (unread ++ [record])).reverse =
        (unread.length + 1, record) :: (numbered 1 unread).reverse := by
      rw [numbered, numbered_snoc, Nat.add_comm]
      rfl
    have noted := covers.note
    rw [listed, scan]
    by_cases low : record.mainLT ≤ mainLT
    · rw [if_pos low]
      refine ⟨true, _, rfl, rfl, rfl, ?_, fun _ => ?_⟩
      · intro through
        cases through
      · have next : (keys.note (unread.length + 1) record.mainLT).fkNext = unread.length := by
          simp [note]
        exact ⟨unread, [], record, rfl, noted, low, next, rfl⟩
    · rw [if_neg low]
      obtain ⟨stopped, next, done, begun, built, finished, halted⟩ := ih noted
      refine ⟨stopped, next, done, begun, built, ?_, ?_⟩
      · intro through
        rw [append_assoc]
        exact finished through
      · intro early
        obtain ⟨left, rest, oldest, split, reached, small, place, floor⟩ := halted early
        refine ⟨left, rest ++ [record], oldest, ?_, ?_, small, place, floor⟩
        · rw [split, append_assoc]
          rfl
        · rw [← cons_append, append_assoc]
          exact reached

/-- A scan over records that the index knows, all with keys that are too large to stop at. -/
theorem scan_again {mainLT : Nat} (items : List (Nat × Record β))
    (known : ∀ item ∈ items, (keys.fk item.2.mainLT).isSome ∧ mainLT < item.2.mainLT) :
    ∃ next, keys.scan mainLT items = (false, next) ∧ next.fk = keys.fk := by
  induction items generalizing keys with
  | nil => exact ⟨keys, rfl, rfl⟩
  | cons item rest ih =>
    obtain ⟨held, large⟩ := known item mem_cons_self
    have same : (keys.note item.1 item.2.mainLT).fk = keys.fk := if_pos held
    rw [scan, if_neg (Nat.not_le.mpr large)]
    obtain ⟨next, done, kept⟩ := @ih (keys.note item.1 item.2.mainLT) (by
      intro other inside
      rw [same]
      exact known other (mem_cons_of_mem _ inside))
    exact ⟨next, done, kept.trans same⟩

end ForeignKeys

end Index

/-!
## The views
-/

def Ordered (records : List (Record β)) : Prop :=
  records.Pairwise fun early late => early.mainLT ≤ late.mainLT

section Views

variable {setup : KeyedSetup β σ} {log : KeyedLog β σ} {records : List (Record β)}
  {keys : ForeignKeys} {idx key mainLT : Nat} {record : Record β}

/-- Where the oldest indexed key is small enough, nothing older can have a larger one. -/
theorem newest_with_suffix {left rest : List (Record β)} {oldest : Record β}
    (ordered : Ordered (left ++ oldest :: rest)) (low : oldest.mainLT ≤ mainLT) :
    newestWith mainLT 1 (left ++ oldest :: rest) =
      newestWith mainLT (left.length + 1) (oldest :: rest) := by
  rw [newest_with_append, Nat.add_comm]
  by_cases here : oldest.mainLT = mainLT
  · cases found : newestWith mainLT (left.length + 1) (oldest :: rest) with
    | some entry => rfl
    | none => exact absurd here (newest_with_eq_none.mp found oldest mem_cons_self)
  · have none_before : newestWith mainLT 1 left = none := by
      apply newest_with_eq_none.mpr
      intro record inside
      have below := (pairwise_append.mp ordered).2.2 record inside oldest mem_cons_self
      omega
    rw [none_before, Option.or_none]

theorem ForeignKeys.Indexes.found (indexes : keys.Indexes records)
    (held : keys.fk mainLT = some idx) : (newestWith mainLT 1 records).map Prod.snd = some idx := by
  cases indexes with
  | unused _ empty =>
    rw [empty] at held
    cases held
  | partly unread rest oldest split covers =>
    rw [covers] at held
    rw [split, newest_with_append, Nat.add_comm]
    cases found : newestWith mainLT (unread.length + 1) (oldest :: rest) with
    | none =>
      rw [found] at held
      cases held
    | some entry =>
      rw [found] at held
      exact held
  | whole _ covers => exact (covers mainLT).symm.trans held

theorem ForeignKeys.Indexes.missing (indexes : keys.Indexes records) (ordered : Ordered records)
    (absent : keys.fk mainLT = none)
    (enough : keys.fkBuilt = true ∨ keys.fkScan = true ∧ keys.fkFloor ≤ mainLT) :
    newestWith mainLT 1 records = none := by
  cases indexes with
  | unused idle _ => simp_all [inUse]
  | partly unread rest oldest split covers begun unbuilt next floor =>
    have low : oldest.mainLT ≤ mainLT := by
      rw [← floor]
      exact (enough.resolve_left (by simp [unbuilt])).2
    rw [split] at ordered ⊢
    rw [newest_with_suffix ordered low]
    rw [covers] at absent
    exact Option.map_eq_none_iff.mp absent
  | whole _ covers =>
    rw [covers] at absent
    exact Option.map_eq_none_iff.mp absent

theorem extend_spec (faithful : setup.Faithful) {unread indexed : List (Record β)}
    {begun : ForeignKeys}
    (split : records = unread ++ indexed) (ordered : Ordered records)
    (covers : begun.Covers unread indexed) (scanning : begun.fkScan = true)
    (unbuilt : begun.fkBuilt = false)
    (walk : log.buffer.scanFromEnd setup.parents begun.fkNext =
      ⟨(numbered 1 unread).reverse, .done⟩) : ∃ next, log.extend setup mainLT begun =
        (.ok ((newestWith mainLT 1 records).map Prod.snd), { log with keys := next }) ∧
      next.Indexes records := by
  obtain ⟨stopped, next, done, begun_same, built_same, finished, halted⟩ :=
    ForeignKeys.scan_spec covers mainLT
  rw [KeyedLog.extend, walk, faithful.decoded_eq]
  simp only [done]
  cases stopped with
  | true =>
    obtain ⟨left, rest, oldest, parts, reached, low, place, floor⟩ := halted rfl
    have whole : records = left ++ oldest :: (rest ++ indexed) := by
      rw [split, parts, append_assoc]
      rfl
    refine ⟨next, ?_, .partly left (rest ++ indexed) oldest whole reached
      (begun_same.trans scanning) (built_same.trans unbuilt) place floor⟩
    simp only
    rw [whole] at ordered ⊢
    rw [newest_with_suffix ordered low, reached mainLT]
    rfl
  | false =>
    have reached := finished rfl
    rw [← split] at reached
    refine ⟨{ next with fkBuilt := true }, ?_, .whole rfl reached⟩
    simp only
    rw [reached mainLT]
    rfl

/-- The index knows every record, and the scan it starts over from the tail finds none of them
small enough: `fkNext` is 0 both where nothing is left to scan and for the tail. -/
theorem extend_exhausted (faithful : setup.Faithful) {rest : List (Record β)} {oldest : Record β}
    (ordered : Ordered (oldest :: rest)) (covers : keys.Covers [] (oldest :: rest))
    (large : mainLT < oldest.mainLT)
    (walk : log.buffer.scanFromEnd setup.parents keys.fkNext =
      ⟨(numbered 1 (oldest :: rest)).reverse, .done⟩) : ∃ next, log.extend setup mainLT keys =
        (.ok ((newestWith mainLT 1 (oldest :: rest)).map Prod.snd), { log with keys := next }) ∧
      next.Indexes (oldest :: rest) := by
  have known : ∀ item ∈ (numbered 1 (oldest :: rest)).reverse,
      (keys.fk item.2.mainLT).isSome ∧ mainLT < item.2.mainLT := by
    intro item inside
    have held : item.2 ∈ oldest :: rest :=
      mem_of_getElem? (mem_numbered.mp (mem_reverse.mp inside)).2
    have above : oldest.mainLT ≤ item.2.mainLT := by
      rcases mem_cons.mp held with same | later
      · exact (congrArg Record.mainLT same).ge
      · exact (pairwise_cons.mp ordered).1 _ later
    refine ⟨?_, large.trans_le above⟩
    rw [covers, Option.isSome_map, Option.isSome_iff_ne_none]
    exact fun missing => newest_with_eq_none.mp missing item.2 held rfl
  obtain ⟨next, done, same⟩ := ForeignKeys.scan_again _ known
  have kept : next.Covers [] (oldest :: rest) := fun key => (congrFun same key).trans (covers key)
  rw [KeyedLog.extend, walk, faithful.decoded_eq]
  simp only [done]
  refine ⟨{ next with fkBuilt := true }, ?_, .whole rfl kept⟩
  rw [kept mainLT]
  rfl

theorem lookup_spec (faithful : setup.Faithful)
    (tracks : Tracks id setup.size setup.parents log.buffer records)
    (ordered : Ordered records) (indexes : log.keys.Indexes records) (mainLT : Nat) :
    ∃ next, log.lookup setup mainLT =
        (.ok ((newestWith mainLT 1 records).map Prod.snd), { log with keys := next }) ∧
      next.Indexes records := by
  rw [KeyedLog.lookup]
  cases held : log.keys.fk mainLT with
  | some idx => exact ⟨log.keys, by rw [indexes.found held], indexes⟩
  | none =>
    by_cases enough : log.keys.fkBuilt = true ∨
        log.keys.fkScan = true ∧ log.keys.fkFloor ≤ mainLT
    · rw [if_pos enough, indexes.missing ordered held enough]
      exact ⟨log.keys, rfl, indexes⟩
    · rw [if_neg enough]
      cases indexes with
      | unused idle empty =>
        have parts : log.keys.fkScan = false ∧ log.keys.fkBuilt = false := by
          simpa [ForeignKeys.inUse] using idle
        rw [if_neg (by simp [parts.1])]
        have walk := tracks.scan_from_end_eq log.buffer.lastIndex
        have all : (if log.buffer.lastIndex = 0 then records.length
            else log.buffer.lastIndex) = records.length := by
          rw [tracks.last_index]
          exact ite_self _
        rw [all, backlog, take_length] at walk
        exact extend_spec faithful (append_nil records).symm ordered
          (fun key => (empty key).trans rfl) rfl parts.2 walk
      | partly unread rest oldest split covers begun unbuilt next floor =>
        have large : mainLT < oldest.mainLT := by
          rw [← floor]
          by_contra low
          exact enough (Or.inr ⟨begun, by omega⟩)
        have walk := tracks.scan_from_end_eq log.keys.fkNext
        rw [if_pos begun]
        by_cases exhausted : unread = []
        · subst exhausted
          rw [nil_append] at split
          rw [split] at ordered walk ⊢
          have zero : log.keys.fkNext = 0 := next
          rw [if_pos zero, backlog, take_length] at walk
          exact extend_exhausted faithful ordered covers large walk
        · have some_left := length_pos_of_ne_nil exhausted
          rw [if_neg (by omega), next, backlog, split, take_left, ← next] at walk
          exact extend_spec faithful split ordered covers begun unbuilt walk
      | whole built covers => exact absurd (Or.inl built) enough

theorem Ordered.split (ordered : Ordered records) (key : Nat) :
    ∃ low high, records = low ++ high ∧ (∀ record ∈ low, record.mainLT < key) ∧
      ∀ record ∈ high, key ≤ record.mainLT := by
  induction records with
  | nil =>
    refine ⟨[], [], rfl, ?_, ?_⟩ <;>
    · intro record inside
      cases inside
  | cons oldest rest ih =>
    obtain ⟨above, sorted⟩ := pairwise_cons.mp ordered
    by_cases below : oldest.mainLT < key
    · obtain ⟨low, high, parts, small, large⟩ := ih sorted
      refine ⟨oldest :: low, high, by rw [parts]; rfl, ?_, large⟩
      intro record inside
      rcases mem_cons.mp inside with rfl | later
      · exact below
      · exact small record later
    · refine ⟨[], oldest :: rest, rfl, ?_, ?_⟩
      · intro record inside
        cases inside
      · intro record inside
        rcases mem_cons.mp inside with rfl | later
        · omega
        · have order := above record later
          omega

theorem mem_of_numbered {first : Nat} {item : Nat × Record β}
    (inside : item ∈ numbered first records) : item.2 ∈ records :=
  mem_of_getElem? (mem_numbered.mp inside).2

theorem filter_split {low high : List (Record β)} (small : ∀ record ∈ low, record.mainLT < key)
    (large : ∀ record ∈ high, key ≤ record.mainLT) :
    (numbered 1 (low ++ high)).filter (fun item => key ≤ item.2.mainLT) =
      numbered (1 + low.length) high := by
  have none_low : (numbered 1 low).filter (fun item => key ≤ item.2.mainLT) = [] := by
    apply filter_eq_nil_iff.mpr
    intro item inside
    have below := small _ (mem_of_numbered inside)
    rw [decide_eq_true_eq]
    omega
  have all_high : (numbered (1 + low.length) high).filter (fun item => key ≤ item.2.mainLT) =
      numbered (1 + low.length) high := by
    apply filter_eq_self.mpr
    intro item inside
    exact decide_eq_true (large _ (mem_of_numbered inside))
  rw [numbered_append, filter_append, none_low, all_high, nil_append]

theorem take_while_split {low high : List (Record β)}
    (small : ∀ record ∈ low, record.mainLT < key) (large : ∀ record ∈ high, key ≤ record.mainLT) :
    (numbered 1 (low ++ high)).reverse.takeWhile (fun item => key ≤ item.2.mainLT) =
      (numbered (1 + low.length) high).reverse := by
  have none_low : (numbered 1 low).reverse.takeWhile (fun item => key ≤ item.2.mainLT) = [] := by
    cases shape : (numbered 1 low).reverse with
    | nil => rfl
    | cons item rest =>
      have inside : item ∈ numbered 1 low := by
        apply mem_reverse.mp
        rw [shape]
        exact mem_cons_self
      have below := small _ (mem_of_numbered inside)
      rw [takeWhile_cons_of_neg]
      rw [decide_eq_true_eq]
      omega
  rw [numbered_append, reverse_append, takeWhile_append_of_pos, none_low,
    append_nil]
  intro item inside
  exact decide_eq_true (large _ (mem_of_numbered (mem_reverse.mp inside)))

theorem records_from_spec (faithful : setup.Faithful)
    (sound : Sound setup.toSetup 1 ⟨log.buffer, none⟩ records)
    (ordered : Ordered records) (fromMainLT : Nat) {limit : Int} (natural : 0 ≤ limit) :
    log.recordsFrom setup fromMainLT limit =
      .ok (let wanted := (numbered 1 records).filter fun item => fromMainLT ≤ item.2.mainLT
        if limit = 0 then wanted else wanted.take limit.toNat) := by
  have joined := joined_alone sound
  obtain ⟨low, high, parts, small, large⟩ := ordered.split fromMainLT
  subst parts
  have scan := joined.scan_all
  have walk := joined.range_eq (1 + low.length)
  have ahead : (numbered 1 (low ++ high)).filter (fun item => 1 + low.length ≤ item.1) =
      numbered (1 + low.length) high := by
    have later := numbered_drop 1 (1 + low.length) (low ++ high)
    rw [Nat.add_sub_cancel_left, drop_left, Nat.max_eq_left (by omega)] at later
    exact later.symm
  have matching : (numbered (1 + low.length) high).filter
      (fun item => fromMainLT ≤ item.2.mainLT) = numbered (1 + low.length) high := by
    apply filter_eq_self.mpr
    intro item inside
    exact decide_eq_true (large _ (mem_of_numbered inside))
  rw [KeyedLog.recordsFrom, if_neg (by omega), KeyedLog.snapshot]
  simp only [faithful.decoded_eq, scan, take_while_split small large, filter_split small large,
    ite_self, scanned,
    getLast?_reverse]
  cases high with
  | nil =>
    have none_found : numbered (1 + low.length) ([] : List (Record β)) = [] := rfl
    simp [none_found]
  | cons oldest rest =>
    have first : (numbered (1 + low.length) (oldest :: rest)).head?.elim 0 Prod.fst =
        1 + low.length := rfl
    rw [first, if_neg (by omega)]
    simp only [walk, ahead, matching]
    split_ifs with short zero zero
    · omega
    · rfl
    · rfl
    · rw [take_of_length_le]
      omega

theorem latest_spec (faithful : setup.Faithful)
    (sound : Sound setup.toSetup 1 ⟨log.buffer, none⟩ records) (minMainLT : Nat) :
    log.latestChannelRecord setup minMainLT =
      .ok ((numbered 1 records).getLast?.filter fun item => minMainLT ≤ item.2.mainLT) := by
  have scan := (joined_alone sound).scan_all
  rw [KeyedLog.latestChannelRecord, KeyedLog.snapshot, scan, faithful.decoded_eq]
  simp only [head?_reverse]
  cases (numbered 1 records).getLast? with
  | none => rfl
  | some item =>
    simp only [Option.filter, decide_eq_true_eq]

/-- The main channel's records refer to themselves; a related channel's keys do not decrease. -/
def KeyedBy (isMain : Bool) (records : List (Record β)) : Prop :=
  if isMain then ∀ idx record, records[idx]? = some record → record.mainLT = idx + 1
  else Ordered records

theorem KeyedBy.ordered {isMain : Bool} (keyed : KeyedBy isMain records) : Ordered records := by
  cases isMain with
  | false => exact keyed
  | true =>
    apply pairwise_iff_getElem.mpr
    intro early late inside within before
    have first := keyed early _ (getElem?_eq_getElem inside)
    have second := keyed late _ (getElem?_eq_getElem within)
    omega

theorem newest_with_place (found : newestWith key 1 records = some (record, idx)) :
    1 ≤ idx ∧ records[idx - 1]? = some record := by
  obtain ⟨before, after, split, place, _⟩ := last_match_some found
  rw [split, place, Nat.add_sub_cancel_left]
  exact ⟨Nat.le_add_right _ _, List.getElem?_append_right le_rfl ▸ by simp⟩

theorem read_at_spec (faithful : setup.Faithful)
    (tracks : Tracks id setup.size setup.parents log.buffer records) {idx : Nat} {record : Record β}
    (low : 1 ≤ idx) (held : records[idx - 1]? = some record) :
    log.readAt setup idx = .ok (some (idx, record)) := by
  rw [KeyedLog.readAt, faithful.bind_decode, (tracks.read_ok_iff idx record).mpr ⟨low, held⟩]

theorem newest_with_main (keyed : KeyedBy true records) (held : records[idx]? = some record) :
    newestWith (idx + 1) 1 records = some (record, idx + 1) := by
  cases found : newestWith (idx + 1) 1 records with
  | none =>
    have differs := newest_with_eq_none.mp found record (mem_of_getElem? held)
    exact absurd (keyed idx record held) differs
  | some entry =>
    obtain ⟨low, there⟩ := newest_with_place found
    obtain ⟨_, _, _, _, fits, _⟩ := last_match_some found
    have key := keyed _ _ there
    have same : entry.1.mainLT = idx + 1 := of_decide_eq_true fits
    have place : entry.2 = idx + 1 := by omega
    rw [place, Nat.add_sub_cancel, held] at there
    rw [Option.some.inj there, ← place]

section

variable (faithful : setup.Faithful)
  (tracks : Tracks id setup.size setup.parents log.buffer records)

include faithful tracks

theorem lookup_main_spec (sound : Sound setup.toSetup 1 ⟨log.buffer, none⟩ records)
    (keyed : KeyedBy true records) (mainLT : Nat) :
    log.lookupRecord setup true mainLT =
      (.ok ((newestWith mainLT 1 records).map Prod.swap), log) := by
  have last := tracks.last_index
  rw [KeyedLog.lookupRecord, if_pos rfl]
  simp only
  split_ifs with outside
  · have missing : newestWith mainLT 1 records = none := by
      apply newest_with_eq_none.mpr
      intro record inside
      obtain ⟨idx, within, rfl⟩ := getElem_of_mem inside
      have key := keyed idx _ (getElem?_eq_getElem within)
      have first : log.buffer.firstIndex setup.parents = 1 :=
        first_index_shown sound (ne_nil_of_mem inside)
      omega
    rw [missing]
    rfl
  · have first : log.buffer.firstIndex setup.parents = 1 :=
      first_index_start sound (Nat.pos_of_ne_zero fun zero => outside (Or.inl zero))
    have within : mainLT - 1 < records.length := by omega
    have held := getElem?_eq_getElem within
    have newest := newest_with_main keyed held
    have same : mainLT - 1 + 1 = mainLT := by omega
    rw [same] at newest
    rw [newest, read_at_spec faithful tracks (by omega) held]
    rfl

theorem lookup_related_spec (ordered : Ordered records) (indexes : log.keys.Indexes records)
    (mainLT : Nat) :
    ∃ next, log.lookupRecord setup false mainLT =
        (.ok ((newestWith mainLT 1 records).map Prod.swap), { log with keys := next }) ∧
      next.Indexes records := by
  obtain ⟨next, done, kept⟩ := lookup_spec faithful tracks ordered indexes mainLT
  refine ⟨next, ?_, kept⟩
  rw [KeyedLog.lookupRecord, if_neg (by decide), done]
  cases found : newestWith mainLT 1 records with
  | none => rfl
  | some entry =>
    obtain ⟨low, held⟩ := newest_with_place found
    have answer := @read_at_spec _ _ setup { log with keys := next } records faithful tracks _ _ low
      held
    simp only [Option.map_some, answer]
    rfl

theorem tail_main_spec (sound : Sound setup.toSetup 1 ⟨log.buffer, none⟩ records) :
    log.tailMain setup = .ok (records.getLast?.map Record.mainLT) := by
  have last := tracks.last_index
  rw [KeyedLog.tailMain]
  by_cases empty : records = []
  · have outside : log.buffer.firstIndex setup.parents = 0 ∨
        log.buffer.lastIndex < log.buffer.firstIndex setup.parents := by
      rw [empty, length_nil] at last
      omega
    rw [if_pos outside, empty]
    rfl
  · have some_shown := length_pos_of_ne_nil empty
    have first : log.buffer.firstIndex setup.parents = 1 := first_index_shown sound empty
    have held : records[log.buffer.lastIndex - 1]? = some (records.getLast empty) := by
      rw [last, ← getLast?_eq_getElem?, getLast?_eq_some_getLast empty]
    have read := (tracks.read_ok_iff log.buffer.lastIndex _).mpr ⟨by omega, held⟩
    rw [if_neg (by omega), faithful.bind_decode, read, getLast?_eq_some_getLast empty]
    rfl

theorem ordered_append (sound : Sound setup.toSetup 1 ⟨log.buffer, none⟩ records)
    (ordered : Ordered records) (admitted : log.admits setup mainLT = .ok ())
    (keyed : record.mainLT = mainLT) : Ordered (records ++ [record]) := by
  apply pairwise_append.mpr
  refine ⟨ordered, pairwise_singleton _ _, ?_⟩
  intro early inside late newest
  rw [mem_singleton.mp newest, keyed]
  have filled := ne_nil_of_mem inside
  rw [KeyedLog.admits, tail_main_spec faithful tracks sound,
    getLast?_eq_some_getLast filled] at admitted
  simp only [Option.map_some] at admitted
  split_ifs at admitted with low
  have order : early.mainLT ≤ (records.getLast filled).mainLT := by
    have split := dropLast_append_getLast filled
    rw [← split] at inside ordered
    rcases mem_append.mp inside with before | itself
    · exact (pairwise_append.mp ordered).2.2 early before _ (mem_singleton_self _)
    · rw [mem_singleton.mp itself]
  omega

end

theorem shown_by_eq (tracks : Tracks id setup.size setup.parents log.buffer records) :
    shownBy setup.parents log.buffer = records := by
  rw [shownBy]
  split_ifs with idle
  · exact tracks.exact_idle idle
  · exact (tracks.split idle).symm

/-- The disk works for the sync that the write of a record runs, if it runs one. -/
def Works (setup : KeyedSetup β σ) (log : KeyedLog β σ) (record : Record β)
    (fault : Option Nat) : Prop :=
  log.buffer.Overflows setup.toSetup (log.buffer.lastIndex + 1) record →
    fault = none ∧ log.buffer.Accepts setup.toSetup record

/-- A write is refused without a trace, or its record is visible; it is in the index too
unless the sync it ran has failed. -/
theorem write_cases (faithful : setup.Faithful)
    (tracks : Tracks id setup.size setup.parents log.buffer records) (record : Record β)
    (fault : Option Nat) :
    (∃ err, log.write setup record fault = (.error err, log)) ∨
      ∃ grown, Tracks id setup.size setup.parents grown (records ++ [record]) ∧
        (log.write setup record fault = (.ok (records.length + 1), ⟨grown,
            if log.keys.inUse then log.keys.put record.mainLT (records.length + 1)
            else log.keys⟩) ∨
          ¬Works setup log record fault ∧
            ∃ err, log.write setup record fault = (.error err, ⟨grown, log.keys⟩)) := by
  have stored : setup.opts.codec.stored = id := funext faithful.keeps
  rw [KeyedLog.write]
  cases done : log.buffer.write setup.opts setup.parents setup.size setup.maxLag
      (log.buffer.lastIndex + 1) record fault with
  | mk result grown =>
    rcases write_spec (stored ▸ tracks) done with ⟨err, refused, same⟩ | ⟨grew, answers⟩
    · left
      rw [refused, same]
      exact ⟨.disk err, rfl⟩
    · rw [stored] at grew
      refine Or.inr ⟨grown, grew, ?_⟩
      cases result with
      | ok _ =>
        left
        simp only [tracks.last_index]
      | error err =>
        right
        refine ⟨fun works => ?_, .disk err, rfl⟩
        cases answers works

end Views

/-- The calls on one channel of an opened branch, and the syncs that happen between them. -/
inductive ViewOp (β : Type) where
  | append (mainLT : Nat) (body : β) (fault : Option Nat)
  | appendMain (body : β) (cursors : List (String × Nat)) (fault : Option Nat)
  | lookup (mainLT : Nat)
  | recordsFrom (fromMainLT : Nat) (limit : Int)
  | latest (minMainLT : Nat)
  | sync (target : Nat) (fault : Option Nat)

namespace KeyedLog

def step (setup : KeyedSetup β σ) (isMain : Bool) (log : KeyedLog β σ) :
    ViewOp β → KeyedLog β σ
  | .append mainLT body fault => if isMain then log else (log.append setup mainLT body fault).2
  | .appendMain body cursors fault =>
    if isMain then (log.appendMain setup body cursors fault).2 else log
  | .lookup mainLT => (log.lookupRecord setup isMain mainLT).2
  | .recordsFrom _ _ | .latest _ => log
  | .sync target fault =>
    { log with
      buffer := (log.buffer.syncThrough setup.opts setup.parents setup.size target fault).2 }

def Agrees (setup : KeyedSetup β σ) (isMain : Bool) (log : KeyedLog β σ) : ViewOp β → Prop
  | .append mainLT body fault => isMain = false →
      ∀ idx, (log.append setup mainLT body fault).1 = .ok idx →
        shownBy setup.parents (log.append setup mainLT body fault).2.buffer =
            shownBy setup.parents log.buffer ++ [⟨mainLT, body, []⟩] ∧
          idx = (shownBy setup.parents log.buffer).length + 1
  | .appendMain body cursors fault => isMain = true →
      ∀ idx, (log.appendMain setup body cursors fault).1 = .ok idx →
        shownBy setup.parents (log.appendMain setup body cursors fault).2.buffer =
            shownBy setup.parents log.buffer ++ [⟨idx, body, cursors⟩] ∧
          idx = (shownBy setup.parents log.buffer).length + 1
  | .lookup mainLT => (log.lookupRecord setup isMain mainLT).1 =
      .ok ((newestWith mainLT 1 (shownBy setup.parents log.buffer)).map Prod.swap)
  | .recordsFrom fromMainLT limit => 0 ≤ limit → log.recordsFrom setup fromMainLT limit =
      .ok (let wanted := (numbered 1 (shownBy setup.parents log.buffer)).filter fun item =>
          fromMainLT ≤ item.2.mainLT
        if limit = 0 then wanted else wanted.take limit.toNat)
  | .latest minMainLT => log.latestChannelRecord setup minMainLT =
      .ok ((numbered 1 (shownBy setup.parents log.buffer)).getLast?.filter fun item =>
        minMainLT ≤ item.2.mainLT)
  | .sync target fault =>
    shownBy setup.parents
        (log.buffer.syncThrough setup.opts setup.parents setup.size target fault).2 =
      shownBy setup.parents log.buffer

/-- An append to a related channel whose index is in use meets a disk that works, where it
runs a sync of its own. -/
def Undisturbed (setup : KeyedSetup β σ) (isMain : Bool) (log : KeyedLog β σ) :
    ViewOp β → Prop
  | .append mainLT body fault => isMain = false → log.keys.inUse = true →
      log.admits setup mainLT = .ok () → Works setup log ⟨mainLT, body, []⟩ fault
  | _ => True

/-- The channel shows `records`, which are in order, and its index is right about them. -/
structure Kept (setup : KeyedSetup β σ) (isMain : Bool) (log : KeyedLog β σ)
    (records : List (Record β)) : Prop where
  tracks : Tracks id setup.size setup.parents log.buffer records
  keyed : KeyedBy isMain records
  indexes : isMain = false → log.keys.Indexes records

namespace Kept

variable {setup : KeyedSetup β σ} {isMain : Bool} {log : KeyedLog β σ}
  {records : List (Record β)}

theorem shown (kept : Kept setup isMain log records) :
    shownBy setup.parents log.buffer = records := shown_by_eq kept.tracks

theorem append (kept : Kept setup false log records)
    (faithful : setup.Faithful) {mainLT : Nat} {body : β} {fault : Option Nat}
    (undisturbed : log.keys.inUse = true → log.admits setup mainLT = .ok () →
      Works setup log ⟨mainLT, body, []⟩ fault) :
    Agrees setup false log (.append mainLT body fault) ∧
      ∃ next, Kept setup false (log.append setup mainLT body fault).2 next := by
  have sound := kept.tracks.sound faithful.keeps
  rw [Agrees, KeyedLog.append]
  cases admitted : log.admits setup mainLT with
  | error refused =>
    refine ⟨fun _ idx impossible => ?_, records, kept⟩
    cases impossible
  | ok _ =>
    have ordered : Ordered (records ++ [(⟨mainLT, body, []⟩ : Record β)]) :=
      ordered_append faithful kept.tracks sound kept.keyed admitted rfl
    have indexed := (kept.indexes rfl).append ⟨mainLT, body, []⟩
    rcases write_cases faithful kept.tracks ⟨mainLT, body, []⟩ fault with
      ⟨err, done⟩ | ⟨grown, grew, done | ⟨failed, err, done⟩⟩
    · rw [done]
      refine ⟨fun _ idx impossible => ?_, records, kept⟩
      cases impossible
    · rw [done, kept.shown]
      refine ⟨fun _ idx answer => ⟨?_, ?_⟩, _, grew, ordered, fun _ => indexed⟩
      · exact @shown_by_eq _ _ setup ⟨grown, log.keys⟩ _ grew
      · exact (Except.ok.inj answer).symm
    · -- The record is visible and not indexed, which an index out of use does not mind.
      have idle : ¬log.keys.inUse = true := fun used => failed (undisturbed used admitted)
      rw [if_neg idle] at indexed
      rw [done]
      refine ⟨fun _ idx impossible => ?_, _, grew, ordered, fun _ => indexed⟩
      cases impossible

theorem append_main (kept : Kept setup true log records)
    (faithful : setup.Faithful) (body : β) (cursors : List (String × Nat)) (fault : Option Nat) :
    Agrees setup true log (.appendMain body cursors fault) ∧
      ∃ next, Kept setup true (log.appendMain setup body cursors fault).2 next := by
  have last := kept.tracks.last_index
  have keyed : KeyedBy true
      (records ++ [(⟨log.buffer.lastIndex + 1, body, cursors⟩ : Record β)]) := by
    intro idx record held
    by_cases old : idx < records.length
    · rw [getElem?_append_left old] at held
      exact kept.keyed idx record held
    · rw [List.getElem?_append_right (by omega)] at held
      have place := (List.getElem?_eq_some_iff.mp held).1
      rw [List.length_singleton] at place
      have zero : idx - records.length = 0 := by omega
      rw [zero] at held
      rw [← Option.some.inj held]
      change log.buffer.lastIndex + 1 = idx + 1
      omega
  rw [Agrees, KeyedLog.appendMain]
  rcases write_cases faithful kept.tracks ⟨log.buffer.lastIndex + 1, body, cursors⟩ fault with
    ⟨err, done⟩ | ⟨grown, grew, done | ⟨_, err, done⟩⟩
  · rw [done]
    refine ⟨fun _ idx impossible => ?_, records, kept⟩
    cases impossible
  · rw [done, kept.shown]
    refine ⟨fun _ idx answer => ?_, _, grew, keyed, fun impossible => nomatch impossible⟩
    have place := Except.ok.inj answer
    rw [← place, ← last]
    exact ⟨@shown_by_eq _ _ setup ⟨grown, log.keys⟩ _ grew, rfl⟩
  · rw [done]
    refine ⟨fun _ idx impossible => ?_, _, grew, keyed, fun impossible => nomatch impossible⟩
    cases impossible

section

variable (kept : Kept setup isMain log records) (faithful : setup.Faithful)

include kept faithful

theorem lookup (mainLT : Nat) :
    Agrees setup isMain log (.lookup mainLT) ∧
      Kept setup isMain (log.lookupRecord setup isMain mainLT).2 records := by
  rw [Agrees, kept.shown]
  cases isMain with
  | true =>
    have done := lookup_main_spec faithful kept.tracks (kept.tracks.sound faithful.keeps) kept.keyed
        mainLT
    rw [done]
    exact ⟨rfl, kept⟩
  | false =>
    obtain ⟨next, done, indexed⟩ :=
      lookup_related_spec faithful kept.tracks kept.keyed (kept.indexes rfl) mainLT
    rw [done]
    exact ⟨rfl, kept.tracks, kept.keyed, fun _ => indexed⟩

theorem sync (target : Nat) (fault : Option Nat) :
    Agrees setup isMain log (.sync target fault) ∧
      Kept setup isMain (log.step setup isMain (.sync target fault)) records := by
  have stored : setup.opts.codec.stored = id := funext faithful.keeps
  have tracks : Tracks setup.opts.codec.stored setup.size setup.parents log.buffer records :=
    stored ▸ kept.tracks
  have done : log.buffer.syncThrough setup.opts setup.parents setup.size target fault =
      (_, (log.step setup isMain (.sync target fault)).buffer) := rfl
  have synced := (sync_through_spec tracks done).1
  rw [stored] at synced
  refine ⟨?_, synced, kept.keyed, kept.indexes⟩
  rw [Agrees, kept.shown]
  exact shown_by_eq synced

theorem step {op : ViewOp β} (undisturbed : Undisturbed setup isMain log op) :
    Agrees setup isMain log op ∧ ∃ next, Kept setup isMain (log.step setup isMain op) next := by
  cases op with
  | append mainLT body fault =>
    cases isMain with
    | true => exact ⟨(fun impossible => nomatch impossible), records, kept⟩
    | false => exact kept.append faithful (undisturbed rfl)
  | appendMain body cursors fault =>
    cases isMain with
    | true => exact kept.append_main faithful body cursors fault
    | false => exact ⟨(fun impossible => nomatch impossible), records, kept⟩
  | lookup mainLT =>
    obtain ⟨agrees, after⟩ := kept.lookup faithful mainLT
    exact ⟨agrees, records, after⟩
  | recordsFrom fromMainLT limit =>
    refine ⟨fun natural => ?_, records, kept⟩
    rw [kept.shown]
    exact records_from_spec faithful (kept.tracks.sound faithful.keeps) kept.keyed.ordered
      fromMainLT natural
  | latest minMainLT =>
    refine ⟨?_, records, kept⟩
    rw [Agrees, kept.shown]
    exact latest_spec faithful (kept.tracks.sound faithful.keeps) minMainLT
  | sync target fault =>
    obtain ⟨agrees, after⟩ := kept.sync faithful target fault
    exact ⟨agrees, records, after⟩

end

end Kept

instance (setup : KeyedSetup β σ) (isMain : Bool) (log : KeyedLog β σ) (op : ViewOp β) :
    Decidable (Undisturbed setup isMain log op) := by
  cases op <;> unfold Undisturbed Works Buffer.Overflows Buffer.Accepts <;> infer_instance

end KeyedLog

def Channel.setup (channel : Channel β σ) (parents : List (Log (Record β) σ)) (maxLag : Nat) :
    KeyedSetup β σ where
  opts := channel.opts
  parents := parents
  size := channel.frameBytes
  maxLag := maxLag
  decodes := channel.decodes

/-- In every run of appends and views on a branch, opened with its inherited records in order,
every view answers as the full list of visible records says, and the records stay in order. -/
theorem KeyedLog.suffix_views_agree {channel : Channel β σ} (faithful : channel.Faithful)
    (maxLag : Nat) (isMain : Bool) {inner : Log (Record β) σ}
    {parents : List (Log (Record β) σ)}
    (chained : Chained (inner :: parents)) (keyed : KeyedBy isMain (visible (inner :: parents)))
    {run : List (ViewOp β)}
    (undisturbed : EveryStep (step (channel.setup parents maxLag) isMain)
      (Undisturbed (channel.setup parents maxLag) isMain) (opened inner) run) :
    EveryStep (step (channel.setup parents maxLag) isMain)
        (Agrees (channel.setup parents maxLag) isMain) (opened inner) run ∧
      KeyedBy isMain (shownBy parents
        (run.foldl (step (channel.setup parents maxLag) isMain) (opened inner)).buffer) := by
  have decodable : (channel.setup parents maxLag).Faithful := ⟨faithful.keeps, faithful.decodes⟩
  have start : ∃ records, Kept (channel.setup parents maxLag) isMain (opened inner) records :=
    ⟨visible (inner :: parents), Tracks.opened chained fun _ _ => rfl, keyed,
      fun _ => .unused rfl fun _ => rfl⟩
  constructor
  · apply every_step_of_invariant _ (fun log => ∃ records,
      Kept (channel.setup parents maxLag) isMain log records) ?_ start undisturbed
    rintro log op ⟨records, kept⟩ meets
    exact kept.step decodable meets
  · have after := invariant_after _ (fun log => ∃ records,
      Kept (channel.setup parents maxLag) isMain log records)
      (fun log op ⟨records, kept⟩ meets => (kept.step decodable meets).2) start undisturbed
    obtain ⟨records, kept⟩ := after
    have shown : shownBy parents _ = records := kept.shown
    rw [shown]
    exact kept.keyed

/-- A record of 30 bytes does not fit into a segment. Its append fails in the sync it runs, and
the record is visible all the same; the index, which was in use, does not know it. -/
theorem KeyedLog.failed_append_is_not_found :
    let setup := (Trunks.sampleChannel "tr").setup [] 1
    let indexed := (((opened (Log.blank 0)).append setup 1 2 none).2.lookupRecord setup false 1).2
    let failed := indexed.append setup 2 30 none
    failed.1 = .error (.disk .payloadTooLarge) ∧
      shownBy [] failed.2.buffer = [⟨1, 2, []⟩, ⟨2, 30, []⟩] ∧
      failed.2.readAt setup 2 = .ok (some (2, ⟨2, 30, []⟩)) ∧
      (failed.2.lookupRecord setup false 2).1 = .ok none := by
  decide

def oneRecordParent : Log (Record Nat) Nat :=
  ((Log.blank 0).write (Trunks.sampleChannel "tr").opts [] 1 ⟨1, 5, []⟩).2

/-- Partial scans and appends in turn, on a fork that inherits one record. The last question
finds nothing left to scan and starts over from the tail. -/
def mixedRun : List (ViewOp Nat) :=
  [.append 3 2 none, .append 3 4 none, .lookup 3, .append 4 1 none, .lookup 2, .lookup 1,
    .recordsFrom 3 2, .sync 4 none, .append 2 1 none, .latest 4, .lookup 0, .lookup 4]

theorem KeyedLog.mixed_run_agrees :
    let setup := (Trunks.sampleChannel "tr").setup [oneRecordParent] 3
    let last := mixedRun.foldl (step setup false) (opened (Log.blank 2))
    shownBy [oneRecordParent] last.buffer =
        [⟨1, 5, []⟩, ⟨3, 2, []⟩, ⟨3, 4, []⟩, ⟨4, 1, []⟩] ∧
      EveryStep (step setup false) (Agrees setup false) (opened (Log.blank 2)) mixedRun := by
  have done : (Log.blank 0).write (Trunks.sampleChannel "tr").opts [] 1 ⟨1, 5, []⟩ =
      (.ok (), oneRecordParent) := by decide
  have chained : Chained [Log.blank 2, oneRecordParent] :=
    ⟨Log.blank_tidy 2, by decide, (Log.blank_tidy 0).write done, by decide, trivial⟩
  have ordered : Ordered (visible [Log.blank 2, oneRecordParent]) := by
    unfold Ordered
    decide
  exact ⟨by decide, (suffix_views_agree (Trunks.sample_channel_faithful "tr") 3 false chained
    ordered (by decide)).1⟩

end Figwal.Xwal
