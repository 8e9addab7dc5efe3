import Mathlib.Data.List.Nodup
import Mathlib.Data.List.TakeWhile
import Figwal.Lib.Family

/-!
# The node index

Nodes are flat directories. A node's `.node` marker says which node it was forked
from, its kind, and the trunk it is the live head of; stumps have no trunk. The
index is what the markers say, in the order the nodes came to be, the newest first,
and without the root, whose key is the empty string.
-/

namespace Figwal.Xwal

open Figwal.Lib

set_option autoImplicit false

structure NodeInfo where
  trunk : String
  fromKey : String
  kind : String
  deriving DecidableEq, Repr

/-!
## The marker text
-/

def isSpace (char : Char) : Bool :=
  let code := char.toNat
  (9 ≤ code && code ≤ 13) || code == 0x20 || code == 0x85 || code == 0xA0 || code == 0x1680 ||
    (0x2000 ≤ code && code ≤ 0x200A) || code == 0x2028 || code == 0x2029 || code == 0x202F ||
    code == 0x205F || code == 0x3000

def trimSpace (text : List Char) : List Char :=
  ((text.dropWhile isSpace).reverse.dropWhile isSpace).reverse

/-- `strings.Cut` at the first `=`. -/
def cutEquals (line : List Char) : Option (List Char × List Char) :=
  if '=' ∈ line then
    some (line.takeWhile (· ≠ '='), (line.dropWhile (· ≠ '=')).drop 1)
  else none

def writeNodeMarker (info : NodeInfo) : List Char :=
  "from=".toList ++ info.fromKey.toList ++ "\nkind=".toList ++ info.kind.toList ++
    "\ntrunk=".toList ++ info.trunk.toList ++ "\n".toList

def readNodeLine (info : NodeInfo) (line : List Char) : NodeInfo :=
  match cutEquals (trimSpace line) with
  | none => info
  | some (key, value) =>
    if key = "from".toList then { info with fromKey := String.ofList value }
    else if key = "kind".toList then { info with kind := String.ofList value }
    else if key = "trunk".toList then { info with trunk := String.ofList value }
    else info

def readNodeMarker (text : List Char) : NodeInfo :=
  (text.splitOn '\n').foldl readNodeLine ⟨"", "", ""⟩

def NodeInfo.Survives (info : NodeInfo) : Prop :=
  readNodeMarker (writeNodeMarker info) = info

instance (info : NodeInfo) : Decidable info.Survives :=
  inferInstanceAs (Decidable (_ = _))

/-!
## Minted names
-/

def atoi (text : List Char) : Option Int :=
  let unsigned := fun digits : List Char =>
    if digits ≠ [] ∧ digits.all Char.isDigit then some (Nat.ofDigitChars 10 digits 0 : Int)
    else none
  match text with
  | '+' :: digits => unsigned digits
  | '-' :: digits => (unsigned digits).map fun value => -value
  | digits => unsigned digits

def numSuffix (text : String) (letter : Char) : Int :=
  match text.toList with
  | head :: rest =>
    if head ≠ letter then -1
    else
      match atoi rest with
      | some value => value
      | none => -1
  | [] => -1

/-- The id `MintNode` forms from its counter. -/
def nodeId (seq : Int) : String :=
  "n" ++ toString seq

def nodeName (seq : Nat) : String :=
  "n" ++ toString seq

def minInt : Int := -9223372036854775808

def maxInt : Int := 9223372036854775807

def wrapInt (value : Int) : Int :=
  (value - minInt) % 18446744073709551616 + minInt

/-- `numSuffix`. A number that does not fit is none. -/
def numSuffixInt (text : String) (letter : Char) : Int :=
  let value := numSuffix text letter
  if minInt ≤ value ∧ value ≤ maxInt then value else -1

def bumpInt (seq : Int) (text : String) (letter : Char) : Int :=
  let next := wrapInt (numSuffixInt text letter + 1)
  if seq < next then next else seq

/-- What follows the last slash of a key. -/
def lastPart (key : String) : String :=
  String.ofList (key.toList.reverse.takeWhile (· ≠ '/')).reverse

/-- `bumpSeqsLocked`, for the node counter. -/
def bumpSeq (seq : Int) (key : String) : Int :=
  if key = "" then seq else bumpInt seq (lastPart key) 'n'

theorem atoi_of_digits {text : List Char} (some : text ≠ []) (digits : text.all Char.isDigit) :
    atoi text = .some (Nat.ofDigitChars 10 text 0 : Int) := by
  cases text with
  | nil => exact absurd rfl some
  | cons head rest =>
    have digit := List.all_eq_true.mp digits head List.mem_cons_self
    have plus : head ≠ '+' := by
      rintro rfl
      cases digit
    have minus : head ≠ '-' := by
      rintro rfl
      cases digit
    unfold atoi
    split
    · rename_i same
      cases same
      exact absurd rfl plus
    · rename_i same
      cases same
      exact absurd rfl minus
    · exact if_pos ⟨some, digits⟩

theorem num_suffix_lettered {text : String} {letter : Char} {seq : Nat}
    (shape : text.toList = letter :: Nat.toDigits 10 seq) : numSuffix text letter = seq := by
  have digits : (Nat.toDigits 10 seq).all Char.isDigit := by
    rw [List.all_eq_true]
    intro char member
    exact Nat.isDigit_of_mem_toDigits (by decide) (by decide) member
  rw [numSuffix, shape]
  simp only [ne_eq, not_true, if_false,
    atoi_of_digits Nat.toDigits_ne_nil digits, Nat.ofDigitChars_ten_toDigits]

theorem num_suffix_node_name (seq : Nat) : numSuffix (nodeName seq) 'n' = seq := by
  apply num_suffix_lettered
  rw [nodeName, String.toList_append]
  exact congrArg (fun digits => 'n' :: digits) Nat.toList_repr

theorem node_id_eq {seq : Int} (low : 0 ≤ seq) : nodeId seq = nodeName seq.toNat := by
  obtain ⟨count, same⟩ := Int.eq_ofNat_of_zero_le low
  rw [nodeId, same]
  rfl

theorem node_name_chars (seq : Nat) :
    ∃ digits : List Char, (nodeName seq).toList = 'n' :: digits ∧
      ∀ char ∈ digits, char.isDigit = true := by
  refine ⟨Nat.toDigits 10 seq, ?_, ?_⟩
  · rw [nodeName, String.toList_append]
    exact congrArg ('n' :: ·) (Nat.toList_repr (n := seq))
  · intro char member
    exact Nat.isDigit_of_mem_toDigits (by decide) (by decide) member

theorem node_name_slashless (seq : Nat) : '/' ∉ (nodeName seq).toList := by
  obtain ⟨digits, shape, digit⟩ := node_name_chars seq
  rw [shape]
  intro member
  rcases List.mem_cons.mp member with same | inside
  · cases same
  · exact absurd (digit '/' inside) (by decide)

theorem wrap_int_succ {value : Int} (low : minInt ≤ value) (high : value < maxInt) :
    wrapInt (value + 1) = value + 1 := by
  unfold minInt at low
  unfold maxInt at high
  unfold wrapInt minInt
  omega

theorem num_suffix_int_range (text : String) (letter : Char) :
    minInt ≤ numSuffixInt text letter ∧ numSuffixInt text letter ≤ maxInt := by
  unfold numSuffixInt
  dsimp only
  split_ifs with fits
  · exact fits
  · decide

theorem bump_int_le (seq : Int) (text : String) (letter : Char) :
    seq ≤ bumpInt seq text letter := by
  unfold bumpInt
  dsimp only
  split_ifs with above
  · exact Int.le_of_lt above
  · exact Int.le_refl seq

/-- After a bump the counter is past the number, unless that is the largest one. -/
theorem bump_int_above (seq : Int) (text : String) (letter : Char) :
    numSuffixInt text letter < bumpInt seq text letter ∨ numSuffixInt text letter = maxInt := by
  obtain ⟨low, high⟩ := num_suffix_int_range text letter
  by_cases last : numSuffixInt text letter = maxInt
  · exact Or.inr last
  · left
    have next := wrap_int_succ low (by omega)
    unfold bumpInt
    rw [next]
    dsimp only
    split_ifs with above <;> omega

theorem last_part_plain {key : String} (plain : '/' ∉ key.toList) : lastPart key = key := by
  have all : ∀ char ∈ key.toList.reverse, decide (char ≠ '/') = true := by
    intro char member
    rw [List.mem_reverse] at member
    apply decide_eq_true
    rintro rfl
    exact plain member
  unfold lastPart
  rw [List.takeWhile_eq_self_iff.mpr all, List.reverse_reverse, String.ofList_toList]

theorem num_suffix_int_node_name {seq : Nat} (fits : (seq : Int) ≤ maxInt) :
    numSuffixInt (lastPart (nodeName seq)) 'n' = seq := by
  rw [last_part_plain (node_name_slashless seq), numSuffixInt, num_suffix_node_name]
  rw [if_pos]
  exact ⟨by unfold minInt; omega, fits⟩

/-- The counter is past the number of a key, unless that is the largest one. -/
def Passes (seq : Int) (key : String) : Prop :=
  numSuffixInt (lastPart key) 'n' < seq ∨ numSuffixInt (lastPart key) 'n' = maxInt

theorem Passes.mono {seq next : Int} {key : String} (passes : Passes seq key) (more : seq ≤ next) :
    Passes next key :=
  passes.imp (fun below => Int.lt_of_lt_of_le below more) id

theorem bump_seq_le (seq : Int) (key : String) : seq ≤ bumpSeq seq key := by
  unfold bumpSeq
  split_ifs
  · exact Int.le_refl seq
  · exact bump_int_le _ _ _

theorem bump_seq_passes {seq : Int} (low : 0 ≤ seq) (key : String) :
    Passes (bumpSeq seq key) key := by
  unfold bumpSeq
  split_ifs with root
  · subst root
    have none : numSuffixInt (lastPart "") 'n' = -1 := rfl
    left
    omega
  · exact bump_int_above _ _ _

/-- A counter with room mints a key it has not passed. -/
theorem node_id_unpassed {seq : Int} (low : 0 ≤ seq) (room : seq < maxInt) :
    ¬Passes seq (nodeId seq) := by
  rw [node_id_eq low, Passes]
  have number := @num_suffix_int_node_name seq.toNat (by omega)
  omega

/-!
## The index
-/

abbrev Index := List (String × NodeInfo)

namespace Index

variable {index : Index} {key : String}

def keys (index : Index) : List String :=
  index.map Prod.fst

def node (index : Index) (key : String) : Option NodeInfo :=
  if key = "" then some ⟨"", "", "null"⟩ else index.lookup key

def head (index : Index) (trunk : String) : Option String :=
  if trunk = "" then none
  else (index.find? fun entry => entry.2.trunk = trunk).map Prod.fst

def family (index : Index) : Family String :=
  index.map fun entry => (entry.1, entry.2.fromKey)

def lineage (index : Index) (key : String) : List String :=
  index.family.lineage "" key

def childrenOf (index : Index) (key : String) : List String :=
  (index.filter fun entry => entry.2.fromKey = key).map Prod.fst

/-- The counter `RebuildFrom` recovers. -/
def seqOf (index : Index) : Int :=
  index.keys.foldl bumpSeq 0

/-- `RebuildFrom`: every node as its marker describes it. -/
def rebuild (index : Index) : Index :=
  index.map fun entry => (entry.1, readNodeMarker (writeNodeMarker entry.2))

def Known (index : Index) (key : String) : Prop :=
  key = "" ∨ key ∈ index.keys

instance (index : Index) (key : String) : Decidable (index.Known key) :=
  inferInstanceAs (Decidable (_ ∨ _))

def Distinct (index : Index) : Prop :=
  index.Pairwise fun left right => left.2.trunk ≠ "" → left.2.trunk ≠ right.2.trunk

theorem family_members (index : Index) : index.family.members = index.keys := by
  simp [family, Family.members, keys]

theorem rebuild_of_survives (survives : ∀ entry ∈ index, entry.2.Survives) :
    index.rebuild = index := by
  conv_rhs => rw [← List.map_id index]
  apply List.map_congr_left
  intro entry member
  exact Prod.ext rfl (survives entry member)

theorem head_mem {trunk : String} (found : index.head trunk = some key) :
    ∃ info, (key, info) ∈ index ∧ info.trunk = trunk ∧ trunk ≠ "" := by
  unfold head at found
  split_ifs at found with none
  rcases Option.map_eq_some_iff.mp found with ⟨entry, first, rfl⟩
  have carries := List.find?_some first
  exact ⟨entry.2, List.mem_of_find?_eq_some first, by simpa using carries, none⟩

theorem head_key {trunk : String} (found : index.head trunk = some key) : key ∈ index.keys := by
  rcases head_mem found with ⟨info, member, _⟩
  exact List.mem_map_of_mem (f := Prod.fst) member

theorem head_known {trunk : String} (found : index.head trunk = some key) : index.Known key :=
  Or.inr (head_key found)

theorem head_of_mem (distinct : index.Distinct) {info : NodeInfo} (member : (key, info) ∈ index)
    (carries : info.trunk ≠ "") : index.head info.trunk = some key := by
  unfold head
  rw [if_neg carries]
  induction index with
  | nil => cases member
  | cons entry rest ih =>
    rcases List.pairwise_cons.mp distinct with ⟨apart, later⟩
    rw [List.find?_cons]
    rcases List.mem_cons.mp member with rfl | older
    · simp
    · have differs : entry.2.trunk ≠ info.trunk := by
        intro same
        by_cases blank : entry.2.trunk = ""
        · exact carries (same ▸ blank)
        · exact apart _ older blank same
      simp only [differs, decide_false]
      exact ih later older

theorem head_injective (ordered : Family.Ordered "" index.family) {left right : String}
    (first : index.head left = some key) (second : index.head right = some key) : left = right := by
  rcases head_mem first with ⟨info, member, rfl, _⟩
  rcases head_mem second with ⟨other, also, rfl, _⟩
  have nodup := ordered.nodup
  rw [family_members] at nodup
  have same : info = other := by
    have pair := List.inj_on_of_nodup_map nodup member also rfl
    cases pair
    rfl
  rw [same]

theorem known_lineage (ordered : Family.Ordered "" index.family) {above : String}
    (known : index.Known key) (member : above ∈ index.lineage key) : index.Known above := by
  have found := Family.known_of_mem_lineage ordered
    (by rw [family_members]; exact known) member
  rw [family_members] at found
  exact found

end Index

end Figwal.Xwal
