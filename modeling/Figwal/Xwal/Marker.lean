import Figwal.Xwal.Index

/-!
# What survives in a node marker

`.node` is a text of three lines, and each line is trimmed before it is cut at its
first equals sign. A value comes back as it was written if it has no line break and
does not end in white space. The trunk stands on the last line, so it comes back
whatever the other two values are.
-/

namespace Figwal.Xwal

variable {key : List Char}

set_option autoImplicit false

def Legible (text : String) : Prop :=
  '\n' ∉ text.toList ∧ text.toList.getLast?.all (fun char => !isSpace char) = true

instance (text : String) : Decidable (Legible text) :=
  inferInstanceAs (Decidable (_ ∧ _))

theorem drop_while_space {text : List Char}
    (solid : text.head?.all (fun char => !isSpace char) = true) :
    text.dropWhile isSpace = text := by
  cases text with
  | nil => rfl
  | cons head rest =>
    have first : isSpace head = false := by simpa using solid
    rw [List.dropWhile_cons, first]
    rfl

theorem trim_solid {text : List Char} (begins : text.head?.all (fun char => !isSpace char) = true)
    (ends : text.getLast?.all (fun char => !isSpace char) = true) : trimSpace text = text := by
  unfold trimSpace
  rw [drop_while_space begins, drop_while_space, List.reverse_reverse]
  rw [List.head?_reverse]
  exact ends

theorem cut_equals_field (clean : '=' ∉ key) (value : List Char) :
    cutEquals (key ++ '=' :: value) = some (key, value) := by
  have differs : ∀ char ∈ key, char ≠ '=' := fun char member same => clean (same ▸ member)
  have all : ∀ char ∈ key, decide (char ≠ '=') = true := by simpa using differs
  unfold cutEquals
  rw [if_pos (by simp), List.takeWhile_append_of_pos all, List.dropWhile_append_of_pos all]
  simp

theorem read_field_line {value : String} (named : key ≠ []) (clean : '=' ∉ key)
    (solid : key.head?.all (fun char => !isSpace char) = true) (legible : Legible value) :
    cutEquals (trimSpace (key ++ '=' :: value.toList)) = some (key, value.toList) := by
  rw [trim_solid, cut_equals_field clean]
  · cases key with
    | nil => exact absurd rfl named
    | cons head rest => exact solid
  · rw [List.getLast?_append, List.getLast?_cons]
    cases last : value.toList.getLast? with
    | none => rfl
    | some char =>
      have ends := legible.2
      rw [last] at ends
      exact ends

theorem split_legible {value : String} (clean : '\n' ∉ key) (legible : Legible value) :
    (key ++ '=' :: value.toList).splitOn '\n' = [key ++ '=' :: value.toList] := by
  apply List.splitOn_eq_singleton
  intro member
  rcases List.mem_append.mp member with inKey | inRest
  · exact clean inKey
  · rcases List.mem_cons.mp inRest with same | inValue
    · cases same
    · exact legible.1 inValue

def fromLine (info : NodeInfo) : List Char := "from".toList ++ '=' :: info.fromKey.toList

def kindLine (info : NodeInfo) : List Char := "kind".toList ++ '=' :: info.kind.toList

def trunkLine (info : NodeInfo) : List Char := "trunk".toList ++ '=' :: info.trunk.toList

theorem marker_lines (info : NodeInfo) :
    (writeNodeMarker info).splitOn '\n' =
      (fromLine info).splitOn '\n' ++ ((kindLine info).splitOn '\n' ++
        ((trunkLine info).splitOn '\n' ++ [[]])) := by
  have shape : writeNodeMarker info =
      fromLine info ++ '\n' :: (kindLine info ++ '\n' :: (trunkLine info ++ '\n' :: [])) := by
    have begin_ : "from=".toList = "from".toList ++ ['='] := by decide
    have first : "\nkind=".toList = '\n' :: ("kind".toList ++ ['=']) := by decide
    have second : "\ntrunk=".toList = '\n' :: ("trunk".toList ++ ['=']) := by decide
    have last : "\n".toList = ['\n'] := by decide
    unfold writeNodeMarker fromLine kindLine trunkLine
    simp only [begin_, first, second, last, List.append_assoc, List.cons_append,
      List.nil_append]
  rw [shape, List.splitOn_append_cons_self, List.splitOn_append_cons_self,
    List.splitOn_append_cons_self]
  rfl

theorem read_blank_line (info : NodeInfo) : readNodeLine info [] = info := rfl

variable {info : NodeInfo}

theorem marker_trunk (legible : Legible info.trunk) :
    (readNodeMarker (writeNodeMarker info)).trunk = info.trunk := by
  have line : ∀ seen : NodeInfo, (readNodeLine seen (trunkLine info)).trunk = info.trunk := by
    intro seen
    unfold readNodeLine trunkLine
    rw [read_field_line (by decide) (by decide) (by decide) legible]
    simp
  unfold readNodeMarker
  rw [marker_lines, List.foldl_append, List.foldl_append, List.foldl_append]
  unfold trunkLine
  rw [split_legible (by decide) legible]
  exact line _

theorem survives_of_legible (from_ : Legible info.fromKey) (kind : Legible info.kind)
    (trunk : Legible info.trunk) : info.Survives := by
  have first : readNodeLine ⟨"", "", ""⟩ (fromLine info) = ⟨"", info.fromKey, ""⟩ := by
    unfold readNodeLine fromLine
    rw [read_field_line (by decide) (by decide) (by decide) from_]
    simp
  have second : readNodeLine ⟨"", info.fromKey, ""⟩ (kindLine info) =
      ⟨"", info.fromKey, info.kind⟩ := by
    unfold readNodeLine kindLine
    rw [read_field_line (by decide) (by decide) (by decide) kind]
    simp
  have third : readNodeLine ⟨"", info.fromKey, info.kind⟩ (trunkLine info) =
      ⟨info.trunk, info.fromKey, info.kind⟩ := by
    unfold readNodeLine trunkLine
    rw [read_field_line (by decide) (by decide) (by decide) trunk]
    simp
  unfold NodeInfo.Survives readNodeMarker
  rw [marker_lines]
  unfold fromLine kindLine trunkLine
  rw [split_legible (by decide) from_, split_legible (by decide) kind,
    split_legible (by decide) trunk]
  change readNodeLine (readNodeLine (readNodeLine (readNodeLine ⟨"", "", ""⟩ (fromLine info))
    (kindLine info)) (trunkLine info)) [] = info
  rw [first, second, third, read_blank_line]

/-!
## What can be read from a marker
-/

theorem trim_sublist (text : List Char) : (trimSpace text).Sublist text := by
  rw [trimSpace, ← List.reverse_sublist, List.reverse_reverse]
  have back := List.dropWhile_sublist isSpace (l := (text.dropWhile isSpace).reverse)
  apply back.trans
  rw [List.reverse_sublist]
  exact List.dropWhile_sublist _

theorem trim_ends (text : List Char) :
    (trimSpace text).getLast?.all (fun char => !isSpace char) = true := by
  rw [trimSpace, List.getLast?_reverse]
  have first := List.head?_dropWhile_not isSpace (text.dropWhile isSpace).reverse
  cases seen : ((text.dropWhile isSpace).reverse.dropWhile isSpace).head? with
  | none => rfl
  | some char =>
    rw [seen] at first
    simpa using first

theorem cut_legible {line value : List Char} (single : '\n' ∉ line)
    (cut : cutEquals (trimSpace line) = some (key, value)) : Legible (String.ofList value) := by
  rw [cutEquals] at cut
  split_ifs at cut with marked
  have tail : value <:+ trimSpace line := by
    cases cut
    exact (List.drop_suffix _ _).trans (List.dropWhile_suffix _)
  rw [Legible, String.toList_ofList]
  refine ⟨fun inside => ?_, ?_⟩
  · exact single ((trim_sublist line).subset (tail.subset inside))
  · cases last : value.getLast? with
    | none => rfl
    | some char =>
      have ends := trim_ends line
      rcases tail with ⟨front, whole⟩
      rw [← whole, List.getLast?_append, last] at ends
      simpa using ends

def NodeInfo.Legible (info : NodeInfo) : Prop :=
  Xwal.Legible info.fromKey ∧ Xwal.Legible info.kind ∧ Xwal.Legible info.trunk

instance (info : NodeInfo) : Decidable info.Legible :=
  inferInstanceAs (Decidable (_ ∧ _ ∧ _))

theorem NodeInfo.Legible.read (legible : info.Legible) :
    readNodeMarker (writeNodeMarker info) = info :=
  survives_of_legible legible.1 legible.2.1 legible.2.2

theorem read_line_legible {line : List Char} (legible : info.Legible) (single : '\n' ∉ line) :
    (readNodeLine info line).Legible := by
  rcases legible with ⟨from_, kind, trunk⟩
  unfold readNodeLine
  cases cut : cutEquals (trimSpace line) with
  | none => exact ⟨from_, kind, trunk⟩
  | some pair =>
    have value : Xwal.Legible (String.ofList pair.2) := cut_legible single cut
    simp only
    split_ifs
    · exact ⟨value, kind, trunk⟩
    · exact ⟨from_, value, trunk⟩
    · exact ⟨from_, kind, value⟩
    · exact ⟨from_, kind, trunk⟩

theorem split_single (text : List Char) : ∀ line ∈ text.splitOn '\n', '\n' ∉ line := by
  induction text with
  | nil => simp
  | cons char rest ih =>
    rw [List.splitOn_eq_splitOnP] at ih ⊢
    rw [List.splitOnP_cons_eq_if_modifyHead]
    split_ifs with breaks
    · intro line member
      rcases List.mem_cons.mp member with rfl | later
      · exact List.not_mem_nil
      · exact ih line later
    · have differs : '\n' ≠ char := fun same => breaks (by rw [same]; exact beq_self_eq_true char)
      cases pieces : rest.splitOnP (· == '\n') with
      | nil =>
        intro line member
        cases member
      | cons first others =>
        rw [pieces] at ih
        intro line member
        rcases List.mem_cons.mp member with rfl | later
        · rw [List.mem_cons, not_or]
          exact ⟨differs, ih first List.mem_cons_self⟩
        · exact ih line (List.mem_cons_of_mem _ later)

theorem read_marker_legible (text : List Char) : (readNodeMarker text).Legible := by
  have lines : ∀ (lines : List (List Char)) (info : NodeInfo), info.Legible →
      (∀ line ∈ lines, '\n' ∉ line) → (lines.foldl readNodeLine info).Legible := by
    intro lines
    induction lines with
    | nil => exact fun info legible _ => legible
    | cons line rest ih =>
      intro info legible single
      apply ih _ (read_line_legible legible (single line List.mem_cons_self))
      exact fun other inside => single other (List.mem_cons_of_mem _ inside)
  apply lines _ _ ⟨by decide, by decide, by decide⟩
  exact split_single text

theorem NodeInfo.Survives.legible (survives : info.Survives) : info.Legible := by
  have read := read_marker_legible (writeNodeMarker info)
  rw [survives] at read
  exact read

end Figwal.Xwal
