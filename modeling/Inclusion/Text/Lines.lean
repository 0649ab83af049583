import Inclusion.Text.Blank

/-!
# Lines

A text is cut into lines at line feeds only, so a carriage return stays with its line and a final
line feed shows as a last empty line. A line is restated by keeping its indentation and its
carriage return around a new statement.

* `joinLines_splitLines`: joining the lines of a text gives the text back.
* `splitLines_joinLines`: cutting joined lines gives them back when none holds a line feed.
* `toList_restate`: the three parts of a restated line.
-/
namespace Inclusion.Text

/-- The lines of a text. -/
def splitLines (text : String) : List String := (text.toList.splitOn '\n').map String.ofList

/-- The text of a list of lines, without a line feed after the last one. -/
def joinLines (lines : List String) : String := "\n".intercalate lines

/-- The leading white space of a line. -/
def indentation (line : String) : String := String.ofList (blanks line.toList)

def endsWithReturn (line : String) : Bool := line.toList.getLast? == some '\r'

/-- What ends a line beside the line feed: a carriage return or nothing. -/
def ending (line : String) : String := if endsWithReturn line then "\r" else ""

/-- A line that says `statement` with the indentation and the ending of `line`. -/
def restate (line statement : String) : String := indentation line ++ statement ++ ending line

/-- What is put between texts stands in front of each but the first. -/
theorem intercalate_cons {α : Type} (sep cs : List α) (ls : List (List α)) :
    sep.intercalate (cs :: ls) = cs ++ ls.flatMap (sep ++ ·) := by
  induction ls generalizing cs with
  | nil => simp [List.intercalate]
  | cons l ls ih => simp [List.intercalate_cons_cons, ih]

theorem map_toList_map_ofList (ls : List (List Char)) :
    (ls.map String.ofList).map String.toList = ls := by
  simp [Function.comp_def]

theorem map_ofList_map_toList (ls : List String) :
    (ls.map String.toList).map String.ofList = ls := by
  simp [Function.comp_def]

theorem joinLines_splitLines (text : String) : joinLines (splitLines text) = text := by
  apply String.toList_inj.mp
  rw [joinLines, String.toList_intercalate, splitLines, map_toList_map_ofList]
  exact List.intercalate_splitOn '\n'

theorem splitLines_joinLines {lines : List String} (hne : lines ≠ [])
    (h : ∀ l ∈ lines, '\n' ∉ l.toList) : splitLines (joinLines lines) = lines := by
  rw [splitLines, joinLines, String.toList_intercalate]
  have hcut : (List.intercalate "\n".toList (lines.map String.toList)).splitOn '\n'
      = lines.map String.toList :=
    List.splitOn_intercalate '\n' (by simpa using h) (by simpa using hne)
  rw [hcut, map_ofList_map_toList]

theorem splitLines_ne_nil (text : String) : splitLines text ≠ [] := by
  simp [splitLines, List.splitOn_ne_nil]

theorem toList_restate (line statement : String) :
    (restate line statement).toList
      = blanks line.toList ++ statement.toList ++ (ending line).toList := by
  simp [restate, indentation]

end Inclusion.Text
