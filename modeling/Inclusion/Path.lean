/-!
# Paths

A path is shown as the text it was built from. Where it leads is its `location`, a list of steps:
repeated separators, a trailing one and inner `.` steps do not count, a leading `.` and every `..`
do.

* `join_of_isAbsolute`, `join_empty_base`: when a base is ignored.
* `resolve_of_isEmpty`: a relative path of separators alone is the base itself.
-/
namespace Inclusion

/-- A path, as the text it was built from. -/
structure Path where
  text : String
deriving DecidableEq, Repr, Inhabited

namespace Path

/-- One step of a path. -/
inductive Step
  | root
  | here
  | up
  | name (name : String)
deriving DecidableEq, Repr

/-- The step that a piece between separators stands for; an empty piece and a `.` are no step. -/
def Step.ofPiece? (piece : List Char) : Option Step :=
  if piece = [] ∨ piece = ['.'] then none
  else if piece = ['.', '.'] then some .up
  else some (.name (String.ofList piece))

/-- Where a path leads, step by step. -/
def location (p : Path) : List Step :=
  match p.text.toList.splitOn '/' with
  | [] => []
  | first :: rest =>
    let steps := rest.filterMap Step.ofPiece?
    if first = [] then
      if rest = [] then [] else .root :: steps
    else if first = ['.'] then .here :: steps
    else (first :: rest).filterMap Step.ofPiece?

/-- Two paths that lead to the same place. -/
def Same (p q : Path) : Prop := p.location = q.location

instance (p q : Path) : Decidable (p.Same q) := inferInstanceAs (Decidable (_ = _))

/-- What stands between the separators. -/
def pieces (p : Path) : List String := (p.text.toList.splitOn '/').map String.ofList

def isAbsolute (text : String) : Bool := text.toList.head? == some '/'

/-- `text` seen from `base`: an absolute text stands for itself, and otherwise one separator comes
between the two unless the base is empty or ends with one. -/
def join (base : Path) (text : String) : Path :=
  if isAbsolute text then ⟨text⟩
  else if base.text = "" then ⟨text⟩
  else if base.text.toList.getLast? = some '/' then ⟨base.text ++ text⟩
  else ⟨base.text ++ "/" ++ text⟩

def isSeparator (c : Char) : Bool := c == '/' || c == '\\'

/-- `relative` below `base`, where leading separators of either slant are tolerated. -/
def resolve (base : Path) (relative : String) : Path :=
  let rest := relative.toList.dropWhile isSeparator
  if rest = [] then base else base.join (String.ofList rest)

theorem join_of_isAbsolute {text : String} (base : Path) (h : isAbsolute text = true) :
    base.join text = ⟨text⟩ := by
  simp [join, h]

theorem join_empty_base (text : String) : join ⟨""⟩ text = ⟨text⟩ := by
  simp [join]

theorem resolve_of_isEmpty (base : Path) {relative : String}
    (h : ∀ c ∈ relative.toList, isSeparator c = true) : base.resolve relative = base := by
  have hnil : relative.toList.dropWhile isSeparator = [] := by
    generalize relative.toList = cs at h
    induction cs with
    | nil => rfl
    | cons c cs ih =>
      rw [List.dropWhile_cons, if_pos (h c (by simp))]
      exact ih fun d hd => h d (by simp [hd])
  simp [resolve, hnil]

end Path

end Inclusion
