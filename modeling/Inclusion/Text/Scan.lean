import Inclusion.Text.Blank

/-!
# Scanning a line from the left

Character classes of names and the two steps that every line grammar here is made of: a fixed word
must come next, or one character may come next.

* `after?_eq_some_iff`: a word comes next exactly when the text is the word and the rest.
* `after?_append`: what was put behind a word is found there.
* `skipOne_cons_pos`, `skipOne_cons_neg`: an optional character is taken when it is there.
-/
namespace Inclusion.Text

/-- What follows a word that the text starts with. -/
def after? (word : String) (cs : List Char) : Option (List Char) := word.toList.isPrefixOf? cs

/-- The text without its first character if that passes the test. -/
def skipOne (p : Char → Bool) : List Char → List Char
  | [] => []
  | c :: cs => if p c then cs else c :: cs

def isQuote (c : Char) : Bool := c == '\'' || c == '"'

/-- Characters of a single-segment name: letters, digits, `_` and `-`, all ASCII. -/
def isNameChar (c : Char) : Bool := c.isAlphanum || c == '_' || c == '-'

/-- Characters of a group or a version: those of a name and the dot. -/
def isDottedChar (c : Char) : Bool := isNameChar c || c == '.'

/-- Characters of a project name, whose segments are separated by colons. -/
def isProjectChar (c : Char) : Bool := isNameChar c || c == ':'

/-- Characters of a directory as settings files give it. -/
def isDirectoryChar (c : Char) : Bool :=
  isNameChar c || c == ':' || c == '.' || c == '/' || c == '\\'

/-- Characters that would continue a keyword. Only blanks, brackets, quotes, colons, hyphens and
further keywords can follow one, so the ASCII word characters are all that matter. -/
def isWordChar (c : Char) : Bool := c.isAlphanum || c == '_'

/-- Whether a keyword ends here. -/
def atWordEnd (cs : List Char) : Bool := !(cs.head?.any isWordChar)

theorem isPrefixOf?_eq_some_iff {word cs rest : List Char} :
    word.isPrefixOf? cs = some rest ↔ cs = word ++ rest := by
  induction word generalizing cs with
  | nil => show some cs = some rest ↔ cs = rest; rw [Option.some.injEq]
  | cons w word ih =>
    cases cs with
    | nil => show none = some rest ↔ [] = w :: word ++ rest; simp
    | cons c cs =>
      show (if w == c then word.isPrefixOf? cs else none) = some rest ↔ c :: cs = w :: (word ++ rest)
      by_cases h : w = c
      · rw [if_pos (beq_iff_eq.mpr h), ih, List.cons.injEq, and_iff_right h.symm]
      · rw [if_neg (mt beq_iff_eq.mp h), List.cons.injEq]
        exact ⟨(nomatch ·), fun hc => absurd hc.1.symm h⟩

theorem after?_eq_some_iff {word : String} {cs rest : List Char} :
    after? word cs = some rest ↔ cs = word.toList ++ rest := isPrefixOf?_eq_some_iff

@[simp] theorem after?_append (word : String) (rest : List Char) :
    after? word (word.toList ++ rest) = some rest := after?_eq_some_iff.mpr rfl

theorem skipOne_cons_pos {p : Char → Bool} {c : Char} (h : p c = true) (cs : List Char) :
    skipOne p (c :: cs) = cs := if_pos h

theorem skipOne_cons_neg {p : Char → Bool} {c : Char} (h : ¬p c = true) (cs : List Char) :
    skipOne p (c :: cs) = c :: cs := if_neg h

end Inclusion.Text
