import Inclusion.Text.Scan

/-!
# Statements of a settings file

A settings file is read piece by piece, where commas and line ends separate pieces. A piece is
blank, a bare quoted project name, the opening of an include statement, the binding of a project to
a directory, or something else.

* `readProjectName?_colon`: a project name reads back behind the colon that is written before it.
-/
namespace Inclusion.Settings

open Text

/-! ### Written statements -/

/-- The statement that registers projects in the given order. -/
def includeStatement (names : List String) : String :=
  "include " ++ ", ".intercalate (names.map fun n => "':" ++ n ++ "'")

/-- The statement that binds a project to a directory. -/
def directoryStatement (name path : String) : String :=
  "project(':" ++ name ++ "').projectDir = new File('" ++ path ++ "')"

/-! ### Pieces -/

inductive Piece
  | blank
  /-- A quoted project name that continues an include statement. -/
  | bareName (name : String)
  /-- The first project of an include statement. -/
  | opening (name : String)
  /-- A project bound to a directory. -/
  | binding (name path : String)
  | other
deriving DecidableEq, Repr

/-- A run of project characters without the one colon that may lead it. A lone colon is a name. -/
def readProjectName? (cs : List Char) : Option (String × List Char) :=
  match cs.takeWhile isProjectChar, cs.dropWhile isProjectChar with
  | [], _ => none
  | [c], rest => some (String.singleton c, rest)
  | c :: name, rest => some (String.ofList (if c = ':' then name else c :: name), rest)

/-- One character that must come next and passes the test. -/
def readOne? (p : Char → Bool) : List Char → Option (List Char)
  | [] => none
  | c :: cs => if p c then some cs else none

/-- At most one closing bracket and nothing else. -/
def isClosed (cs : List Char) : Bool := cs.isEmpty || cs == [')']

def bareName? (cs : List Char) : Option Piece := do
  let cs ← readOne? isQuote cs
  let (name, cs) ← readProjectName? cs
  let cs ← readOne? isQuote cs
  guard (isClosed cs)
  return .bareName name

def opening? (cs : List Char) : Option Piece := do
  let cs ← after? "include" cs
  guard (atWordEnd cs)
  let (name, cs) ← readProjectName? (skipOne isQuote (skipOne (· == '(') (trimStart cs)))
  guard (isClosed (skipOne isQuote cs))
  return .opening name

/-- What follows the function that makes a directory of a text. -/
def afterMaker? (cs : List Char) : Option (List Char) :=
  match after? "new" cs with
  | some cs => after? "File" (trimStart cs)
  | none => after? "file" cs

def binding? (cs : List Char) : Option Piece := do
  let cs ← after? "project" cs
  let cs ← after? "(" (trimStart cs)
  let (name, cs) ← readProjectName? (skipOne isQuote cs)
  let cs ← after? ").projectDir" (skipOne isQuote cs)
  let cs ← after? "=" (trimStart cs)
  let cs ← afterMaker? (trimStart cs)
  let cs ← after? "(" (trimStart cs)
  let cs := skipOne isQuote cs
  let path := cs.takeWhile isDirectoryChar
  guard (!path.isEmpty)
  guard (skipOne isQuote (cs.dropWhile isDirectoryChar) == [')'])
  return .binding name (String.ofList path)

/-- What a piece is, without the blanks around it. -/
def Piece.ofChars (cs : List Char) : Piece :=
  let cs := trim cs
  if cs.isEmpty then .blank
  else (((bareName? cs).or (opening? cs)).or (binding? cs)).getD .other

def Piece.ofText (text : String) : Piece := .ofChars text.toList

theorem readProjectName?_colon {name : List Char} (hne : name ≠ [])
    (hname : name.all isProjectChar = true) {d : Char} (hd : ¬isProjectChar d = true)
    (rest : List Char) :
    readProjectName? (':' :: name ++ d :: rest) = some (String.ofList name, d :: rest) := by
  have htake : (name ++ d :: rest).takeWhile isProjectChar = name
      ∧ (name ++ d :: rest).dropWhile isProjectChar = d :: rest := by
    clear hne
    induction name with
    | nil => simp [hd]
    | cons c cs ih =>
      simp only [List.all_cons, Bool.and_eq_true] at hname
      simp [hname.1, ih hname.2]
  have hcolon : isProjectChar ':' = true := by decide
  unfold readProjectName?
  rw [List.cons_append, List.takeWhile_cons, List.dropWhile_cons, if_pos hcolon, if_pos hcolon,
    htake.1, htake.2]
  match name, hne with
  | c :: cs, _ => rfl

end Inclusion.Settings
