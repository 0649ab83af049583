import Inclusion.Dependency
import Inclusion.Text.Scan

/-!
# Reading a declaration

A line declares a dependency if, without the blanks around it, it is a verb, at most one blank, at
most one `project`, at most one blank, at most one bracket, a quote, the coordinates, a quote of
either kind and at most one bracket. Comments, blocks and everything else declare nothing.

The coordinates are a dotted word, a plain word and a version with colons between them. Each word is
as long as it can be; nothing is ever given back, so a line has one reading.

* `Coordinates.ofBody?_toBody`: coordinates that fill all three places read back.
* `Declaration.of_read?`: what a declaration was read from.
-/
namespace Inclusion

open Text

/-- What stands between the quotes of a declaration; an empty part is one that is missing. -/
structure Coordinates where
  first : List Char
  second : List Char
  version : List Char
deriving DecidableEq

namespace Coordinates

def isColon (c : Char) : Bool := c == ':'

/-- A version is a dotted word, or a reference to a variable written with a dollar sign. -/
def isVersion (cs : List Char) : Bool :=
  let word := skipOne (· == '$') cs
  !word.isEmpty && word.all isDottedChar

/-- The coordinates in a quoted body. The colons in front and between the parts may be missing. -/
def ofBody? (body : List Char) : Option Coordinates :=
  let body := skipOne isColon body
  let rest := skipOne isColon (body.dropWhile isDottedChar)
  let version := skipOne isColon (rest.dropWhile isNameChar)
  if version.isEmpty || isVersion version then
    some ⟨body.takeWhile isDottedChar, rest.takeWhile isNameChar, version⟩
  else none

/-- All three parts with a colon between neighbours. -/
def toBody (c : Coordinates) : List Char := c.first ++ ':' :: c.second ++ ':' :: c.version

end Coordinates

/-- A declaration in its parts. -/
structure Declaration where
  verb : Verb
  project : Bool
  quote : Quote
  coordinates : Coordinates

namespace Declaration

/-- The verb that a text starts with, and what follows it. -/
def readVerb? (cs : List Char) : Option (Verb × List Char) :=
  Verb.all.findSome? fun v => (after? v.text cs).map (v, ·)

/-- Whether `project` comes next, and what follows. -/
def readProject (cs : List Char) : Bool × List Char :=
  match after? "project" cs with
  | some rest => (true, rest)
  | none => (false, cs)

def readQuote? : List Char → Option (Quote × List Char)
  | [] => none
  | c :: cs => (Quote.ofChar? c).map (·, cs)

/-- The body up to the next quote, which only a bracket may follow. -/
def readBody? (cs : List Char) : Option (List Char) :=
  match cs.dropWhile (!isQuote ·) with
  | [] => none
  | _ :: tail =>
    if tail = [] ∨ tail = [')'] then some (cs.takeWhile (!isQuote ·)) else none

/-- The declaration that a trimmed line is. -/
def read? (cs : List Char) : Option Declaration := do
  let (verb, cs) ← readVerb? cs
  guard (atWordEnd cs)
  let (project, cs) := readProject (skipOne (· == ' ') cs)
  let (quote, cs) ← readQuote? (skipOne (· == '(') (skipOne (· == ' ') cs))
  let coordinates ← Coordinates.ofBody? (← readBody? cs)
  return { verb, project, quote, coordinates }

/-- A part that may be missing. -/
def present? (cs : List Char) : Option String :=
  if cs = [] then none else some (String.ofList cs)

/-- The name of a project: both words are segments of its path. -/
def projectName? (c : Coordinates) : Option String :=
  match present? c.first, present? c.second with
  | some first, some second => some (first ++ ":" ++ second)
  | first, second => first.or second

/-- The dependency that is declared. A project has a name alone; an artifact needs its second
word. -/
def dependency? (d : Declaration) : Option Dependency :=
  if d.project then
    (projectName? d.coordinates).map fun name =>
      { name, verb := d.verb, quote := d.quote, source := true }
  else
    (present? d.coordinates.second).map fun name =>
      { name, verb := d.verb, quote := d.quote, source := false,
        group := present? d.coordinates.first, version := present? d.coordinates.version }

end Declaration

/-- The dependency that a line of a build file declares. -/
def Dependency.ofLine? (line : String) : Option Dependency :=
  (Declaration.read? (trim line.toList)).bind Declaration.dependency?

namespace Coordinates

theorem takeWhile_append_cons {p : Char → Bool} {cs : List Char} (h : cs.all p = true) {d : Char}
    (hd : ¬p d = true) (rest : List Char) :
    (cs ++ d :: rest).takeWhile p = cs ∧ (cs ++ d :: rest).dropWhile p = d :: rest := by
  induction cs with
  | nil => simp [hd]
  | cons c cs ih =>
    simp only [List.all_cons, Bool.and_eq_true] at h
    simp [h.1, ih h.2]

theorem ofBody?_toBody {c : Coordinates} (hne : c.first ≠ [])
    (hfirst : c.first.all isDottedChar = true) (hsecond : c.second.all isNameChar = true)
    (hversion : c.version = [] ∨ isVersion c.version = true) :
    ofBody? c.toBody = some c := by
  have hskip : skipOne isColon c.toBody = c.toBody := by
    match hc : c.first, hne with
    | f :: fs, _ =>
      have hf : isDottedChar f = true := by
        rw [hc] at hfirst
        exact (Bool.and_eq_true _ _ ▸ hfirst).1
      have : isColon f = false := by
        rw [isColon, beq_eq_false_iff_ne]
        rintro rfl
        exact absurd hf (by decide)
      simp [toBody, hc, skipOne, this]
  have h₁ := takeWhile_append_cons hfirst (d := ':') (by decide) (c.second ++ ':' :: c.version)
  have h₂ := takeWhile_append_cons hsecond (d := ':') (by decide) c.version
  have hcolon : ∀ cs, skipOne isColon (':' :: cs) = cs := fun cs => skipOne_cons_pos rfl cs
  have hb : c.toBody = c.first ++ ':' :: (c.second ++ ':' :: c.version) := by
    simp [toBody]
  have hv : (c.version.isEmpty || isVersion c.version) = true := by
    rcases hversion with h | h <;> simp [h]
  unfold ofBody?
  simp only [hskip]
  rw [hb, h₁.1, h₁.2, hcolon, h₂.1, h₂.2, hcolon, if_pos hv]

end Coordinates

/-- A declaration that is read starts with its verb, and some body has its coordinates. -/
theorem Declaration.of_read? {cs : List Char} {d : Declaration} (h : read? cs = some d) :
    (∃ rest, readVerb? cs = some (d.verb, rest))
      ∧ ∃ body, Coordinates.ofBody? body = some d.coordinates := by
  unfold read? at h
  obtain ⟨⟨verb, rest⟩, hverb, h⟩ := Option.bind_eq_some_iff.mp h
  obtain ⟨_, -, h⟩ := Option.bind_eq_some_iff.mp h
  obtain ⟨_, -, h⟩ := Option.bind_eq_some_iff.mp h
  obtain ⟨body, -, h⟩ := Option.bind_eq_some_iff.mp h
  obtain ⟨coordinates, hbody, h⟩ := Option.bind_eq_some_iff.mp h
  cases h
  exact ⟨⟨rest, hverb⟩, body, hbody⟩

end Inclusion
