import Inclusion.Error
import Inclusion.Manifest
import Inclusion.NameMap

/-!
# Dependencies

A dependency as a build file declares it: on the source of a project of the workspace, or on a
remote artifact. Its name is its identity; a newer observation of the same name is merged into it.

* `Verb.ofText?_text`, `Quote.ofChar?_char`: what is written reads back.
* `Dependency.merge_name`, `Dependency.merge_eq_error_iff`: merging keeps the name, and fails
  exactly on another name.
-/
namespace Inclusion

/-- The configuration that a dependency is declared for. -/
inductive Verb
  | compile
  | api
  | implementation
deriving DecidableEq, Repr, Inhabited

namespace Verb

def all : List Verb := [compile, api, implementation]

def text : Verb → String
  | compile => "compile"
  | api => "api"
  | implementation => "implementation"

def ofText? (text : String) : Option Verb := all.find? fun v => v.text == text

theorem ofText?_text (v : Verb) : ofText? v.text = some v := by cases v <;> decide

end Verb

/-- The quote that a declaration opens its coordinates with. -/
inductive Quote
  | single
  | double
deriving DecidableEq, Repr, Inhabited

namespace Quote

def char : Quote → Char
  | single => '\''
  | double => '"'

def text (q : Quote) : String := String.singleton q.char

def ofChar? (c : Char) : Option Quote :=
  if c = '\'' then some single else if c = '"' then some double else none

theorem ofChar?_char (q : Quote) : ofChar? q.char = some q := by cases q <;> decide

end Quote

/-- A dependency that a build file declares. -/
structure Dependency where
  /-- The name of the artifact, or the path of the project with a colon between segments. -/
  name : String
  group : Option String := none
  verb : Verb
  quote : Quote
  /-- Whether it is a dependency on source. -/
  source : Bool
  /-- A literal version or a reference to a variable, as it was written. -/
  version : Option String := none
deriving DecidableEq, Repr, Inhabited

/-- Dependencies under their names. -/
abbrev Dependencies := NameMap Dependency

namespace Dependency

/-- The version of a remote declaration that has none of its own. -/
def unknownVersion : String := "UNKNOWN"

/-- Merges a newer observation: verb, quote and form are the newer ones; group and version are
replaced only by known ones. -/
def merge (d newer : Dependency) : Except Error Dependency :=
  if newer.name = d.name then
    .ok { newer with group := newer.group.or d.group, version := newer.version.or d.version }
  else .error (.nameMismatch d.name newer.name)

/-- The declaration of a dependency under the given coordinates. A source declaration is always
bracketed and double-quoted. -/
def declare (d : Dependency) (group name : String) : String :=
  if d.source then d.verb.text ++ " project(\":" ++ name ++ "\")"
  else
    d.verb.text ++ " " ++ d.quote.text ++ group ++ ":" ++ name ++ ":"
      ++ d.version.getD unknownVersion ++ d.quote.text

/-- The declaration of a dependency, without indentation. -/
def declaration (d : Dependency) : String := d.declare (d.group.getD "") d.name

/-- The declaration with the coordinates of a manifest module. -/
def declarationFor (d : Dependency) (u : Manifest.Module) : String := d.declare u.group u.name

theorem merge_name {d newer merged : Dependency} (h : d.merge newer = .ok merged) :
    merged.name = d.name := by
  unfold merge at h
  split at h
  next hname => cases h; exact hname
  next => cases h

theorem merge_eq_error_iff {d newer : Dependency} :
    (∃ e, d.merge newer = .error e) ↔ newer.name ≠ d.name := by
  unfold merge
  split
  next h => simp [h]
  next h => simp [h]

end Dependency

end Inclusion
