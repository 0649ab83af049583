import Inclusion.NameMap
import Inclusion.Store.Disk

/-!
# Views of a disk

A view holds the files that were looked at, each under the one name by which the disk knows it, so
that paths to the same file share it. What is written stays in the view, and is listed to be carried
out on the disk. A path that was not looked at leads nowhere.

* `read_of_not_looked`: nothing is read where nobody looked.
* `changes_write`: a write adds just its text to what is to be carried out.
-/
namespace Inclusion

/-- What was found under a name, and what keeps it from being written, if anything does. -/
structure Sighting where
  entry : Entry
  obstacle : Option String := none

structure View where
  /-- The name of what each path leads to, or why it leads to nothing. -/
  names : List (Path × Except FileFault String) := []
  found : NameMap Sighting := .empty
  /-- The texts to be carried out, in order, each with a path to its file. -/
  changes : List (Path × String) := []

namespace View

/-- Whether a path was looked at. -/
def knows (v : View) (path : Path) : Bool := (v.names.lookup path).isSome

/-- Takes up what a path leads to. -/
def see (v : View) (path : Path) (name : String) (sighting : Sighting) : View :=
  { v with names := (path, .ok name) :: v.names, found := v.found.insert name sighting }

/-- Takes up why a path leads to nothing. -/
def miss (v : View) (path : Path) (fault : FileFault) : View :=
  { v with names := (path, .error fault) :: v.names }

/-- The name of what a path leads to, with what was found there. -/
def find (v : View) (path : Path) : Except FileFault (String × Sighting) :=
  match v.names.lookup path with
  | none => .error .absent
  | some (.error fault) => .error fault
  | some (.ok name) =>
    match v.found.get? name with
    | none => .error .absent
    | some sighting => .ok (name, sighting)

/-- Sets a text, to be carried out. -/
def put (v : View) (path : Path) (name text : String) : View :=
  { v.see path name { entry := .file text.toUTF8 } with changes := v.changes ++ [(path, text)] }

instance : CreatingStore View where
  read v path :=
    match v.find path with
    | .error fault => .error (.ofFileFault path fault)
    | .ok (_, sighting) => sighting.entry.lines path
  write v path lines :=
    match v.find path with
    | .ok (name, { entry := .file _, obstacle := none }) =>
      .ok (v.put path name (Text.joinLines lines))
    | .ok (_, { entry := .file _, obstacle := some reason }) => .error (.unusable path reason)
    | _ => .error (.notFound path)
  holds v path := (v.find path).isOk
  create v path text := .ok (v.put path path.text text)

theorem read_of_not_looked {v : View} {path : Path} (h : v.knows path = false) :
    Store.read v path = .error (.notFound path) := by
  simp only [knows, Option.isSome_eq_false_iff, Option.isNone_iff_eq_none] at h
  simp [Store.read, find, h, Error.ofFileFault]

theorem changes_write {v w : View} {path : Path} {lines : List String}
    (h : Store.write v path lines = .ok w) :
    w.changes = v.changes ++ [(path, Text.joinLines lines)] := by
  simp only [Store.write] at h
  split at h <;> cases h
  rfl

end View

end Inclusion
