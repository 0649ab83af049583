import Inclusion.Store
import Inclusion.Text.Lines

/-!
# Files in memory

A shelf holds a text, or nothing, at every location; paths to the same location are the same file.
Two shelves with the same texts are equal.

* `text?_put`, `text?_drop`: the text at a location after a change.
* `read_of_text?`, `read_of_text?_eq_none`: what is read is what is there.
* `write_eq_ok_iff`: a write succeeds exactly on a file that is there, and changes just that file.
* `read_write`: written lines read back.
-/
namespace Inclusion

structure Shelf where
  textAt : List Path.Step → Option String

namespace Shelf

def empty : Shelf := ⟨fun _ => none⟩

instance : Inhabited Shelf := ⟨empty⟩

/-- The text of a file. -/
def text? (s : Shelf) (path : Path) : Option String := s.textAt path.location

/-- Sets what is at the location of a path. -/
def set (s : Shelf) (path : Path) (text : Option String) : Shelf :=
  ⟨fun l => if l = path.location then text else s.textAt l⟩

def put (s : Shelf) (path : Path) (text : String) : Shelf := s.set path (some text)

def drop (s : Shelf) (path : Path) : Shelf := s.set path none

instance : Store Shelf where
  read s path :=
    match s.text? path with
    | some text => .ok (Text.splitLines text)
    | none => .error (.notFound path)
  write s path lines :=
    match s.text? path with
    | some _ => .ok (s.put path (Text.joinLines lines))
    | none => .error (.notFound path)

theorem text?_set (s : Shelf) (path : Path) (text : Option String) (q : Path) :
    (s.set path text).text? q = if q.Same path then text else s.text? q := rfl

theorem text?_put (s : Shelf) (path : Path) (text : String) (q : Path) :
    (s.put path text).text? q = if q.Same path then some text else s.text? q := rfl

theorem text?_drop (s : Shelf) (path q : Path) :
    (s.drop path).text? q = if q.Same path then none else s.text? q := rfl

theorem ext {s t : Shelf} (h : ∀ l, s.textAt l = t.textAt l) : s = t :=
  congrArg Shelf.mk (funext h)

theorem read_eq_ok_iff {s : Shelf} {path : Path} {lines : List String} :
    Store.read s path = .ok lines
      ↔ ∃ text, s.text? path = some text ∧ Text.splitLines text = lines := by
  cases h : s.text? path <;> simp [Store.read, h]

theorem write_eq_ok_iff {s t : Shelf} {path : Path} {lines : List String} :
    Store.write s path lines = .ok t
      ↔ (s.text? path).isSome ∧ t = s.put path (Text.joinLines lines) := by
  cases h : s.text? path <;> simp [Store.write, h, eq_comm]

theorem read_of_text? {s : Shelf} {path : Path} {text : String} (h : s.text? path = some text) :
    Store.read s path = .ok (Text.splitLines text) := read_eq_ok_iff.mpr ⟨text, h, rfl⟩

theorem read_of_text?_eq_none {s : Shelf} {path : Path} (h : s.text? path = none) :
    Store.read s path = .error (.notFound path) := by
  simp [Store.read, h]

theorem write_of_text? {s : Shelf} {path : Path} {text : String} (h : s.text? path = some text)
    (lines : List String) :
    Store.write s path lines = .ok (s.put path (Text.joinLines lines)) :=
  write_eq_ok_iff.mpr ⟨Option.isSome_of_eq_some h, rfl⟩

theorem read_write {s t : Shelf} {path : Path} {lines : List String} (hne : lines ≠ [])
    (hlines : ∀ l ∈ lines, '\n' ∉ l.toList) (h : Store.write s path lines = .ok t) :
    Store.read t path = .ok lines := by
  obtain ⟨_, rfl⟩ := write_eq_ok_iff.mp h
  rw [read_eq_ok_iff]
  exact ⟨_, if_pos (rfl : path.location = path.location), Text.splitLines_joinLines hne hlines⟩

end Shelf

end Inclusion
