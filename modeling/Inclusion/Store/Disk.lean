import Inclusion.Store
import Inclusion.Text.Lines

/-!
# Files in folders

A disk is a tree of folders and files seen from a working folder, with the rules by which a path is
followed: every step but the last has to be a folder, `.` stays, and `..` goes up. The folders above
the working folder have no known names; they and the root start out empty.

* `Entry.lines_folder`: a folder is no file to read.
* `found?_put`: a file that was put is there.
-/
namespace Inclusion

/-- What is found in a folder. -/
inductive Entry
  | folder
  | file (bytes : ByteArray)

namespace Entry

/-- The greatest number of bytes of a file that is read. -/
def sizeLimit : Nat := 8000000

def tooLarge (size : Nat) : String :=
  "file too large: " ++ toString size ++ " bytes (max: " ++ toString sizeLimit ++ " bytes)"

def notText : String := "stream did not contain valid UTF-8"

/-- The lines of an entry that was found at a path. -/
def lines (path : Path) : Entry → Except Error (List String)
  | folder => .error (.notFound path)
  | file bytes =>
    if sizeLimit < bytes.size then .error (.unusable path (tooLarge bytes.size))
    else
      match String.fromUTF8? bytes with
      | none => .error (.unusable path notText)
      | some text => .ok (Text.splitLines text)

theorem lines_folder (path : Path) : folder.lines path = .error (.notFound path) := rfl

end Entry

/-- The folder that a list of names starts from. -/
inductive Anchor
  /-- The folder that many levels above the working folder. -/
  | above (levels : Nat)
  | root
deriving DecidableEq, Repr

/-- A place on a disk: an anchor and the names that lead down from it. -/
structure Place where
  anchor : Anchor := .above 0
  names : List String := []
deriving DecidableEq, Repr

namespace Place

/-- One level up. The root is its own parent. -/
def parent (place : Place) : Place :=
  match place with
  | ⟨.above levels, []⟩ => ⟨.above (levels + 1), []⟩
  | ⟨anchor, names⟩ => ⟨anchor, names.dropLast⟩

/-- Where a piece of a path leads from a folder. -/
def step (place : Place) (piece : String) : Place :=
  if piece = "" ∨ piece = "." then place
  else if piece = ".." then place.parent
  else { place with names := place.names ++ [piece] }

/-- Where a path starts. -/
def start (path : Path) : Place := if Path.isAbsolute path.text then { anchor := .root } else {}

/-- Where a path leads if all folders on the way are there. -/
def ofPath (path : Path) : Place := path.pieces.foldl step (start path)

/-- Whether a place is another one or lies below it. -/
def isWithin (place above : Place) : Bool :=
  place.anchor == above.anchor && above.names.isPrefixOf place.names

end Place

/-- Folders and files, each at its place. -/
structure Disk where
  entries : List (Place × Entry)

namespace Disk

def notFolder : String := "Not a directory (os error 20)"

def isFolder : String := "Is a directory (os error 21)"

def nameTooLong : String := "File name too long (os error 36)"

def holdsNull : String := "file name contained an unexpected NUL byte"

def empty : Disk := ⟨[]⟩

/-- What is at a place. -/
def found? (d : Disk) (place : Place) : Option Entry :=
  if place.names = [] then some .folder else d.entries.lookup place

/-- One piece further from a folder. -/
def next (place : Place) (piece : String) : Except FileFault Place :=
  if 255 < piece.utf8ByteSize then .error (.refused nameTooLong) else .ok (place.step piece)

/-- Follows the pieces of a path. The place reached need not hold anything. -/
def follow (d : Disk) (place : Place) : List String → Except FileFault Place
  | [] => .ok place
  | piece :: pieces =>
    match d.found? place with
    | none => .error .absent
    | some (.file _) => .error (.refused notFolder)
    | some .folder =>
      match next place piece with
      | .error fault => .error fault
      | .ok place => d.follow place pieces

/-- What keeps a path from leading anywhere, whatever is on the disk. -/
def fault? (path : Path) : Option FileFault :=
  if '\x00' ∈ path.text.toList then some (.refused holdsNull)
  else if path.text = "" then some .absent
  else if 4096 ≤ path.text.utf8ByteSize then some (.refused nameTooLong)
  else none

/-- What a path leads to. -/
def find (d : Disk) (path : Path) : Except FileFault (Place × Entry) :=
  match fault? path with
  | some fault => .error fault
  | none =>
    match d.follow (.start path) path.pieces with
    | .error fault => .error fault
    | .ok place =>
      match d.found? place with
      | none => .error .absent
      | some entry => .ok (place, entry)

/-- Sets what is at a place. -/
def put (d : Disk) (place : Place) (entry : Entry) : Disk :=
  ⟨d.entries.filter (·.1 != place) ++ [(place, entry)]⟩

/-- Removes what is at the end of a path, with everything below it. -/
def drop (d : Disk) (path : Path) : Disk :=
  ⟨d.entries.filter fun e => !e.1.isWithin (.ofPath path)⟩

/-- Makes the folders that pieces lead through from a place where they are missing, and tells where
the pieces lead. -/
def makeFolders (d : Disk) (place : Place) : List String → Disk × Place
  | [] => (d, place)
  | piece :: pieces =>
    let place := place.step piece
    (if (d.found? place).isSome then d else d.put place .folder).makeFolders place pieces

/-- Makes a folder and all folders on the way to it. -/
def makeFolder (d : Disk) (path : Path) : Disk := (d.makeFolders (.start path) path.pieces).1

/-- Makes a file and all folders on the way to it. -/
def makeFile (d : Disk) (path : Path) (bytes : ByteArray) : Disk :=
  (d.makeFolders (.start path) path.pieces.dropLast).1.put (.ofPath path) (.file bytes)

/-- The files below the working folder, each by its names. -/
def files (d : Disk) : List (List String × ByteArray) :=
  d.entries.filterMap fun e =>
    match e with
    | (⟨.above 0, names⟩, .file bytes) => some (names, bytes)
    | _ => none

/-- Where a new file at a path would be made. Its folder has to exist. -/
def placeOfNew (d : Disk) (path : Path) : Except FileFault Place :=
  match fault? path with
  | some fault => .error fault
  | none =>
    let slashes := path.pieces.reverse.takeWhile (· == "")
    match path.pieces.reverse.dropWhile (· == "") with
    | [] => .error (.refused isFolder)
    | name :: above =>
      match d.follow (.start path) (above.reverse ++ [""]) with
      | .error fault => .error fault
      | .ok place => if slashes ≠ [] then .error (.refused isFolder) else next place name

instance : CreatingStore Disk where
  read d path :=
    match d.find path with
    | .error fault => .error (.ofFileFault path fault)
    | .ok (_, entry) => entry.lines path
  write d path lines :=
    match d.find path with
    | .ok (place, .file _) => .ok (d.put place (.file (Text.joinLines lines).toUTF8))
    | _ => .error (.notFound path)
  holds d path := (d.find path).isOk
  create d path text :=
    match d.placeOfNew path with
    | .error fault => .error (.ofFileFault path fault)
    | .ok place =>
      match d.found? place with
      | some .folder => .error (.unusable path isFolder)
      | _ => .ok (d.put place (.file text.toUTF8))

theorem found?_put {place : Place} (h : place.names ≠ []) (d : Disk) (entry : Entry) :
    (d.put place entry).found? place = some entry := by
  have hnone : (d.entries.filter (·.1 != place)).lookup place = none :=
    List.lookup_eq_none_iff.mpr fun e he => by
      have := (List.mem_filter.mp he).2
      simp only [bne_iff_ne, ne_eq] at this ⊢
      exact fun heq => this heq.symm
  simp [found?, put, h, List.lookup_append, hnone]

end Disk

end Inclusion
