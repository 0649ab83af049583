import Inclusion.Json
import Inclusion.Path

/-!
# Errors

What can go wrong, by cause, and the words for it. Errors about files are recorded where they occur
and do not stop work on several modules; the others are refusals.

* `isFileError_ofFileFault`: what keeps a file from being used is an error about files.
-/
namespace Inclusion

inductive Error
  /-- There is no such file. -/
  | notFound (path : Path)
  /-- The file cannot be used, for the given reason. -/
  | unusable (path : Path) (reason : String)
  /-- A dependency was to be updated from one of another name. -/
  | nameMismatch (expected found : String)
  /-- A node was to be updated from one of another kind. -/
  | kindMismatch (name expected found : String)
  /-- A bare project name stands where no include statement is open. -/
  | strayContinuation (line : String)
  /-- The manifest lists no such module. -/
  | moduleNotFound (name : String)
  /-- The manifest cannot be read. -/
  | badManifest (path : Path) (fault : Json.Fault)
  /-- A manifest was to be created where something exists. -/
  | manifestExists (path : Path)
deriving DecidableEq, Repr

namespace Error

/-- An error in words, up to the detail that only a bad manifest has. -/
def headline : Error → String
  | notFound path => "Unable to find file '" ++ path.text ++ "'"
  | unusable path reason => "I/O error on '" ++ path.text ++ "': " ++ reason
  | nameMismatch expected found =>
    "Dependency '" ++ expected ++ "' cannot be updated from dependency '" ++ found ++ "'"
  | kindMismatch name expected found =>
    "Library '" ++ name ++ "' is " ++ expected ++ " and cannot be updated from " ++ found
      ++ " library"
  | strayContinuation line => "Unexpected include continuation: " ++ line
  | moduleNotFound name => "Module '" ++ name ++ "' is not part of the workspace manifest"
  | badManifest path _ => "Failed to parse workspace manifest '" ++ path.text ++ "': "
  | manifestExists path => "Workspace manifest '" ++ path.text ++ "' already exists"

def detail : Error → String
  | badManifest _ fault => fault.message
  | _ => ""

def message (e : Error) : String := e.headline ++ e.detail

/-- Errors that are recorded on a node or a file and do not stop the work on others. -/
def isFileError : Error → Bool
  | notFound _ | unusable _ _ => true
  | _ => false

end Error

/-- What keeps a file from being used. -/
inductive FileFault
  | absent
  | refused (reason : String)
deriving DecidableEq, Repr

def Error.ofFileFault (path : Path) : FileFault → Error
  | .absent => .notFound path
  | .refused reason => .unusable path reason

theorem Error.isFileError_ofFileFault (path : Path) (fault : FileFault) :
    (Error.ofFileFault path fault).isFileError = true := by
  cases fault <;> rfl

end Inclusion
