import Inclusion.Json.Reading

/-!
# File names

How the manifest, the build files and the settings file of a workspace are called. A configuration
may be kept as a JSON record; every field has a default.

* `Config.read_empty`: the empty record is the default configuration.
-/
namespace Inclusion

structure Config where
  /-- From the base of the workspace. -/
  manifestFile : String := "workspace.manifest"
  /-- Inside the directory of each module. -/
  buildFile : String := "build.gradle"
  /-- Inside the settings directory of the manifest. -/
  settingsFile : String := "settings.gradle"
deriving DecidableEq, Repr, Inhabited

namespace Config

open Json

/-- A configuration under construction. -/
structure Draft where
  manifestFile? : Option String := none
  buildFile? : Option String := none
  settingsFile? : Option String := none

def Draft.finish (d : Draft) : Config :=
  let default : Config := {}
  { manifestFile := d.manifestFile?.getD default.manifestFile,
    buildFile := d.buildFile?.getD default.buildFile,
    settingsFile := d.settingsFile?.getD default.settingsFile }

def fields : List (RecordField Draft) :=
  [ ⟨"manifestFile", (·.manifestFile?.isSome),
      into readString fun d s => { d with manifestFile? := some s }⟩,
    ⟨"buildFile", (·.buildFile?.isSome),
      into readString fun d s => { d with buildFile? := some s }⟩,
    ⟨"settingsFile", (·.settingsFile?.isSome),
      into readString fun d s => { d with settingsFile? := some s }⟩ ]

def read (text : String) : Except Fault Config :=
  readDocument (readRecord fields {} (some ∘ Draft.finish)) text

/-- A configuration on one line. -/
def compact (c : Config) : String :=
  compactRecord
    [ ("manifestFile", quote c.manifestFile),
      ("buildFile", quote c.buildFile),
      ("settingsFile", quote c.settingsFile) ]

theorem read_empty : read "\x7b\x7d" = .ok {} := rfl

end Config

end Inclusion
