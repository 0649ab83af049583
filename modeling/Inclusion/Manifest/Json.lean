import Inclusion.Error
import Inclusion.Json.Reading
import Inclusion.Manifest

/-!
# The text of a manifest

A manifest is a JSON record of `name`, `settingsPath` and `modules`; only the name is required.
A module is a record of `name`, `path` and `group`, all required. Other fields are ignored.
-/
namespace Inclusion.Manifest

open Json

/-- A module under construction. -/
structure ModuleDraft where
  name? : Option String := none
  path? : Option String := none
  group? : Option String := none

def ModuleDraft.finish? (d : ModuleDraft) : Option Module := do
  return { name := ← d.name?, path := ← d.path?, group := ← d.group? }

def moduleFields : List (RecordField ModuleDraft) :=
  [ ⟨"name", (·.name?.isSome), into readString fun d s => { d with name? := some s }⟩,
    ⟨"path", (·.path?.isSome), into readString fun d s => { d with path? := some s }⟩,
    ⟨"group", (·.group?.isSome), into readString fun d s => { d with group? := some s }⟩ ]

def readModule : Reader Module := readRecord moduleFields {} ModuleDraft.finish?

/-- A manifest under construction. -/
structure Draft where
  name? : Option String := none
  settingsPath? : Option String := none
  modules? : Option (List Module) := none

def Draft.finish? (d : Draft) : Option Manifest := do
  return { name := ← d.name?,
           settingsPath := d.settingsPath?.getD "", modules := d.modules?.getD [] }

def fields : List (RecordField Draft) :=
  [ ⟨"name", (·.name?.isSome), into readString fun d s => { d with name? := some s }⟩,
    ⟨"settingsPath", (·.settingsPath?.isSome),
      into readString fun d s => { d with settingsPath? := some s }⟩,
    ⟨"modules", (·.modules?.isSome),
      into (readList readModule) fun d ms => { d with modules? := some ms }⟩ ]

/-- The manifest that a text holds. -/
def read (text : String) : Except Fault Manifest :=
  readDocument (readRecord fields {} Draft.finish?) text

/-- The manifest that a text holds; a refusal names the path that the text was found at. -/
def ofText (text : String) (path : Path) : Except Error Manifest :=
  (read text).mapError (.badManifest path)

def prettyModule (indent : Nat) (u : Module) : String :=
  layoutRecord indent [("name", quote u.name), ("path", quote u.path), ("group", quote u.group)]

/-- A manifest over several lines, without a line feed at the end. -/
def pretty (m : Manifest) : String :=
  layoutRecord 0
    [ ("name", quote m.name),
      ("settingsPath", quote m.settingsPath),
      ("modules", layoutList 2 (m.modules.map (prettyModule 4))) ]

end Inclusion.Manifest
