/-!
# The workspace manifest

The list of modules that a workspace can take in as source, and where its settings file is.
-/
namespace Inclusion

/-- A module of a manifest. Its directory is given from the base of the workspace. -/
structure Manifest.Module where
  name : String
  path : String
  group : String
deriving DecidableEq, Repr, Inhabited

structure Manifest where
  name : String
  /-- The directory of the settings file, from the base of the workspace. -/
  settingsPath : String := ""
  modules : List Manifest.Module := []
deriving DecidableEq, Repr, Inhabited

/-- The first module of a name. -/
def Manifest.module? (m : Manifest) (name : String) : Option Manifest.Module :=
  m.modules.find? fun u => u.name == name

end Inclusion
