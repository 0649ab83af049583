import Inclusion.Config
import Inclusion.Manifest.File
import Inclusion.Node
import Inclusion.SettingsFile

/-!
# Workspaces

A workspace holds everything that is known of a manifest and a settings file: the nodes of all
manifest modules and settings projects, which modules are included, and which nodes no other one
depends on. A node is part of the workspace if it is a settings project or an included module.

* `inside_iff`: which nodes are part of a workspace.
-/
namespace Inclusion

structure Workspace where
  base : Path
  config : Config
  manifest : Manifest
  settings : SettingsFile
  /-- All nodes under their names. -/
  nodes : NameMap Node := .empty
  /-- The modules of the manifest under their names. -/
  modules : NameMap Manifest.Module := .empty
  /-- The manifest modules that the settings file registers. -/
  included : NameSet := .empty
  /-- The nodes that no other node declares, in ascending order. -/
  roots : List String := []
deriving DecidableEq

namespace Workspace

def manifestPath (base : Path) (config : Config) : Path := base.join config.manifestFile

def settingsPath (base : Path) (config : Config) (manifest : Manifest) : Path :=
  (base.resolve manifest.settingsPath).join config.settingsFile

/-- A workspace of which nothing has been read yet. -/
def blank (base : Path) (config : Config) (manifest : Manifest) : Workspace :=
  { base, config, manifest, settings := { path := settingsPath base config manifest } }

def policy (w : Workspace) : Policy := { modules := w.modules, included := w.included }

/-- The files that a workspace is read from, next to its manifest. -/
def files (w : Workspace) : List Path := w.settings.path :: w.nodes.values.map (·.file.path)

/-- Whether a name is that of a node that is part of the workspace. -/
def inside (w : Workspace) (name : String) : Bool :=
  match w.nodes.get? name with
  | none => false
  | some n => n.origin.isInternal || w.included.contains name

/-- The edges out of a node, none if there is no such node. -/
def edgesOf (w : Workspace) (name : String) : List String :=
  match w.nodes.get? name with
  | none => []
  | some n => n.edges

theorem inside_iff {w : Workspace} {name : String} :
    w.inside name = true ↔
      ∃ n, w.nodes.get? name = some n
        ∧ (n.origin = .internal ∨ w.included.contains name = true) := by
  unfold inside
  cases h : w.nodes.get? name with
  | none => simp
  | some n => cases ho : n.origin <;> simp [Origin.isInternal, ho]

end Workspace

end Inclusion
