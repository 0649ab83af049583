import Inclusion.Workspace.Compliance
import Inclusion.Workspace.Graph

/-!
# Updating a workspace

An update reads settings and build files anew, brings the nodes in line with them and enforces the
policy. With `keep`, nodes that are still there take over their new reading; without it, all nodes
are made anew. Failures are kept where they occur and stop nothing.

* `contains_included_register`: the included modules are those that the settings file registers.
* `reload_eq_error_iff`: a reload fails exactly if the manifest does not load.
-/
namespace Inclusion.Workspace

variable {σ : Type} [Store σ]

/-- The node that stands for `fresh`, given the node known by its name and whether it is kept. -/
def renew (known? : Option Node) (fresh : Node) : Node :=
  match known? with
  | none => fresh
  | some known =>
    match known.supersede fresh with
    | .ok n => n
    | .error _ => known

/-- Takes a manifest module among the nodes. A settings project of its name gives way. -/
def takeModule (w : Workspace) (store : σ) (keep : Bool) (nodes : NameMap Node)
    (u : Manifest.Module) : NameMap Node :=
  let fresh := ((Node.external u w.base w.config.buildFile).refresh store false).2
  let known? := (nodes.get? u.name).filter fun n => keep && !n.origin.isInternal
  nodes.insert u.name (renew known? fresh)

/-- Takes a settings project among the nodes. -/
def takeProject (w : Workspace) (store : σ) (keep : Bool) (nodes : NameMap Node)
    (project : String) : NameMap Node :=
  let fresh := ((Node.internal project w.base w.config.buildFile).refresh store false).2
  let known? := (nodes.get? project).filter fun _ => keep
  nodes.insert project (renew known? fresh)

/-- Forgets nodes and modules, as before a full update. -/
def forget (w : Workspace) : Workspace :=
  { w with nodes := .empty, modules := .empty, roots := [] }

/-- Brings the nodes in line with the manifest and the snapshot of the settings. Modules that left
the manifest and projects that left the settings file are dropped. -/
def gather (w : Workspace) (store : σ) (keep : Bool) : Workspace :=
  let listed := NameMap.ofList (w.manifest.modules.map fun u => (u.name, u))
  let taken := w.manifest.modules.foldl (w.takeModule store keep) w.nodes
  let left := taken.filter fun name _ => listed.contains name || !w.modules.contains name
  let projects := w.settings.snapshot.internal
  let current := left.filter fun name n => !n.origin.isInternal || projects.contains name
  let own := projects.filter fun project => !listed.contains project
  { w with modules := listed, nodes := own.foldl (w.takeProject store keep) current }

/-- Finds the included modules: those of the manifest that the settings file registers. -/
def register (w : Workspace) : Workspace :=
  { w with
    included := .ofNames (w.settings.snapshot.all.filter fun name => w.modules.contains name) }

/-- Reads all files but the manifest anew. -/
def survey (w : Workspace) (store : σ) (keep : Bool) : Workspace :=
  let w := if keep then w else w.forget
  let w := { w with settings := (w.settings.refresh store).2 }
  (w.gather store keep).relink.register

/-- Reads all files but the manifest anew and enforces the policy. -/
def update (w : Workspace) (store : σ) (keep : Bool) : Workspace × σ :=
  (w.survey store keep).comply store

/-- Takes a newer manifest. The settings file is another one only if its path leads elsewhere. -/
def adopt (w : Workspace) (manifest : Manifest) : Workspace :=
  let path := settingsPath w.base w.config manifest
  let settings : SettingsFile := if path.Same w.settings.path then w.settings else { path }
  { w with manifest, settings }

/-- Takes a newer manifest and updates. -/
def replaceManifest (w : Workspace) (store : σ) (manifest : Manifest) (keep : Bool) :
    Workspace × σ :=
  (w.adopt manifest).update store keep

/-- Loads the manifest again and updates. If it does not load, the workspace stays as it is. -/
def reload (w : Workspace) (store : σ) (keep : Bool) : Except Error (Workspace × σ) :=
  match Manifest.load store (manifestPath w.base w.config) with
  | .error e => .error e
  | .ok manifest => .ok (w.replaceManifest store manifest keep)

/-- One round of watching: a reload whose failure leaves everything as it is. -/
def tick (w : Workspace) (store : σ) : Workspace × σ :=
  match w.reload store true with
  | .error _ => (w, store)
  | .ok r => r

/-- The workspace of a manifest, with its policy enforced. -/
def ofManifest (store : σ) (base : Path) (config : Config) (manifest : Manifest) :
    Workspace × σ :=
  (blank base config manifest).update store false

/-- Loads the manifest below `base` and enforces the policy. -/
def load (store : σ) (base : Path) (config : Config) : Except Error (Workspace × σ) :=
  match Manifest.load store (manifestPath base config) with
  | .error e => .error e
  | .ok manifest => .ok (ofManifest store base config manifest)

/-- Loads the manifest below `base` and changes no file. -/
def inspect (store : σ) (base : Path) (config : Config) : Except Error Workspace :=
  match Manifest.load store (manifestPath base config) with
  | .error e => .error e
  | .ok manifest => .ok ((blank base config manifest).survey store false)

theorem contains_included_register (w : Workspace) (name : String) :
    w.register.included.contains name
      = (decide (name ∈ w.settings.snapshot.all) && w.modules.contains name) := by
  rw [register, NameSet.contains_ofNames]
  simp [List.mem_filter]

theorem reload_eq_error_iff {w : Workspace} {store : σ} {keep : Bool} {e : Error} :
    w.reload store keep = .error e
      ↔ Manifest.load store (manifestPath w.base w.config) = .error e := by
  unfold reload
  split
  next h => rw [h]; simp
  next h => rw [h]; simp

end Inclusion.Workspace
