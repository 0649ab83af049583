import Inclusion.BuildFile

/-!
# Nodes

A node is a module or project of a workspace with its build file and the dependencies declared
there: all of them, those on source and those on remote artifacts. The last two are always parted
anew together. The policy of a workspace says in which form dependencies on manifest modules are to
be declared.

* `get?_source_repartition`, `get?_remote_repartition`: the two parts.
* `contains_of_observe`: an observation makes just its name known.
* `enforce_name`, `enforce_origin`, `enforce_edges`, `contains_all_enforce`: what enforcing a policy
  leaves alone.
-/
namespace Inclusion

/-- Where a node comes from. -/
inductive Origin
  /-- A project that the settings file includes. -/
  | internal
  /-- A module of the manifest. -/
  | external (entry : Manifest.Module)
deriving DecidableEq, Repr

namespace Origin

def label : Origin → String
  | internal => "internal"
  | external _ => "external"

def isInternal : Origin → Bool
  | internal => true
  | external _ => false

end Origin

/-- Which modules there are, and which of them are part of the workspace. -/
structure Policy where
  modules : NameMap Manifest.Module
  included : NameSet

structure Node where
  name : String
  path : String
  group : String
  origin : Origin
  file : BuildFile
  all : Dependencies := .empty
  source : Dependencies := .empty
  remote : Dependencies := .empty
  /-- The names of the other nodes that this one declares, as of the last look at all of them. -/
  edges : List String := []
deriving DecidableEq

namespace Node

/-- The build file of a directory below the base of a workspace. -/
def buildPath (base : Path) (directory buildFile : String) : Path :=
  (base.resolve directory).join buildFile

/-- The node of a manifest module. -/
def external (u : Manifest.Module) (base : Path) (buildFile : String) : Node :=
  { name := u.name, path := u.path, group := u.group, origin := .external u,
    file := { path := buildPath base u.path buildFile } }

/-- The directory of a project: a project path with a slash for every colon. -/
def projectDirectory (project : String) : String :=
  String.ofList (project.toList.map fun c => if c = ':' then '/' else c)

/-- The node of a settings project. -/
def internal (project : String) (base : Path) (buildFile : String) : Node :=
  { name := project, path := projectDirectory project, group := "", origin := .internal,
    file := { path := buildPath base (projectDirectory project) buildFile } }

/-- Parts the dependencies into those on source and those on remote artifacts. -/
def repartition (n : Node) : Node :=
  { n with
    source := n.all.filter fun _ d => d.source
    remote := n.all.filter fun _ d => !d.source }

/-- Adds one observed dependency, merged with what is known of its name if `keep` says so. -/
def observe (keep : Bool) (known : Dependencies) (fresh : Dependency) :
    Except Error Dependencies :=
  match if keep then known.get? fresh.name else none with
  | some old => (old.merge fresh).map (known.insert fresh.name)
  | none => .ok (known.insert fresh.name fresh)

/-- Takes up observed dependencies in order. Unless `keep` says so, nothing known survives. -/
def populate (keep : Bool) (fresh : List Dependency) (n : Node) : Except Error Node :=
  let known : Dependencies := if keep then n.all else .empty
  match fresh.foldlM (observe keep) known with
  | .error e => .error e
  | .ok all => .ok { n with all }.repartition

variable {σ : Type} [Store σ]

/-- Reads the build file anew and takes up what it declares. A read that fails is recorded on the
file and leaves what taking up nothing leaves. -/
def refresh (store : σ) (keep : Bool) (n : Node) : Except Error Unit × Node :=
  let (result, file) := n.file.refresh store
  let read := { n with file }
  match read.populate keep file.dependencies with
  | .error e => (.error e, read)
  | .ok n => (result, n)

/-- Takes over a newer node of the same kind. If its path or its group is still the same, it is a
new reading of the same build file; otherwise the module has moved and everything is taken over. -/
def supersede (n newer : Node) : Except Error Node :=
  if n.origin.label ≠ newer.origin.label then
    .error (.kindMismatch n.name n.origin.label newer.origin.label)
  else
    let taken :=
      { n with
        path := newer.path, group := newer.group, origin := newer.origin, file := newer.file }
    if n.path = newer.path ∨ n.group = newer.group then
      taken.populate false newer.file.dependencies
    else
      .ok { taken with all := newer.all, source := newer.source, remote := newer.remote }

/-- The dependencies in the forms that a policy asks for: a manifest module is a dependency on
source exactly when it is included; the others stay as they are. -/
def desired (policy : Policy) (known : Dependencies) : Dependencies :=
  known.mapValues fun name d =>
    if policy.modules.contains name then { d with source := policy.included.contains name } else d

/-- Brings the declarations of the build file into the forms that a policy asks for. -/
def enforce (store : σ) (policy : Policy) (n : Node) : Except Error Nat × Node × σ :=
  let n := { n with all := desired policy n.all }.repartition
  let (result, file, store) := n.file.write store n.all policy.modules
  (result, { n with file }, store)

/-- Whether a node declares a dependency of a name. -/
def declares (n : Node) (name : String) : Bool := n.all.contains name

/-- Whether a node declares a dependency on another one. -/
def dependsOn (n other : Node) : Bool := n.declares other.name

@[simp] theorem repartition_all (n : Node) : n.repartition.all = n.all := rfl

theorem get?_source_repartition (n : Node) (k : String) :
    n.repartition.source.get? k = (n.all.get? k).filter (·.source) :=
  NameMap.get?_filter _ _ _

theorem get?_remote_repartition (n : Node) (k : String) :
    n.repartition.remote.get? k = (n.all.get? k).filter (!·.source) :=
  NameMap.get?_filter _ _ _

theorem contains_of_observe {keep : Bool} {known known' : Dependencies} {fresh : Dependency}
    (h : observe keep known fresh = .ok known') (k : String) :
    known'.contains k = (k == fresh.name || known.contains k) := by
  unfold observe at h
  split at h
  next old _ =>
    cases hm : old.merge fresh with
    | error e => simp [hm, Except.map] at h
    | ok merged =>
      simp only [hm, Except.map, Except.ok.injEq] at h
      rw [← h, NameMap.contains_insert]
  next =>
    cases h
    exact NameMap.contains_insert known fresh.name fresh k

theorem enforce_edges (store : σ) (policy : Policy) (n : Node) :
    (n.enforce store policy).2.1.edges = n.edges := rfl

theorem enforce_name (store : σ) (policy : Policy) (n : Node) :
    (n.enforce store policy).2.1.name = n.name := rfl

theorem enforce_origin (store : σ) (policy : Policy) (n : Node) :
    (n.enforce store policy).2.1.origin = n.origin := rfl

theorem contains_desired (policy : Policy) (known : Dependencies) (k : String) :
    (desired policy known).contains k = known.contains k := by
  simp [desired, NameMap.contains, NameMap.get?_mapValues]

theorem contains_all_enforce (store : σ) (policy : Policy) (n : Node) (k : String) :
    (n.enforce store policy).2.1.all.contains k = n.all.contains k :=
  contains_desired policy n.all k

end Node

end Inclusion
