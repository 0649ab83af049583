import Inclusion.Proofs.Enforcement
import Inclusion.Proofs.History
import Inclusion.Proofs.Traversal

/-!
# The shape of a workspace

What the nodes of a workspace show each other is their origin, the place of their build file and the
names it declares. Edges, roots and the nodes that are met follow from this shape and the included
modules; enforcing the policy leaves it alone, and a survey finds it from the names in the manifest
and the settings and from what the build files declare.

* `isMet_congr`: the nodes that are met follow from the shape.
* `shape_comply`, `isMet_comply`: what enforcing the policy leaves alone.
* `all_of_survey`: after a survey a node knows what its build file declares.
* `get?_shape_survey`: the shape that a survey finds.
-/
namespace Inclusion

theorem NameSet.ext {s t : NameSet} (h : ∀ k, s.contains k = t.contains k) : s = t := by
  refine NameMap.ext fun k => ?_
  have hk := h k
  simp only [NameMap.contains] at hk
  cases hs : s.get? k <;> cases ht : t.get? k <;> simp_all

theorem NameMap.contains_mapValues {α β : Type} (f : String → α → β) (m : NameMap α) (k : String) :
    (m.mapValues f).contains k = m.contains k := by
  simp [NameMap.contains, NameMap.get?_mapValues]

/-- What a node shows: where it comes from, where its build file is and what that declares. -/
structure Shape where
  origin : Origin
  path : Path
  declared : NameSet

namespace Node

def shape (n : Node) : Shape :=
  { origin := n.origin, path := n.file.path, declared := n.all.mapValues fun _ _ => () }

theorem contains_declared_shape (n : Node) (name : String) :
    n.shape.declared.contains name = n.declares name :=
  NameMap.contains_mapValues _ n.all name

theorem shape_bare (n : Node) : n.bare.shape = n.shape := rfl

theorem Restyled.shape_eq {policy : Policy} {n n' : Node} (h : Restyled policy n n') :
    n'.shape = n.shape := by
  have hdeclared : n'.shape.declared = n.shape.declared := NameSet.ext fun name => by
    rw [contains_declared_shape, contains_declared_shape, h.declares_eq]
  have horigin : n'.shape.origin = n.shape.origin := h.origin
  have hpath : n'.shape.path = n.shape.path := h.path
  generalize n'.shape = x at hdeclared horigin hpath
  cases x
  simp only at hdeclared horigin hpath
  rw [hdeclared, horigin, hpath]

end Node

/-- The shape of a node that has just been read. -/
def shapeAt {σ : Type} [Store σ] (store : σ) (origin : Origin) (path : Path) : Shape :=
  { origin, path, declared := .ofNames (declaredNames (linesAt store path)) }

namespace Workspace

/-- The shapes of all nodes under their names. -/
def shape (w : Workspace) : NameMap Shape := w.nodes.mapValues fun _ n => n.shape

theorem get?_shape (w : Workspace) (name : String) :
    w.shape.get? name = (w.nodes.get? name).map Node.shape := NameMap.get?_mapValues _ _ _

theorem keys_shape (w : Workspace) : w.shape.keys = w.nodes.keys := keys_mapValues _ _

/-- The nodes that a node of a shape declares. -/
def linksIn (shape : NameMap Shape) (name : String) : List String :=
  match shape.get? name with
  | none => []
  | some n => shape.keys.filter fun other => other != name && n.declared.contains other

/-- The nodes of a shape that no other one declares. -/
def rootsIn (shape : NameMap Shape) : List String :=
  shape.keys.filter fun name => !shape.entries.any fun e => e.1 != name && e.2.declared.contains name

/-- Whether the edges and roots of a workspace are those of its shape. -/
structure Linked (w : Workspace) : Prop where
  edges : w.edgesOf = linksIn w.shape
  roots : w.roots = rootsIn w.shape

theorem shape_relink (w : Workspace) : w.relink.shape = w.shape := by
  refine NameMap.ext fun k => ?_
  rw [get?_shape, get?_shape, get?_nodes_relink, Option.map_map]
  rfl

theorem linked_relink (w : Workspace) : w.relink.Linked := by
  constructor
  · funext name
    rw [edgesOf, linksIn, shape_relink, get?_shape, keys_shape, get?_nodes_relink]
    cases w.nodes.get? name with
    | none => rfl
    | some n => simp only [Option.map_some, Node.contains_declared_shape]; rfl
  · have hdeclared : ∀ name, Node.isDeclared w.nodes name
        = w.shape.entries.any fun e => e.1 != name && e.2.declared.contains name := by
      intro name
      simp only [Node.isDeclared, shape, NameMap.mapValues, List.any_map, Function.comp_def,
        Node.contains_declared_shape]
    rw [rootsIn, shape_relink, keys_shape]
    simp only [← hdeclared]
    rfl

/-! ### What the shape decides -/

theorem edgesOf_eq (w : Workspace) (name : String) :
    w.edgesOf name = ((w.nodes.get? name).map (·.edges)).getD [] := by
  rw [edgesOf]
  cases w.nodes.get? name <;> rfl

/-- Which nodes are inside follows from the shape and the included modules. -/
theorem inside_eq (w : Workspace) (name : String) :
    w.inside name = (w.shape.get? name).any fun n =>
      n.origin.isInternal || w.included.contains name := by
  rw [inside, get?_shape]
  cases w.nodes.get? name <;> rfl

theorem inside_congr {w w' : Workspace} (hshape : w'.shape = w.shape)
    (hincluded : w'.included = w.included) : w'.inside = w.inside := by
  funext name
  rw [inside_eq, inside_eq, hshape, hincluded]

theorem isMet_congr {w w' : Workspace} (h : w.Linked) (h' : w'.Linked)
    (hshape : w'.shape = w.shape) (hincluded : w'.included = w.included) {name : String} :
    w'.IsMet name ↔ w.IsMet name := by
  rw [IsMet, IsMet, h.edges, h'.edges, h.roots, h'.roots, hshape, inside_congr hshape hincluded]

/-! ### What a pass over the nodes does not change -/

section

variable {policy : Policy} {w w' : Workspace}
  (h : ∀ k, Option.Rel (Node.Restyled policy) (w.nodes.get? k) (w'.nodes.get? k))

include h

theorem shape_of_restyled : w'.shape = w.shape := by
  refine NameMap.ext fun k => ?_
  rw [get?_shape, get?_shape]
  exact map_eq_of_rel (fun _ _ h => h.shape_eq) (h k)

theorem edgesOf_of_restyled : w'.edgesOf = w.edgesOf := by
  funext k
  rw [edgesOf_eq, edgesOf_eq]
  exact congrArg (·.getD []) (map_eq_of_rel (fun _ _ h => h.edges) (h k))

end

section

variable {σ : Type} [Store σ]

theorem exists_restyled_comply {w : Workspace} (store : σ) {name : String} {n : Node}
    (hn : w.nodes.get? name = some n) :
    ∃ n', (w.comply store).1.nodes.get? name = some n' ∧ Node.Restyled w.policy n n' :=
  exists_of_rel_left (hn ▸ restyled_enforceAll w store w.visitOrder name)

theorem exists_of_get?_comply {w : Workspace} {store : σ} {name : String} {n' : Node}
    (hn' : (w.comply store).1.nodes.get? name = some n') :
    ∃ n, w.nodes.get? name = some n ∧ Node.Restyled w.policy n n' :=
  exists_of_rel_right (hn' ▸ restyled_enforceAll w store w.visitOrder name)

theorem included_comply (w : Workspace) (store : σ) :
    (w.comply store).1.included = w.included :=
  (congrArg included (comply_rest w store) :)

theorem modules_comply (w : Workspace) (store : σ) : (w.comply store).1.modules = w.modules :=
  (congrArg modules (comply_rest w store) :)

theorem manifest_comply (w : Workspace) (store : σ) :
    (w.comply store).1.manifest = w.manifest :=
  (congrArg manifest (comply_rest w store) :)

theorem settings_comply (w : Workspace) (store : σ) :
    (w.comply store).1.settings = w.settings :=
  (congrArg settings (comply_rest w store) :)

theorem roots_comply (w : Workspace) (store : σ) : (w.comply store).1.roots = w.roots :=
  (congrArg roots (comply_rest w store) :)

theorem policy_comply (w : Workspace) (store : σ) : (w.comply store).1.policy = w.policy := by
  rw [policy, modules_comply, included_comply, policy]

theorem shape_comply (w : Workspace) (store : σ) : (w.comply store).1.shape = w.shape :=
  shape_of_restyled (restyled_enforceAll w store w.visitOrder)

theorem edgesOf_comply (w : Workspace) (store : σ) : (w.comply store).1.edgesOf = w.edgesOf :=
  edgesOf_of_restyled (restyled_enforceAll w store w.visitOrder)

theorem inside_comply (w : Workspace) (store : σ) : (w.comply store).1.inside = w.inside :=
  inside_congr (shape_comply w store) (included_comply w store)

theorem isMet_comply {w : Workspace} {store : σ} {name : String} :
    (w.comply store).1.IsMet name ↔ w.IsMet name := by
  rw [IsMet, edgesOf_comply, inside_comply, roots_comply, IsMet]

theorem isAt_comply {w : Workspace} {store : σ} {name : String} {l : List Path.Step} :
    (w.comply store).1.IsAt name l ↔ w.IsAt name l := by
  rw [isAt_iff, isAt_iff]
  exact Eq.congr_left (map_eq_of_rel (fun _ _ h => congrArg Path.location h.path)
    (restyled_enforceAll w store w.visitOrder name))

theorem Linked.comply {w : Workspace} (h : w.Linked) (store : σ) : (w.comply store).1.Linked where
  edges := by rw [edgesOf_comply, shape_comply, h.edges]
  roots := by rw [roots_comply, shape_comply, h.roots]

/-! ### What a survey finds -/

theorem path_of_bare {n m : Node} (h : n.bare = m.bare) : n.file.path = m.file.path :=
  (congrArg (·.file.path) h : n.bare.file.path = m.bare.file.path)

theorem all_of_bare {n m : Node} (h : n.bare = m.bare) : n.all = m.all :=
  (congrArg Node.all h : n.bare.all = m.bare.all)

/-- After a survey a node is, but for its edges, what a reading that keeps nothing leaves. -/
theorem exists_refresh_of_survey {w : Workspace} (h : w.Sound) {store : σ} {keep : Bool}
    {name : String} {n : Node} (hn : (w.survey store keep).nodes.get? name = some n) :
    ∃ m : Node, n.bare = (m.refresh store false).2.bare := by
  have hfalse : (w.survey store false).nodes.get? name = some n := by
    cases keep with
    | false => exact hn
    | true => exact survey_keep h store ▸ hn
  rw [survey_false] at hfalse
  change ((w.look store).forget.gather store false).relink.nodes.get? name = some n at hfalse
  rw [get?_nodes_relink] at hfalse
  obtain ⟨m, hm, rfl⟩ := Option.map_eq_some_iff.mp hfalse
  have hreading := get?_gather (Sound.forget (w.look store)) store false name
  rw [hm, Option.map_some] at hreading
  obtain ⟨r, hr, hbare⟩ := Option.map_eq_some_iff.mp hreading.symm
  unfold reading? at hr
  split at hr
  · cases hr; exact ⟨_, hbare.symm⟩
  · split at hr
    · cases hr; exact ⟨_, hbare.symm⟩
    · cases hr

/-- After a survey a node knows what its build file declares. -/
theorem all_of_survey {w : Workspace} (h : w.Sound) {store : σ} {keep : Bool} {name : String}
    {n : Node} (hn : (w.survey store keep).nodes.get? name = some n) :
    n.all = declared (linesAt store n.file.path) := by
  obtain ⟨m, hbare⟩ := exists_refresh_of_survey h hn
  rw [all_of_bare hbare, path_of_bare hbare, Node.all_of_refresh]

theorem modules_survey (w : Workspace) (store : σ) (keep : Bool) :
    (w.survey store keep).modules = w.listing := by cases keep <;> rfl

theorem settings_survey (w : Workspace) (store : σ) (keep : Bool) :
    (w.survey store keep).settings = (w.look store).settings := by cases keep <;> rfl

theorem wellNamed_listing {w : Workspace}
    (h : ∀ u ∈ w.manifest.modules, IsProjectName u.name → IsSegment u.name ∧ IsWord u.group) :
    WellNamed w.listing := by
  intro name u hu
  obtain ⟨hname, hmem⟩ := of_get?_listing hu
  exact ⟨hname, hname ▸ h u hmem⟩

theorem manifest_survey (w : Workspace) (store : σ) (keep : Bool) :
    (w.survey store keep).manifest = w.manifest := by cases keep <;> rfl

/-- The origin and the build file of the node of a name, given the settings projects. -/
def site? (w : Workspace) (projects : List String) (name : String) : Option (Origin × Path) :=
  match w.listing.get? name with
  | some u => some (.external u, Node.buildPath w.base u.path w.config.buildFile)
  | none =>
    if name ∈ projects then
      some (.internal, Node.buildPath w.base (Node.projectDirectory name) w.config.buildFile)
    else none

/-- Projects that are no modules are found if and only if the settings name them. -/
theorem isSome_site?_iff {w : Workspace} {projects : List String} {name : String}
    (h : w.listing.contains name = false) :
    (w.site? projects name).isSome = true ↔ name ∈ projects := by
  have hnone : w.listing.get? name = none := by simpa [NameMap.contains] using h
  rw [site?, hnone]
  simp

/-- The modules are found whatever the settings say. -/
theorem site?_congr {w : Workspace} {projects projects' : List String} {name : String}
    (h : w.listing.contains name = false → (name ∈ projects ↔ name ∈ projects')) :
    w.site? projects name = w.site? projects' name := by
  unfold site?
  cases hmodule : w.listing.get? name with
  | some u => rfl
  | none => simp only [h (by simp [NameMap.contains, hmodule])]

theorem shape_refresh (store : σ) (n : Node) :
    (n.refresh store false).2.shape = shapeAt store n.origin n.file.path := by
  have hall := n.all_of_refresh store
  have hpath : (n.refresh store false).2.file.path = n.file.path := by
    rw [Node.refresh_false]
    exact BuildFile.path_refresh store n.file
  have horigin : (n.refresh store false).2.origin = n.origin := by
    rw [Node.refresh_false]
    rfl
  have hdeclared : (n.refresh store false).2.shape.declared
      = .ofNames (declaredNames (linesAt store n.file.path)) := NameSet.ext fun name => by
    rw [Node.contains_declared_shape, Node.declares, hall, hpath, NameSet.contains_ofNames,
      Bool.eq_iff_iff, contains_declared_iff, decide_eq_true_eq]
  rw [shapeAt, ← hdeclared, ← hpath, ← horigin]
  rfl

theorem map_shape_reading? (w : Workspace) (store : σ) (name : String) :
    (w.reading? store name).map Node.shape
      = (w.site? w.settings.snapshot.internal name).map fun p => shapeAt store p.1 p.2 := by
  rw [reading?, ← listing, site?]
  cases w.listing.get? name with
  | some u => exact congrArg some (shape_refresh store _)
  | none =>
    dsimp only
    split
    next => exact congrArg some (shape_refresh store _)
    next => rfl

theorem linked_survey (w : Workspace) (store : σ) : (w.survey store false).Linked := by
  have h := linked_relink ((w.look store).forget.gather store false)
  exact ⟨h.edges, h.roots⟩

theorem get?_shape_survey (w : Workspace) (store : σ) (name : String) :
    (w.survey store false).shape.get? name
      = (w.site? (w.look store).settings.snapshot.internal name).map
          fun p => shapeAt store p.1 p.2 := by
  have hrelink := shape_relink ((w.look store).forget.gather store false)
  have hreading := get?_gather (Sound.forget (w.look store)) store false name
  have hmap := congrArg (Option.map Node.shape) hreading
  simp only [Option.map_map, Function.comp_def, Node.shape_bare] at hmap
  change ((w.look store).forget.gather store false).relink.shape.get? name = _
  rw [hrelink, get?_shape]
  exact hmap.trans (map_shape_reading? (w.look store).forget store name)

/-- A survey finds the build file of every module of the manifest in the directory of the module. -/
theorem exists_node_of_survey {w : Workspace} (h : w.Sound) (store : σ) (keep : Bool)
    {name : String} {u : Manifest.Module} (hu : w.listing.get? name = some u) :
    ∃ n, (w.survey store keep).nodes.get? name = some n
      ∧ n.file.path = Node.buildPath w.base u.path w.config.buildFile := by
  have hshape : (w.survey store keep).shape.get? name
      = some (shapeAt store (.external u)
          (Node.buildPath w.base u.path w.config.buildFile)) := by
    have hfalse := get?_shape_survey w store name
    rw [site?, hu] at hfalse
    cases keep with
    | false => exact hfalse
    | true => rw [survey_keep h store, hfalse]; rfl
  rw [get?_shape] at hshape
  obtain ⟨n, hn, hsame⟩ := Option.map_eq_some_iff.mp hshape
  exact ⟨n, hn, congrArg Shape.path hsame⟩

end

end Workspace

end Inclusion
