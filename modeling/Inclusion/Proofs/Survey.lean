import Inclusion.Proofs.Reading
import Inclusion.Workspace.Update

/-!
# A survey finds the same whatever was known

A survey that keeps the nodes it finds merges new readings into them; one that keeps nothing starts
from scratch. As long as every node is filed under its own name, and every one that is not a project
is a module known so far, both end with the same nodes: those of the manifest, and those of the
settings projects that are not in the manifest.

* `Node.supersede_of_isReading`: a reading replaces all of a node of its kind but the edges.
* `Workspace.get?_gather`: the gathered nodes, up to the edges.
* `Workspace.survey_keep`: keeping nodes makes no difference to a survey.
* `Workspace.respell_comply`: nor does the spelling of the settings path.
-/
namespace Inclusion

namespace Node

/-- A node without its edges. -/
def bare (n : Node) : Node := { n with edges := [] }

theorem name_of_bare {n m : Node} (h : n.bare = m.bare) : n.name = m.name :=
  (congrArg Node.name h : n.bare.name = m.bare.name)

theorem origin_of_bare {n m : Node} (h : n.bare = m.bare) : n.origin = m.origin :=
  (congrArg Node.origin h : n.bare.origin = m.bare.origin)

/-- Whether a node knows just what the last look at its build file found. -/
def IsReading (n : Node) : Prop := n = { n with all := listed n.file.dependencies }.repartition

theorem isReading_refresh {σ : Type} [Store σ] (store : σ) (n : Node) :
    (n.refresh store false).2.IsReading := by
  rw [refresh_false, IsReading]
  simp only [repartition, BuildFile.dependencies_refresh]
  rfl

theorem supersede_of_isReading {known fresh : Node} (hname : known.name = fresh.name)
    (horigin : known.origin.label = fresh.origin.label) (hfresh : fresh.IsReading) :
    known.supersede fresh = .ok { fresh with edges := known.edges } := by
  obtain ⟨hall, hsource, hremote⟩ : fresh.all = listed fresh.file.dependencies
      ∧ fresh.source = fresh.all.filter (fun _ d => d.source)
      ∧ fresh.remote = fresh.all.filter fun _ d => !d.source := by
    have h := hfresh
    simp only [IsReading, repartition] at h
    have hall := congrArg Node.all h
    exact ⟨hall, hall ▸ congrArg Node.source h, hall ▸ congrArg Node.remote h⟩
  simp only [supersede, horigin, ne_eq, not_true_eq_false, ↓reduceIte, populate_false]
  split
  · simp only [repartition, ← hall, hname, ← hsource, ← hremote]
  · simp only [hname]

end Node

namespace Workspace

variable {σ : Type} [Store σ]

theorem bare_renew {known? : Option Node} {fresh : Node} (hfresh : fresh.IsReading)
    (hknown : ∀ known ∈ known?, known.name = fresh.name
      ∧ known.origin.label = fresh.origin.label) : (renew known? fresh).bare = fresh.bare := by
  cases known? with
  | none => rfl
  | some known =>
    obtain ⟨hname, horigin⟩ := hknown known rfl
    simp only [renew, Node.supersede_of_isReading hname horigin hfresh]
    rfl

/-- What a first look at a manifest module finds. -/
def moduleReading (w : Workspace) (store : σ) (u : Manifest.Module) : Node :=
  ((Node.external u w.base w.config.buildFile).refresh store false).2

/-- What a first look at a settings project finds. -/
def projectReading (w : Workspace) (store : σ) (project : String) : Node :=
  ((Node.internal project w.base w.config.buildFile).refresh store false).2

/-- What a first look finds under a name. -/
def reading? (w : Workspace) (store : σ) (name : String) : Option Node :=
  match (NameMap.ofList (w.manifest.modules.map fun u => (u.name, u))).get? name with
  | some u => some (w.moduleReading store u)
  | none =>
    if name ∈ w.settings.snapshot.internal then some (w.projectReading store name) else none

theorem moduleReading_name (w : Workspace) (store : σ) (u : Manifest.Module) :
    (w.moduleReading store u).name = u.name := by
  rw [moduleReading, Node.refresh_false]; rfl

theorem moduleReading_origin (w : Workspace) (store : σ) (u : Manifest.Module) :
    (w.moduleReading store u).origin = .external u := by
  rw [moduleReading, Node.refresh_false]; rfl

theorem projectReading_name (w : Workspace) (store : σ) (project : String) :
    (w.projectReading store project).name = project := by
  rw [projectReading, Node.refresh_false]; rfl

theorem projectReading_origin (w : Workspace) (store : σ) (project : String) :
    (w.projectReading store project).origin = .internal := by
  rw [projectReading, Node.refresh_false]; rfl

/-- Whether every node is filed under its own name. -/
def Filed (nodes : NameMap Node) : Prop := ∀ name n, nodes.get? name = some n → n.name = name

theorem Filed.insert {nodes : NameMap Node} (h : Filed nodes) {name : String} {n : Node}
    (hn : n.name = name) : Filed (nodes.insert name n) := by
  intro other m hm
  rw [NameMap.get?_insert] at hm
  split at hm
  next heq => cases hm; exact hn.trans heq.symm
  next => exact h other m hm

theorem Filed.filter {nodes : NameMap Node} (h : Filed nodes) (keep : String → Node → Bool) :
    Filed (nodes.filter keep) := by
  intro name n hn
  rw [NameMap.get?_filter, Option.filter_eq_some_iff] at hn
  exact h name n hn.1

theorem label_external (u : Manifest.Module) {origin : Origin} (h : origin.isInternal = false) :
    origin.label = (Origin.external u).label := by
  cases origin with
  | internal => cases h
  | external => rfl

/-! ### Taking nodes -/

theorem takeModule_eq (w : Workspace) (store : σ) (keep : Bool) {nodes : NameMap Node}
    (h : Filed nodes) (u : Manifest.Module) :
    ∃ n, w.takeModule store keep nodes u = nodes.insert u.name n
      ∧ n.bare = (w.moduleReading store u).bare := by
  refine ⟨_, rfl, bare_renew (Node.isReading_refresh store _) fun known hknown => ?_⟩
  obtain ⟨hget, hkeep⟩ := Option.filter_eq_some_iff.mp hknown
  refine ⟨(h _ _ hget).trans (moduleReading_name w store u).symm, ?_⟩
  simp only [Bool.and_eq_true, Bool.not_eq_true'] at hkeep
  exact (label_external u hkeep.2).trans
    (congrArg Origin.label (moduleReading_origin w store u).symm)

theorem get?_takeModules (w : Workspace) (store : σ) (keep : Bool) (us : List Manifest.Module)
    {nodes : NameMap Node} (h : Filed nodes) :
    Filed (us.foldl (w.takeModule store keep) nodes)
      ∧ ∀ k, ((us.foldl (w.takeModule store keep) nodes).get? k).map Node.bare
        = (((us.map fun u => (u.name, u)).reverse.lookup k).map
            fun u => (w.moduleReading store u).bare).or ((nodes.get? k).map Node.bare) := by
  induction us generalizing nodes with
  | nil => exact ⟨h, fun k => by simp⟩
  | cons u us ih =>
    obtain ⟨n, hn, hbare⟩ := takeModule_eq w store keep h u
    have hfiled : Filed (nodes.insert u.name n) :=
      h.insert ((Node.name_of_bare hbare).trans (moduleReading_name w store u))
    rw [List.foldl_cons, hn]
    refine ⟨(ih hfiled).1, fun k => ?_⟩
    rw [(ih hfiled).2, NameMap.get?_insert, List.map_cons, List.reverse_cons, List.lookup_append,
      NameMap.lookup_cons]
    by_cases hk : k = u.name
    · cases (List.map (fun u => (u.name, u)) us).reverse.lookup k <;> simp [hk, hbare]
    · cases (List.map (fun u => (u.name, u)) us).reverse.lookup k <;> simp [hk]

theorem takeProject_eq (w : Workspace) (store : σ) (keep : Bool) {nodes : NameMap Node}
    (h : Filed nodes) {project : String}
    (hinternal : ∀ n, nodes.get? project = some n → n.origin = .internal) :
    ∃ n, w.takeProject store keep nodes project = nodes.insert project n
      ∧ n.bare = (w.projectReading store project).bare := by
  refine ⟨_, rfl, bare_renew (Node.isReading_refresh store _) fun known hknown => ?_⟩
  obtain ⟨hget, -⟩ := Option.filter_eq_some_iff.mp hknown
  refine ⟨(h _ _ hget).trans (projectReading_name w store project).symm, ?_⟩
  exact (congrArg Origin.label (hinternal known hget)).trans
    (congrArg Origin.label (projectReading_origin w store project).symm)

theorem get?_takeProjects (w : Workspace) (store : σ) (keep : Bool) (projects : List String)
    {nodes : NameMap Node} (h : Filed nodes)
    (hinternal : ∀ project ∈ projects, ∀ n, nodes.get? project = some n → n.origin = .internal) :
    Filed (projects.foldl (w.takeProject store keep) nodes)
      ∧ ∀ k, ((projects.foldl (w.takeProject store keep) nodes).get? k).map Node.bare
        = if k ∈ projects then some (w.projectReading store k).bare
          else (nodes.get? k).map Node.bare := by
  induction projects generalizing nodes with
  | nil => exact ⟨h, fun k => by simp⟩
  | cons project projects ih =>
    obtain ⟨n, hn, hbare⟩ := takeProject_eq w store keep h
      (hinternal project (List.mem_cons_self ..))
    have hfiled : Filed (nodes.insert project n) :=
      h.insert ((Node.name_of_bare hbare).trans (projectReading_name w store project))
    have hnext : ∀ other ∈ projects, ∀ m, (nodes.insert project n).get? other = some m →
        m.origin = .internal := by
      intro other hother m hm
      rw [NameMap.get?_insert] at hm
      split at hm
      next =>
        cases hm
        exact (Node.origin_of_bare hbare).trans (projectReading_origin w store project)
      next => exact hinternal other (List.mem_cons_of_mem _ hother) m hm
    rw [List.foldl_cons, hn]
    refine ⟨(ih hfiled hnext).1, fun k => ?_⟩
    rw [(ih hfiled hnext).2, NameMap.get?_insert]
    by_cases hk : k = project
    · by_cases hmem : k ∈ projects <;> simp_all
    · simp [hk]

/-! ### Gathering them -/

/-- The modules of the manifest under their names. -/
def listing (w : Workspace) : NameMap Manifest.Module :=
  .ofList (w.manifest.modules.map fun u => (u.name, u))

/-- What holds of the nodes of every workspace: each one is filed under its own name, and each that
is no project is a module known so far. -/
structure Sound (w : Workspace) : Prop where
  filed : Filed w.nodes
  known : ∀ name n u, w.nodes.get? name = some n → n.origin = .external u →
    w.modules.contains name = true

theorem Sound.forget (w : Workspace) : w.forget.Sound where
  filed := by intro name n h; simp [Workspace.forget, NameMap.get?_empty] at h
  known := by intro name n u h; simp [Workspace.forget, NameMap.get?_empty] at h

theorem listing_contains {w : Workspace} {name : String} :
    w.listing.contains name = true ↔ ∃ u ∈ w.manifest.modules, u.name = name := by
  rw [listing, NameMap.contains_ofList]
  simp [List.map_map, Function.comp_def]

theorem of_get?_listing {w : Workspace} {name : String} {u : Manifest.Module}
    (h : w.listing.get? name = some u) : u.name = name ∧ u ∈ w.manifest.modules := by
  obtain ⟨v, hv, heq⟩ := List.mem_map.mp (NameMap.mem_of_get?_ofList h)
  cases heq
  exact ⟨rfl, hv⟩

/-- The nodes that stay when the modules have been taken, before the projects are. -/
def remaining (w : Workspace) (store : σ) (keep : Bool) : NameMap Node :=
  ((w.manifest.modules.foldl (w.takeModule store keep) w.nodes).filter fun name _ =>
    w.listing.contains name || !w.modules.contains name).filter fun name n =>
    !n.origin.isInternal || w.settings.snapshot.internal.contains name

/-- The settings projects that are not in the manifest. -/
def ownProjects (w : Workspace) : List String :=
  w.settings.snapshot.internal.filter fun project => !w.listing.contains project

theorem gather_eq (w : Workspace) (store : σ) (keep : Bool) :
    w.gather store keep
      = { w with modules := w.listing,
                 nodes := w.ownProjects.foldl (w.takeProject store keep)
                   (w.remaining store keep) } := rfl

theorem filed_remaining {w : Workspace} (h : w.Sound) (store : σ) (keep : Bool) :
    Filed (w.remaining store keep) :=
  ((get?_takeModules w store keep w.manifest.modules h.filed).1.filter _).filter _

theorem get?_remaining_eq_some {w : Workspace} {store : σ} {keep : Bool} {k : String} {n : Node} :
    (w.remaining store keep).get? k = some n ↔
      (w.manifest.modules.foldl (w.takeModule store keep) w.nodes).get? k = some n
        ∧ (w.listing.contains k = true ∨ w.modules.contains k = false)
        ∧ (n.origin.isInternal = false ∨ k ∈ w.settings.snapshot.internal) := by
  simp [remaining, NameMap.get?_filter, Option.filter_eq_some_iff]

theorem get?_remaining_of_listed {w : Workspace} (h : w.Sound) (store : σ) (keep : Bool)
    {k : String} {u : Manifest.Module} (hu : w.listing.get? k = some u) :
    ((w.remaining store keep).get? k).map Node.bare = some (w.moduleReading store u).bare := by
  have htaken := (get?_takeModules w store keep w.manifest.modules h.filed).2 k
  rw [← NameMap.get?_ofList, ← listing, hu, Option.map_some, Option.some_or] at htaken
  obtain ⟨n, hn, hbare⟩ := Option.map_eq_some_iff.mp htaken
  have hcontains : w.listing.contains k = true := by simp [NameMap.contains, hu]
  have horigin : n.origin.isInternal = false := by
    rw [Node.origin_of_bare hbare, moduleReading_origin]; rfl
  rw [get?_remaining_eq_some.mpr ⟨hn, .inl hcontains, .inl horigin⟩, Option.map_some, hbare]

/-- What stays under a name that is not in the manifest is a settings project. -/
theorem internal_of_remaining {w : Workspace} (h : w.Sound) {store : σ} {keep : Bool}
    {k : String} {n : Node} (hk : w.listing.get? k = none)
    (hn : (w.remaining store keep).get? k = some n) :
    n.origin = .internal ∧ k ∈ w.settings.snapshot.internal := by
  obtain ⟨hn, hmodule, hproject⟩ := get?_remaining_eq_some.mp hn
  have htaken := (get?_takeModules w store keep w.manifest.modules h.filed).2 k
  rw [← NameMap.get?_ofList, ← listing, hk, hn, Option.map_none, Option.none_or] at htaken
  obtain ⟨m, hm, hbare⟩ := Option.map_eq_some_iff.mp htaken.symm
  have horigin : n.origin = .internal := by
    rw [← Node.origin_of_bare hbare]
    cases ho : m.origin with
    | internal => rfl
    | external u =>
      have hlisted : w.listing.contains k = false := by simp [NameMap.contains, hk]
      have hknown := h.known k m u hm ho
      simp [hlisted, hknown] at hmodule
  exact ⟨horigin, hproject.resolve_left (by simp [horigin, Origin.isInternal])⟩

theorem get?_gather {w : Workspace} (h : w.Sound) (store : σ) (keep : Bool) (k : String) :
    ((w.gather store keep).nodes.get? k).map Node.bare = (w.reading? store k).map Node.bare := by
  have hmem : k ∈ w.ownProjects ↔ w.listing.get? k = none ∧ k ∈ w.settings.snapshot.internal := by
    rw [ownProjects, List.mem_filter, Bool.not_eq_true', NameMap.contains,
      Option.isSome_eq_false_iff, Option.isNone_iff_eq_none, and_comm]
  have hinternal : ∀ project ∈ w.ownProjects, ∀ n,
      (w.remaining store keep).get? project = some n → n.origin = .internal := by
    intro project hproject n hn
    rw [ownProjects, List.mem_filter, Bool.not_eq_true', NameMap.contains,
      Option.isSome_eq_false_iff, Option.isNone_iff_eq_none] at hproject
    exact (internal_of_remaining h hproject.2 hn).1
  have htaken := (get?_takeProjects w store keep w.ownProjects
    (filed_remaining h store keep) hinternal).2 k
  rw [gather_eq]
  refine htaken.trans ?_
  rw [reading?, ← listing]
  cases hk : w.listing.get? k with
  | some u =>
    have hnot : k ∉ w.ownProjects := fun hin => by simp [hk] at hmem; exact hmem hin
    rw [if_neg hnot, get?_remaining_of_listed h store keep hk]
    rfl
  | none =>
    by_cases hproject : k ∈ w.settings.snapshot.internal
    · rw [if_pos (hmem.mpr ⟨hk, hproject⟩)]
      simp [hproject]
    · rw [if_neg fun hin => hproject (hmem.mp hin).2]
      cases hn : (w.remaining store keep).get? k with
      | none => simp [hproject]
      | some n => exact absurd (internal_of_remaining h hk hn).2 hproject

theorem Sound.gather {w : Workspace} (h : w.Sound) (store : σ) (keep : Bool) :
    (w.gather store keep).Sound := by
  have hreading : ∀ k n, (w.gather store keep).nodes.get? k = some n →
      ∃ m, w.reading? store k = some m ∧ n.bare = m.bare := by
    intro k n hn
    have hk := get?_gather h store keep k
    rw [hn, Option.map_some] at hk
    obtain ⟨m, hm, hbare⟩ := Option.map_eq_some_iff.mp hk.symm
    exact ⟨m, hm, hbare.symm⟩
  constructor
  · intro k n hn
    obtain ⟨m, hm, hbare⟩ := hreading k n hn
    rw [Node.name_of_bare hbare]
    rw [reading?, ← listing] at hm
    split at hm
    next u hu =>
      cases hm
      exact (moduleReading_name w store u).trans (of_get?_listing hu).1
    next =>
      split at hm
      · cases hm; exact projectReading_name w store k
      · cases hm
  · intro k n u hn horigin
    obtain ⟨m, hm, hbare⟩ := hreading k n hn
    rw [Node.origin_of_bare hbare] at horigin
    show w.listing.contains k = true
    rw [reading?, ← listing] at hm
    split at hm
    next u hu => simp [NameMap.contains, hu]
    next =>
      split at hm
      · cases hm
        rw [projectReading_origin] at horigin
        cases horigin
      · cases hm

/-! ### Linking and registering them -/

theorem keys_mapValues {α β : Type} (f : String → α → β) (m : NameMap α) :
    (m.mapValues f).keys = m.keys := by
  simp [NameMap.mapValues, NameMap.keys, Function.comp_def]

theorem relink_bare (w : Workspace) :
    w.relink = ({ w with nodes := w.nodes.mapValues fun _ n => n.bare } : Workspace).relink := by
  have hkeys := keys_mapValues (fun _ n => n.bare) w.nodes
  have hdeclared : ∀ name, Node.isDeclared (w.nodes.mapValues fun _ n => n.bare) name
      = Node.isDeclared w.nodes name := by
    intro name
    simp only [Node.isDeclared, NameMap.mapValues, List.any_map]
    rfl
  simp only [relink, Workspace.mk.injEq, true_and, hkeys, hdeclared, and_true]
  refine NameMap.ext fun k => ?_
  simp only [NameMap.get?_mapValues, Option.map_map]
  refine congrArg (Option.map · _) (funext fun n => ?_)
  simp only [Function.comp_apply, Node.linkTo, hkeys]
  rfl

/-- Linking looks at the nodes without their edges, and at no earlier roots. -/
theorem relink_congr {w w' : Workspace}
    (hnodes : ∀ k, (w.nodes.get? k).map Node.bare = (w'.nodes.get? k).map Node.bare)
    (hrest : { w with nodes := w'.nodes, roots := w'.roots } = w') : w.relink = w'.relink := by
  have hbare : (w.nodes.mapValues fun _ n => n.bare) = w'.nodes.mapValues fun _ n => n.bare :=
    NameMap.ext fun k => by rw [NameMap.get?_mapValues, NameMap.get?_mapValues]; exact hnodes k
  rw [relink_bare w, relink_bare w', hbare, ← hrest]
  rfl

theorem Sound.relink {w : Workspace} (h : w.Sound) : w.relink.Sound where
  filed := by
    intro name n hn
    rw [get?_nodes_relink] at hn
    obtain ⟨m, hm, rfl⟩ := Option.map_eq_some_iff.mp hn
    exact h.filed name m hm
  known := by
    intro name n u hn horigin
    rw [get?_nodes_relink] at hn
    obtain ⟨m, hm, rfl⟩ := Option.map_eq_some_iff.mp hn
    exact h.known name m u hm horigin

/-- A workspace with its settings read anew. -/
def look (w : Workspace) (store : σ) : Workspace :=
  { w with settings := (w.settings.refresh store).2 }

theorem survey_true (w : Workspace) (store : σ) :
    w.survey store true = ((w.look store).gather store true).relink.register := rfl

theorem survey_false (w : Workspace) (store : σ) :
    w.survey store false = ((w.look store).forget.gather store false).relink.register := rfl

/-- A survey that keeps nodes finds what one that starts from scratch finds. -/
theorem survey_keep {w : Workspace} (h : w.Sound) (store : σ) :
    w.survey store true = w.survey store false := by
  have hlook : (w.look store).Sound := ⟨h.filed, h.known⟩
  rw [survey_true, survey_false]
  refine congrArg register (relink_congr (fun k => ?_) rfl)
  exact (get?_gather hlook store true k).trans
    (get?_gather (Sound.forget (w.look store)) store false k).symm

theorem Sound.survey {w : Workspace} (h : w.Sound) (store : σ) (keep : Bool) :
    (w.survey store keep).Sound := by
  have hfalse : (w.survey store false).Sound := by
    have h := ((Sound.forget (w.look store)).gather store false).relink
    exact ⟨h.filed, h.known⟩
  cases keep with
  | false => exact hfalse
  | true => exact survey_keep h store ▸ hfalse

/-! ### The spelling of the settings path -/

/-- A workspace whose settings file is given by another path. -/
def respell (w : Workspace) (path : Path) : Workspace :=
  { w with settings := { w.settings with path } }

theorem respell_enforceOn (w : Workspace) (store : σ) (path : Path) (name : String) :
    (w.respell path).enforceOn store name
      = ((w.enforceOn store name).1.respell path, (w.enforceOn store name).2) := by
  simp only [enforceOn, respell]
  cases w.nodes.get? name <;> rfl

theorem respell_comply (w : Workspace) (store : σ) (path : Path) :
    (w.respell path).comply store = ((w.comply store).1.respell path, (w.comply store).2) := by
  have hall : ∀ (names : List String) (w : Workspace) (store : σ),
      (w.respell path).enforceAll store names
        = ((w.enforceAll store names).1.respell path, (w.enforceAll store names).2) := by
    intro names
    induction names with
    | nil => intro w store; rfl
    | cons name names ih =>
      intro w store
      have hstep := respell_enforceOn w store path name
      simp only [enforceAll, List.foldl_cons] at ih ⊢
      rw [hstep]
      exact ih _ _
  exact hall w.visitOrder w store

end Workspace

end Inclusion
