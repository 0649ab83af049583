import Inclusion.Proofs.Changing
import Inclusion.Proofs.Shape

/-!
# How the parts of a workspace hang together

A workspace holds nodes, modules, included modules, roots and a snapshot of its settings, and each
operation changes them separately: a survey finds all of them anew, a pass over the nodes changes
what these know, and including or excluding a module edits the snapshot and the included modules
while nodes and edges stay. In whatever state a workspace gets into, they fit together.

* `Accounted.survey`, `Accounted.comply`, `Accounted.edit`: what the operations establish and keep.
* `coherent_of_arises`: how nodes, modules, settings, edges and roots fit together in every state.
-/
namespace Inclusion

theorem NameMap.contains_of_not_contains {α : Type} {m : NameMap α} {name : String}
    (h : m.contains name = false) (k : String) : m.contains k = (k != name && m.contains k) := by
  by_cases hk : k = name
  · subst hk
    simpa using h
  · simp [hk]

namespace Workspace

open Settings

/-! ### The parts -/

/-- Where the node of a name comes from. -/
def origin? (w : Workspace) (name : String) : Option Origin := (w.nodes.get? name).map (·.origin)

/-- Where the node of a name has to come from: the manifest comes before the settings. -/
def source? (w : Workspace) (name : String) : Option Origin :=
  match w.modules.get? name with
  | some u => some (.external u)
  | none => if name ∈ w.settings.snapshot.internal then some .internal else none

/-- Whether the included modules are those that a snapshot registers. -/
def Registers (included : NameSet) (modules : NameMap Manifest.Module) (s : Snapshot) : Prop :=
  ∀ name, included.contains name = (decide (name ∈ s.all) && modules.contains name)

/-- What the operations of a workspace keep of how its parts fit together. -/
structure Accounted (w : Workspace) : Prop where
  titled : Titled w.modules
  origins : ∀ name, w.origin? name = w.source? name
  registers : Registers w.included w.modules w.settings.snapshot
  linked : w.Linked

theorem origin?_eq (w : Workspace) (name : String) :
    w.origin? name = (w.shape.get? name).map (·.origin) := by
  rw [origin?, get?_shape, Option.map_map]
  rfl

/-- The origin of a node follows from the modules and the settings projects. -/
theorem map_site?_fst {w : Workspace} {projects : List String} (name : String) :
    (w.site? projects name).map Prod.fst
      = match w.listing.get? name with
        | some u => some (.external u)
        | none => if name ∈ projects then some .internal else none := by
  unfold site?
  cases w.listing.get? name with
  | some u => rfl
  | none =>
    dsimp only
    split <;> rfl

section

variable {σ : Type} [Store σ] {w : Workspace}

/-! ### Surveys and passes -/

theorem accounted_survey_false (w : Workspace) (store : σ) : (w.survey store false).Accounted where
  titled := by
    rw [modules_survey]
    exact fun name u hu => (of_get?_listing hu).1
  origins name := by
    rw [origin?_eq, get?_shape_survey, Option.map_map, source?, modules_survey, settings_survey,
      ← map_site?_fst]
    rfl
  registers := contains_included_register _
  linked := linked_survey w store

theorem Accounted.survey (h : w.Sound) (store : σ) (keep : Bool) :
    (w.survey store keep).Accounted := by
  cases keep with
  | false => exact accounted_survey_false w store
  | true => exact survey_keep h store ▸ accounted_survey_false w store

theorem Accounted.comply (h : w.Accounted) (store : σ) : (w.comply store).1.Accounted where
  titled := modules_comply w store ▸ h.titled
  origins name := by
    rw [origin?_eq, shape_comply, ← origin?_eq, h.origins, source?, source?, modules_comply,
      settings_comply]
  registers := by rw [included_comply, modules_comply, settings_comply]; exact h.registers
  linked := h.linked.comply store

/-! ### Edited settings -/

/-- Parts stay accounted for when a snapshot is edited that goes on naming the same projects besides
the modules. -/
theorem Accounted.edit (h : w.Accounted) (settings : SettingsFile) (included : NameSet)
    (hprojects : ∀ name, w.modules.contains name = false →
      (name ∈ settings.snapshot.internal ↔ name ∈ w.settings.snapshot.internal))
    (hregisters : Registers included w.modules settings.snapshot) :
    Accounted { w with settings, included } where
  titled := h.titled
  origins name := by
    refine (h.origins name).trans ?_
    simp only [source?]
    cases hmodule : w.modules.get? name with
    | some u => rfl
    | none => simp only [hprojects name (by simp [NameMap.contains, hmodule])]
  registers := hregisters
  linked := ⟨h.linked.edges, h.linked.roots⟩

theorem Registers.addExternal {included : NameSet} {modules : NameMap Manifest.Module}
    {s : Snapshot} (h : Registers included modules s) {name : String}
    (hmodule : modules.contains name = true) (path : String) :
    Registers (NameSet.add included name) modules (s.addExternal name path) := by
  intro other
  rw [NameSet.contains_add, h, Bool.eq_iff_iff]
  simp only [Snapshot.addExternal, mem_addNew, Bool.or_eq_true, Bool.and_eq_true,
    decide_eq_true_eq, beq_iff_eq]
  grind

/-- Dropping a name from a snapshot drops it from the included modules, and nothing else. -/
theorem Registers.remove {included included' : NameSet} {modules : NameMap Manifest.Module}
    {s : Snapshot} (h : Registers included modules s) {name : String}
    (hincluded : ∀ other, included'.contains other = (other != name && included.contains other)) :
    Registers included' modules (s.remove name) := by
  intro other
  rw [hincluded, h, Bool.eq_iff_iff]
  simp only [Snapshot.remove, List.mem_filter, Bool.and_eq_true, decide_eq_true_eq]
  grind

theorem mem_internal_remove {s : Snapshot} {name other : String} (h : other ≠ name) :
    other ∈ (s.remove name).internal ↔ other ∈ s.internal := by
  simp [Snapshot.remove, h]

theorem Accounted.includeModule (h : w.Accounted) (store : σ) (name : String) :
    (w.includeModule store name).2.1.Accounted := by
  generalize hresult : w.includeModule store name = r
  obtain ⟨result, w', store'⟩ := r
  cases result with
  | error e =>
    obtain ⟨-, ⟨-, -, rfl⟩ | ⟨-, rfl, -⟩⟩ := of_includeModule_error hresult
    · exact h
    · exact h.edit _ _ (fun _ _ => Iff.rfl) h.registers
  | ok =>
    obtain ⟨u, hu⟩ : ∃ u, w.modules.get? name = some u :=
      Option.ne_none_iff_exists'.mp fun hnone => by
        simp [includeModule_of_not_listed hnone] at hresult
    obtain ⟨v, store₁, hedit, hcomply⟩ := of_includeModule hu hresult
    obtain ⟨rfl, rfl⟩ := Prod.mk.inj hcomply
    obtain ⟨rfl, -⟩ := of_editSettings hedit
    have hmodule : w.modules.contains u.name = true := by
      simp [NameMap.contains, h.titled name u hu, hu]
    refine Accounted.comply ?_ store₁
    exact h.edit _ _ (fun _ _ => Iff.rfl) (h.registers.addExternal hmodule _)

theorem Accounted.excludeModule (h : w.Accounted) (store : σ) (name : String) :
    (w.excludeModule store name).2.1.Accounted := by
  generalize hresult : w.excludeModule store name = r
  obtain ⟨result, w', store'⟩ := r
  cases result with
  | error e =>
    obtain ⟨-, ⟨-, -, rfl⟩ | ⟨-, rfl, -⟩⟩ := of_excludeModule_error hresult
    · exact h
    · exact h.edit _ _ (fun _ _ => Iff.rfl) h.registers
  | ok =>
    obtain ⟨u, v, store₁, hu, hedit, hcomply⟩ := of_excludeModule hresult
    obtain ⟨rfl, -⟩ := of_editSettings hedit
    have hmodule : w.modules.contains u.name = true := by
      simp [NameMap.contains, h.titled name u hu, hu]
    have hprojects : ∀ other, w.modules.contains other = false →
        (other ∈ (w.settings.snapshot.remove u.name).internal
          ↔ other ∈ w.settings.snapshot.internal) := fun other hother =>
      mem_internal_remove fun heq => by simp [heq, hmodule] at hother
    rcases hcomply with hcomply | ⟨hnot, rfl, rfl⟩
    · obtain ⟨rfl, rfl⟩ := Prod.mk.inj hcomply
      refine Accounted.comply ?_ store₁
      exact h.edit _ _ hprojects (h.registers.remove (NameMap.contains_erase w.included u.name))
    · exact h.edit _ w.included hprojects
        (h.registers.remove fun other => NameMap.contains_of_not_contains hnot other)

/-! ### Edges and roots -/

theorem Linked.pairwise_edges (h : w.Linked) {name : String} {n : Node}
    (hn : w.nodes.get? name = some n) : n.edges.Pairwise (· < ·) := by
  have hedges : n.edges = linksIn w.shape name := by simpa [edgesOf, hn] using congrFun h.edges name
  rw [hedges, linksIn]
  split
  · exact .nil
  · exact w.shape.keys_ascending.filter _

theorem Linked.mem_edges_iff (h : w.Linked) {name other : String} {n : Node}
    (hn : w.nodes.get? name = some n) :
    other ∈ n.edges
      ↔ other ≠ name ∧ w.nodes.contains other = true ∧ n.all.contains other = true := by
  have hedges : n.edges = linksIn w.shape name := by simpa [edgesOf, hn] using congrFun h.edges name
  have hshape : w.shape.get? name = some n.shape := by rw [get?_shape, hn]; rfl
  rw [hedges, linksIn, hshape]
  simp only [List.mem_filter, keys_shape, NameMap.mem_keys_iff, Bool.and_eq_true, bne_iff_ne,
    Node.contains_declared_shape, Node.declares]
  tauto

theorem Linked.pairwise_roots (h : w.Linked) : w.roots.Pairwise (· < ·) :=
  h.roots ▸ w.shape.keys_ascending.filter _

theorem Linked.mem_roots_iff (h : w.Linked) {name : String} :
    name ∈ w.roots ↔ w.nodes.contains name = true
      ∧ ∀ other n, w.nodes.get? other = some n → other ≠ name → n.all.contains name = false := by
  rw [h.roots, rootsIn, List.mem_filter, keys_shape, NameMap.mem_keys_iff]
  refine and_congr_right fun _ => ?_
  simp only [Bool.not_eq_true', List.any_eq_false, Bool.and_eq_true, bne_iff_ne, not_and,
    Bool.not_eq_true]
  constructor
  · intro hnone other n hn hne
    have hshape : w.shape.get? other = some n.shape := by rw [get?_shape, hn]; rfl
    have hentry := hnone (other, n.shape) (NameMap.mem_entries_iff.mpr hshape) hne
    rwa [Node.contains_declared_shape] at hentry
  · rintro hnone ⟨other, x⟩ hentry hne
    have hx := NameMap.mem_entries_iff.mp hentry
    rw [get?_shape] at hx
    obtain ⟨n, hn, rfl⟩ := Option.map_eq_some_iff.mp hx
    rw [Node.contains_declared_shape]
    exact hnone other n hn hne

end

/-! ### All of it -/

/-- How nodes, modules, settings, included modules, edges and roots of a workspace fit together. -/
structure Coherent (w : Workspace) : Prop where
  filed : ∀ name n, w.nodes.get? name = some n → n.name = name
  external : ∀ name u, (∃ n, w.nodes.get? name = some n ∧ n.origin = .external u)
    ↔ w.modules.get? name = some u
  internal : ∀ name, (∃ n, w.nodes.get? name = some n ∧ n.origin = .internal)
    ↔ name ∈ w.settings.snapshot.internal ∧ w.modules.contains name = false
  included : ∀ name, w.included.contains name = true
    ↔ name ∈ w.settings.snapshot.all ∧ w.modules.contains name = true
  ascendingEdges : ∀ name n, w.nodes.get? name = some n → n.edges.Pairwise (· < ·)
  edges : ∀ name n, w.nodes.get? name = some n → ∀ other, other ∈ n.edges
    ↔ other ≠ name ∧ w.nodes.contains other = true ∧ n.all.contains other = true
  ascendingRoots : w.roots.Pairwise (· < ·)
  roots : ∀ name, name ∈ w.roots ↔ w.nodes.contains name = true
    ∧ ∀ other n, w.nodes.get? other = some n → other ≠ name → n.all.contains name = false

theorem Accounted.coherent {w : Workspace} (h : w.Accounted) (hfiled : Filed w.nodes) :
    w.Coherent where
  filed := hfiled
  external name u := by
    rw [← Option.map_eq_some_iff, ← origin?, h.origins, source?]
    cases hmodule : w.modules.get? name with
    | some v => simp
    | none => simp
  internal name := by
    rw [← Option.map_eq_some_iff, ← origin?, h.origins, source?]
    cases hmodule : w.modules.get? name with
    | some v => simp [NameMap.contains, hmodule]
    | none => simp [NameMap.contains, hmodule]
  included name := by simp [h.registers name]
  ascendingEdges _ _ hn := h.linked.pairwise_edges hn
  edges _ _ hn _ := h.linked.mem_edges_iff hn
  ascendingRoots := h.linked.pairwise_roots
  roots _ := h.linked.mem_roots_iff

/-- In every state that a workspace gets into, over whatever stores, its parts fit together. -/
theorem coherent_of_arises {base : Path} {config : Config} {w : Workspace}
    (h : Arises base config w) : w.Coherent := by
  have haccounted : w.Accounted := h.induct_fits
    (fun _ store keep hw => Accounted.survey hw.sound store keep)
    (fun _ store hw => hw.comply store) (fun _ store name hw => hw.includeModule store name)
    fun _ store name hw => hw.excludeModule store name
  exact haccounted.coherent h.fits.sound.filed

/-- A module that the settings name as well; when all files are gone, it cannot be excluded. -/
theorem coherent_of_arises_failed :
    let s := Shelf.ofFiles
      [ ("/ws/settings.gradle", "include ':app', ':core'"),
        ("/ws/app/build.gradle", "api 'g:core:1.0'") ]
    let w := (ofManifest s ⟨"/ws"⟩ {} { name := "d", modules := [⟨"core", "core", "g"⟩] }).1
    let w' := (w.excludeModule Shelf.empty "core").2.1
    Arises ⟨"/ws"⟩ {} w' ∧ w'.Coherent := by
  intro s w w'
  have harises : Arises ⟨"/ws"⟩ {} w' := .excludeModule (.ofManifest s _) Shelf.empty "core"
  exact ⟨harises, coherent_of_arises harises⟩

end Workspace

end Inclusion
