import Inclusion.Proofs.Coherence
import Inclusion.Proofs.Settings.Saving
import Inclusion.Proofs.Tracking

/-!
# Opening again what was changed

Including or excluding a module patches the settings, the included modules and the build files of a
loaded workspace; a fresh load finds everything anew from what was written. Both agree, and the load
writes nothing, exactly if the settings are settled: the writer names only projects that were named
before or are modules, and no line that it leaves alone registers anything new.

* `Tracks.comply`, `Tracks.edit`: what a loaded workspace and its files keep in common.
* `inStep_of_changed`: a module was included or excluded, and all is in step again.
* `reopens_iff_settled`: when a load then finds the same.
-/
namespace Inclusion

open Text Settings

/-- A first reading finds what is there, and nothing if that cannot be read. -/
theorem SettingsFile.snapshot_refresh (s : Shelf) {f : SettingsFile} (h : f.snapshot = {}) :
    (f.refresh s).2.snapshot = .ofLines (linesAt s f.path) := by
  unfold refresh linesAt
  split
  next e hread =>
    rw [hread]
    exact h
  next lines hread => rw [hread]

namespace Workspace

/-- What a workspace that was loaded from earlier files keeps in common with the files there are:
its nodes are those of manifest and settings as it knows them, and follow their build files. -/
structure Tracks (base : Path) (config : Config) (manifest : Manifest) (s₀ : Shelf)
    (w : Workspace) (s : Shelf) : Prop where
  path : w.settings.path = settingsPath base config manifest
  modules : w.modules = (blank base config manifest).listing
  linked : w.Linked
  shape : ∀ name, w.shape.get? name
    = ((blank base config manifest).site? w.settings.snapshot.internal name).map
        fun p => shapeAt s₀ p.1 p.2
  registers : Registers w.included w.modules w.settings.snapshot
  writable : w.settings.snapshot.Writable IsUnbroken
  internal : ∀ name ∈ w.settings.snapshot.internal, name ∈ w.settings.snapshot.all
  follows : w.Follows s₀ s

variable {base : Path} {config : Config} {manifest : Manifest} {w w' : Workspace}
  {s₀ s s' : Shelf}

/-- What a load finds, before it enforces the policy. -/
def found (base : Path) (config : Config) (manifest : Manifest) (s : Shelf) : Workspace :=
  (blank base config manifest).survey s false

theorem snapshot_found (base : Path) (config : Config) (manifest : Manifest) (s : Shelf) :
    (found base config manifest s).settings.snapshot
      = .ofLines (linesAt s (settingsPath base config manifest)) := by
  exact SettingsFile.snapshot_refresh s rfl

theorem get?_shape_found (base : Path) (config : Config) (manifest : Manifest) (s : Shelf)
    (name : String) :
    (found base config manifest s).shape.get? name
      = ((blank base config manifest).site?
          (found base config manifest s).settings.snapshot.internal name).map
            fun p => shapeAt s p.1 p.2 :=
  get?_shape_survey (blank base config manifest) s name

theorem tracks_found (base : Path) (config : Config) (manifest : Manifest) (s : Shelf)
    (huntorn : ∀ name n, (found base config manifest s).nodes.get? name = some n →
      Untorn (found base config manifest s).modules (linesAt s n.file.path)) :
    Tracks base config manifest s (found base config manifest s) s where
  path := SettingsFile.refresh_keeps_path s _
  modules := modules_survey _ s false
  linked := linked_survey _ s
  shape := get?_shape_found base config manifest s
  registers := contains_included_register _
  writable := by rw [snapshot_found]; exact (writable_ofLines _).unbroken
  internal := by
    rw [snapshot_found]
    exact fun name hname => mem_all_ofLines_iff.mpr (.inl hname)
  follows := follows_survey (Fits.blank base config manifest).sound huntorn

theorem Tracks.comply (h : w.Tracks base config manifest s₀ s) (hmodules : WellNamed w.modules) :
    (w.comply s).1.Tracks base config manifest s₀ (w.comply s).2 where
  path := by rw [settings_comply, h.path]
  modules := by rw [modules_comply, h.modules]
  linked := h.linked.comply s
  shape := by rw [shape_comply, settings_comply]; exact h.shape
  registers := by rw [included_comply, settings_comply, modules_comply]; exact h.registers
  writable := by rw [settings_comply]; exact h.writable
  internal := by rw [settings_comply]; exact h.internal
  follows := h.follows.comply hmodules

/-! ### Edited settings -/

/-- Editing the settings keeps what is in common, if the edit only concerns modules and the included
modules are brought in line with it. -/
theorem Tracks.edit (h : w.Tracks base config manifest s₀ s) {edit : Snapshot → Snapshot}
    (hedit : w.editSettings s edit = (.ok (), w', s')) (included : NameSet)
    (hwritable : (edit w.settings.snapshot).Writable IsUnbroken)
    (hinternal : ∀ name ∈ (edit w.settings.snapshot).internal,
      name ∈ (edit w.settings.snapshot).all)
    (hprojects : ∀ name, w.modules.contains name = false →
      (name ∈ (edit w.settings.snapshot).internal ↔ name ∈ w.settings.snapshot.internal))
    (hregisters : Registers included w.modules (edit w.settings.snapshot)) :
    Tracks base config manifest s₀ { w' with included } s' := by
  obtain ⟨rfl, f, hwrite⟩ := of_editSettings hedit
  refine ⟨h.path, h.modules, ⟨h.linked.edges, h.linked.roots⟩, fun name => ?_, hregisters, hwritable,
    hinternal, ?_⟩
  · refine (h.shape name).trans (congrArg (Option.map _) (site?_congr fun hmodule => ?_))
    exact (hprojects name (h.modules ▸ hmodule)).symm
  · exact h.follows.congr (SettingsFile.filterMap_ofLine?_linesAt_write hwrite hwritable.oneLine)

/-- What an edit of the settings leaves in the files. -/
theorem linesAt_editSettings {edit : Snapshot → Snapshot}
    (h : w.editSettings s edit = (.ok (), w', s'))
    (hs : (edit w.settings.snapshot).Writable IsUnbroken) :
    (linesAt s' w.settings.path).flatMap linePieces
        = (reconcile (linesAt s w.settings.path) (edit w.settings.snapshot)).flatMap linePieces
      ∧ ∀ path, (linesAt s' path).filterMap Dependency.ofLine?
        = (linesAt s path).filterMap Dependency.ofLine? := by
  obtain ⟨-, f, hwrite⟩ := of_editSettings h
  refine ⟨?_, SettingsFile.filterMap_ofLine?_linesAt_write hwrite hs.oneLine⟩
  rw [SettingsFile.flatMap_linesAt_write hwrite hs.oneLine linePieces_empty]
  exact if_pos rfl

/-! ### Including and excluding -/

/-- A workspace that tracks its files and is at rest, with a settings file that says what the editor
made of earlier lines. -/
structure InStep (base : Path) (config : Config) (manifest : Manifest) (s₀ : Shelf)
    (lines : List String) (w : Workspace) (s : Shelf) : Prop where
  tracks : w.Tracks base config manifest s₀ s
  rest : w.AtRest s
  pieces : (linesAt s w.settings.path).flatMap linePieces
    = (reconcile lines w.settings.snapshot).flatMap linePieces

/-- Enforcing the policy after an edit of the settings. -/
theorem Tracks.inStep_comply {lines : List String} (h : w.Tracks base config manifest s₀ s)
    (hmodules : WellNamed w.modules)
    (hpieces : (linesAt s w.settings.path).flatMap linePieces
      = (reconcile lines w.settings.snapshot).flatMap linePieces) :
    InStep base config manifest s₀ lines (w.comply s).1 (w.comply s).2 where
  tracks := h.comply hmodules
  rest := atRest_comply h.follows hmodules
  pieces := by
    rw [settings_comply, flatMap_linePieces_comply hmodules h.follows, hpieces]

theorem Tracks.inStep_includeModule (h : w.Tracks base config manifest s₀ s)
    (hmodules : WellNamed w.modules) {name : String} {u : Manifest.Module}
    (hu : w.modules.get? name = some u) (hname : IsProject name)
    (hpath : IsUnbroken (w.base.resolve u.path).text)
    (hinclude : w.includeModule s name = (.ok (), w', s')) :
    InStep base config manifest s₀ (linesAt s w.settings.path) w' s' := by
  obtain ⟨heq, -⟩ := hmodules name u hu
  have hmodule : w.modules.contains u.name = true := by simp [NameMap.contains, heq, hu]
  have hwritable := h.writable.addExternal (heq ▸ hname) hpath
  obtain ⟨v, store, hedit, hcomply⟩ := of_includeModule hu hinclude
  obtain ⟨rfl, rfl⟩ := Prod.mk.inj hcomply
  have hv := (of_editSettings hedit).1
  have htracks := h.edit hedit (NameSet.add w.included u.name) hwritable
    (fun k hk => mem_addNew.mpr (.inl (h.internal k hk))) (fun _ _ => Iff.rfl)
    (h.registers.addExternal hmodule _)
  have hpieces := (linesAt_editSettings hedit hwritable).1
  rw [hv] at htracks ⊢
  exact htracks.inStep_comply hmodules hpieces

/-- Dropping a module from the settings keeps what is in common. -/
theorem Tracks.remove (h : w.Tracks base config manifest s₀ s) {name : String}
    (hmodule : w.modules.contains name = true)
    (hedit : w.editSettings s (·.remove name) = (.ok (), w', s')) (included : NameSet)
    (hincluded : ∀ k, included.contains k = (k != name && w.included.contains k)) :
    Tracks base config manifest s₀ { w' with included } s' := by
  refine h.edit hedit included (h.writable.remove name) (fun k hk => ?_) (fun k hk => ?_)
    (h.registers.remove hincluded)
  · simp only [Snapshot.remove, List.mem_filter] at hk ⊢
    exact ⟨h.internal k hk.1, hk.2⟩
  · exact mem_internal_remove fun heq => by simp [heq, hmodule] at hk

theorem Tracks.inStep_excludeModule (h : w.Tracks base config manifest s₀ s) (hrest : w.AtRest s)
    (hmodules : WellNamed w.modules) {name : String}
    (hexclude : w.excludeModule s name = (.ok (), w', s')) :
    InStep base config manifest s₀ (linesAt s w.settings.path) w' s' := by
  obtain ⟨u, v, store, hu, hedit, hcomply⟩ := of_excludeModule hexclude
  obtain ⟨hname, -⟩ := hmodules name u hu
  have hmodule : w.modules.contains u.name = true := by simp [NameMap.contains, hname, hu]
  obtain ⟨hpieces, hlines⟩ := linesAt_editSettings hedit (h.writable.remove u.name)
  have hv := (of_editSettings hedit).1
  rw [hv] at hcomply
  rcases hcomply with hcomply | ⟨hnot, rfl, rfl⟩
  · have htracks := h.remove hmodule hedit _ (NameMap.contains_erase w.included u.name)
    obtain ⟨rfl, rfl⟩ := Prod.mk.inj hcomply
    rw [hv] at htracks
    exact htracks.inStep_comply hmodules hpieces
  · -- no build file is looked at, so the nodes are at rest because they were
    have htracks := h.remove hmodule hedit w.included (NameMap.contains_of_not_contains hnot)
    rw [hv] at htracks
    exact ⟨htracks, hrest.congr hlines, hpieces⟩

/-- A module that was included or excluded, with what became of the workspace and its files. -/
inductive Changed (w : Workspace) (s : Shelf) (name : String) : Workspace → Shelf → Prop
  | included {w' : Workspace} {s' : Shelf} {u : Manifest.Module}
    (hu : w.modules.get? name = some u) (hname : IsProject name)
    (hpath : IsUnbroken (w.base.resolve u.path).text)
    (h : w.includeModule s name = (.ok (), w', s')) : Changed w s name w' s'
  | excluded {w' : Workspace} {s' : Shelf} (h : w.excludeModule s name = (.ok (), w', s')) :
    Changed w s name w' s'

theorem inStep_of_changed {w₁ w₂ : Workspace} {s₁ s₂ : Shelf} {name : String}
    (hopen : Workspace.load s₀ base config = .ok (w₁, s₁))
    (hmanifest : ∀ u ∈ w₁.manifest.modules,
      IsProjectName u.name → IsSegment u.name ∧ IsWord u.group)
    (huntorn : ∀ k n, w₁.nodes.get? k = some n → Untorn w₁.modules (linesAt s₀ n.file.path))
    (hchange : Changed w₁ s₁ name w₂ s₂) :
    InStep base config w₁.manifest s₀ (linesAt s₁ w₁.settings.path) w₂ s₂ := by
  obtain ⟨manifest, -, hr⟩ := load_eq_ok_iff.mp hopen
  obtain rfl : w₁ = ((found base config manifest s₀).comply s₀).1 := congrArg Prod.fst hr
  obtain rfl : s₁ = ((found base config manifest s₀).comply s₀).2 := congrArg Prod.snd hr
  have hsame : ((found base config manifest s₀).comply s₀).1.manifest = manifest := by
    rw [manifest_comply, found, manifest_survey]
    rfl
  rw [hsame] at hmanifest ⊢
  rw [modules_comply] at huntorn
  have hwell : WellNamed (blank base config manifest).listing := wellNamed_listing hmanifest
  have hfound := tracks_found base config manifest s₀ fun k n hn => by
    obtain ⟨n', hn', hstyle⟩ := exists_restyled_comply s₀ hn
    exact hstyle.path ▸ huntorn k n' hn'
  have hv : WellNamed (found base config manifest s₀).modules := hfound.modules ▸ hwell
  have htracks := hfound.comply hv
  have hmodules := htracks.modules ▸ hwell
  cases hchange with
  | included hu hname hpath h => exact htracks.inStep_includeModule hmodules hu hname hpath h
  | excluded h =>
    exact htracks.inStep_excludeModule (atRest_comply hfound.follows hv) hmodules h

/-! ### What a fresh load finds -/

/-- Whether two workspaces show the same: the included modules, the nodes with their kinds, and the
edges between them. -/
structure SameView (w w' : Workspace) : Prop where
  included : w'.included = w.included
  kinds : ∀ name, (w'.nodes.get? name).map (·.origin.label)
    = (w.nodes.get? name).map (·.origin.label)
  edges : ∀ name, w'.edgesOf name = w.edgesOf name

/-- Whether writing a snapshot into lines registers nothing new: no project that was only bound
before is named, and no line that is left alone registers a project or a module. -/
structure Settled (modules : NameMap Manifest.Module) (s : Snapshot) (lines : List String) :
    Prop where
  projects : ∀ name, modules.contains name = false →
    name ∈ s.all ∨ name ∈ leftNames s false (blocks lines) → name ∈ s.internal
  modules : ∀ name, modules.contains name = true →
    name ∈ leftNames s false (blocks lines) ∨ (lastBinding? s (blocks lines) name).isSome = true →
      name ∈ s.all

theorem contains_nodes_eq (w : Workspace) (name : String) :
    w.nodes.contains name = (w.shape.get? name).isSome := by
  rw [get?_shape, Option.isSome_map]
  rfl

namespace InStep

variable {lines : List String}

theorem mem_internal_found (h : InStep base config manifest s₀ lines w s) (name : String) :
    name ∈ (found base config manifest s).settings.snapshot.internal
      ↔ name ∈ w.settings.snapshot.all
        ∨ name ∈ leftNames w.settings.snapshot false (blocks lines) := by
  rw [snapshot_found, ← h.tracks.path, mem_internal_ofLines, h.pieces, ← mem_internal_ofLines,
    mem_internal_reconcile h.tracks.writable]

theorem mem_all_found (h : InStep base config manifest s₀ lines w s) (name : String) :
    name ∈ (found base config manifest s).settings.snapshot.all
      ↔ name ∈ w.settings.snapshot.all
        ∨ name ∈ leftNames w.settings.snapshot false (blocks lines)
        ∨ (lastBinding? w.settings.snapshot (blocks lines) name).isSome = true := by
  rw [snapshot_found, ← h.tracks.path, mem_all_ofLines, h.pieces, ← mem_all_ofLines,
    mem_all_reconcile h.tracks.writable]

theorem contains_included_found (h : InStep base config manifest s₀ lines w s) {name : String}
    (hmodule : w.modules.contains name = true) :
    (found base config manifest s).included.contains name = true
      ↔ name ∈ (found base config manifest s).settings.snapshot.all := by
  have hfound : (found base config manifest s).included.contains name
      = (decide (name ∈ (found base config manifest s).settings.snapshot.all)
        && (found base config manifest s).modules.contains name) :=
    contains_included_register _ name
  have hmodules : (found base config manifest s).modules = w.modules :=
    (modules_survey _ s false).trans h.tracks.modules.symm
  rw [hfound, hmodules, hmodule, Bool.and_true, decide_eq_true_eq]

/-- A project that is no module has a node, before and after, exactly if the settings name it. -/
theorem contains_nodes_iff (h : InStep base config manifest s₀ lines w s) {name : String}
    (hmodule : w.modules.contains name = false) :
    (w.nodes.contains name = true ↔ name ∈ w.settings.snapshot.internal)
      ∧ ((found base config manifest s).nodes.contains name = true
        ↔ name ∈ w.settings.snapshot.all
          ∨ name ∈ leftNames w.settings.snapshot false (blocks lines)) := by
  rw [h.tracks.modules] at hmodule
  rw [← h.mem_internal_found, contains_nodes_eq, contains_nodes_eq, h.tracks.shape,
    get?_shape_found, Option.isSome_map, Option.isSome_map]
  exact ⟨isSome_site?_iff hmodule, isSome_site?_iff hmodule⟩

theorem settled (h : InStep base config manifest s₀ lines w s)
    (hview : w.SameView (found base config manifest s)) :
    Settled w.modules w.settings.snapshot lines := by
  constructor
  · intro name hmodule hname
    obtain ⟨hbefore, hafter⟩ := h.contains_nodes_iff hmodule
    have hkind := congrArg Option.isSome (hview.kinds name)
    rw [Option.isSome_map, Option.isSome_map] at hkind
    exact hbefore.mp (hkind.symm.trans (hafter.mpr hname))
  · intro name hmodule hname
    have hcontains : w.included.contains name = true := by
      rw [← hview.included, h.contains_included_found hmodule]
      exact (h.mem_all_found name).mpr (.inr hname)
    rw [h.tracks.registers, Bool.and_eq_true, decide_eq_true_eq] at hcontains
    exact hcontains.1

theorem shape_found (h : InStep base config manifest s₀ lines w s)
    (hsettled : Settled w.modules w.settings.snapshot lines) :
    (found base config manifest s).shape = w.shape := by
  refine NameMap.ext fun name => ?_
  have hold := h.tracks.shape name
  have hsite : (blank base config manifest).site?
        (found base config manifest s).settings.snapshot.internal name
      = (blank base config manifest).site? w.settings.snapshot.internal name := by
    refine site?_congr fun hmodule => (h.mem_internal_found name).trans ⟨?_, fun hin => ?_⟩
    · exact hsettled.projects name (h.tracks.modules ▸ hmodule)
    · exact .inl (h.tracks.internal name hin)
  rw [get?_shape_found, hsite, hold]
  cases hp : (blank base config manifest).site? w.settings.snapshot.internal name with
  | none => rfl
  | some p =>
    rw [hp] at hold
    exact congrArg some (h.tracks.follows.shapeAt_eq hold)

theorem included_found (h : InStep base config manifest s₀ lines w s)
    (hsettled : Settled w.modules w.settings.snapshot lines) :
    (found base config manifest s).included = w.included := by
  refine NameSet.ext fun name => ?_
  cases hmodule : w.modules.contains name with
  | false =>
    have hfound : (found base config manifest s).modules.contains name = false := by
      rw [found, modules_survey, ← h.tracks.modules, hmodule]
    have hregister := contains_included_register (found base config manifest s) name
    rw [hfound, Bool.and_false] at hregister
    rw [h.tracks.registers, hmodule, Bool.and_false]
    exact hregister
  | true =>
    rw [Bool.eq_iff_iff, h.contains_included_found hmodule, h.mem_all_found, h.tracks.registers,
      hmodule, Bool.and_true, decide_eq_true_eq]
    exact ⟨fun hname => hname.elim id (hsettled.modules name hmodule), .inl⟩

end InStep

theorem label_eq_of_shape_eq (h : w'.shape = w.shape) (name : String) :
    (w'.nodes.get? name).map (·.origin.label) = (w.nodes.get? name).map (·.origin.label) := by
  have hget : w'.shape.get? name = w.shape.get? name := by rw [h]
  rw [get?_shape, get?_shape] at hget
  have hlabel := congrArg (Option.map fun n : Shape => n.origin.label) hget
  rwa [Option.map_map, Option.map_map] at hlabel

/-- A fresh load finds what a workspace in step shows, and writes nothing, exactly if the settings
are settled. -/
theorem sameView_iff_settled {lines : List String} (h : InStep base config manifest s₀ lines w s) :
    (w.SameView ((found base config manifest s).comply s).1
        ∧ ((found base config manifest s).comply s).2 = s)
      ↔ Settled w.modules w.settings.snapshot lines := by
  have hlinked : (found base config manifest s).Linked := linked_survey _ s
  constructor
  · rintro ⟨⟨hincluded, hkinds, hedges⟩, -⟩
    refine h.settled ⟨?_, fun name => ?_, fun name => ?_⟩
    · rw [← hincluded, included_comply]
    · rw [← hkinds, label_eq_of_shape_eq (shape_comply _ s)]
    · rw [← hedges, edgesOf_comply]
  · intro hsettled
    have hshape := h.shape_found hsettled
    have hincluded := h.included_found hsettled
    have hmodules : (found base config manifest s).modules = w.modules :=
      (modules_survey _ s false).trans h.tracks.modules.symm
    have hinformed : (found base config manifest s).Informed s := fun _ _ hn =>
      all_of_survey (Fits.blank base config manifest).sound hn
    refine ⟨⟨?_, fun name => ?_, fun name => ?_⟩, ?_⟩
    · rw [included_comply, hincluded]
    · rw [label_eq_of_shape_eq (shape_comply _ s), label_eq_of_shape_eq hshape]
    · rw [edgesOf_comply, hlinked.edges, h.tracks.linked.edges, hshape]
    · exact comply_of_atRest
        (h.rest.of_shape h.tracks.linked hlinked hshape hincluded hmodules) hinformed

/-! ### Files that are there to be loaded -/

/-- Including a module touches no file but the settings file and the build files. -/
theorem text?_includeModule {name : String} {u : Manifest.Module} {path : Path}
    (hu : w.modules.get? name = some u) (h : w.includeModule s name = (.ok (), w', s'))
    (hpath : ¬path.Same w.settings.path) (hnot : ∀ k, ¬w.IsAt k path.location) :
    s'.text? path = s.text? path := by
  obtain ⟨v, store, hedit, hcomply⟩ := of_includeModule hu h
  have hv := (of_editSettings hedit).1
  have hnot' : ∀ k, ¬({ v with included := NameSet.add v.included u.name } : Workspace).IsAt k
      path.location := by
    rw [hv]
    exact hnot
  have hafter := textAt_comply_of_not_isAt (fun k _ => hnot' k) store
  rw [hcomply] at hafter
  exact hafter.trans (text?_editSettings hedit hpath)

/-- Where manifest and settings file are apart from all build files, a module can be included after
a load, and the manifest is there to be loaded again. -/
theorem exists_included (name : String) {u : Manifest.Module} {lines : List String}
    (hload : Manifest.load s (manifestPath base config) = .ok manifest)
    (hread : Store.read s (settingsPath base config manifest) = .ok lines)
    (hu : (found base config manifest s).modules.get? name = some u)
    (hsame : ¬(manifestPath base config).Same (settingsPath base config manifest))
    (hapart : ∀ k, ¬(found base config manifest s).IsAt k (manifestPath base config).location
      ∧ ¬(found base config manifest s).IsAt k (settingsPath base config manifest).location) :
    ∃ w₁ s₁ w₂ s₂, Workspace.load s base config = .ok (w₁, s₁)
      ∧ w₁ = ((found base config manifest s).comply s).1
      ∧ linesAt s₁ w₁.settings.path = lines
      ∧ w₁.includeModule s₁ name = (.ok (), w₂, s₂)
      ∧ Manifest.load s₂ (manifestPath base config) = .ok manifest
      ∧ w₂.modules = w₁.modules
      ∧ w₂.settings.snapshot
        = (Snapshot.ofLines lines).addExternal u.name (base.resolve u.path).text := by
  generalize hv : found base config manifest s = v at *
  have hpath : (v.comply s).1.settings.path = settingsPath base config manifest := by
    rw [settings_comply, ← hv]
    exact SettingsFile.refresh_keeps_path s _
  have hmodules : (v.comply s).1.modules.get? name = some u := by rw [modules_comply, hu]
  have hbase : (v.comply s).1.base = base := by rw [base_comply, ← hv, found, base_survey]; rfl
  have hread₁ : Store.read (v.comply s).2 (v.comply s).1.settings.path = .ok lines := by
    rw [hpath]
    obtain ⟨text, htext, hlines⟩ := Shelf.read_eq_ok_iff.mp hread
    have hkept : (v.comply s).2.text? (settingsPath base config manifest) = some text :=
      (textAt_comply_of_not_isAt (fun k _ => (hapart k).2) s).trans htext
    exact Shelf.read_eq_ok_iff.mpr ⟨text, hkept, hlines⟩
  obtain ⟨w₂, s₂, hinclude⟩ := exists_includeModule hmodules hread₁
  refine ⟨_, _, w₂, s₂, load_eq_ok_iff.mpr ⟨manifest, hload, by rw [← hv]; rfl⟩, rfl,
    linesAt_of_read hread₁, hinclude, ?_, ?_⟩
  · have hnot : ∀ k, ¬(v.comply s).1.IsAt k (manifestPath base config).location := fun k hk =>
      (hapart k).1 (isAt_comply.mp hk)
    have hkept := (text?_includeModule hmodules hinclude (by rwa [hpath]) hnot).trans
      (textAt_comply_of_not_isAt (fun k _ => (hapart k).1) s)
    obtain ⟨text, htext⟩ := Manifest.exists_text?_of_load hload
    rw [Manifest.load_of_text? (hkept.trans htext), ← Manifest.load_of_text? htext, hload]
  · obtain ⟨edited, store, hedit, hcomply⟩ := of_includeModule hmodules hinclude
    have hedited := (of_editSettings hedit).1
    have hw₂ : _ = w₂ := congrArg Prod.fst hcomply
    have hsnapshot : v.settings.snapshot = .ofLines lines := by
      rw [← hv, snapshot_found, linesAt_of_read hread]
    constructor
    · rw [← hw₂, modules_comply, hedited]
    · rw [← hw₂, settings_comply, hedited]
      simp only [settings_comply, hsnapshot, hbase]

/-- After a module was included or excluded, a fresh load shows the same and writes nothing, exactly
if the settings were settled. -/
theorem reopens_iff_settled {w₁ w₂ : Workspace} {s₁ s₂ : Shelf} {name : String}
    (hopen : Workspace.load s₀ base config = .ok (w₁, s₁))
    (hmanifest : ∀ u ∈ w₁.manifest.modules,
      IsProjectName u.name → IsSegment u.name ∧ IsWord u.group)
    (huntorn : ∀ k n, w₁.nodes.get? k = some n → Untorn w₁.modules (linesAt s₀ n.file.path))
    (hchange : Changed w₁ s₁ name w₂ s₂)
    (hkept : Manifest.load s₂ (manifestPath base config) = .ok w₁.manifest) :
    ∃ w₃ s₃, Workspace.load s₂ base config = .ok (w₃, s₃)
      ∧ ((SameView w₂ w₃ ∧ s₃ = s₂)
        ↔ Settled w₂.modules w₂.settings.snapshot (linesAt s₁ w₁.settings.path)) :=
  ⟨_, _, load_eq_ok_iff.mpr ⟨w₁.manifest, hkept, rfl⟩,
    sameView_iff_settled (inStep_of_changed hopen hmanifest huntorn hchange)⟩

/-- A project that depends on a module, with some text for settings. -/
def coreFiles (settings : String) : Shelf := .ofFiles
  [ ("/ws/workspace.manifest", "[\"d\",\"\",[[\"core\",\"core\",\"g\"]]]"),
    ("/ws/settings.gradle", settings),
    ("/ws/app/build.gradle", "api 'g:core:1.0'"),
    ("/ws/core/build.gradle", "") ]

def coreManifest : Manifest := { name := "d", modules := [⟨"core", "core", "g"⟩] }

theorem untorn_of_artifacts {modules : NameMap Manifest.Module} {lines : List String}
    (h : ∀ d ∈ lines.filterMap Dependency.ofLine?, d.source = false) : Untorn modules lines := by
  intro l₁ h₁ _ _ d₁ _ hread₁ _ _ hsource
  have := h d₁ (List.mem_filterMap.mpr ⟨l₁, h₁, hread₁⟩)
  simp [hsource] at this

theorem contains_listing_coreManifest {name : String} :
    (blank ⟨"/ws"⟩ {} coreManifest).listing.contains name = true ↔ name = "core" := by
  rw [listing_contains]
  simp [blank, coreManifest, eq_comm]

theorem exists_included_coreFiles (settings : String) (lines : List String)
    (htext : (coreFiles settings).text? ⟨"/ws/workspace.manifest"⟩
        = some "[\"d\",\"\",[[\"core\",\"core\",\"g\"]]]"
      ∧ (coreFiles settings).text? ⟨"/ws/settings.gradle"⟩ = some settings)
    (hlines : splitLines settings = lines)
    (hnodes : ∀ e ∈ (found ⟨"/ws"⟩ {} coreManifest (coreFiles settings)).nodes.entries,
      e.2.file.path.location ≠ (Path.mk "/ws/workspace.manifest").location
        ∧ e.2.file.path.location ≠ (Path.mk "/ws/settings.gradle").location
        ∧ ∀ d ∈ (linesAt (coreFiles settings) e.2.file.path).filterMap Dependency.ofLine?,
          d.source = false) :
    ∃ w₁ s₁ w₂ s₂, Workspace.load (coreFiles settings) ⟨"/ws"⟩ {} = .ok (w₁, s₁)
      ∧ (∀ u ∈ w₁.manifest.modules,
          IsProjectName u.name → IsSegment u.name ∧ IsWord u.group)
      ∧ (∀ k n, w₁.nodes.get? k = some n →
          Untorn w₁.modules (linesAt (coreFiles settings) n.file.path))
      ∧ w₁.includeModule s₁ "core" = (.ok (), w₂, s₂) ∧ Changed w₁ s₁ "core" w₂ s₂
      ∧ Manifest.load s₂ (manifestPath ⟨"/ws"⟩ {}) = .ok w₁.manifest
      ∧ linesAt s₁ w₁.settings.path = lines
      ∧ (∀ k, w₂.modules.contains k = true ↔ k = "core")
      ∧ w₂.settings.snapshot = (Snapshot.ofLines lines).addExternal "core" "/ws/core" := by
  have hload : Manifest.load (coreFiles settings) (manifestPath ⟨"/ws"⟩ {}) = .ok coreManifest :=
    (Manifest.load_of_text? htext.1).trans rfl
  have hread : Store.read (coreFiles settings) (settingsPath ⟨"/ws"⟩ {} coreManifest) = .ok lines :=
    Shelf.read_eq_ok_iff.mpr ⟨settings, htext.2, hlines⟩
  have hmodules : (found ⟨"/ws"⟩ {} coreManifest (coreFiles settings)).modules
      = (blank ⟨"/ws"⟩ {} coreManifest).listing := modules_survey _ _ false
  have hentry : ∀ {k n},
      (found ⟨"/ws"⟩ {} coreManifest (coreFiles settings)).nodes.get? k = some n →
      (k, n) ∈ (found ⟨"/ws"⟩ {} coreManifest (coreFiles settings)).nodes.entries :=
    fun hn => NameMap.mem_entries_iff.mpr hn
  obtain ⟨w₁, s₁, w₂, s₂, hopen, hw₁, hlines₁, hinclude, hkept, hmodules₂, hsnapshot⟩ :=
    exists_included "core" (u := ⟨"core", "core", "g"⟩) hload hread
      (by rw [hmodules]; decide) (by decide) fun k => by
        refine ⟨fun ⟨n, hn, hl⟩ => (hnodes _ (hentry hn)).1 hl, fun ⟨n, hn, hl⟩ => ?_⟩
        exact (hnodes _ (hentry hn)).2.1 hl
  have hmanifest : w₁.manifest = coreManifest := by
    rw [hw₁, manifest_comply, found, manifest_survey]
    rfl
  have hmodules₁ : w₁.modules = (blank ⟨"/ws"⟩ {} coreManifest).listing := by
    rw [hw₁, modules_comply, hmodules]
  have hbase : w₁.base = ⟨"/ws"⟩ := by
    rw [hw₁, base_comply, found, base_survey]
    rfl
  have hu : w₁.modules.get? "core" = some ⟨"core", "core", "g"⟩ := by rw [hmodules₁]; decide
  have hwritable : ∀ u ∈ w₁.manifest.modules, IsSegment u.name ∧ IsWord u.group := by
    rw [hmanifest]
    decide
  have hunbroken : IsUnbroken (w₁.base.resolve "core").text := by
    rw [hbase]
    decide
  have hchange := Changed.included hu (IsSegment.isProject (by decide)) hunbroken hinclude
  refine ⟨w₁, s₁, w₂, s₂, hopen, fun u hmem _ => hwritable u hmem, fun k n hn => ?_, hinclude,
    hchange, by rw [hmanifest, hkept], hlines₁, fun k => ?_, hsnapshot⟩
  · rw [hw₁] at hn
    obtain ⟨m, hm, hstyle⟩ := exists_of_get?_comply hn
    rw [hstyle.path]
    exact untorn_of_artifacts (hnodes _ (hentry hm)).2.2
  · rw [hmodules₂, hmodules₁, contains_listing_coreManifest]

/-- Settings in which every registered project is named are settled. -/
theorem reopens_iff_settled_named :
    ∃ w₁ s₁ w₂ s₂ w₃, Workspace.load (coreFiles "include ':app'\n") ⟨"/ws"⟩ {} = .ok (w₁, s₁)
      ∧ w₁.includeModule s₁ "core" = (.ok (), w₂, s₂)
      ∧ Workspace.load s₂ ⟨"/ws"⟩ {} = .ok (w₃, s₂) ∧ SameView w₂ w₃ := by
  obtain ⟨w₁, s₁, w₂, s₂, hopen, hmanifest, huntorn, hinclude, hchange, hkept, hlines, hmodules,
    hsnapshot⟩ := exists_included_coreFiles "include ':app'\n" ["include ':app'", ""] (by decide)
      (by decide) (by decide +kernel)
  obtain ⟨w₃, s₃, hload, hiff⟩ := reopens_iff_settled hopen hmanifest huntorn hchange hkept
  rw [hlines, hsnapshot] at hiff
  generalize hs : (Snapshot.ofLines ["include ':app'", ""]).addExternal "core" "/ws/core" = snapshot
    at hiff
  have hlists : snapshot.all = ["app", "core"] ∧ snapshot.internal = ["app"]
      ∧ leftNames snapshot false (blocks ["include ':app'", ""]) = []
      ∧ (blocks ["include ':app'", ""]).flatMap (Block.bindings snapshot) = [] := by
    subst hs
    decide
  obtain ⟨hall, hinternal, hleft, hbindings⟩ := hlists
  have hsettled : Settled w₂.modules snapshot ["include ':app'", ""] := by
    constructor
    · intro name hmodule hname
      have hne : name ≠ "core" := fun heq => by simp [(hmodules name).mpr heq] at hmodule
      simpa [hall, hinternal, hleft, hne] using hname
    · intro name _ hname
      simp [lastBinding?, hbindings, hleft] at hname
  obtain ⟨hview, rfl⟩ := hiff.mpr hsettled
  exact ⟨w₁, s₁, w₂, s₃, w₃, hopen, hinclude, hload, hview⟩

/-- A project that was only bound to a directory is named by the writer, and so becomes a node. -/
theorem not_reopens_bound :
    ∃ w₁ s₁ w₂ s₂ w₃ s₃, Workspace.load
        (coreFiles "project(':tools').projectDir = new File('../tools')\ninclude ':app'\n")
        ⟨"/ws"⟩ {} = .ok (w₁, s₁)
      ∧ w₁.includeModule s₁ "core" = (.ok (), w₂, s₂)
      ∧ Workspace.load s₂ ⟨"/ws"⟩ {} = .ok (w₃, s₃)
      ∧ w₂.nodes.contains "tools" = false ∧ w₃.nodes.contains "tools" = true := by
  obtain ⟨w₁, s₁, w₂, s₂, hopen, hmanifest, huntorn, hinclude, hchange, hkept, -, hmodules,
    hsnapshot⟩ := exists_included_coreFiles
      "project(':tools').projectDir = new File('../tools')\ninclude ':app'\n"
      ["project(':tools').projectDir = new File('../tools')", "include ':app'", ""]
      (by decide) (by decide) (by decide +kernel)
  have hstep := inStep_of_changed hopen hmanifest huntorn hchange
  have htools : w₂.modules.contains "tools" = false :=
    Bool.eq_false_iff.mpr fun h => absurd ((hmodules "tools").mp h) (by decide)
  obtain ⟨hbefore, hafter⟩ := hstep.contains_nodes_iff htools
  rw [hsnapshot] at hbefore hafter
  refine ⟨w₁, s₁, w₂, s₂, _, _, hopen, hinclude,
    load_eq_ok_iff.mpr ⟨w₁.manifest, hkept, rfl⟩, ?_, ?_⟩
  · exact Bool.eq_false_iff.mpr fun h => absurd (hbefore.mp h) (by decide)
  · have hfound := hafter.mpr (.inl (by decide))
    rw [contains_nodes_eq] at hfound ⊢
    rw [← shape_comply _ s₂] at hfound
    exact hfound

end Workspace

end Inclusion
