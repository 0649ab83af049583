import Inclusion.Proofs.Coherence
import Inclusion.Proofs.Manifest
import Inclusion.Proofs.Tracking
import Mathlib.Logic.Function.Iterate

/-!
# An update settles the files

An update rewrites build files and so changes what the next one reads. Yet the next one finds the same
settings, the same nodes with the same names and the same edges: the restated lines declare what they
declared, and say nothing of settings. So it finds nothing left to restate, and neither does a watch
over files that nobody else edits, as enforcing the policy does not touch a manifest either.

* `quiescent_update`: after an update, workspace and files are `Quiescent`.
* `Quiescent.update`, `Still.tick`: quiescent workspaces and files stay as they are.
* `load_comply`: no manifest is changed by a pass.
* `update_converges`: a second update, or any number of rounds of watching, writes nothing.
-/
namespace Inclusion

open Text Settings

/-- Whether every declaration of an artifact among lines has a group. -/
def Grouped (lines : List String) : Prop :=
  ∀ line ∈ lines, ∀ d, Dependency.ofLine? line = some d → d.source = false → d.group ≠ none

theorem Grouped.untorn {lines : List String} (h : Grouped lines)
    (modules : NameMap Manifest.Module) : Untorn modules lines :=
  fun _ _ _ h₂ _ _ _ hread₂ _ _ hsource₂ hgroup => absurd hgroup (h _ h₂ _ hread₂ hsource₂)

namespace Workspace

/-- Whether two workspaces have the same nodes with the same declared names, the same edges and roots,
and the same included modules. -/
structure SameGraph (w w' : Workspace) : Prop where
  shape : w'.shape = w.shape
  edges : w'.edgesOf = w.edgesOf
  roots : w'.roots = w.roots
  included : w'.included = w.included

/-- Whether a workspace knows its files as they are. -/
structure Known (w : Workspace) (s : Shelf) : Prop where
  sound : w.Sound
  accounted : w.Accounted
  modules : w.modules = w.listing
  snapshot : ∀ lines, Store.read s w.settings.path = .ok lines →
    w.settings.snapshot = .ofLines lines
  shape : ∀ name, w.shape.get? name
    = (w.site? w.settings.snapshot.internal name).map fun p => shapeAt s p.1 p.2

/-- Whether a workspace knows its files as they are and would restate none of them. -/
structure Quiescent (w : Workspace) (s : Shelf) : Prop extends w.Known s where
  rest : w.AtRest s

variable {base : Path} {config : Config} {w w' : Workspace} {s s' : Shelf}

/-! ### What the first update establishes -/

theorem listing_congr (h : w'.manifest = w.manifest) : w'.listing = w.listing := by
  rw [listing, h, listing]

theorem site?_eq (hmanifest : w'.manifest = w.manifest) (hbase : w'.base = w.base)
    (hconfig : w'.config = w.config) : w'.site? = w.site? := by
  funext projects name
  rw [site?, site?, listing_congr hmanifest, hbase, hconfig]

theorem site?_survey (w : Workspace) (s : Shelf) (keep : Bool) :
    (w.survey s keep).site? = w.site? :=
  site?_eq (manifest_survey w s keep) (base_survey w s keep) (config_survey w s keep)

theorem site?_comply (w : Workspace) (s : Shelf) : (w.comply s).1.site? = w.site? :=
  site?_eq (manifest_comply w s) (base_comply w s) (config_comply w s)

theorem snapshot_look {lines : List String} (h : Store.read s w.settings.path = .ok lines) :
    (w.look s).settings.snapshot = .ofLines lines := by
  simp only [look, SettingsFile.refresh, h]

theorem known_survey (h : w.Sound) (s : Shelf) (keep : Bool) : (w.survey s keep).Known s where
  sound := h.survey s keep
  accounted := .survey h s keep
  modules := by rw [modules_survey, listing_congr (manifest_survey w s keep)]
  snapshot lines hread := by
    rw [settings_survey] at hread ⊢
    rw [look, SettingsFile.refresh_keeps_path] at hread
    exact snapshot_look hread
  shape name := by
    rw [site?_survey, settings_survey, ← get?_shape_survey]
    cases keep with
    | false => rfl
    | true => rw [survey_keep h s]

theorem isSome_textAt_comply (w : Workspace) (s : Shelf) (l : List Path.Step) :
    ((w.comply s).2.textAt l).isSome = (s.textAt l).isSome :=
  isSome_textAt_enforceAll w s w.visitOrder l

/-- A pass makes no file. -/
theorem exists_read_of_read_comply {path : Path} {lines : List String}
    (h : Store.read (w.comply s).2 path = .ok lines) : ∃ before, Store.read s path = .ok before := by
  obtain ⟨text, htext, -⟩ := Shelf.read_eq_ok_iff.mp h
  have hsome := isSome_textAt_comply w s path.location
  rw [show (w.comply s).2.textAt path.location = some text from htext] at hsome
  obtain ⟨before, hbefore⟩ := Option.isSome_iff_exists.mp hsome.symm
  exact ⟨_, Shelf.read_of_text? hbefore⟩

/-- A pass changes nothing of what a workspace knows of its files. -/
theorem Known.pass (h : w.Known s) (t : Shelf) : (w.comply t).1.Known s where
  sound := h.sound.comply t
  accounted := h.accounted.comply t
  modules := by rw [modules_comply, h.modules, listing_congr (manifest_comply w t)]
  snapshot lines hread := by
    rw [settings_comply] at hread ⊢
    exact h.snapshot lines hread
  shape name := by rw [shape_comply, settings_comply, site?_comply, h.shape]

theorem AtRest.pass (h : w.AtRest s) (t : Shelf) : (w.comply t).1.AtRest s := by
  intro name n hmet hn
  rw [isMet_comply] at hmet
  rw [shape_comply] at hn
  rw [policy_comply]
  exact h name n hmet hn

/-- What a workspace knows of its files still holds of them after a pass. -/
theorem Known.comply (h : w.Known s) (hfollows : w.Follows s s) (hmodules : WellNamed w.modules) :
    (w.comply s).1.Known (w.comply s).2 := by
  have hpass := h.pass s
  refine ⟨hpass.sound, hpass.accounted, hpass.modules, fun lines hread => ?_, fun name => ?_⟩
  · obtain ⟨before, hbefore⟩ := exists_read_of_read_comply hread
    have hpieces := flatMap_linePieces_comply hmodules hfollows (w.comply s).1.settings.path
    rw [linesAt_of_read hread, linesAt_of_read hbefore] at hpieces
    rw [hpass.snapshot before hbefore, ofLines_congr hpieces]
  · have hshape := hpass.shape name
    rw [hshape]
    cases hp : (w.comply s).1.site? (w.comply s).1.settings.snapshot.internal name with
    | none => rfl
    | some p =>
      rw [hp] at hshape
      exact congrArg some ((hfollows.comply hmodules).shapeAt_eq hshape).symm

theorem quiescent_update (h : w.Sound) (hmodules : WellNamed w.listing) (keep : Bool)
    (huntorn : ∀ name n, (w.survey s keep).nodes.get? name = some n →
      Untorn (w.survey s keep).modules (linesAt s n.file.path)) :
    Quiescent (w.update s keep).1 (w.update s keep).2 := by
  have hfollows := follows_survey h huntorn
  have hwell : WellNamed (w.survey s keep).modules := modules_survey w s keep ▸ hmodules
  exact ⟨(known_survey h s keep).comply hfollows hwell, atRest_comply hfollows hwell⟩

/-! ### What stays as it is -/

theorem Quiescent.snapshot_look (h : w.Quiescent s) : (w.look s).settings.snapshot = w.settings.snapshot := by
  cases hread : Store.read s w.settings.path with
  | ok lines => rw [Workspace.snapshot_look hread, h.snapshot lines hread]
  | error e => simp only [look, SettingsFile.refresh, hread]

theorem Quiescent.shape_survey (h : w.Quiescent s) (keep : Bool) : (w.survey s keep).shape = w.shape := by
  refine NameMap.ext fun name => ?_
  have hshape := (known_survey h.sound s keep).shape name
  rwa [site?_survey, settings_survey, h.snapshot_look, ← h.shape] at hshape

theorem Quiescent.modules_survey (h : w.Quiescent s) (keep : Bool) :
    (w.survey s keep).modules = w.modules := by
  rw [Workspace.modules_survey, h.modules]

theorem Quiescent.included_survey (h : w.Quiescent s) (keep : Bool) :
    (w.survey s keep).included = w.included := by
  refine NameSet.ext fun name => ?_
  have hregisters := (known_survey h.sound s keep).accounted.registers name
  rw [hregisters, settings_survey, h.snapshot_look, h.modules_survey, h.accounted.registers]

theorem Quiescent.sameGraph_survey (h : w.Quiescent s) (keep : Bool) : w.SameGraph (w.survey s keep) := by
  have hlinked := (known_survey h.sound s keep).accounted.linked
  have hshape := h.shape_survey keep
  refine ⟨hshape, ?_, ?_, h.included_survey keep⟩
  · rw [hlinked.edges, h.accounted.linked.edges, hshape]
  · rw [hlinked.roots, h.accounted.linked.roots, hshape]

theorem Quiescent.atRest_survey (h : w.Quiescent s) (keep : Bool) : (w.survey s keep).AtRest s :=
  h.rest.of_shape h.accounted.linked (known_survey h.sound s keep).accounted.linked
    (h.shape_survey keep) (h.included_survey keep) (h.modules_survey keep)

/-- A quiescent workspace stays so when it is updated, and nothing is written. -/
theorem Quiescent.update (h : w.Quiescent s) (keep : Bool) :
    (w.update s keep).2 = s ∧ w.SameGraph (w.update s keep).1 ∧ (w.update s keep).1.Quiescent s := by
  have hgraph := h.sameGraph_survey keep
  have hrest := h.atRest_survey keep
  refine ⟨comply_of_atRest hrest fun _ _ hn => all_of_survey h.sound hn, ⟨?_, ?_, ?_, ?_⟩,
    ⟨(known_survey h.sound s keep).pass s, hrest.pass s⟩⟩
  · exact (shape_comply _ s).trans hgraph.shape
  · exact (edgesOf_comply _ s).trans hgraph.edges
  · exact (roots_comply _ s).trans hgraph.roots
  · exact (included_comply _ s).trans hgraph.included

/-! ### Watching -/

/-- Whether the settings file of a workspace is the one that its manifest leads to. -/
def Placed (w : Workspace) : Prop :=
  w.settings.path.Same (settingsPath w.base w.config w.manifest)

theorem adopt_manifest (h : w.Placed) : w.adopt w.manifest = w := by
  have hsame : (settingsPath w.base w.config w.manifest).Same w.settings.path := h.symm
  simp only [adopt, if_pos hsame]

theorem placed_adopt (w : Workspace) (manifest : Manifest) : (w.adopt manifest).Placed :=
  same_settings_adopt w manifest

theorem Placed.survey {σ : Type} [Store σ] (h : w.Placed) (store : σ) (keep : Bool) :
    (w.survey store keep).Placed := by
  rw [Placed, settings_survey, look, SettingsFile.refresh_keeps_path, base_survey, config_survey,
    manifest_survey]
  exact h

theorem lasting_placed : Lasting Placed where
  comply w store h := by
    rw [Placed, settings_comply, base_comply, config_comply, manifest_comply]
    exact h
  settings w settings hpath h := by
    rw [Placed, hpath]
    exact h
  included _ _ h := h

/-- The states that an update can start from: one of which nothing has been read yet, or any state,
also one that is given another manifest. -/
inductive Starts (base : Path) (config : Config) : Workspace → Prop
  | blank (manifest : Manifest) : Starts base config (blank base config manifest)
  | arises {w : Workspace} (h : Arises base config w) : Starts base config w
  | adopt {w : Workspace} (h : Arises base config w) (manifest : Manifest) :
    Starts base config (w.adopt manifest)

theorem Starts.fits (h : Starts base config w) : w.Fits base config := by
  cases h with
  | blank manifest => exact Fits.blank base config manifest
  | arises h => exact h.fits
  | adopt h manifest => exact h.fits.adopt manifest

theorem Starts.placed (h : Starts base config w) : w.Placed := by
  cases h with
  | blank manifest => rfl
  | arises h =>
    exact h.induct (fun _ => rfl) (fun _ hw => hw) (fun w manifest _ => placed_adopt w manifest)
      (fun _ store keep hw => hw.survey store keep) lasting_placed.comply
      lasting_placed.includeModule lasting_placed.excludeModule
  | adopt h manifest => exact placed_adopt _ manifest

/-- Whether a workspace is quiescent and its manifest, if it can be loaded at all, is the one on file. -/
structure Still (w : Workspace) (s : Shelf) : Prop where
  quiescent : w.Quiescent s
  placed : w.Placed
  onFile : ∀ m, Manifest.load s (manifestPath w.base w.config) = .ok m → m = w.manifest

theorem Still.tick (h : w.Still s) : (w.tick s).2 = s ∧ (w.tick s).1.Still s := by
  cases hreload : w.reload s true with
  | error e => simp only [Workspace.tick, hreload]; exact ⟨trivial, h⟩
  | ok r =>
    obtain ⟨m, hload, rfl⟩ := reload_eq_ok_iff.mp hreload
    rw [h.onFile m hload, adopt_manifest h.placed] at hreload
    obtain ⟨hstays, -, hquiescent⟩ := h.quiescent.update true
    simp only [Workspace.tick, hreload]
    refine ⟨hstays, hquiescent, lasting_placed.comply _ s (h.placed.survey s true), ?_⟩
    rw [Workspace.update, manifest_comply, manifest_survey, base_comply, base_survey, config_comply,
      config_survey]
    exact h.onFile

/-- Rounds of watching, one after the other. -/
def watch (n : Nat) (w : Workspace) (s : Shelf) : Workspace × Shelf :=
  (fun r => r.1.tick r.2)^[n] (w, s)

theorem Still.watch (h : w.Still s) (n : Nat) :
    (w.watch n s).2 = s ∧ (w.watch n s).1.Still s := by
  induction n with
  | zero => exact ⟨rfl, h⟩
  | succ n ih =>
    obtain ⟨hfiles, hstill⟩ := ih
    have hnext : w.watch (n + 1) s = (w.watch n s).1.tick (w.watch n s).2 :=
      Function.iterate_succ_apply' ..
    rw [hnext, hfiles]
    exact hstill.tick

/-- A manifest that can be loaded after a pass was there before: no line of it is a declaration. -/
theorem load_comply {path : Path} {m : Manifest} (hmodules : WellNamed w.modules)
    (hfollows : w.Follows s s) (h : Manifest.load (w.comply s).2 path = .ok m) :
    Manifest.load s path = .ok m := by
  obtain ⟨text, htext⟩ := Manifest.exists_text?_of_load h
  by_cases hat : ∃ name, w.IsAt name path.location
  · obtain ⟨name, n, hn, hl⟩ := hat
    have hsame : path.Same n.file.path := hl.symm
    have hread : Store.read (w.comply s).2 path = .ok (splitLines text) :=
      Shelf.read_of_text? htext
    rw [Manifest.load_of_text? htext] at h
    obtain ⟨before, hbefore⟩ := exists_read_of_read_comply hread
    -- the pass keeps the declared names, and a manifest declares none
    obtain ⟨n', hn', hstyle⟩ := exists_restyled_comply s hn
    have hnames := ((hfollows.comply hmodules) name n' hn').names
    rw [hstyle.path, ← linesAt_of_same hsame, ← linesAt_of_same hsame, linesAt_of_read hread,
      linesAt_of_read hbefore] at hnames
    have hnone : declaredNames (splitLines text) = [] := by
      rw [declaredNames, List.map_eq_nil_iff, List.filterMap_eq_nil_iff]
      exact fun line hline => Manifest.ofLine?_eq_none_of_ofText h hline
    rw [hnone, eq_comm, declaredNames, List.map_eq_nil_iff, List.filterMap_eq_nil_iff] at hnames
    have hagrees : ∀ desired, Agrees desired before := fun desired line hline d hread =>
      absurd hread (by simp [hnames line hline])
    have hlines := linesAt_comply hmodules hfollows hn
    rw [← linesAt_of_same hsame, ← linesAt_of_same hsame, linesAt_of_read hread,
      linesAt_of_read hbefore, restateAll_of_agrees (hagrees _), ite_self] at hlines
    rw [← joinLines_splitLines text, hlines] at h
    rw [Manifest.load, hbefore]
    exact h
  · have hkept := textAt_comply_of_not_isAt (fun name _ hname => hat ⟨name, hname⟩) s
    rw [Manifest.load_of_text? htext] at h
    exact (Manifest.load_of_text? (hkept.symm.trans htext)).trans h

/-- Once an update has settled the files, another one changes none of them and finds the same names,
edges, roots and included modules. If the manifest on file, if any, is the one that was taken in,
then no number of rounds of watching writes anything again. -/
theorem update_converges {w : Workspace} (h : Starts base config w) (s : Shelf) (keep : Bool)
    (hmanifest : ∀ u ∈ w.manifest.modules, IsSegment u.name ∧ IsWord u.group)
    (hgrouped : ∀ name n, (w.update s keep).1.nodes.get? name = some n →
      Grouped (linesAt s n.file.path)) :
    (∀ keep', ((w.update s keep).1.update (w.update s keep).2 keep').2 = (w.update s keep).2
        ∧ (w.update s keep).1.SameGraph
          ((w.update s keep).1.update (w.update s keep).2 keep').1)
      ∧ ((∀ m, Manifest.load s (manifestPath base config) = .ok m → m = w.manifest) →
        ∀ n, ((w.update s keep).1.watch n (w.update s keep).2).2 = (w.update s keep).2) := by
  have hfits := h.fits
  have hwell : WellNamed w.listing := wellNamed_listing fun u hu _ => hmanifest u hu
  have huntorn : ∀ name n, (w.survey s keep).nodes.get? name = some n →
      Untorn (w.survey s keep).modules (linesAt s n.file.path) := fun name n hn => by
    obtain ⟨n', hn', hstyle⟩ := exists_restyled_comply s hn
    exact hstyle.path ▸ (hgrouped name n' hn').untorn _
  have hquiescent := quiescent_update hfits.sound hwell keep huntorn
  refine ⟨fun keep' => ⟨(hquiescent.update keep').1, (hquiescent.update keep').2.1⟩, fun honFile n => ?_⟩
  refine (Still.watch ⟨hquiescent, ?_, fun m hload => ?_⟩ n).1
  · exact lasting_placed.comply _ s (h.placed.survey s keep)
  · rw [Workspace.update, manifest_comply, manifest_survey]
    refine honFile m ?_
    rw [Workspace.update, base_comply, base_survey, config_comply, config_survey, hfits.base,
      hfits.config] at hload
    exact load_comply (modules_survey w s keep ▸ hwell) (follows_survey hfits.sound huntorn) hload

/-- A project whose dependency on an included module is restated. -/
def restatedFiles : Shelf := .ofFiles
  [ ("/ws/workspace.manifest", "[\"d\",\"\",[[\"core\",\"core\",\"g\"]]]"),
    ("/ws/settings.gradle", "include ':app', ':core'"),
    ("/ws/app/build.gradle", "api 'g:core:1.0'"),
    ("/ws/core/build.gradle", "implementation 'org:lib:2.0'") ]

theorem update_converges_restated :
    let w := blank ⟨"/ws"⟩ {} { name := "d", modules := [⟨"core", "core", "g"⟩] }
    let r := w.update restatedFiles false
    Starts ⟨"/ws"⟩ {} w
      ∧ (∀ keep, (r.1.update r.2 keep).2 = r.2 ∧ r.1.SameGraph (r.1.update r.2 keep).1)
      ∧ ∀ n, (r.1.watch n r.2).2 = r.2 := by
  intro w r
  have hstarts : Starts ⟨"/ws"⟩ {} w := .blank _
  have hentries : ∀ e ∈ (w.survey restatedFiles false).nodes.entries,
      ∀ d ∈ (linesAt restatedFiles e.2.file.path).filterMap Dependency.ofLine?,
        d.group ≠ none := by decide +kernel
  have hgrouped : ∀ name n, r.1.nodes.get? name = some n →
      Grouped (linesAt restatedFiles n.file.path) := by
    intro name n' hn' line hline d hread _
    obtain ⟨n, hn, hstyle⟩ := exists_of_get?_comply hn'
    rw [hstyle.path] at hline
    exact hentries (name, n) (NameMap.mem_entries_iff.mpr hn) d
      (List.mem_filterMap.mpr ⟨line, hline, hread⟩)
  have htext : restatedFiles.text? (manifestPath ⟨"/ws"⟩ {})
      = some "[\"d\",\"\",[[\"core\",\"core\",\"g\"]]]" := by decide
  have hload : Manifest.load restatedFiles (manifestPath ⟨"/ws"⟩ {}) = .ok w.manifest :=
    (Manifest.load_of_text? htext).trans rfl
  obtain ⟨hsecond, hwatch⟩ := update_converges hstarts restatedFiles false (by decide) hgrouped
  refine ⟨hstarts, hsecond, hwatch fun m hm => ?_⟩
  rw [hload, Except.ok.injEq] at hm
  exact hm.symm

end Workspace

end Inclusion
