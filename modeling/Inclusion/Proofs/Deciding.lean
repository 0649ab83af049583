import Inclusion.Proofs.Frame
import Inclusion.Proofs.Undoing

/-!
# The included modules decide what the files declare

Modules are included and excluded in any order, any number of times, and some of the calls may fail.
What nodes know of their build files outlasts all of that, and each pass over a file brings its
declarations into the forms that the included modules ask for, whatever forms they had. So what the
file of a node that is met declares in the end depends only on which modules are included then.

* `Obeys.forms_eq`: the included modules decide the forms of a file that obeys the policy.
* `Heeds.obeys_comply`, `OnCourse.perform`: it obeys after a pass and after a change.
* `included_performAll`: which modules are included after changes.
* `forms_of_included_eq`: two ways to the same included modules leave the same declarations.
-/
namespace Inclusion

open Text Settings BuildFile

/-- The names that lines declare and whether on source, in order. -/
def forms (lines : List String) : List (String × Bool) :=
  (lines.filterMap Dependency.ofLine?).map fun d => (d.name, d.source)

/-- The forms of lines that agree with what is desired follow from their names. -/
theorem forms_of_agrees {desired : Dependencies} {lines : List String} (h : Agrees desired lines) :
    forms lines
      = (declaredNames lines).map fun name => (name, (desired.get? name).any (·.source)) := by
  rw [forms, declaredNames, List.map_map]
  refine List.map_congr_left fun d hd => ?_
  obtain ⟨line, hline, hread⟩ := List.mem_filterMap.mp hd
  obtain ⟨wanted, hwanted, hsource⟩ := h line hline d hread
  rw [Function.comp_apply, hwanted, Option.any_some, hsource]

namespace Workspace

variable {base : Path} {config : Config} {w w' w₀ : Workspace} {s s' t : Shelf} {path : Path}
  {known : Dependencies} {names : List String} {c : Change} {u : Manifest.Module}

/-! ### Files that obey the policy -/

/-- Whether all nodes with a build file know the same of it, it can be restated from that, and it
declares given names. -/
structure Heeds (w : Workspace) (s : Shelf) (path : Path) (known : Dependencies)
    (names : List String) : Prop where
  knows : w.Knows path.location known
  covers : Covers w.modules known (linesAt s path)
  names : declaredNames (linesAt s path) = names

/-- Whether such a file also agrees with what the policy asks of it, if the policy is enforced there.
-/
structure Obeys (w : Workspace) (s : Shelf) (path : Path) (known : Dependencies)
    (names : List String) : Prop extends w.Heeds s path known names where
  rest : w.Enforces path → Agrees (Node.desired w.policy known) (linesAt s path)

theorem Heeds.congr (h : w.Heeds s path known names)
    (hlines : (linesAt t path).filterMap Dependency.ofLine?
      = (linesAt s path).filterMap Dependency.ofLine?) : w.Heeds t path known names where
  knows := h.knows
  covers := h.covers.congr hlines
  names := by rw [declaredNames, hlines, ← declaredNames, h.names]

/-- A pass makes a file obey the policy, whatever forms it had. -/
theorem Heeds.obeys_comply (h : w.Heeds s path known names) (hmodules : WellNamed w.modules) :
    (w.comply s).1.Obeys (w.comply s).2 path known names := by
  by_cases hmet : w.Enforces path
  · have hlines := linesAt_comply_of_enforces hmodules.nameable h.knows h.covers hmet
    refine ⟨⟨h.knows.comply s, ?_, ?_⟩, fun _ => ?_⟩
    · rw [modules_comply, hlines]
      exact covers_restateAll hmodules.nameable h.covers
    · rw [hlines, declaredNames_restateAll hmodules.titled (fun _ => hmodules.of_turned) h.covers,
        h.names]
    · rw [policy_comply, hlines]
      exact agrees_restateAll hmodules.nameable h.covers
  · have hlines := linesAt_comply_of_not_enforces (s := s) hmet
    refine ⟨⟨h.knows.comply s, ?_, ?_⟩,
      fun h => absurd ((sameGraph_comply w s).enforces_iff.mp h) hmet⟩
    · rw [modules_comply, hlines]
      exact h.covers
    · rw [hlines, h.names]

/-- What an update leaves of a build file. -/
theorem Rested.obeys {lines : List String} (h : w.Rested s path lines)
    (hmodules : WellNamed w.modules) :
    w.Obeys s path (declared lines) (declaredNames (linesAt s path)) where
  knows := h.knows
  covers := h.covers_linesAt hmodules
  names := rfl
  rest henforces := by
    rw [h.rest henforces]
    exact agrees_restateAll hmodules.nameable h.covers

/-- The included modules decide the forms of a file that obeys the policy. -/
theorem Obeys.forms_eq (h : w.Obeys s path known names) (h' : w'.Obeys s' path known names)
    (hmodules : w'.modules = w.modules) (hgraph : w.SameGraph w') (henforces : w.Enforces path) :
    forms (linesAt s' path) = forms (linesAt s path) := by
  have hpolicy : w'.policy = w.policy := by rw [policy, hmodules, hgraph.included, policy]
  have hrest' := h'.rest (hgraph.enforces_iff.mpr henforces)
  rw [hpolicy] at hrest'
  rw [forms_of_agrees hrest', forms_of_agrees (h.rest henforces), h'.names, h.names]

/-! ### Changes keep files obeying -/

theorem Change.snapshot_taken (c : Change) (w : Workspace) (u : Manifest.Module) :
    (c.taken w u).settings.snapshot = c.edit w.base u w.settings.snapshot := by
  cases c <;> rfl

/-- What holds of a build file along changes from a workspace on. If it is the settings file too, what
is known of the settings has to be fit to be written there. -/
structure OnCourse (w₀ : Workspace) (path : Path) (known : Dependencies) (names : List String)
    (w : Workspace) (s : Shelf) : Prop extends w.Obeys s path known names where
  akin : w₀.Akin w
  writable : path.Same w.settings.path → (s.text? w.settings.path).isSome →
    w.settings.snapshot.Writable IsOneLine

/-- Whether the module that a change includes, if any, can be written to the settings file without
breaking its lines. -/
def Binds (w : Workspace) (c : Change) : Prop :=
  ∀ name u, c = .including name → w.modules.get? name = some u →
    IsProject u.name ∧ '\n' ∉ (w.base.resolve u.path).text.toList

theorem binds_excluding (w : Workspace) (name : String) : w.Binds (.excluding name) :=
  fun _ _ h => nomatch h

theorem Binds.writable_edit {snapshot : Snapshot} (h : w.Binds c)
    (hu : w.modules.get? c.name = some u) (hsnapshot : snapshot.Writable IsOneLine) :
    (c.edit w.base u snapshot).Writable IsOneLine := by
  cases c with
  | including name =>
    obtain ⟨hname, hdirectory⟩ := h name u rfl hu
    exact hsnapshot.addExternal hname hdirectory
  | excluding name => exact hsnapshot.remove u.name

section

variable (hmodules : WellNamed w₀.modules)

/-- Editing the settings changes no declaration of the file, and the edited settings are as fit to be
written as before. -/
theorem OnCourse.of_editSettings {v : Workspace} (h : OnCourse w₀ path known names w s)
    (hbinds : path.Same w₀.settings.path → w₀.Binds c) (hu : w.modules.get? c.name = some u)
    (hedit : w.editSettings s (c.edit w.base u) = (.ok (), v, t)) :
    (linesAt t path).filterMap Dependency.ofLine? = (linesAt s path).filterMap Dependency.ofLine?
      ∧ (path.Same w.settings.path → (c.taken w u).settings.snapshot.Writable IsOneLine) := by
  have hwritable : path.Same w.settings.path →
      (c.edit w.base u w.settings.snapshot).Writable IsOneLine := by
    intro hpath
    have hbinds : w.Binds c := by
      have := hbinds (h.akin.settings ▸ hpath)
      rwa [Binds, ← h.akin.base, ← h.akin.modules] at this
    have hthere := isSome_of_read (read_of_editSettings hedit)
    exact hbinds.writable_edit hu (h.writable hpath hthere)
  refine ⟨?_, fun hpath => by rw [Change.snapshot_taken]; exact hwritable hpath⟩
  by_cases hpath : path.Same w.settings.path
  · obtain ⟨-, f, hwrite⟩ := Workspace.of_editSettings hedit
    exact SettingsFile.filterMap_ofLine?_linesAt_write hwrite (hwritable hpath) path
  · rw [linesAt_eq_of_text? (text?_editSettings hedit hpath)]

include hmodules

theorem OnCourse.perform (h : OnCourse w₀ path known names w s)
    (hbinds : path.Same w₀.settings.path → w₀.Binds c) :
    OnCourse w₀ path known names (w.perform s c).2.1 (w.perform s c).2.2 := by
  have hakin := (lasting_akin w₀).perform w s c h.akin
  have hwell : WellNamed w.modules := h.akin.modules ▸ hmodules
  generalize hr : w.perform s c = r at hakin
  cases hr ▸ outcome_perform w s c with
  | unlisted => exact h
  | refused => exact ⟨⟨⟨h.knows, h.covers, h.names⟩, h.rest⟩, hakin, h.writable⟩
  | @enforced u v t hu hedit =>
    obtain ⟨hlines, hwritable⟩ := h.of_editSettings hbinds hu hedit
    have hheeds : (c.taken w u).Heeds t path known names := by
      cases c <;> exact Heeds.congr ⟨h.knows, h.covers, h.names⟩ hlines
    have hwell : WellNamed (c.taken w u).modules := by cases c <;> exact hwell
    refine ⟨hheeds.obeys_comply hwell, hakin, fun hpath _ => ?_⟩
    rw [settings_comply] at hpath ⊢
    exact hwritable (by cases c <;> exact hpath)
  | @dropped u v t name hu hedit hc hout =>
    obtain ⟨hlines, hwritable⟩ := h.of_editSettings hbinds hu hedit
    subst hc
    have hgraph : w.SameGraph (w.release u) :=
      ⟨rfl, rfl, rfl, NameMap.erase_of_not_contains hout⟩
    have hpolicy : (w.release u).policy = w.policy := by rw [policy, hgraph.included]; rfl
    refine ⟨⟨Heeds.congr ⟨h.knows, h.covers, h.names⟩ hlines, fun henforces => ?_⟩, hakin,
      fun hpath _ => hwritable hpath⟩
    rw [hpolicy]
    exact (h.rest (hgraph.enforces_iff.mp henforces)).congr hlines

theorem OnCourse.performAll (h : OnCourse w₀ path known names w s) {changes : List Change}
    (hbinds : path.Same w₀.settings.path → ∀ c ∈ changes, w₀.Binds c) :
    OnCourse w₀ path known names (w.performAll s changes).1 (w.performAll s changes).2 := by
  induction changes generalizing w s with
  | nil => exact h
  | cons c changes ih =>
    exact ih (h.perform hmodules fun hpath => hbinds hpath c (List.mem_cons_self ..))
      fun hpath other hother => hbinds hpath other (List.mem_cons_of_mem _ hother)

end

/-! ### Which modules are included -/

/-- The included modules after a change, if the settings file can be read. -/
def Change.over (modules : NameMap Manifest.Module) (included : NameSet) (c : Change) : NameSet :=
  match modules.get? c.name with
  | none => included
  | some u =>
    match c with
    | .including _ => NameSet.add included u.name
    | .excluding _ => included.erase u.name

theorem isSome_text?_perform (w : Workspace) (s : Shelf) (c : Change) :
    ((w.perform s c).2.2.text? path).isSome = (s.text? path).isSome :=
  (spares_perform w s c).isSome path

theorem isSome_text?_performAll (w : Workspace) (s : Shelf) (changes : List Change) :
    ((w.performAll s changes).2.text? path).isSome = (s.text? path).isSome := by
  induction changes generalizing w s with
  | nil => rfl
  | cons c changes ih => exact (ih _ _).trans (isSome_text?_perform w s c)

theorem included_perform (hread : (s.text? w.settings.path).isSome) (c : Change) :
    (w.perform s c).2.1.included = c.over w.modules w.included := by
  generalize hr : w.perform s c = r
  cases hr ▸ outcome_perform w s c with
  | unlisted h => simp only [Change.over, h]
  | refused hu hedit =>
    obtain ⟨t, hedited, -⟩ := exists_editSettings (c.edit w.base _) hread
    rw [hedit] at hedited
    cases hedited
  | enforced hu hedit =>
    simp only [Change.over, hu]
    rw [included_comply]
    cases c <;> rfl
  | dropped hu hedit hc hout =>
    subst hc
    simp only [Change.over, hu]
    rfl

/-- Where the settings file can be read, every change of a listed module takes effect. -/
theorem included_performAll (hread : (s.text? w.settings.path).isSome) (changes : List Change) :
    (w.performAll s changes).1.included
      = changes.foldl (fun included c => c.over w.modules included) w.included := by
  induction changes generalizing w s with
  | nil => rfl
  | cons c changes ih =>
    have hakin := (lasting_akin w).perform w s c (.refl w)
    have hread' : ((w.perform s c).2.2.text? (w.perform s c).2.1.settings.path).isSome := by
      rw [isSome_text?_perform, hakin.settings, hread]
    have hrest := ih hread'
    rw [hakin.modules, included_perform hread] at hrest
    exact hrest

/-! ### Files to follow through changes -/

/-- Including a module and excluding it again, one by one and both. -/
theorem Revisited.performed {w₂ : Workspace} {s₂ : Shelf} (h : Revisited s config u w₀ w₂ s₂) :
    ∃ w₁ s₁, w₀.perform s (.including u.name) = (.ok (), w₁, s₁)
      ∧ w₁.perform s₁ (.excluding u.name) = (.ok (), w₂, s₂)
      ∧ w₀.performAll s [.including u.name] = (w₁, s₁)
      ∧ w₀.performAll s [.including u.name, .excluding u.name] = (w₂, s₂) := by
  obtain ⟨w₁, s₁, hinclude, hexclude⟩ := h.changed
  refine ⟨w₁, s₁, hinclude, hexclude, ?_, ?_⟩
  · simp only [Workspace.performAll, List.foldl_cons, List.foldl_nil, perform, hinclude]
  · simp only [Workspace.performAll, List.foldl_cons, List.foldl_nil, perform, hinclude, hexclude]

/-- A project that is a module too and depends on another one, which is not included. -/
def pinnedFiles : Shelf := .ofFiles
  [ ("/ws/workspace.manifest",
      "[\"d\",\"\",[[\"app\",\"app\",\"g\"],[\"core\",\"core\",\"g\"]]]"),
    ("/ws/settings.gradle", "include ':app'\n"),
    ("/ws/app/build.gradle", "api 'g:core:1.0'") ]

def pinnedManifest : Manifest :=
  { name := "d", modules := [⟨"app", "app", "g"⟩, ⟨"core", "core", "g"⟩] }

/-- What these files are loaded as, with nothing written. The other module can be included then and
excluded again. -/
structure Pinned (w₀ : Workspace) : Prop where
  update : (blank ⟨"/ws"⟩ {} pinnedManifest).update pinnedFiles false = (w₀, pinnedFiles)
  load : Workspace.load pinnedFiles ⟨"/ws"⟩ {} = .ok (w₀, pinnedFiles)
  grouped : ∀ name n, w₀.nodes.get? name = some n → Grouped (linesAt pinnedFiles n.file.path)
  manifest : w₀.manifest = pinnedManifest
  modules : w₀.modules = .ofList [("app", ⟨"app", "app", "g"⟩), ("core", ⟨"core", "core", "g"⟩)]
  included : w₀.included = .ofNames ["app"]
  settings : w₀.settings.path = ⟨"/ws/settings.gradle"⟩
  root : "app" ∈ w₀.roots
  node : (w₀.nodes.get? "app").map (·.file.path) = some ⟨"/ws/app/build.gradle"⟩
  performed : ∃ w₁ s₁ w₂ s₂, w₀.perform pinnedFiles (.including "core") = (.ok (), w₁, s₁)
    ∧ w₁.perform s₁ (.excluding "core") = (.ok (), w₂, s₂)
    ∧ w₀.performAll pinnedFiles [.including "core"] = (w₁, s₁)
    ∧ w₀.performAll pinnedFiles [.including "core", .excluding "core"] = (w₂, s₂)

theorem exists_pinned : ∃ w₀, Pinned w₀ := by
  have hwritten : pinnedFiles.text? ⟨"/ws/workspace.manifest"⟩
      = some "[\"d\",\"\",[[\"app\",\"app\",\"g\"],[\"core\",\"core\",\"g\"]]]" := by decide
  generalize hv : (blank ⟨"/ws"⟩ {} pinnedManifest).survey pinnedFiles false = v
  have h : v.InOrder pinnedFiles
      ∧ (v.modules = .ofList [("app", ⟨"app", "app", "g"⟩), ("core", ⟨"core", "core", "g"⟩)]
        ∧ v.included = .ofNames ["app"])
      ∧ v.settings.path = ⟨"/ws/settings.gradle"⟩
      ∧ "app" ∈ v.roots
      ∧ (v.nodes.get? "app").map (·.file.path) = some ⟨"/ws/app/build.gradle"⟩ := by
    subst hv
    decide +kernel
  obtain ⟨horder, ⟨hmodules, hincluded⟩, hpath, hroot, hnode⟩ := h
  obtain ⟨w₀, t, t', hupdate, hrevisited, -, ⟨hgraph, -, hmodules', hsettings⟩, -⟩ :=
    exists_revisited (u := ⟨"core", "core", "g"⟩) hv ((Manifest.load_of_text? hwritten).trans rfl)
      (by decide) horder (by rw [hmodules]; decide) (by rw [hincluded]; decide)
      (by rw [hpath]; decide)
  obtain ⟨m, hm, hfile⟩ := hgraph.exists_node hnode
  obtain ⟨w₁, s₁, hperformed⟩ := hrevisited.performed
  have hmanifest : w₀.manifest = pinnedManifest := by
    obtain rfl : ((blank ⟨"/ws"⟩ {} pinnedManifest).update pinnedFiles false).1 = w₀ :=
      congrArg Prod.fst hupdate
    rw [Workspace.update, manifest_comply, manifest_survey]
    rfl
  exact ⟨w₀, hupdate, hrevisited.load, hrevisited.grouped, hmanifest, hmodules'.trans hmodules,
    hgraph.included.trans hincluded, by rw [hsettings, hpath], hgraph.roots ▸ hroot,
    by rw [hm, Option.map_some, hfile], w₁, s₁, _, _, hperformed⟩

namespace Pinned

variable (h : Pinned w₀)

include h

theorem named : ∀ u ∈ w₀.manifest.modules, IsSegment u.name ∧ IsWord u.group := by
  rw [h.manifest]
  decide

theorem isSome_settings : (pinnedFiles.text? w₀.settings.path).isSome := by
  rw [h.settings]
  decide

theorem not_same_settings : ¬Path.Same ⟨"/ws/app/build.gradle"⟩ w₀.settings.path := by
  rw [h.settings]
  decide

/-- The project is met as long as it is included. -/
theorem isMet (hakin : w₀.Akin w) (hin : w.included.contains "app" = true) : w.IsMet "app" := by
  obtain ⟨n, hn, -⟩ := Option.map_eq_some_iff.mp h.node
  refine hakin.isMet h.root ?_
  rw [get?_shape, hn, Option.map_some, Option.any_some, hin, Bool.or_true]

theorem included_performAll (changes : List Change) :
    (w₀.performAll pinnedFiles changes).1.included
      = changes.foldl (fun included c => c.over
          (.ofList [("app", ⟨"app", "app", "g"⟩), ("core", ⟨"core", "core", "g"⟩)]) included)
        (.ofNames ["app"]) := by
  rw [Workspace.included_performAll h.isSome_settings, h.modules, h.included]

end Pinned

/-! ### Two ways to the same included modules -/

theorem Known.binds (h : w.Known s) (hnames : ∀ u ∈ w.manifest.modules, IsSegment u.name)
    (hdirectory : ∀ name u, c = .including name → w.modules.get? name = some u →
      '\n' ∉ (w.base.resolve u.path).text.toList) : w.Binds c := fun name u hc hu =>
  ⟨(hnames u (of_get?_listing (h.modules ▸ hu)).2).isProject, hdirectory name u hc hu⟩

theorem Known.writable (h : w.Known s) (hread : (s.text? w.settings.path).isSome) :
    w.settings.snapshot.Writable IsOneLine := by
  rw [h.snapshot _ (read_of_isSome hread)]
  exact (writable_ofLines _).unbroken.oneLine

theorem Known.onCourse (h : w.Known s) (hobeys : w.Obeys s path known names) :
    OnCourse w path known names w s :=
  ⟨hobeys, .refl w, fun _ => h.writable⟩

/-- Right after an update, modules may be included and excluded in two ways. If the same ones are
included in the end, the same nodes are met, and the build file of each declares the same names in
the same forms, in the same order. A build file that is the settings file too must not get lines from
a directory with line feeds. -/
theorem forms_of_included_eq {w w₀ : Workspace} {s s₀ : Shelf} {keep : Bool}
    (hstart : Starts base config w) (hupdate : w.update s keep = (w₀, s₀))
    (hmanifest : ∀ u ∈ w₀.manifest.modules, IsSegment u.name ∧ IsWord u.group)
    (hgrouped : ∀ name n, w₀.nodes.get? name = some n → Grouped (linesAt s₀ n.file.path))
    (changes changes' : List Change)
    (hincluded : (w₀.performAll s₀ changes').1.included = (w₀.performAll s₀ changes).1.included)
    {name : String} {n : Node} (hmet : (w₀.performAll s₀ changes).1.IsMet name)
    (hn : (w₀.performAll s₀ changes).1.nodes.get? name = some n)
    (hdirectories : n.file.path.Same w₀.settings.path →
      ∀ name u, .including name ∈ changes ++ changes' → w₀.modules.get? name = some u →
        '\n' ∉ (w₀.base.resolve u.path).text.toList)
    {lines : List String} (hread : Store.read (w₀.performAll s₀ changes).2 n.file.path = .ok lines) :
    (w₀.performAll s₀ changes').1.IsMet name
      ∧ (∃ n', (w₀.performAll s₀ changes').1.nodes.get? name = some n'
        ∧ n'.file.path = n.file.path)
      ∧ ∃ lines', Store.read (w₀.performAll s₀ changes').2 n.file.path = .ok lines'
        ∧ forms lines' = forms lines := by
  obtain ⟨hknown, hmodules, hrested⟩ := known_rested_update hstart.fits.sound hupdate
    (wellNamed_listing_of_update hupdate hmanifest) hgrouped
  have hakin := akin_performAll w₀ s₀ changes
  have hakin' := akin_performAll w₀ s₀ changes'
  have hat : w₀.IsAt name n.file.path.location := hakin.isAt_iff.mp ⟨n, hn, rfl⟩
  have hcourse := hknown.onCourse ((hrested _ name hat).obeys hmodules)
  have hbinds : n.file.path.Same w₀.settings.path → ∀ c ∈ changes ++ changes', w₀.Binds c :=
    fun hpath c hc => hknown.binds (fun u hu => (hmanifest u hu).1)
      fun name u heq hu => hdirectories hpath name u (heq ▸ hc) hu
  have hfirst := hcourse.performAll hmodules fun hpath c hc =>
    hbinds hpath c (List.mem_append_left changes' hc)
  have hsecond := hcourse.performAll hmodules fun hpath c hc =>
    hbinds hpath c (List.mem_append_right changes hc)
  have hgraph := hakin.sameGraph hakin' hincluded
  refine ⟨(hgraph.isMet_iff name).mpr hmet, hgraph.exists_node (by rw [hn]; rfl), ?_⟩
  have hforms := hfirst.toObeys.forms_eq hsecond.toObeys
    (hakin'.modules.trans hakin.modules.symm) hgraph ⟨name, hmet, n, hn, rfl⟩
  have hthere : ((w₀.performAll s₀ changes').2.text? n.file.path).isSome := by
    rw [isSome_text?_performAll, ← isSome_text?_performAll w₀ s₀ changes]
    exact isSome_of_read hread
  exact ⟨_, read_of_isSome hthere, by rw [hforms, linesAt_of_read hread]⟩

/-- Once a module is included, excluding it and including it again makes no difference. -/
theorem forms_of_included_eq_again :
    ∃ (w₀ : Workspace) (n : Node) (lines lines' : List String),
      let once := w₀.performAll pinnedFiles [.including "core"]
      let again := w₀.performAll pinnedFiles
        [.including "core", .excluding "core", .including "none", .including "core"]
      Workspace.load pinnedFiles ⟨"/ws"⟩ {} = .ok (w₀, pinnedFiles)
        ∧ again.1.included = once.1.included ∧ once.1.nodes.get? "app" = some n
        ∧ Store.read once.2 n.file.path = .ok lines ∧ Store.read again.2 n.file.path = .ok lines'
        ∧ forms lines' = forms lines := by
  obtain ⟨w₀, h⟩ := exists_pinned
  have hsame : (w₀.performAll pinnedFiles [.including "core", .excluding "core",
        .including "none", .including "core"]).1.included
      = (w₀.performAll pinnedFiles [.including "core"]).1.included := by
    rw [h.included_performAll, h.included_performAll]
    decide
  have hakin := akin_performAll w₀ pinnedFiles [.including "core"]
  have hmet := h.isMet hakin (by rw [h.included_performAll]; decide)
  obtain ⟨n, hn, hpath⟩ := hakin.exists_node h.node
  have hthere : ((w₀.performAll pinnedFiles [.including "core"]).2.text? n.file.path).isSome := by
    rw [isSome_text?_performAll, hpath]
    decide
  have hread := read_of_isSome hthere
  obtain ⟨-, -, lines', hread', hforms⟩ := forms_of_included_eq (.blank _) h.update
    h.named h.grouped [.including "core"]
    [.including "core", .excluding "core", .including "none", .including "core"] hsame hmet hn
    (fun hsettings => absurd (hpath ▸ hsettings) h.not_same_settings) hread
  exact ⟨w₀, n, _, lines', h.load, hsame, hn, hread, hread', hforms⟩

/-! ### A directory that declares something -/

/-- A declaration of a name that no node knows outlasts a pass. -/
theorem mem_filterMap_comply {d : Dependency} (hknows : w.Knows path.location known)
    (hd : d ∈ (linesAt s path).filterMap Dependency.ofLine?) (hnone : known.get? d.name = none) :
    d ∈ (linesAt (w.comply s).2 path).filterMap Dependency.ofLine? := by
  obtain ⟨line, hline, hread⟩ := List.mem_filterMap.mp hd
  refine List.mem_filterMap.mpr ⟨line, mem_linesAt_comply hknows.shares hline ?_, hread⟩
  refine restated?_eq_none_iff.mpr fun found hfound wanted hwanted => ?_
  obtain rfl : d = found := Option.some.inj (hread.symm.trans hfound)
  obtain ⟨e, he, -⟩ := get?_desired hwanted
  rw [hnone] at he
  cases he

/-- A declaration of such a name that gets into a file while a module is included is not taken away when
the module is excluded again. -/
theorem Detour.outlasts {d : Dependency} (h : w.Detour s u t s')
    (hknows : w.Knows path.location known)
    (hwritable : ((w.enlist u).settings.snapshot.remove u.name).Writable IsOneLine)
    (hd : d ∈ (linesAt t path).filterMap Dependency.ofLine?) (hnone : known.get? d.name = none) :
    d ∈ (linesAt ((w.revert u t).comply s').2 path).filterMap Dependency.ofLine? := by
  have hkept := mem_filterMap_comply (w := w.enlist u) hknows hd hnone
  obtain ⟨v, hremove⟩ := h.remove
  obtain ⟨-, f, hwrite⟩ := of_editSettings hremove
  rw [← settings_comply (w.enlist u) t] at hwritable
  have hsaved := SettingsFile.filterMap_ofLine?_linesAt_write hwrite hwritable path
  exact mem_filterMap_comply (w := w.revert u t) hknows.revert (hsaved ▸ hkept) hnone

/-- A module whose directory has line feeds. -/
def spillingModule : Manifest.Module := ⟨"core", "x\napi project(':y')\nz", "g"⟩

/-- A settings file that is the build file of a module too, with such another one in the manifest. -/
def spillingFiles : Shelf := .ofFiles
  [ ("/ws/workspace.manifest",
      "[\"d\",\"\",[[\"root\",\"\",\"g\"],[\"core\",\"x\\napi project(':y')\\nz\",\"g\"]]]"),
    ("/ws/settings.gradle", "include ':root'") ]

/-- The module leaves a declaration behind when it is included and excluded again. -/
theorem exists_forms_ne :
    ∃ (w₀ : Workspace) (n : Node) (lines lines' : List String),
      let left := w₀.performAll spillingFiles [.including "core", .excluding "core"]
      Workspace.load spillingFiles ⟨"/ws"⟩ { buildFile := "settings.gradle" } = .ok (w₀, spillingFiles)
        ∧ (∀ u ∈ w₀.manifest.modules, IsSegment u.name ∧ IsWord u.group)
        ∧ (∀ name n, w₀.nodes.get? name = some n → Grouped (linesAt spillingFiles n.file.path))
        ∧ left.1.included = w₀.included ∧ w₀.IsMet "root" ∧ w₀.nodes.get? "root" = some n
        ∧ Store.read spillingFiles n.file.path = .ok lines
        ∧ Store.read left.2 n.file.path = .ok lines' ∧ forms lines' ≠ forms lines := by
  have hwritten : spillingFiles.text? ⟨"/ws/workspace.manifest"⟩
      = some "[\"d\",\"\",[[\"root\",\"\",\"g\"],[\"core\",\"x\\napi project(':y')\\nz\",\"g\"]]]" := by
    decide
  generalize hv : (blank ⟨"/ws"⟩ { buildFile := "settings.gradle" }
    { name := "d", modules := [⟨"root", "", "g"⟩, spillingModule] }).survey
      spillingFiles false = v
  have h : v.InOrder spillingFiles
      ∧ (v.modules = .ofList [("root", ⟨"root", "", "g"⟩), ("core", spillingModule)]
        ∧ v.included = .ofNames ["root"])
      ∧ v.settings = { path := ⟨"/ws/settings.gradle"⟩, snapshot := .ofLines ["include ':root'"] }
      ∧ "root" ∈ v.roots ∧ v.inside "root" = true
      ∧ (v.nodes.get? "root").map (·.file.path) = some v.settings.path := by
    subst hv
    decide +kernel
  obtain ⟨horder, ⟨hmodules, hincluded⟩, hfile, hroot, hinside, hat⟩ := h
  obtain ⟨w₀, t, t', -, hrevisited, hdetour, ⟨hgraph, hbase, -, hsettings⟩, -, -, hrested⟩ :=
    exists_revisited (u := spillingModule) hv
      ((Manifest.load_of_text? hwritten).trans rfl) (by decide) horder (by rw [hmodules]; decide)
      (by rw [hincluded]; decide) (by rw [hfile]; decide)
  rw [← hsettings] at hat
  obtain ⟨n, hn, hpath⟩ := hgraph.exists_node hat
  have hrested := hrested w₀.settings.path "root" ⟨n, hn, congrArg Path.location hpath⟩
  have hlines : linesAt spillingFiles w₀.settings.path = ["include ':root'"] := by
    rw [hsettings, hfile]
    decide
  rw [hlines] at hrested
  have hnone : (declared ["include ':root'"]).get? "y" = none := by decide
  obtain ⟨v', hadd⟩ := hdetour.add
  have hspilt := linesAt_of_editSettings hadd
  rw [hlines, hbase, hsettings, hfile] at hspilt
  have hbrought : ∃ d ∈ (linesAt t w₀.settings.path).filterMap Dependency.ofLine?, d.name = "y" := by
    rw [hsettings, hfile, hspilt]
    decide +kernel
  obtain ⟨d, hd, hname⟩ := hbrought
  have hwritable :
      ((w₀.enlist spillingModule).settings.snapshot.remove "core").Writable IsOneLine := by
    have hfresh : (Snapshot.ofLines ["include ':root'"]).mentions "core" = false := by decide
    rw [enlist, hsettings, hfile]
    exact Snapshot.remove_addExternal hfresh _ ▸ (writable_ofLines _).unbroken.oneLine
  have hleft := hdetour.outlasts hrested.knows hwritable hd (hname ▸ hnone)
  obtain ⟨-, -, -, -, -, hrun⟩ := hrevisited.performed
  change w₀.performAll spillingFiles [.including "core", .excluding "core"]
    = (w₀.revert spillingModule t).comply t' at hrun
  obtain ⟨line, hline, -⟩ := List.mem_filterMap.mp hleft
  have hbefore : Store.read spillingFiles w₀.settings.path = .ok ["include ':root'"] := by
    rw [hsettings, hfile]
    rfl
  have hread := read_of_isSome (isSome_of_mem_linesAt hline)
  rw [← hpath, ← hrun] at hread hleft
  refine ⟨w₀, n, _, _, hrevisited.load, hrevisited.manifest, hrevisited.grouped, ?_,
    (hgraph.isMet_iff _).mpr (.start hroot hinside), hn, hpath ▸ hbefore, hread,
    fun hforms => ?_⟩
  · rw [hrun, included_comply]
    exact (sameGraph_revert hrevisited.out).included
  · have hform : (d.name, d.source) ∈ forms ["include ':root'"] :=
      hforms ▸ List.mem_map.mpr ⟨d, hleft, rfl⟩
    exact absurd hform (by simp [show forms ["include ':root'"] = [] by decide])

end Workspace

end Inclusion
