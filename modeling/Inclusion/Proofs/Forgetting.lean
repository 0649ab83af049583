import Inclusion.Proofs.Deciding

/-!
# What an update forgets

A build file that declares a module as a project says nothing of its version. A node remembers the
version of an artifact while its declaration is a project, but only until the next update: then it
knows just what its file says. So a module that is excluded comes back as an artifact of the version
that the last update found, whatever was known before.

* `Node.Recalls`: what a node knows after an update.
* `Obeys.forgets`: what an update forgets of an included module.
* `spells_restateAll`: what an excluded module comes back as.
* `recalls_of_update`: what updates take over, changes keep and an exclusion writes.
* `exists_forgotten`: a version that an update forgets.
-/
namespace Inclusion

open Text Settings BuildFile

/-- What a dependency says beyond its name and form. -/
def Dependency.coordinates (d : Dependency) : Option String × Option String := (d.group, d.version)

/-- A project says nothing beyond its name. -/
theorem Dependency.coordinates_of_project {line : String} {d : Dependency}
    (h : Dependency.ofLine? line = some d) (hsource : d.source = true) :
    d.coordinates = (none, none) := by
  obtain ⟨declaration, -, hd⟩ := Option.bind_eq_some_iff.mp h
  unfold Declaration.dependency? at hd
  split at hd
  next =>
    obtain ⟨_, -, rfl⟩ := Option.map_eq_some_iff.mp hd
    rfl
  next =>
    obtain ⟨_, -, rfl⟩ := Option.map_eq_some_iff.mp hd
    cases hsource

/-- Whether lines declare a name only as an artifact of a version. -/
def Spells (lines : List String) (name version : String) : Prop :=
  ∀ line ∈ lines, ∀ d, Dependency.ofLine? line = some d → d.name = name →
    d.source = false ∧ d.version = some version

/-- The version that a module comes back with, given what is known of it. -/
def versionOf (known : Dependencies) (name : String) : String :=
  ((known.get? name).bind (·.version)).getD Dependency.unknownVersion

/-- A module that lines declare on source only has no version. -/
theorem versionOf_declared_of_projects {lines : List String} {name : String}
    (h : ∀ line ∈ lines, ∀ d, Dependency.ofLine? line = some d → d.name = name → d.source = true) :
    versionOf (declared lines) name = Dependency.unknownVersion := by
  rw [versionOf]
  cases hlast : (declared lines).get? name with
  | none => rfl
  | some last =>
    obtain ⟨line, hline, hread, hname⟩ := get?_declared hlast
    have hnone : last.version = none :=
      congrArg Prod.snd (Dependency.coordinates_of_project hread (h line hline last hread hname))
    rw [Option.bind_some, hnone, Option.getD_none]

section

variable {policy : Policy} {known : Dependencies} {lines : List String} {name : String}
  (hmodules : WellNamed policy.modules) (hcovers : Covers policy.modules known lines)
  (hmodule : policy.modules.contains name = true)
  (hout : policy.included.contains name = false)

include hmodules hcovers hmodule hout

/-- Where a module that is not included gets restated, it is declared as an artifact of the version that
is known. -/
theorem of_restated?_of_out {line new : String} (hline : line ∈ lines)
    (hrestated : restated? (Node.desired policy known) policy.modules line = some new)
    {d : Dependency} (hd : Dependency.ofLine? new = some d) (hname : d.name = name) :
    d.source = false ∧ d.version = some (versionOf known name) := by
  obtain ⟨found, wanted, hread, hwanted, hsource, rfl⟩ := restated?_eq_some_iff.mp hrestated
  obtain ⟨hsame, -⟩ :=
    of_ofLine?_restate_statementFor hmodules.nameable hcovers hline hread hwanted hsource hd
  obtain rfl : found.name = name := hsame.symm.trans hname
  have hartifact : wanted.source = false := (source_of_desired hwanted hmodule).trans hout
  obtain ⟨hsegment, hspelled, group, hstatement, hgroup⟩ := statementFor_eq_declare
    (fun _ h => h.isGroup) hmodules.titled (fun _ => hmodules.of_turned) hcovers hline hread
    hwanted hsource
  rw [hstatement, Dependency.ofLine?_restate_artifact line hspelled hartifact (hgroup hartifact)
    hsegment, Option.some.injEq] at hd
  obtain ⟨e, he, hwanted⟩ := get?_desired hwanted
  have hversion : wanted.version = e.version := by
    rw [hwanted]
    split <;> rfl
  rw [← hd, versionOf, he, Option.bind_some, hversion]
  exact ⟨rfl, rfl⟩

/-- A module that was declared on source and is no longer included is declared as an artifact of the
version that is known. -/
theorem spells_restateAll (hprojects : ∀ line ∈ lines, ∀ d, Dependency.ofLine? line = some d →
      d.name = name → d.source = true) :
    Spells (restateAll (Node.desired policy known) policy.modules lines).1 name
      (versionOf known name) := by
  intro line' hline' d hd hname
  rw [restateAll_fst] at hline'
  obtain ⟨line, hline, rfl⟩ := List.mem_map.mp hline'
  cases hrestated : restated? (Node.desired policy known) policy.modules line with
  | none =>
    rw [hrestated, Option.getD_none] at hd
    obtain ⟨e, he, -⟩ := hcovers line hline d hd
    have hwanted : (Node.desired policy known).get? d.name = _ := get?_desired_of_get? he
    have hform := restated?_eq_none_iff.mp hrestated d hd _ hwanted
    rw [source_of_desired hwanted (hname ▸ hmodule), hprojects line hline d hd hname, hname,
      hout] at hform
    cases hform
  | some new =>
    rw [hrestated, Option.getD_some] at hd
    exact of_restated?_of_out hmodules hcovers hmodule hout hline hrestated hd hname

end

namespace Node

/-- Whether a node knows of each dependency what the last declaration of its name among lines says, and
of no other one. -/
def Recalls (n : Node) (lines : List String) : Prop :=
  ∀ name, (n.all.get? name).map Dependency.coordinates
    = ((declared lines).get? name).map Dependency.coordinates

theorem coordinates_desired (policy : Policy) (known : Dependencies) (name : String) :
    ((desired policy known).get? name).map Dependency.coordinates
      = (known.get? name).map Dependency.coordinates := by
  rw [desired, NameMap.get?_mapValues, Option.map_map]
  refine congrArg (Option.map · _) (funext fun d => ?_)
  rw [Function.comp_apply]
  split <;> rfl

/-- A policy changes nothing of what a node knows but forms. -/
theorem Restyled.coordinates_eq {policy : Policy} {n n' : Node} (h : Restyled policy n n')
    (name : String) :
    (n'.all.get? name).map Dependency.coordinates
      = (n.all.get? name).map Dependency.coordinates := by
  rcases h.all with h | h
  · rw [h]
  · rw [h, coordinates_desired]

end Node

namespace Workspace

variable {base : Path} {config : Config} {w w' w₀ : Workspace} {s s' : Shelf} {path : Path}
  {known : Dependencies} {names : List String} {name : String} {n : Node}

theorem recalls_update (h : w.Sound) {keep : Bool}
    (hn : (w.update s keep).1.nodes.get? name = some n) :
    n.Recalls (linesAt s n.file.path) := by
  obtain ⟨m, hm, hstyle⟩ := exists_of_get?_comply hn
  intro k
  rw [hstyle.coordinates_eq, all_of_survey h hm, hstyle.path]

/-- After an update every module of the manifest has a node. -/
theorem exists_node_of_listed (h : w.Sound) (s : Shelf) (keep : Bool) {u : Manifest.Module}
    (hu : w.listing.get? name = some u) :
    ∃ n, (w.update s keep).1.nodes.get? name = some n
      ∧ n.file.path = Node.buildPath w.base u.path w.config.buildFile := by
  obtain ⟨m, hm, hpath⟩ := exists_node_of_survey h s keep hu
  obtain ⟨n, hn, hstyle⟩ := exists_restyled_comply s hm
  exact ⟨n, hn, hstyle.path.trans hpath⟩

/-- Changes keep what the nodes know. -/
theorem exists_node_of_perform {c : Change} {n' : Node}
    (hn' : (w.perform s c).2.1.nodes.get? name = some n') :
    ∃ n, w.nodes.get? name = some n ∧ n'.file.path = n.file.path
      ∧ ∀ k, (n'.all.get? k).map Dependency.coordinates
        = (n.all.get? k).map Dependency.coordinates := by
  generalize hr : w.perform s c = r at hn'
  cases hr ▸ outcome_perform w s c with
  | unlisted => exact ⟨n', hn', rfl, fun _ => rfl⟩
  | refused => exact ⟨n', hn', rfl, fun _ => rfl⟩
  | dropped => exact ⟨n', hn', rfl, fun _ => rfl⟩
  | @enforced u =>
    obtain ⟨n, hn, hstyle⟩ := exists_of_get?_comply hn'
    have hnodes : (c.taken w u).nodes = w.nodes := by cases c <;> rfl
    exact ⟨n, hnodes ▸ hn, hstyle.path, hstyle.coordinates_eq⟩

theorem exists_node_of_performAll {changes : List Change} {n' : Node}
    (hn' : (w.performAll s changes).1.nodes.get? name = some n') :
    ∃ n, w.nodes.get? name = some n ∧ n'.file.path = n.file.path
      ∧ ∀ k, (n'.all.get? k).map Dependency.coordinates
        = (n.all.get? k).map Dependency.coordinates := by
  induction changes generalizing w s with
  | nil => exact ⟨n', hn', rfl, fun _ => rfl⟩
  | cons c changes ih =>
    obtain ⟨m, hm, hpath, hknown⟩ := ih hn'
    obtain ⟨n, hn, hpath', hknown'⟩ := exists_node_of_perform hm
    exact ⟨n, hn, hpath.trans hpath', fun k => (hknown k).trans (hknown' k)⟩

/-- So what the nodes know after any changes is what the last update read. -/
theorem recalls_performAll (h : w.Sound) {keep : Bool} {changes : List Change}
    (hupdate : w.update s keep = (w₀, s'))
    (hn : (w₀.performAll s' changes).1.nodes.get? name = some n) :
    n.Recalls (linesAt s n.file.path) := by
  obtain ⟨m, hm, hpath, hknown⟩ := exists_node_of_performAll hn
  obtain rfl : (w.update s keep).1 = w₀ := congrArg Prod.fst hupdate
  intro k
  rw [hknown, hpath]
  exact recalls_update h hm k

/-- A file that obeys the policy says nothing of an included module but its name. -/
theorem Obeys.coordinates_of_included (h : w.Obeys s path known names)
    (hmodule : w.modules.contains name = true) (hin : w.included.contains name = true)
    (henforces : w.Enforces path) (hname : name ∈ names) :
    ((declared (linesAt s path)).get? name).map Dependency.coordinates = some (none, none) := by
  obtain ⟨last, hlast⟩ := Option.isSome_iff_exists.mp
    (contains_declared_iff.mpr (h.names.symm ▸ hname) :)
  obtain ⟨line, hline, hread, rfl⟩ := get?_declared hlast
  obtain ⟨wanted, hwanted, hsource⟩ := h.rest henforces line hline last hread
  rw [source_of_desired hwanted hmodule] at hsource
  rw [hlast, Option.map_some, Dependency.coordinates_of_project hread (hsource.symm.trans hin)]

/-- So the next update forgets what was known of it. -/
theorem Obeys.forgets (h : w.Obeys s path known names) (hsound : w.Sound)
    (hmodule : w.modules.contains name = true) (hin : w.included.contains name = true)
    (henforces : w.Enforces path) (hname : name ∈ names) {keep : Bool} {node : String}
    (hn : (w.update s keep).1.nodes.get? node = some n) (hpath : n.file.path = path) :
    (n.all.get? name).map Dependency.coordinates = some (none, none) := by
  rw [recalls_update hsound hn name, hpath, h.coordinates_of_included hmodule hin henforces hname]

/-- What is met without a module is met with it. -/
theorem Enforces.of_release {u : Manifest.Module} (h : (w.release u).Enforces path) :
    w.Enforces path := by
  have hmore : ∀ k, (w.release u).included.contains k = true → w.included.contains k = true := by
    intro k hk
    rw [release, NameMap.contains_erase, Bool.and_eq_true] at hk
    exact hk.2
  exact SameGraph.enforces_iff ⟨rfl, rfl, rfl, rfl⟩ |>.mp (h.mono hmore)

/-- What a pass writes once a module is no longer included. -/
theorem Obeys.spells_of_release (h : w.Obeys s path known names) (hmodules : WellNamed w.modules)
    {u : Manifest.Module} (hu : w.modules.get? u.name = some u)
    (hin : w.included.contains u.name = true)
    (hlines : (linesAt s' path).filterMap Dependency.ofLine?
      = (linesAt s path).filterMap Dependency.ofLine?) (henforces : (w.release u).Enforces path) :
    Spells (linesAt ((w.release u).comply s').2 path) u.name (versionOf known u.name) := by
  have hmodule : w.modules.contains u.name = true := by simp [NameMap.contains, hu]
  have hcovers : Covers w.modules known (linesAt s' path) := h.covers.congr hlines
  have hout : (w.release u).policy.included.contains u.name = false := by
    change (w.included.erase u.name).contains u.name = false
    rw [NameMap.contains_erase, bne_self_eq_false, Bool.false_and]
  rw [linesAt_comply_of_enforces (w := w.release u) hmodules.nameable h.knows hcovers henforces]
  refine spells_restateAll hmodules hcovers hmodule hout fun line hline d hread hname => ?_
  obtain ⟨wanted, hwanted, hsource⟩ := (h.rest henforces.of_release).congr hlines line hline d hread
  rw [← hsource, source_of_desired hwanted (hname ▸ hmodule), hname]
  exact hin

/-- What excluding a module writes. -/
theorem OnCourse.spells_of_exclude (hmodules : WellNamed w₀.modules)
    (h : OnCourse w₀ path known names w s) (hin : w.included.contains name = true)
    (hexclude : w.perform s (.excluding name) = (.ok (), w', s')) (henforces : w'.Enforces path) :
    Spells (linesAt s' path) name (versionOf known name) := by
  have hwell : WellNamed w.modules := h.akin.modules ▸ hmodules
  have houtcome := outcome_perform w s (.excluding name)
  rw [hexclude] at houtcome
  generalize hr : (Except.ok (), w', s') = r at houtcome
  cases houtcome with
  | unlisted => cases hr
  | refused => cases hr
  | @dropped u _ _ _ hu _ _ hout =>
    rw [hwell.titled _ u hu] at hout
    exact absurd (hin.symm.trans hout) (by decide)
  | @enforced u v t hu hedit =>
    have hpass := (Prod.mk.inj hr).2
    obtain rfl : w' = _ := congrArg Prod.fst hpass
    obtain rfl : s' = _ := congrArg Prod.snd hpass
    change w.modules.get? name = some u at hu
    obtain rfl : u.name = name := hwell.titled _ u hu
    obtain ⟨hlines, -⟩ := h.of_editSettings (fun _ => binds_excluding w₀ u.name) hu hedit
    exact h.spells_of_release hwell hu hin hlines
      ((sameGraph_comply (w.release u) t).enforces_iff.mp henforces)

/-- After an update or a reload, a node knows of each dependency just the group and the version that its
build file gave then. Including and excluding modules changes nothing of that. So however modules
were changed since an update, once one is excluded, the build file of each node that is met declares
what it declared after the update, and that module as an artifact of the version that the update
found, which for a project is none. If that file is the settings file too, the directories of the
modules that were included on the way must not break its lines. -/
theorem recalls_of_update {w : Workspace} (hstart : Starts base config w) (s : Shelf) :
    (∀ keep name n, (w.update s keep).1.nodes.get? name = some n →
        n.Recalls (linesAt s n.file.path))
      ∧ (∀ keep w' s', w.reload s keep = .ok (w', s') → ∀ name n, w'.nodes.get? name = some n →
        n.Recalls (linesAt s n.file.path))
      ∧ ∀ keep w₀ s₀, w.update s keep = (w₀, s₀) →
        ∀ changes w₁ s₁, w₀.performAll s₀ changes = (w₁, s₁) →
        (∀ name n, w₁.nodes.get? name = some n → n.Recalls (linesAt s n.file.path))
        ∧ ((∀ u ∈ w₀.manifest.modules, IsSegment u.name ∧ IsWord u.group) →
          (∀ name n, w₀.nodes.get? name = some n → Grouped (linesAt s₀ n.file.path)) →
          ∀ module w₂ s₂, w₁.included.contains module = true →
          w₁.perform s₁ (.excluding module) = (.ok (), w₂, s₂) →
          ∀ name n, w₂.IsMet name → w₂.nodes.get? name = some n →
          (n.file.path.Same w₀.settings.path →
            ∀ name u, .including name ∈ changes → w₀.modules.get? name = some u →
              '\n' ∉ (w₀.base.resolve u.path).text.toList) →
          declaredNames (linesAt s₂ n.file.path) = declaredNames (linesAt s₀ n.file.path)
            ∧ Spells (linesAt s₂ n.file.path) module
              (versionOf (declared (linesAt s n.file.path)) module)
            ∧ ((∀ line ∈ linesAt s n.file.path, ∀ d, Dependency.ofLine? line = some d →
                d.name = module → d.source = true) →
              Spells (linesAt s₂ n.file.path) module Dependency.unknownVersion)) := by
  have hsound := hstart.fits.sound
  refine ⟨fun keep name n hn => recalls_update hsound hn, ?_, ?_⟩
  · intro keep w' s' hreload name n hn
    obtain ⟨manifest, -, hr⟩ := reload_eq_ok_iff.mp hreload
    rw [(Prod.mk.inj hr).1] at hn
    exact recalls_update (hsound.adopt manifest) hn
  · intro keep w₀ s₀ hupdate changes w₁ s₁ hchanges
    obtain rfl : (w₀.performAll s₀ changes).1 = w₁ := congrArg Prod.fst hchanges
    obtain rfl : (w₀.performAll s₀ changes).2 = s₁ := congrArg Prod.snd hchanges
    refine ⟨fun name n => recalls_performAll hsound hupdate, ?_⟩
    intro hmanifest hgrouped module w₂ s₂ hin hexclude name n hmet hn hdirectories
    obtain ⟨hknown, hmodules, hrested⟩ := known_rested_update hsound hupdate
      (wellNamed_listing_of_update hupdate hmanifest) hgrouped
    have hakin := (lasting_akin w₀).perform _ (w₀.performAll s₀ changes).2 (.excluding module)
      (akin_performAll w₀ s₀ changes)
    rw [hexclude] at hakin
    have hat : w₀.IsAt name n.file.path.location := hakin.isAt_iff.mp ⟨n, hn, rfl⟩
    have hcourse := hknown.onCourse ((hrested _ name hat).obeys hmodules)
    have hbinds : n.file.path.Same w₀.settings.path → ∀ c ∈ changes, w₀.Binds c :=
      fun hpath c hc => hknown.binds (fun u hu => (hmanifest u hu).1)
        fun name u heq hu => hdirectories hpath name u (heq ▸ hc) hu
    have hcourse := hcourse.performAll hmodules hbinds
    have hspells := hcourse.spells_of_exclude hmodules hin hexclude ⟨name, hmet, n, hn, rfl⟩
    have hcourse := hcourse.perform hmodules fun _ => binds_excluding w₀ module
    rw [hexclude] at hcourse
    exact ⟨hcourse.names, hspells, fun hprojects => versionOf_declared_of_projects hprojects ▸ hspells⟩

/-- The other module is included and excluded again, and its version comes back. -/
theorem recalls_of_update_artifact :
    ∃ (w₀ w₁ w₂ : Workspace) (s₁ s₂ : Shelf),
      Workspace.load pinnedFiles ⟨"/ws"⟩ {} = .ok (w₀, pinnedFiles)
        ∧ w₀.perform pinnedFiles (.including "core") = (.ok (), w₁, s₁)
        ∧ w₁.perform s₁ (.excluding "core") = (.ok (), w₂, s₂)
        ∧ declaredNames (linesAt s₂ ⟨"/ws/app/build.gradle"⟩) = ["core"]
        ∧ Spells (linesAt s₂ ⟨"/ws/app/build.gradle"⟩) "core" "1.0" := by
  obtain ⟨w₀, h⟩ := exists_pinned
  obtain ⟨w₁, s₁, w₂, s₂, hinclude, hexclude, honce, hboth⟩ := h.performed
  have hincluded := h.included_performAll [.including "core"]
  have hincluded' := h.included_performAll [.including "core", .excluding "core"]
  have hakin := akin_performAll w₀ pinnedFiles [.including "core", .excluding "core"]
  rw [honce] at hincluded
  rw [hboth] at hincluded' hakin
  obtain ⟨n, hn, hpath⟩ := hakin.exists_node h.node
  obtain ⟨-, -, hreturns⟩ := recalls_of_update (.blank pinnedManifest) pinnedFiles
  obtain ⟨-, hreturns⟩ := hreturns false w₀ pinnedFiles h.update [.including "core"] w₁ s₁ honce
  obtain ⟨hnames, hspells, -⟩ := hreturns h.named h.grouped "core" w₂ s₂ (by rw [hincluded]; decide)
    hexclude "app" n (h.isMet hakin (by rw [hincluded']; decide)) hn
    fun hsame => absurd (hpath ▸ hsame) h.not_same_settings
  have hversion : versionOf (declared (linesAt pinnedFiles ⟨"/ws/app/build.gradle"⟩)) "core"
      = "1.0" := by decide +kernel
  rw [hpath] at hnames hspells
  rw [hversion] at hspells
  exact ⟨w₀, w₁, w₂, s₁, s₂, h.load, hinclude, hexclude, hnames.trans (by decide +kernel), hspells⟩

/-- If an update comes in between, the node knew the version before it and no longer knows it
afterwards, though the file declares the module before and after. -/
theorem exists_forgotten :
    ∃ (w₀ w₁ : Workspace) (s₁ : Shelf) (n₁ n₂ : Node) (d₁ d₂ : Dependency),
      Workspace.load pinnedFiles ⟨"/ws"⟩ {} = .ok (w₀, pinnedFiles)
        ∧ w₀.perform pinnedFiles (.including "core") = (.ok (), w₁, s₁)
        ∧ w₁.nodes.get? "app" = some n₁ ∧ n₁.all.get? "core" = some d₁ ∧ d₁.version = some "1.0"
        ∧ "core" ∈ declaredNames (linesAt s₁ n₁.file.path)
        ∧ (w₁.update s₁ true).1.nodes.get? "app" = some n₂ ∧ n₂.file.path = n₁.file.path
        ∧ n₂.all.get? "core" = some d₂ ∧ d₂.version = none := by
  obtain ⟨w₀, h⟩ := exists_pinned
  obtain ⟨w₁, s₁, -, -, hinclude, -, honce, -⟩ := h.performed
  have hincluded := h.included_performAll [.including "core"]
  have hakin := akin_performAll w₀ pinnedFiles [.including "core"]
  rw [honce] at hincluded hakin
  have hin : w₁.included.contains "core" = true := by rw [hincluded]; decide
  have hmet := h.isMet hakin (by rw [hincluded]; decide)
  obtain ⟨n₁, hn₁, hpath⟩ := hakin.exists_node h.node
  have hread : linesAt pinnedFiles n₁.file.path = ["api 'g:core:1.0'"] := by
    rw [hpath]
    decide
  -- what the node knew
  have hfits := Fits.blank ⟨"/ws"⟩ {} pinnedManifest
  have hknew := recalls_performAll hfits.sound h.update (honce.symm ▸ hn₁) "core"
  rw [hread] at hknew
  obtain ⟨d₁, hd₁, hversion⟩ := Option.map_eq_some_iff.mp (hknew.trans
    (by decide : _ = some (some "g", some "1.0")))
  -- what its file says now
  obtain ⟨hknown, hmodules, hrested⟩ := known_rested_update hfits.sound h.update
    (wellNamed_listing_of_update h.update h.named) h.grouped
  have hat : w₀.IsAt "app" n₁.file.path.location := hakin.isAt_iff.mp ⟨n₁, hn₁, rfl⟩
  have hcourse := (hknown.onCourse ((hrested _ "app" hat).obeys hmodules)).perform hmodules
    (c := .including "core") fun hsame => absurd (hpath ▸ hsame) h.not_same_settings
  rw [hinclude, hread] at hcourse
  have hname : "core" ∈ declaredNames ["api 'g:core:1.0'"] := by decide +kernel
  -- and what the node knows then
  have hstart := hfits.update pinnedFiles false
  rw [h.update] at hstart
  have hfits₁ := (lasting_fits ⟨"/ws"⟩ {}).perform w₀ pinnedFiles (.including "core") hstart
  rw [hinclude] at hfits₁
  have hlisted : w₁.listing.get? "app" = some ⟨"app", "app", "g"⟩ := by
    rw [listing, hakin.manifest, h.manifest]
    decide
  obtain ⟨n₂, hn₂, hplace⟩ := exists_node_of_listed hfits₁.sound s₁ true hlisted
  rw [hfits₁.base, hfits₁.config] at hplace
  have hpath₂ : n₂.file.path = n₁.file.path := hplace.trans hpath.symm
  obtain ⟨d₂, hd₂, hforgotten⟩ := Option.map_eq_some_iff.mp (hcourse.forgets hfits₁.sound
    (by rw [hakin.modules, h.modules]; decide) hin ⟨"app", hmet, n₁, hn₁, rfl⟩ hname hn₂ hpath₂)
  refine ⟨w₀, w₁, s₁, n₁, n₂, d₁, d₂, h.load, hinclude, hn₁, hd₁, congrArg Prod.snd hversion, ?_, hn₂,
    hpath₂, hd₂, congrArg Prod.snd hforgotten⟩
  rw [hcourse.names]
  exact hname

end Workspace

end Inclusion
