import Inclusion.Proofs.Detour

/-!
# Files that come back

Once an update has settled the files, a module can be included and excluded again without a trace: the
build files of the nodes that are met and the settings file are byte for byte what they were. That
takes declarations of the module that say nothing but what the nodes remember, and settings that are
in line with what they say.

* `known_rested_update`: what is known of the files after an update.
* `restored_of_include_exclude`: which files come back.
* `loses_of_include_exclude`: files that do not.
-/
namespace Inclusion

open Text Settings BuildFile

namespace Workspace

variable {base : Path} {config : Config} {w : Workspace} {s : Shelf} {u : Manifest.Module}

/-! ### Files in which artifacts have groups -/

/-- A line that is not restated is still there after a pass, whatever becomes of the others. -/
theorem mem_linesAt_comply {path : Path} {known : Dependencies}
    (hshares : w.Shares path.location known) {line : String} (hline : line ∈ linesAt s path)
    (hkept : restated? (Node.desired w.policy known) w.policy.modules line = none) :
    line ∈ linesAt (w.comply s).2 path := by
  have hall : ∀ (names : List String) (w : Workspace) (s : Shelf), w.Shares path.location known →
      restated? (Node.desired w.policy known) w.policy.modules line = none →
      line ∈ linesAt s path → line ∈ linesAt (w.enforceAll s names).2 path := by
    intro names
    induction names with
    | nil => exact fun w s _ _ hline => hline
    | cons name names ih =>
      intro w s hshares hkept hline
      refine ih (w.enforceOn s name).1 (w.enforceOn s name).2 (hshares.enforceOn s name)
        (by rw [policy_enforceOn]; exact hkept) ?_
      classical
      have htext : (w.enforceOn s name).2.text? path = _ := textAt_enforceOn hshares s name
      rw [linesAt_eq] at hline ⊢
      rw [htext]
      split
      next =>
        cases hold : s.text? path with
        | none => simp [hold] at hline
        | some text =>
          have hold' : s.textAt path.location = some text := hold
          rw [hold, Option.map_some, Option.getD_some] at hline
          rw [hold', Option.map_some, Option.map_some, Option.getD_some, restateText]
          refine mem_splitLines_joinLines ?_ (lineFeed_not_mem_of_mem_splitLines hline)
          rw [restateAll_fst]
          exact List.mem_map.mpr ⟨line, hline, by rw [hkept, Option.getD_none]⟩
      next => exact hline
  exact hall w.visitOrder w s hshares hkept hline

/-- If all artifacts have groups after an update, nothing was left open when the files were read. -/
theorem follows_survey_of_grouped (h : w.Sound) {keep : Bool}
    (hgrouped : ∀ name n, (w.update s keep).1.nodes.get? name = some n →
      Grouped (linesAt (w.update s keep).2 n.file.path)) :
    (w.survey s keep).Follows s s := by
  intro name n hn
  have hknown : ∀ name n, (w.survey s keep).nodes.get? name = some n →
      n.all = declared (linesAt s n.file.path) := fun _ _ hn => all_of_survey h hn
  refine ⟨fun _ => by rw [← hknown name n hn], fun line hline found hread => ?_, rfl⟩
  obtain ⟨last, hlast, line', hline', hread', hname⟩ := exists_get?_declared hline hread
  refine ⟨last, hlast, hname, .of_ofLine? hread', fun _ hartifact hgroup => ?_⟩
  by_contra hmodule
  -- the last declaration of the name is not restated, so it is still there without a group
  have hshares : (w.survey s keep).Shares n.file.path.location
      (declared (linesAt s n.file.path)) := by
    intro name' n' hn' hl
    rw [hknown name' n' hn', linesAt_of_same hl]
  have hkept : restated? (Node.desired (w.survey s keep).policy (declared (linesAt s n.file.path)))
      (w.survey s keep).policy.modules line' = none := by
    refine restated?_eq_none_iff.mpr fun found' hfound wanted hwanted => ?_
    rw [hread', Option.some.injEq] at hfound
    subst hfound
    have hother : ¬(w.survey s keep).policy.modules.contains found.name = true := hmodule
    rw [hname, get?_desired_of_get? hlast, if_neg hother, Option.some.injEq] at hwanted
    rw [hwanted]
  obtain ⟨n', hn', hstyle⟩ := exists_restyled_comply s hn
  exact hgrouped name n' hn' line' (hstyle.path ▸ mem_linesAt_comply hshares hline' hkept) last
    hread' hartifact hgroup

/-- A module that is not included is not registered. -/
theorem Known.not_mem_all (h : w.Known s) (hu : w.modules.get? u.name = some u)
    (hout : w.included.contains u.name = false) : u.name ∉ w.settings.snapshot.all := fun hmem => by
  have hregisters := h.accounted.registers u.name
  rw [hout] at hregisters
  simp [hmem, NameMap.contains, hu] at hregisters

theorem wellNamed_listing_of_update {w₀ : Workspace} {s₀ : Shelf} {keep : Bool}
    (hupdate : w.update s keep = (w₀, s₀))
    (hmanifest : ∀ u ∈ w₀.manifest.modules, IsSegment u.name ∧ IsWord u.group) :
    WellNamed w.listing := by
  have hw : (w.update s keep).1 = w₀ := congrArg Prod.fst hupdate
  rw [← hw, update, manifest_comply, manifest_survey] at hmanifest
  exact wellNamed_listing fun u hu _ => hmanifest u hu

/-- What holds after an update that leaves no artifact without a group. -/
theorem known_rested_update {w₀ : Workspace} {s₀ : Shelf} {keep : Bool} (h : w.Sound)
    (hupdate : w.update s keep = (w₀, s₀)) (hmodules : WellNamed w.listing)
    (hgrouped : ∀ name n, w₀.nodes.get? name = some n → Grouped (linesAt s₀ n.file.path)) :
    w₀.Known s₀ ∧ WellNamed w₀.modules
      ∧ ∀ path name, w₀.IsAt name path.location → w₀.Rested s₀ path (linesAt s path) := by
  obtain rfl : (w.update s keep).1 = w₀ := congrArg Prod.fst hupdate
  obtain rfl : (w.update s keep).2 = s₀ := congrArg Prod.snd hupdate
  have hfollows := follows_survey_of_grouped h hgrouped
  have hsurvey : WellNamed (w.survey s keep).modules := modules_survey w s keep ▸ hmodules
  refine ⟨(known_survey h s keep).comply hfollows hsurvey, ?_,
    fun path name => rested_comply hsurvey hfollows⟩
  rw [update, modules_comply]
  exact hsurvey

/-! ### Files that are in order -/

/-- Whether all declarations in the build files have groups, and those in the build files of nodes
inside are in the form that the policy asks for. -/
def InOrder (v : Workspace) (s : Shelf) : Prop :=
  ∀ e ∈ v.nodes.entries, ∀ d ∈ (linesAt s e.2.file.path).filterMap Dependency.ofLine?,
    d.group ≠ none ∧ (v.inside e.1 = true →
      ((Node.desired v.policy (declared (linesAt s e.2.file.path))).get? d.name).map (·.source)
        = some d.source)

instance (v : Workspace) (s : Shelf) : Decidable (v.InOrder s) :=
  inferInstanceAs (Decidable (∀ e ∈ v.nodes.entries,
    ∀ d ∈ (linesAt s e.2.file.path).filterMap Dependency.ofLine?,
      d.group ≠ none ∧ (v.inside e.1 = true →
        ((Node.desired v.policy (declared (linesAt s e.2.file.path))).get? d.name).map (·.source)
          = some d.source)))

/-- Whether a load writes nothing, and what a module that is not included then leaves when it is
included and excluded again. -/
structure Revisited (s : Shelf) (config : Config) (u : Manifest.Module) (w₀ w₂ : Workspace)
    (s₂ : Shelf) : Prop where
  load : Workspace.load s ⟨"/ws"⟩ config = .ok (w₀, s)
  manifest : ∀ u ∈ w₀.manifest.modules, IsSegment u.name ∧ IsWord u.group
  grouped : ∀ name n, w₀.nodes.get? name = some n → Grouped (linesAt s n.file.path)
  listed : w₀.modules.get? u.name = some u
  out : w₀.included.contains u.name = false
  changed : ∃ w₁ s₁, w₀.includeModule s u.name = (.ok (), w₁, s₁)
    ∧ w₁.excludeModule s₁ u.name = (.ok (), w₂, s₂)

namespace InOrder

variable {v : Workspace} (h : v.InOrder s)

include h

theorem of_ofLine? {name : String} {n : Node} (hn : v.nodes.get? name = some n) {line : String}
    (hline : line ∈ linesAt s n.file.path) {d : Dependency} (hread : Dependency.ofLine? line = some d) :
    d.group ≠ none ∧ (v.inside name = true →
      ((Node.desired v.policy (declared (linesAt s n.file.path))).get? d.name).map (·.source)
        = some d.source) :=
  h (name, n) (NameMap.mem_entries_iff.mpr hn) d (List.mem_filterMap.mpr ⟨line, hline, hread⟩)

theorem atRest : v.AtRest s := by
  intro name x hmet hx line hline d hread
  rw [get?_shape] at hx
  obtain ⟨n, hn, rfl⟩ := Option.map_eq_some_iff.mp hx
  have hinside : v.inside name = true := inside_of_mem_visitOrder (mem_visitOrder_iff.mpr hmet)
  exact Option.map_eq_some_iff.mp ((h.of_ofLine? hn hline hread).2 hinside)

theorem grouped_comply (name : String) (n' : Node)
    (hn' : (v.comply s).1.nodes.get? name = some n') : Grouped (linesAt s n'.file.path) := by
  intro line hline d hread _
  obtain ⟨n, hn, hstyle⟩ := exists_of_get?_comply hn'
  exact (h.of_ofLine? hn (hstyle.path ▸ hline) hread).1

end InOrder

/-- Files that are in order are left as they are by a load, and a module can be included after it and
excluded again. -/
theorem exists_revisited {manifest : Manifest} {v : Workspace}
    (hv : (blank ⟨"/ws"⟩ config manifest).survey s false = v)
    (hload : Manifest.load s (manifestPath ⟨"/ws"⟩ config) = .ok manifest)
    (hmanifest : ∀ u ∈ manifest.modules, IsSegment u.name ∧ IsWord u.group)
    (horder : v.InOrder s) (hu : v.modules.get? u.name = some u)
    (hout : v.included.contains u.name = false) (hread : (s.text? v.settings.path).isSome) :
    ∃ w₀ t t', (blank ⟨"/ws"⟩ config manifest).update s false = (w₀, s)
      ∧ Revisited s config u w₀ ((w₀.revert u t).comply t').1 ((w₀.revert u t).comply t').2
      ∧ w₀.Detour s u t t'
      ∧ (v.SameGraph w₀ ∧ w₀.base = ⟨"/ws"⟩ ∧ w₀.modules = v.modules ∧ w₀.settings = v.settings)
      ∧ WellNamed w₀.modules ∧ w₀.Known s
      ∧ ∀ path name, w₀.IsAt name path.location → w₀.Rested s path (linesAt s path) := by
  have hsound := (Fits.blank ⟨"/ws"⟩ config manifest).sound
  have hsame : (v.comply s).2 = s :=
    comply_of_atRest horder.atRest fun name n hn => all_of_survey hsound (hv ▸ hn)
  have hupdate : (blank ⟨"/ws"⟩ config manifest).update s false = ((v.comply s).1, s) := by
    rw [update, hv]
    exact Prod.ext rfl hsame
  obtain ⟨hknown, hmodules, hrested⟩ := known_rested_update hsound hupdate
    (wellNamed_listing fun u hu _ => hmanifest u hu) horder.grouped_comply
  have hu' : (v.comply s).1.modules.get? u.name = some u := by rw [modules_comply, hu]
  have hout' : (v.comply s).1.included.contains u.name = false := by rw [included_comply, hout]
  obtain ⟨w₁, s₁, w₂, s₂, hinclude, hexclude⟩ := exists_include_exclude hu'
    (by rw [settings_comply]; exact hread)
  obtain ⟨t, t', hdetour, -, hcomply⟩ := of_include_exclude hu' hout' hinclude hexclude
  refine ⟨(v.comply s).1, t, t', hupdate, ⟨load_eq_ok_iff.mpr ⟨manifest, hload, hupdate.symm⟩, ?_,
    horder.grouped_comply, hu', hout', w₁, s₁, hinclude, by rw [hcomply, hexclude]⟩, hdetour,
    ⟨sameGraph_comply v s, ?_, modules_comply v s, settings_comply v s⟩, hmodules, hknown,
    hrested⟩
  · rw [manifest_comply, ← hv, manifest_survey]
    exact hmanifest
  · rw [base_comply, ← hv, base_survey]
    rfl

/-! ### What comes back -/

/-- Right after an update, including a module and excluding it again gives back the build file of every
node that is met, if it is not the settings file too and declares the module at most once, by a line
that is an artifact of a version and nothing else. It also gives back the settings file, if that is
in line with what it says and the directory of the module can be read there, unless the settings file
is the build file of a node that is met while the module is included: then such a node must have been
met before, and what holds of the other build files must hold of this one. -/
theorem restored_of_include_exclude {w w₀ w₁ w₂ : Workspace} {s s₀ s₁ s₂ : Shelf} {keep : Bool}
    (hstart : Starts base config w) (hupdate : w.update s keep = (w₀, s₀))
    (hmanifest : ∀ u ∈ w₀.manifest.modules, IsSegment u.name ∧ IsWord u.group)
    (hgrouped : ∀ name n, w₀.nodes.get? name = some n → Grouped (linesAt s₀ n.file.path))
    {u : Manifest.Module} (hu : w₀.modules.get? u.name = some u)
    (hout : w₀.included.contains u.name = false)
    (hinclude : w₀.includeModule s₀ u.name = (.ok (), w₁, s₁))
    (hexclude : w₁.excludeModule s₁ u.name = (.ok (), w₂, s₂)) :
    (∀ name n, w₀.IsMet name → w₀.nodes.get? name = some n →
        ¬n.file.path.Same w₀.settings.path → DeclaresOnce u (linesAt s₀ n.file.path) →
        s₂.text? n.file.path = s₀.text? n.file.path)
      ∧ (reconcile (linesAt s₀ w₀.settings.path) (.ofLines (linesAt s₀ w₀.settings.path))
            = linesAt s₀ w₀.settings.path →
          IsDirectory (w₀.base.resolve u.path).text →
          (w₁.Enforces w₀.settings.path → w₀.Enforces w₀.settings.path
            ∧ DeclaresOnce u (linesAt s₀ w₀.settings.path)) →
          s₂.text? w₀.settings.path = s₀.text? w₀.settings.path) := by
  obtain ⟨hknown, hmodules, hrested⟩ := known_rested_update hstart.fits.sound hupdate
    (wellNamed_listing_of_update hupdate hmanifest) hgrouped
  obtain ⟨t, t', hdetour, hcomply, hcomply'⟩ := of_include_exclude hu hout hinclude hexclude
  obtain rfl : ((w₀.enlist u).comply t).1 = w₁ := congrArg Prod.fst hcomply
  obtain rfl : ((w₀.revert u t).comply t').2 = s₂ := congrArg Prod.snd hcomply'
  refine ⟨fun name n hmet hn hpath honce => ?_, fun hfixed hdirectory hbuild => ?_⟩
  · have hat : w₀.IsAt name n.file.path.location := ⟨n, hn, rfl⟩
    have hrested := hrested _ name hat
    refine text?_eq_of_linesAt ?_
    rw [hdetour.linesAt_of_not_settings hmodules hrested ⟨name, hmet, hat⟩ hpath]
    exact restateAll_restateAll_of_declaresOnce hmodules hu hout hrested.covers
      (hrested.rest ⟨name, hmet, hat⟩) honce
  · obtain ⟨v, hadd⟩ := hdetour.add
    have hsnapshot := hknown.snapshot _ (read_of_editSettings hadd)
    have hname : IsSegment u.name := (hmanifest u (of_get?_listing (hknown.modules ▸ hu)).2).1
    refine text?_eq_of_linesAt (hdetour.linesAt_settings hsnapshot
      (hsnapshot ▸ hknown.not_mem_all hu hout) hname hdirectory hfixed hmodules fun hmet => ?_)
    obtain ⟨hbefore, honce⟩ := hbuild ((sameGraph_comply (w₀.enlist u) t).enforces_iff.mpr hmet)
    refine ⟨hbefore, honce, ?_⟩
    obtain ⟨name, -, hat⟩ := hbefore
    exact ⟨_, hrested _ name hat⟩

/-- A project that depends on a module which is not included, on a line with an indent and a carriage
return. -/
def indentedFiles : Shelf := .ofFiles
  [ ("/ws/workspace.manifest", "[\"d\",\"\",[[\"core\",\"core\",\"g\"]]]"),
    ("/ws/settings.gradle", "include ':app'\n"),
    ("/ws/app/build.gradle", "\tapi \"g:core:1.0\"\r\n") ]

theorem restored_of_include_exclude_indented :
    ∃ (w₀ w₁ w₂ : Workspace) (s₁ s₂ : Shelf),
      Workspace.load indentedFiles ⟨"/ws"⟩ {} = .ok (w₀, indentedFiles)
        ∧ w₀.includeModule indentedFiles "core" = (.ok (), w₁, s₁)
        ∧ w₁.excludeModule s₁ "core" = (.ok (), w₂, s₂)
        ∧ s₂.text? ⟨"/ws/app/build.gradle"⟩ = indentedFiles.text? ⟨"/ws/app/build.gradle"⟩
        ∧ s₂.text? ⟨"/ws/settings.gradle"⟩ = indentedFiles.text? ⟨"/ws/settings.gradle"⟩ := by
  have hwritten : indentedFiles.text? ⟨"/ws/workspace.manifest"⟩
      = some "[\"d\",\"\",[[\"core\",\"core\",\"g\"]]]" := by decide
  have hlines : linesAt indentedFiles ⟨"/ws/app/build.gradle"⟩ = ["\tapi \"g:core:1.0\"\r", ""] := by
    decide
  generalize hv : (blank ⟨"/ws"⟩ {} { name := "d", modules := [⟨"core", "core", "g"⟩] }).survey
    indentedFiles false = v
  have h : v.InOrder indentedFiles
      ∧ (v.modules = .ofList [("core", ⟨"core", "core", "g"⟩)] ∧ v.included = .ofNames [])
      ∧ v.settings.path = ⟨"/ws/settings.gradle"⟩
      ∧ ("app" ∈ v.roots ∧ v.inside "app" = true)
      ∧ (v.nodes.get? "app").map (·.file.path) = some ⟨"/ws/app/build.gradle"⟩
      ∧ ∀ e ∈ v.nodes.entries, e.2.file.path.location ≠ v.settings.path.location := by
    subst hv
    decide +kernel
  obtain ⟨horder, ⟨hmodules, hincluded⟩, hpath, ⟨hroot, hinside⟩, hat, hapart⟩ := h
  obtain ⟨w₀, t, t', hupdate, hrevisited, -, ⟨hgraph, hbase, -, hsettings⟩, -⟩ :=
    exists_revisited (u := ⟨"core", "core", "g"⟩) hv ((Manifest.load_of_text? hwritten).trans rfl)
      (by decide) horder (by rw [hmodules]; decide) (by rw [hincluded]; decide)
      (by rw [hpath]; decide)
  obtain ⟨w₁, s₁, hinclude, hexclude⟩ := hrevisited.changed
  obtain ⟨n, hn, hfile⟩ := hgraph.exists_node hat
  obtain ⟨hbuild, hsaved⟩ := restored_of_include_exclude (.blank _) hupdate hrevisited.manifest
    hrevisited.grouped hrevisited.listed hrevisited.out hinclude hexclude
  have hat' : ∀ name, ¬w₀.IsAt name w₀.settings.path.location := fun name hname => by
    rw [hsettings] at hname
    obtain ⟨k, hk, hl⟩ := hgraph.isAt_iff.mp hname
    exact hapart (name, k) (NameMap.mem_entries_iff.mpr hk) hl
  refine ⟨w₀, w₁, _, s₁, _, hrevisited.load, hinclude, hexclude, ?_, ?_⟩
  · rw [← hfile]
    refine hbuild "app" n ((hgraph.isMet_iff _).mpr (.start hroot hinside)) hn
      (fun hsame => hat' "app" ⟨n, hn, hsame⟩) ?_
    rw [hfile, hlines]
    refine ⟨by decide +kernel, fun line hline d hread _ => ⟨"1.0", by decide, ?_⟩⟩
    rcases List.mem_pair.mp hline with rfl | rfl
    · exact ⟨.api, .double, ['\t'], ['\r'], by simp [isBlank], .inr rfl, by decide⟩
    · have hblank : Dependency.ofLine? "" = none := by decide
      simp [hblank] at hread
  · rw [← hpath, ← hsettings]
    refine hsaved ?_ ?_ fun hmet => ?_
    · rw [hsettings, hpath]
      decide
    · rw [hbase]
      decide
    · obtain ⟨name, -, hname⟩ := hmet
      obtain ⟨t, _, -, hcomply, -⟩ :=
        of_include_exclude hrevisited.listed hrevisited.out hinclude hexclude
      obtain rfl : ((w₀.enlist _).comply t).1 = w₁ := congrArg Prod.fst hcomply
      exact absurd (isAt_comply.mp hname) (hat' name)

/-! ### Files that do not come back -/

/-- Whether a build file that is not the settings file and declares a module at most once, by a line
that is an artifact of a version and nothing else, is not the same after a detour. -/
def LosesBuildFile (s : Shelf) (config : Config) : Prop :=
  ∃ u w₀ w₂ s₂, Revisited s config u w₀ w₂ s₂ ∧ ∃ name n, w₀.IsMet name
    ∧ w₀.nodes.get? name = some n ∧ ¬n.file.path.Same w₀.settings.path
    ∧ (declaredNames (linesAt s n.file.path)).count u.name ≤ 1
    ∧ (∀ line ∈ linesAt s n.file.path, ∀ d, Dependency.ofLine? line = some d → d.name = u.name →
      ∃ version, IsArtifactLine u version line)
    ∧ s₂.text? n.file.path ≠ s.text? n.file.path

/-- Whether a settings file that is in line with what it says is not the same after a detour, though
the directory of the module can be read there. -/
def LosesSettings (s : Shelf) (config : Config) : Prop :=
  ∃ u w₀ w₂ s₂, Revisited s config u w₀ w₂ s₂
    ∧ reconcile (linesAt s w₀.settings.path) (.ofLines (linesAt s w₀.settings.path))
      = linesAt s w₀.settings.path
    ∧ IsDirectory (w₀.base.resolve u.path).text
    ∧ s₂.text? w₀.settings.path ≠ s.text? w₀.settings.path

/-- What becomes of the settings file if it is the build file of a node that is met while the module is
included. -/
theorem losesSettings_of_survey {manifest : Manifest} {v : Workspace} {u : Manifest.Module}
    {name : String} (lines left : List String)
    (hv : (blank ⟨"/ws"⟩ config manifest).survey s false = v)
    (hload : Manifest.load s (manifestPath ⟨"/ws"⟩ config) = .ok manifest)
    (hmanifest : ∀ u ∈ manifest.modules, IsSegment u.name ∧ IsWord u.group)
    (horder : v.InOrder s)
    (hu : v.modules.get? u.name = some u) (hout : v.included.contains u.name = false)
    (hname : IsSegment u.name) (hdirectory : IsDirectory (Path.resolve ⟨"/ws"⟩ u.path).text)
    (hread : (s.text? v.settings.path).isSome) (hlines : linesAt s v.settings.path = lines)
    (hfixed : reconcile lines (.ofLines lines) = lines)
    (hat : v.IsAt name v.settings.path.location)
    (henforces : (v.enlist u).Enforces v.settings.path)
    (hleft : reconcile (restateAll
        (Node.desired ⟨v.modules, NameSet.add v.included u.name⟩ (declared lines)) v.modules
        (reconcile lines ((Snapshot.ofLines lines).addExternal u.name
          (Path.resolve ⟨"/ws"⟩ u.path).text))).1 (.ofLines lines) = left)
    (hne : left ≠ []) (hlost : left ≠ lines)
    (hback : v.Enforces v.settings.path →
      (restateAll (Node.desired v.policy (declared lines)) v.modules left).1 ≠ lines) :
    LosesSettings s config := by
  obtain ⟨w₀, t, t', -, hrevisited, hdetour, ⟨hgraph, hbase, hmodules, hsettings⟩, hwell, hknown,
    hrested⟩ := exists_revisited hv hload hmanifest horder hu hout hread
  have hrested := hrested _ name (hgraph.isAt_iff.mpr hat)
  have henforces' : (w₀.enlist u).Enforces v.settings.path :=
    hgraph.enlist.enforces_iff.mpr henforces
  rw [← hsettings] at hat henforces' hrested hlines
  rw [← hsettings, ← hgraph.enforces_iff] at hback
  rw [← hmodules, ← hgraph.included] at hleft
  rw [policy, ← hmodules, ← hgraph.included, ← policy] at hback
  rw [← hbase] at hdirectory hleft
  obtain ⟨v', hadd⟩ := hdetour.add
  have hsnapshot := hknown.snapshot _ (read_of_editSettings hadd)
  have hnot := hsnapshot ▸ hknown.not_mem_all hrevisited.listed hrevisited.out
  subst hlines
  have hincluded := hdetour.linesAt_comply_enlist_settings hsnapshot hnot hname hdirectory hfixed
    hwell hrested henforces'
  have hremoved := hdetour.linesAt_remove hsnapshot hnot
  rw [hincluded, hleft] at hremoved
  refine ⟨u, w₀, _, _, hrevisited, hfixed, hdirectory, fun hsame => ?_⟩
  have hsame := linesAt_eq_of_text? hsame
  by_cases hmet : w₀.Enforces w₀.settings.path
  · have hwritable := (writable_ofLines (linesAt s w₀.settings.path)).unbroken
    have hmore := hwritable.addExternal hname.isProject hdirectory.isUnbroken
    have hcovers : Covers w₀.modules (declared (linesAt s w₀.settings.path))
        (linesAt t' w₀.settings.path) := by
      rw [hremoved hne, ← hleft]
      have hadded := hrested.covers.congr (filterMap_ofLine?_reconcile hmore.oneLine _)
      exact (hadded.restateAll hwell _).congr (filterMap_ofLine?_reconcile hwritable.oneLine _)
    rw [linesAt_comply_revert hwell hrested hdetour.out hmet hcovers, hremoved hne] at hsame
    exact hback hmet hsame
  · rw [linesAt_comply_of_not_enforces
      fun h => hmet ((sameGraph_revert hdetour.out).enforces_iff.mp h), hremoved hne] at hsame
    exact hlost hsame

/-- A settings file that is the build file of a module too, where another one is declared in
brackets. -/
def bracketedFiles : Shelf := .ofFiles
  [ ("/ws/workspace.manifest",
      "[\"d\",\"\",[[\"root\",\"\",\"g\"],[\"core\",\"core\",\"g\"]]]"),
    ("/ws/settings.gradle", "include ':root'\napi('g:core:1.0')") ]

theorem losesSettings_bracketedFiles :
    LosesSettings bracketedFiles { buildFile := "settings.gradle" } := by
  have hwritten : bracketedFiles.text? ⟨"/ws/workspace.manifest"⟩
      = some "[\"d\",\"\",[[\"root\",\"\",\"g\"],[\"core\",\"core\",\"g\"]]]" := by decide
  generalize hv : (blank ⟨"/ws"⟩ { buildFile := "settings.gradle" }
    { name := "d", modules := [⟨"root", "", "g"⟩, ⟨"core", "core", "g"⟩] }).survey bracketedFiles
      false = v
  have h : v.InOrder bracketedFiles
      ∧ (v.modules = .ofList [("root", ⟨"root", "", "g"⟩), ("core", ⟨"core", "core", "g"⟩)]
        ∧ v.included = .ofNames ["root"])
      ∧ v.settings.path = ⟨"/ws/settings.gradle"⟩
      ∧ "root" ∈ v.roots ∧ v.inside "root" = true
      ∧ (v.nodes.get? "root").map (·.file.path.location) = some v.settings.path.location := by
    subst hv
    decide +kernel
  obtain ⟨horder, ⟨hmodules, hincluded⟩, hpath, hroot, hinside, hat⟩ := h
  have hmet : v.Enforces v.settings.path := ⟨"root", .start hroot hinside, isAt_iff.mpr hat⟩
  refine losesSettings_of_survey (u := ⟨"core", "core", "g"⟩)
    ["include ':root'", "api('g:core:1.0')"] ["include ':root'", "api project(\":core\")"] hv
    ((Manifest.load_of_text? hwritten).trans rfl) (by decide) horder (by rw [hmodules]; decide)
    (by rw [hincluded]; decide) (by decide) (by decide) (by rw [hpath]; decide)
    (by rw [hpath]; decide) (by decide) (isAt_iff.mpr hat) hmet.enlist ?_ (by decide) (by decide)
    fun _ => ?_
  · rw [hmodules, hincluded]
    decide +kernel
  · rw [policy, hmodules, hincluded]
    decide +kernel

/-- A settings file that is the build file of a module which is not included, where another one is
declared. -/
def ownFiles : Shelf := .ofFiles
  [ ("/ws/workspace.manifest",
      "[\"d\",\"\",[[\"core\",\"\",\"g\"],[\"util\",\"util\",\"g\"]]]"),
    ("/ws/settings.gradle", "include ':util'\napi 'g:util:1.0'") ]

theorem losesSettings_ownFiles : LosesSettings ownFiles { buildFile := "settings.gradle" } := by
  have hwritten : ownFiles.text? ⟨"/ws/workspace.manifest"⟩
      = some "[\"d\",\"\",[[\"core\",\"\",\"g\"],[\"util\",\"util\",\"g\"]]]" := by decide
  generalize hv : (blank ⟨"/ws"⟩ { buildFile := "settings.gradle" }
    { name := "d", modules := [⟨"core", "", "g"⟩, ⟨"util", "util", "g"⟩] }).survey ownFiles
      false = v
  have h : v.InOrder ownFiles
      ∧ (v.modules = .ofList [("core", ⟨"core", "", "g"⟩), ("util", ⟨"util", "util", "g"⟩)]
        ∧ v.included = .ofNames ["util"])
      ∧ v.settings.path = ⟨"/ws/settings.gradle"⟩
      ∧ v.roots = ["core"] ∧ v.inside "core" = false
      ∧ (v.enlist ⟨"core", "", "g"⟩).inside "core" = true
      ∧ (v.nodes.get? "core").map (·.file.path.location) = some v.settings.path.location := by
    subst hv
    decide +kernel
  obtain ⟨horder, ⟨hmodules, hincluded⟩, hpath, hroots, hout, hinside, hat⟩ := h
  have hmet : (v.enlist ⟨"core", "", "g"⟩).Enforces v.settings.path :=
    ⟨"core", .start (by rw [enlist, hroots]; exact List.mem_singleton_self _) hinside,
      isAt_iff.mpr hat⟩
  have hunmet : ¬v.Enforces v.settings.path :=
    not_enforces_of_roots fun name hname => by
      rw [hroots] at hname
      exact List.mem_singleton.mp hname ▸ hout
  refine losesSettings_of_survey (u := ⟨"core", "", "g"⟩)
    ["include ':util'", "api 'g:util:1.0'"] ["include ':util'", "api project(\":util\")"] hv
    ((Manifest.load_of_text? hwritten).trans rfl) (by decide) horder (by rw [hmodules]; decide)
    (by rw [hincluded]; decide) (by decide) (by decide) (by rw [hpath]; decide)
    (by rw [hpath]; decide) (by decide) (isAt_iff.mpr hat) hmet ?_ (by decide) (by decide)
    fun hmet => absurd hmet hunmet
  rw [hmodules, hincluded]
  decide +kernel

/-- A project that depends on a module which is not included, by an artifact of no version. -/
def bareFiles : Shelf := .ofFiles
  [ ("/ws/workspace.manifest", "[\"d\",\"\",[[\"core\",\"core\",\"g\"]]]"),
    ("/ws/settings.gradle", "include ':app'\n"),
    ("/ws/app/build.gradle", "api 'g:core:'") ]

theorem losesBuildFile_bareFiles : LosesBuildFile bareFiles {} := by
  have hwritten : bareFiles.text? ⟨"/ws/workspace.manifest"⟩
      = some "[\"d\",\"\",[[\"core\",\"core\",\"g\"]]]" := by decide
  have hlines : linesAt bareFiles ⟨"/ws/app/build.gradle"⟩ = ["api 'g:core:'"] := by decide
  generalize hv : (blank ⟨"/ws"⟩ {} { name := "d", modules := [⟨"core", "core", "g"⟩] }).survey
    bareFiles false = v
  have h : v.InOrder bareFiles
      ∧ (v.modules = .ofList [("core", ⟨"core", "core", "g"⟩)] ∧ v.included = .ofNames [])
      ∧ v.settings.path = ⟨"/ws/settings.gradle"⟩
      ∧ "app" ∈ v.roots ∧ v.inside "app" = true
      ∧ (v.nodes.get? "app").map (·.file.path) = some ⟨"/ws/app/build.gradle"⟩ := by
    subst hv
    decide +kernel
  obtain ⟨horder, ⟨hmodules, hincluded⟩, hpath, hroot, hinside, hat⟩ := h
  obtain ⟨w₀, t, t', -, hrevisited, hdetour, ⟨hgraph, hbase, hmodules', hsettings⟩, hwell, -,
    hrested⟩ := exists_revisited (u := ⟨"core", "core", "g"⟩) hv
      ((Manifest.load_of_text? hwritten).trans rfl) (by decide) horder (by rw [hmodules]; decide)
      (by rw [hincluded]; decide) (by rw [hpath]; decide)
  obtain ⟨n, hn, hfile⟩ := hgraph.exists_node hat
  have hmet : w₀.IsMet "app" := (hgraph.isMet_iff _).mpr (.start hroot hinside)
  have hother : ¬n.file.path.Same w₀.settings.path := by
    rw [hfile, hsettings, hpath]
    decide
  have hrested := hrested n.file.path "app" ⟨n, hn, rfl⟩
  have hleft := hdetour.linesAt_of_not_settings hwell hrested ⟨"app", hmet, n, hn, rfl⟩ hother
  rw [policy, hmodules', hgraph.included, hmodules, hincluded] at hleft
  rw [hfile, hlines] at hleft
  refine ⟨_, w₀, _, _, hrevisited, "app", n, hmet, hn, hother, ?_⟩
  rw [hfile, hlines]
  refine ⟨by decide +kernel, fun line hline _ _ _ => ⟨"", ?_⟩, fun hsame => ?_⟩
  · obtain rfl := List.mem_singleton.mp hline
    exact ⟨.api, .single, [], [], by simp, .inl rfl, by decide⟩
  · rw [linesAt_eq_of_text? hsame, hlines] at hleft
    exact absurd hleft (by decide +kernel)

/-- A build file is not given back if it declares the module as an artifact of no version, nor is a
settings file that is the build file of a node too and declares a module in brackets, or that is the
build file of the module itself. -/
theorem loses_of_include_exclude :
    LosesBuildFile bareFiles {} ∧ LosesSettings bracketedFiles { buildFile := "settings.gradle" }
      ∧ LosesSettings ownFiles { buildFile := "settings.gradle" } :=
  ⟨losesBuildFile_bareFiles, losesSettings_bracketedFiles, losesSettings_ownFiles⟩

end Workspace

end Inclusion
