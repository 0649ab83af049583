import Inclusion.Command
import Inclusion.Proofs.Shape

/-!
# Enforcing a policy makes no difference to reports

Showing the status only reads, whereas opening a workspace also enforces its policy. Both report the
same. A policy asks for other forms, not for other names, and no file is made or removed while it is
enforced, so the files that could be read still can, and those that could not fail as before.

* `inspect_congr`: an inspection depends only on what is read.
* `Sincere`: what nodes remember of their files is how these can be read.
* `report_comply`: what enforcing the policy does not change about a report.
* `truthful_survey`: what a survey lets report.
* `report_inspect`: what is reported before and after it.
-/
namespace Inclusion

/-- Whether the same is read from two stores. -/
def ReadsAlike {σ τ : Type} [Store σ] [Store τ] (a : σ) (b : τ) : Prop :=
  ∀ path, Store.read a path = Store.read b path

/-! ### What is read decides -/

section

variable {σ τ : Type} [Store σ] [Store τ] {a : σ} {b : τ} (h : ReadsAlike a b)

include h

theorem Manifest.load_congr (path : Path) : Manifest.load a path = Manifest.load b path := by
  simp only [Manifest.load, h path]

theorem SettingsFile.refresh_congr (f : SettingsFile) : f.refresh a = f.refresh b := by
  simp only [SettingsFile.refresh, h f.path]

theorem BuildFile.refresh_congr (f : BuildFile) : f.refresh a = f.refresh b := by
  simp only [BuildFile.refresh, h f.path]

theorem Node.refresh_congr (n : Node) (keep : Bool) : n.refresh a keep = n.refresh b keep := by
  simp only [Node.refresh, BuildFile.refresh_congr h]

namespace Workspace

theorem takeModule_congr (w : Workspace) (keep : Bool) :
    w.takeModule a keep = w.takeModule b keep := by
  funext nodes u
  simp only [takeModule, Node.refresh_congr h]

theorem takeProject_congr (w : Workspace) (keep : Bool) :
    w.takeProject a keep = w.takeProject b keep := by
  funext nodes project
  simp only [takeProject, Node.refresh_congr h]

theorem gather_congr (w : Workspace) (keep : Bool) : w.gather a keep = w.gather b keep := by
  simp only [gather, takeModule_congr h, takeProject_congr h]

theorem survey_congr (w : Workspace) (keep : Bool) : w.survey a keep = w.survey b keep := by
  simp only [survey, SettingsFile.refresh_congr h, gather_congr h]

/-- An inspection depends only on what is read. -/
theorem inspect_congr (base : Path) (config : Config) :
    inspect a base config = inspect b base config := by
  simp only [inspect, Manifest.load_congr h, survey_congr h]

end Workspace

end

/-! ### How files can be read -/

/-- What keeps a file from being read. -/
def faultAt {σ : Type} [Store σ] (store : σ) (path : Path) : Option Error :=
  match Store.read store path with
  | .error e => some e
  | .ok _ => none

theorem faultAt_eq (s : Shelf) (path : Path) :
    faultAt s path = if (s.text? path).isSome then none else some (.notFound path) := by
  unfold faultAt
  simp only [Store.read]
  cases s.text? path <;> rfl

theorem SettingsFile.error_refresh {σ : Type} [Store σ] (store : σ) (f : SettingsFile) :
    (f.refresh store).2.error = faultAt store f.path := by
  unfold refresh faultAt
  split <;> simp_all

theorem BuildFile.error_refresh {σ : Type} [Store σ] (store : σ) (f : BuildFile) :
    (f.refresh store).2.error = faultAt store f.path := by
  unfold refresh faultAt
  split <;> simp_all

/-- A node that has just been read remembers just what kept its build file from being read. -/
theorem Node.error_refresh {σ : Type} [Store σ] (store : σ) (n : Node) :
    (n.refresh store false).2.file.error = faultAt store (n.refresh store false).2.file.path := by
  rw [refresh_false]
  exact (BuildFile.error_refresh store n.file).trans
    (congrArg (faultAt store) (BuildFile.path_refresh store n.file).symm)

/-- Restating a file tells nothing new of how it can be read. -/
theorem BuildFile.write_of_sincere {f : BuildFile} {s : Shelf} (h : f.error = faultAt s f.path)
    (desired : Dependencies) (modules : NameMap Manifest.Module) :
    (f.write s desired modules).2.1 = f := by
  cases htext : s.text? f.path with
  | none =>
    have hread := Shelf.read_of_text?_eq_none htext
    have herror : f.error = some (.notFound f.path) := by rw [h, faultAt, hread]
    simp only [write, hread, ← herror]
  | some text =>
    simp only [write, Shelf.read_of_text? htext, Shelf.write_of_text? htext]
    split <;> rfl

theorem Node.file_enforce {n : Node} {s : Shelf} (h : n.file.error = faultAt s n.file.path)
    (policy : Policy) : (n.enforce s policy).2.1.file = n.file :=
  BuildFile.write_of_sincere h (desired policy n.all) policy.modules

theorem Node.Restyled.keys_all {policy : Policy} {n n' : Node} (h : Restyled policy n n') :
    n'.all.keys = n.all.keys := by
  rcases h.all with h | h
  · rw [h]
  · rw [h, desired, Workspace.keys_mapValues]

namespace Workspace

/-- Whether all that nodes remember of failures is what keeps their build files from being read. -/
def Sincere {σ : Type} [Store σ] (w : Workspace) (store : σ) : Prop :=
  ∀ name n, w.nodes.get? name = some n → n.file.error = faultAt store n.file.path

theorem sincere_survey {σ : Type} [Store σ] {w : Workspace} (h : w.Sound) (store : σ)
    (keep : Bool) : (w.survey store keep).Sincere store := by
  intro name n hn
  obtain ⟨m, hbare⟩ := exists_refresh_of_survey h hn
  have hfile : n.file = (m.refresh store false).2.file := (congrArg Node.file hbare :)
  rw [hfile]
  exact Node.error_refresh store m

variable {w : Workspace} {s : Shelf}

theorem file_enforceOn (h : w.Sincere s) (name k : String) :
    ((w.enforceOn s name).1.nodes.get? k).map Node.file = (w.nodes.get? k).map Node.file := by
  unfold enforceOn
  split
  next => rfl
  next n hn =>
    dsimp only
    rw [NameMap.get?_insert]
    split
    next hk => rw [hk, hn, Option.map_some, Option.map_some, Node.file_enforce (h name n hn)]
    next => rfl

theorem faultAt_enforceOn (w : Workspace) (s : Shelf) (name : String) (path : Path) :
    faultAt (w.enforceOn s name).2 path = faultAt s path := by
  rw [faultAt_eq, faultAt_eq, Shelf.text?, isSome_textAt_enforceOn, Shelf.text?]

theorem Sincere.enforceOn (h : w.Sincere s) (name : String) :
    (w.enforceOn s name).1.Sincere (w.enforceOn s name).2 := by
  intro k n' hn'
  have hfile := file_enforceOn h name k
  rw [hn', Option.map_some] at hfile
  obtain ⟨n, hn, hsame⟩ := Option.map_eq_some_iff.mp hfile.symm
  rw [faultAt_enforceOn, ← hsame]
  exact h k n hn

/-- Enforcing the policy changes nothing of what is known of build files. -/
theorem file_enforceAll (h : w.Sincere s) (names : List String) (k : String) :
    ((w.enforceAll s names).1.nodes.get? k).map Node.file = (w.nodes.get? k).map Node.file := by
  induction names generalizing w s with
  | nil => rfl
  | cons name names ih => exact (ih (h.enforceOn name)).trans (file_enforceOn h name k)

theorem file_comply (h : w.Sincere s) (k : String) :
    ((w.comply s).1.nodes.get? k).map Node.file = (w.nodes.get? k).map Node.file :=
  file_enforceAll h w.visitOrder k

theorem keys_all_comply (w : Workspace) (s : Shelf) (k : String) :
    ((w.comply s).1.nodes.get? k).map (·.all.keys) = (w.nodes.get? k).map (·.all.keys) :=
  map_eq_of_rel (fun _ _ h => h.keys_all) (restyled_enforceAll w s w.visitOrder k)

theorem reportModule_comply (h : w.Sincere s) :
    (w.comply s).1.reportModule = w.reportModule := by
  funext u
  have herror : ((w.comply s).1.nodes.get? u.name).bind (·.file.error)
      = (w.nodes.get? u.name).bind (·.file.error) := by
    have hfile := congrArg (Option.bind · BuildFile.error) (file_comply h u.name)
    simpa only [Option.bind_map, Function.comp_def] using hfile
  simp only [reportModule, included_comply, manifest_comply, herror, keys_all_comply]

/-- Nor does it change anything that is reported. -/
theorem report_comply (h : w.Sincere s) : (w.comply s).1.report = w.report := by
  simp only [report, manifest_comply, modules_comply, roots_comply, settings_comply,
    reportModule_comply h]

/-- What an inspection and opening the workspace tell of it, in whatever way, is the same. -/
theorem map_report_inspect {α : Type} (tell : Report → α) (s : Shelf) (base : Path)
    (config : Config) :
    (inspect s base config).map (fun w => tell w.report)
      = (load s base config).map fun r => tell r.1.report := by
  unfold inspect load
  split
  next => rfl
  next manifest _ =>
    have hsincere := sincere_survey (Fits.blank base config manifest).sound s false
    exact congrArg (fun r => Except.ok (tell r)) (report_comply hsincere).symm

/-- What a survey reports of a module: how its build file can be read, and which names that
declares. -/
theorem reportModule_survey {σ : Type} [Store σ] {w : Workspace} (h : w.Sound) (store : σ)
    (keep : Bool) {u : Manifest.Module} (hu : w.listing.get? u.name = some u) :
    let path := Node.buildPath w.base u.path w.config.buildFile
    ((w.survey store keep).reportModule u).error = (faultAt store path).map Error.message
      ∧ ((w.survey store keep).reportModule u).dependencies
        = (declared (linesAt store path)).keys := by
  obtain ⟨n, hn, hpath⟩ := exists_node_of_survey h store keep hu
  have herror := sincere_survey h store keep u.name n hn
  have hall := all_of_survey h hn
  rw [hpath] at herror hall
  simp only [reportModule, hn, Option.bind_some, Option.map_some, Option.getD_some, herror, hall,
    and_self]

theorem get?_listing_of_mem {w : Workspace} {u : Manifest.Module} (h : u ∈ w.listing.values) :
    w.listing.get? u.name = some u := by
  obtain ⟨⟨name, u⟩, he, rfl⟩ := List.mem_map.mp h
  have hget : w.listing.get? name = some u := NameMap.mem_entries_iff.mp he
  exact (of_get?_listing hget).1 ▸ hget

/-- Whether the report of a workspace tells how each of its files can be read, and the names that the
build file of each module declares. -/
structure Truthful {σ : Type} [Store σ] (w : Workspace) (store : σ) : Prop where
  settings : w.report.settingsError = (faultAt store w.settings.path).map Error.message
  modules : ∀ m ∈ w.report.modules,
    let path := Node.buildPath w.base m.path w.config.buildFile
    m.error = (faultAt store path).map Error.message
      ∧ m.dependencies = (declared (linesAt store path)).keys

theorem truthful_survey {σ : Type} [Store σ] {w : Workspace} (h : w.Sound) (store : σ)
    (keep : Bool) : (w.survey store keep).Truthful store where
  settings := by
    rw [report, settings_survey, look, SettingsFile.error_refresh, SettingsFile.refresh_keeps_path]
  modules m hm := by
    obtain ⟨u, hu, rfl⟩ := List.mem_map.mp hm
    rw [modules_survey] at hu
    rw [base_survey, config_survey]
    exact reportModule_survey h store keep (get?_listing_of_mem hu)

/-- What is reported without enforcing the policy is what is reported after it was enforced, and so
is the failure if there is no manifest to read. It is what the files show. Showing it takes nothing
but reading, whatever becomes of writes, and changes nothing. -/
theorem report_inspect (s : Shelf) (base : Path) (config : Config) :
    (inspect s base config).map report = (load s base config).map (fun r => r.1.report)
      ∧ (∀ w, inspect s base config = .ok w → w.Truthful s)
      ∧ ∀ {σ : Type} [CreatingStore σ] (store : σ), ReadsAlike store s →
        Command.run store base config .status
          = ((load s base config).map fun r => r.1.report.render, store) := by
  refine ⟨map_report_inspect id s base config, fun w hw => ?_, fun store halike => ?_⟩
  · obtain ⟨manifest, -, rfl⟩ := inspect_eq_ok_iff.mp hw
    exact truthful_survey (Fits.blank base config manifest).sound s false
  · rw [Command.run, inspect_congr halike, map_report_inspect]

/-- Files that are read but never written. -/
structure Sealed where
  shelf : Shelf

instance : CreatingStore Sealed where
  read s path := Store.read s.shelf path
  write _ path _ := .error (.unusable path "sealed")
  holds s path := (s.shelf.text? path).isSome
  create _ path _ := .error (.unusable path "sealed")

/-- A declaration that is to be rewritten and a module without a build file. -/
theorem report_inspect_sealed :
    let s := Shelf.ofFiles
      [ ("/ws/workspace.manifest",
          "[\"app\",\"\",[[\"app\",\"app\",\"g\"],[\"core\",\"core\",\"g\"]]]"),
        ("/ws/settings.gradle", "include ':app', ':core'"),
        ("/ws/app/build.gradle", "api 'g:core:1.0'") ]
    ∃ w, inspect s ⟨"/ws"⟩ {} = .ok w ∧ w.Truthful s ∧ ReadsAlike (Sealed.mk s) s
      ∧ Command.run (Sealed.mk s) ⟨"/ws"⟩ {} .status
        = ((load s ⟨"/ws"⟩ {}).map fun r => r.1.report.render, Sealed.mk s) := by
  intro s
  obtain ⟨-, htruthful, hstatus⟩ := report_inspect s ⟨"/ws"⟩ {}
  have htext : s.text? (manifestPath ⟨"/ws"⟩ {})
      = some "[\"app\",\"\",[[\"app\",\"app\",\"g\"],[\"core\",\"core\",\"g\"]]]" := by decide
  have hload : Manifest.load s (manifestPath ⟨"/ws"⟩ {})
      = .ok { name := "app", modules := [⟨"app", "app", "g"⟩, ⟨"core", "core", "g"⟩] } :=
    (Manifest.load_of_text? htext).trans rfl
  have hinspect := inspect_eq_ok_iff.mpr ⟨_, hload, rfl⟩
  have halike : ReadsAlike (Sealed.mk s) s := fun _ => rfl
  exact ⟨_, hinspect, htruthful _ hinspect, halike, hstatus (Sealed.mk s) halike⟩

end Workspace

end Inclusion
