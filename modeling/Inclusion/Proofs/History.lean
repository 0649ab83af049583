import Inclusion.Proofs.Changing
import Inclusion.Proofs.Survey

/-!
# Nothing depends on the history

The states that a workspace over files in memory can get into: it is made from a manifest, loaded or
inspected, and then updated, reloaded, given another manifest and changed, in any order, while its
files are edited from outside. In each of them a reload ends where a fresh load ends, whether it
keeps nodes or not.

* `Arises.induct`, `Arises.induct_fits`: what surveys find and passes and changes keep holds in every
  state.
* `Arises.fits`: what holds of the nodes of every state.
* `reload_of_reachable`: reloading, watching and loading afresh agree.
-/
namespace Inclusion

/-- A manifest in memory is read from the text at its path. -/
theorem Manifest.load_of_text? {s : Shelf} {path : Path} {text : String}
    (h : s.text? path = some text) : Manifest.load s path = Manifest.ofText text path := by
  simp [Manifest.load, Store.read, h, Text.joinLines_splitLines]

theorem Manifest.exists_text?_of_load {s : Shelf} {path : Path} {manifest : Manifest}
    (h : Manifest.load s path = .ok manifest) : ∃ text, s.text? path = some text := by
  refine Option.ne_none_iff_exists'.mp fun hnone => ?_
  simp [Manifest.load, Store.read, hnone] at h

/-- The shelf with just the given files. -/
def Shelf.ofFiles (files : List (String × String)) : Shelf :=
  files.foldl (fun s f => s.put ⟨f.1⟩ f.2) .empty

namespace Workspace

/-- The states of a workspace with a base and a configuration, whatever files each operation finds in
whatever kind of store. -/
inductive Arises (base : Path) (config : Config) : Workspace → Prop
  | ofManifest {σ : Type} [Store σ] (store : σ) (manifest : Manifest) :
    Arises base config (ofManifest store base config manifest).1
  | load {σ : Type} [Store σ] {store store' : σ} {w : Workspace}
    (h : Workspace.load store base config = .ok (w, store')) : Arises base config w
  | inspect {σ : Type} [Store σ] {store : σ} {w : Workspace}
    (h : Workspace.inspect store base config = .ok w) : Arises base config w
  | update {w : Workspace} (h : Arises base config w) {σ : Type} [Store σ] (store : σ)
    (keep : Bool) : Arises base config (w.update store keep).1
  | reload {w w' : Workspace} (h : Arises base config w) {σ : Type} [Store σ] {store store' : σ}
    {keep : Bool} (hreload : w.reload store keep = .ok (w', store')) : Arises base config w'
  | replaceManifest {w : Workspace} (h : Arises base config w) {σ : Type} [Store σ] (store : σ)
    (manifest : Manifest) (keep : Bool) :
    Arises base config (w.replaceManifest store manifest keep).1
  | includeModule {w : Workspace} (h : Arises base config w) {σ : Type} [Store σ] (store : σ)
    (name : String) : Arises base config (w.includeModule store name).2.1
  | excludeModule {w : Workspace} (h : Arises base config w) {σ : Type} [Store σ] (store : σ)
    (name : String) : Arises base config (w.excludeModule store name).2.1

/-- The states of a workspace with a base and a configuration, each with its files. -/
inductive Reachable (base : Path) (config : Config) : Workspace → Shelf → Prop
  | ofManifest (s : Shelf) (manifest : Manifest) :
    Reachable base config (ofManifest s base config manifest).1
      (ofManifest s base config manifest).2
  | load {s s' : Shelf} {w : Workspace} (h : Workspace.load s base config = .ok (w, s')) :
    Reachable base config w s'
  | inspect {s : Shelf} {w : Workspace} (h : Workspace.inspect s base config = .ok w) :
    Reachable base config w s
  | update {w : Workspace} {s : Shelf} (h : Reachable base config w s) (keep : Bool) :
    Reachable base config (w.update s keep).1 (w.update s keep).2
  | reload {w w' : Workspace} {s s' : Shelf} {keep : Bool} (h : Reachable base config w s)
    (hreload : w.reload s keep = .ok (w', s')) : Reachable base config w' s'
  | replaceManifest {w : Workspace} {s : Shelf} (h : Reachable base config w s)
    (manifest : Manifest) (keep : Bool) :
    Reachable base config (w.replaceManifest s manifest keep).1
      (w.replaceManifest s manifest keep).2
  | includeModule {w : Workspace} {s : Shelf} (h : Reachable base config w s) (name : String) :
    Reachable base config (w.includeModule s name).2.1 (w.includeModule s name).2.2
  | excludeModule {w : Workspace} {s : Shelf} (h : Reachable base config w s) (name : String) :
    Reachable base config (w.excludeModule s name).2.1 (w.excludeModule s name).2.2
  | edit {w : Workspace} {s : Shelf} (h : Reachable base config w s) (s' : Shelf) :
    Reachable base config w s'

section

variable {σ : Type} [Store σ]

/-! ### What each operation leaves alone -/

theorem enforceOn_rest (w : Workspace) (store : σ) (name : String) :
    { (w.enforceOn store name).1 with nodes := w.nodes } = w := by
  unfold enforceOn
  split <;> rfl

/-- Enforcing the policy changes nothing of a workspace but its nodes. -/
theorem enforceAll_rest (w : Workspace) (store : σ) (names : List String) :
    { (w.enforceAll store names).1 with nodes := w.nodes } = w := by
  induction names generalizing w store with
  | nil => rfl
  | cons name names ih =>
    have hstep := enforceOn_rest w store name
    have hrest := ih (w.enforceOn store name).1 (w.enforceOn store name).2
    simp only [enforceAll, List.foldl_cons] at hrest ⊢
    rw [← hrest] at hstep
    exact hstep

theorem comply_rest (w : Workspace) (store : σ) :
    { (w.comply store).1 with nodes := w.nodes } = w := enforceAll_rest w store _

theorem base_survey (w : Workspace) (store : σ) (keep : Bool) :
    (w.survey store keep).base = w.base := by cases keep <;> rfl

theorem config_survey (w : Workspace) (store : σ) (keep : Bool) :
    (w.survey store keep).config = w.config := by cases keep <;> rfl

theorem base_comply (w : Workspace) (store : σ) : (w.comply store).1.base = w.base :=
  (congrArg Workspace.base (comply_rest w store) :)

theorem config_comply (w : Workspace) (store : σ) : (w.comply store).1.config = w.config :=
  (congrArg Workspace.config (comply_rest w store) :)

theorem editSettings_rest (w : Workspace) (store : σ)
    (edit : Settings.Snapshot → Settings.Snapshot) :
    { (w.editSettings store edit).2.1 with settings := w.settings } = w := by
  unfold editSettings
  dsimp only
  split <;> rfl

/-! ### What both changes keep -/

/-- Whether what is said of a workspace outlasts passes over its nodes, whatever becomes of the
included modules and of what is known of its settings file. -/
structure Lasting (P : Workspace → Prop) : Prop where
  comply : ∀ {σ : Type} [Store σ] (w : Workspace) (store : σ), P w → P (w.comply store).1
  settings : ∀ (w : Workspace) (settings : SettingsFile), settings.path = w.settings.path → P w →
    P { w with settings }
  included : ∀ (w : Workspace) (included : NameSet), P w → P { w with included }

section

variable {P : Workspace → Prop} (h : Lasting P)

include h

theorem Lasting.editSettings (w : Workspace) (store : σ)
    (edit : Settings.Snapshot → Settings.Snapshot) (hw : P w) :
    P (w.editSettings store edit).2.1 := by
  have heq : (w.editSettings store edit).2.1
      = { w with settings := (w.editSettings store edit).2.1.settings } :=
    congrArg (fun v : Workspace => { v with settings := (w.editSettings store edit).2.1.settings })
      (editSettings_rest w store edit)
  have hsettings := h.settings w _ (path_editSettings w store edit) hw
  exact (congrArg P heq).mpr hsettings

theorem Lasting.includeModule (w : Workspace) (store : σ) (name : String) (hw : P w) :
    P (w.includeModule store name).2.1 := by
  unfold Workspace.includeModule
  split
  next => exact hw
  next u _ =>
    have hedit := h.editSettings w store
      (fun s => s.addExternal u.name (w.base.resolve u.path).text) hw
    dsimp only
    split
    next heq => rw [heq] at hedit; exact hedit
    next heq => rw [heq] at hedit; exact h.comply _ _ (h.included _ _ hedit)

theorem Lasting.excludeModule (w : Workspace) (store : σ) (name : String) (hw : P w) :
    P (w.excludeModule store name).2.1 := by
  unfold Workspace.excludeModule
  split
  next => exact hw
  next u _ =>
    have hedit := h.editSettings w store (fun s => s.remove u.name) hw
    split
    next heq => rw [heq] at hedit; exact hedit
    next heq =>
      rw [heq] at hedit
      split
      next => exact h.comply _ _ (h.included _ _ hedit)
      next => exact hedit

end

/-! ### The nodes stay sound -/

theorem Sound.enforceOn {w : Workspace} (h : w.Sound) (store : σ) (name : String) :
    (w.enforceOn store name).1.Sound := by
  unfold Workspace.enforceOn
  split
  next => exact h
  next n hn =>
    refine ⟨h.filed.insert ((Node.enforce_name store w.policy n).trans (h.filed name n hn)), ?_⟩
    intro other m u hm horigin
    rw [NameMap.get?_insert] at hm
    split at hm
    next heq =>
      cases hm
      exact heq ▸ h.known name n u hn ((Node.enforce_origin store w.policy n).symm.trans horigin)
    next => exact h.known other m u hm horigin

theorem Sound.comply {w : Workspace} (h : w.Sound) (store : σ) : (w.comply store).1.Sound := by
  have hall : ∀ (names : List String) (w : Workspace) (store : σ), w.Sound →
      (w.enforceAll store names).1.Sound := by
    intro names
    induction names with
    | nil => exact fun w store h => h
    | cons name names ih => exact fun w store h => ih _ _ (h.enforceOn store name)
  exact hall w.visitOrder w store h

theorem Sound.update {w : Workspace} (h : w.Sound) (store : σ) (keep : Bool) :
    (w.update store keep).1.Sound := (h.survey store keep).comply store

theorem Sound.adopt {w : Workspace} (h : w.Sound) (manifest : Manifest) :
    (w.adopt manifest).Sound := ⟨h.filed, h.known⟩

/-- Whether a workspace has a base and a configuration, and sound nodes. -/
structure Fits (base : Path) (config : Config) (w : Workspace) : Prop where
  base : w.base = base
  config : w.config = config
  sound : w.Sound

variable {base : Path} {config : Config} {w : Workspace}

theorem Fits.comply (h : w.Fits base config) (store : σ) : (w.comply store).1.Fits base config :=
  ⟨(base_comply w store).trans h.base, (config_comply w store).trans h.config, h.sound.comply store⟩

theorem Fits.survey (h : w.Fits base config) (store : σ) (keep : Bool) :
    (w.survey store keep).Fits base config :=
  ⟨(base_survey w store keep).trans h.base, (config_survey w store keep).trans h.config,
    h.sound.survey store keep⟩

theorem Fits.update (h : w.Fits base config) (store : σ) (keep : Bool) :
    (w.update store keep).1.Fits base config := (h.survey store keep).comply store

theorem Fits.adopt (h : w.Fits base config) (manifest : Manifest) :
    (w.adopt manifest).Fits base config := ⟨h.base, h.config, h.sound.adopt manifest⟩

theorem Fits.blank (base : Path) (config : Config) (manifest : Manifest) :
    (blank base config manifest).Fits base config where
  base := rfl
  config := rfl
  sound := Sound.forget (Workspace.blank base config manifest)

theorem lasting_fits (base : Path) (config : Config) : Lasting (Fits base config) where
  comply _ store h := h.comply store
  settings _ _ _ h := ⟨h.base, h.config, h.sound.filed, h.sound.known⟩
  included _ _ h := ⟨h.base, h.config, h.sound.filed, h.sound.known⟩

end

section

variable {σ : Type} [Store σ] {base : Path} {config : Config} {w : Workspace} {store : σ}

theorem load_eq_ok_iff {r : Workspace × σ} :
    Workspace.load store base config = .ok r
      ↔ ∃ manifest, Manifest.load store (manifestPath base config) = .ok manifest
        ∧ r = (blank base config manifest).update store false := by
  unfold Workspace.load ofManifest
  split
  next h => simp [h]
  next h => simp [h, eq_comm]

theorem inspect_eq_ok_iff :
    Workspace.inspect store base config = .ok w
      ↔ ∃ manifest, Manifest.load store (manifestPath base config) = .ok manifest
        ∧ w = (blank base config manifest).survey store false := by
  unfold Workspace.inspect
  split
  next h => simp [h]
  next h => simp [h, eq_comm]

theorem reload_eq_ok_iff {keep : Bool} {r : Workspace × σ} :
    w.reload store keep = .ok r
      ↔ ∃ manifest, Manifest.load store (manifestPath w.base w.config) = .ok manifest
        ∧ r = (w.adopt manifest).update store keep := by
  unfold Workspace.reload replaceManifest
  split
  next h => simp [h]
  next h => simp [h, eq_comm]

end

variable {base : Path} {config : Config} {w : Workspace} {s : Shelf}

/-- What holds in every state: something that operations can start from, and something that surveys
make of it and that outlasts passes and changes. -/
theorem Arises.induct {P R : Workspace → Prop}
    (hblank : ∀ manifest, P (blank base config manifest)) (hstart : ∀ w, R w → P w)
    (hadopt : ∀ w manifest, R w → P (w.adopt manifest))
    (hsurvey : ∀ {σ : Type} [Store σ] (w : Workspace) (store : σ) (keep : Bool), P w →
      R (w.survey store keep))
    (hcomply : ∀ {σ : Type} [Store σ] (w : Workspace) (store : σ), R w → R (w.comply store).1)
    (hinclude : ∀ {σ : Type} [Store σ] (w : Workspace) (store : σ) (name : String), R w →
      R (w.includeModule store name).2.1)
    (hexclude : ∀ {σ : Type} [Store σ] (w : Workspace) (store : σ) (name : String), R w →
      R (w.excludeModule store name).2.1)
    (h : Arises base config w) : R w := by
  have hupdate : ∀ {σ : Type} [Store σ] (w : Workspace) (store : σ) (keep : Bool), P w →
      R (w.update store keep).1 := fun w store keep hw => hcomply _ store (hsurvey w store keep hw)
  induction h with
  | ofManifest store manifest => exact hupdate _ store false (hblank manifest)
  | load h =>
    obtain ⟨manifest, -, hr⟩ := load_eq_ok_iff.mp h
    rw [(Prod.mk.inj hr).1]
    exact hupdate _ _ false (hblank manifest)
  | inspect h =>
    obtain ⟨manifest, -, rfl⟩ := inspect_eq_ok_iff.mp h
    exact hsurvey _ _ false (hblank manifest)
  | update _ store keep ih => exact hupdate _ store keep (hstart _ ih)
  | reload _ hreload ih =>
    obtain ⟨manifest, -, hr⟩ := reload_eq_ok_iff.mp hreload
    rw [(Prod.mk.inj hr).1]
    exact hupdate _ _ _ (hadopt _ manifest ih)
  | replaceManifest _ store manifest keep ih => exact hupdate _ store keep (hadopt _ manifest ih)
  | includeModule _ store name ih => exact hinclude _ store name ih
  | excludeModule _ store name ih => exact hexclude _ store name ih

/-- A state keeps the base and the configuration it was made with, and its nodes are sound. -/
theorem Arises.fits (h : Arises base config w) : w.Fits base config :=
  have hlasting := lasting_fits base config
  h.induct (Fits.blank base config) (fun _ hw => hw) (fun _ manifest hw => hw.adopt manifest)
    (fun _ store keep hw => hw.survey store keep) hlasting.comply hlasting.includeModule
    hlasting.excludeModule

/-- What surveys find of a workspace that fits holds in every state, if passes and changes keep it.
-/
theorem Arises.induct_fits {R : Workspace → Prop}
    (hsurvey : ∀ {σ : Type} [Store σ] (w : Workspace) (store : σ) (keep : Bool),
      w.Fits base config → R (w.survey store keep))
    (hcomply : ∀ {σ : Type} [Store σ] (w : Workspace) (store : σ), R w → R (w.comply store).1)
    (hinclude : ∀ {σ : Type} [Store σ] (w : Workspace) (store : σ) (name : String), R w →
      R (w.includeModule store name).2.1)
    (hexclude : ∀ {σ : Type} [Store σ] (w : Workspace) (store : σ) (name : String), R w →
      R (w.excludeModule store name).2.1)
    (h : Arises base config w) : R w := by
  have hlasting := lasting_fits base config
  refine (h.induct (P := Fits base config) (R := fun w => w.Fits base config ∧ R w) ?_ ?_ ?_ ?_ ?_
    ?_ ?_).2
  · exact Fits.blank base config
  · exact fun _ hw => hw.1
  · exact fun _ manifest hw => hw.1.adopt manifest
  · exact fun w store keep hw => ⟨hw.survey store keep, hsurvey w store keep hw⟩
  · exact fun w store hw => ⟨hw.1.comply store, hcomply w store hw.2⟩
  · exact fun w store name hw =>
      ⟨hlasting.includeModule w store name hw.1, hinclude w store name hw.2⟩
  · exact fun w store name hw =>
      ⟨hlasting.excludeModule w store name hw.1, hexclude w store name hw.2⟩

theorem Reachable.arises (h : Reachable base config w s) : Arises base config w := by
  induction h with
  | ofManifest s manifest => exact .ofManifest s manifest
  | load h => exact .load h
  | inspect h => exact .inspect h
  | update _ keep ih => exact ih.update _ keep
  | reload _ hreload ih => exact ih.reload hreload
  | replaceManifest _ manifest keep ih => exact ih.replaceManifest _ manifest keep
  | includeModule _ name ih => exact ih.includeModule _ name
  | excludeModule _ name ih => exact ih.excludeModule _ name
  | edit _ _ ih => exact ih

theorem Reachable.fits (h : Reachable base config w s) : w.Fits base config := h.arises.fits

/-! ### A reload and a fresh load -/

/-- Workspaces that differ at most in how the path of their settings file is spelled. -/
def Alike (w₁ w₂ : Workspace) : Prop :=
  w₁.settings.path.Same w₂.settings.path ∧ w₁ = w₂.respell w₁.settings.path

theorem same_settings_adopt (w : Workspace) (manifest : Manifest) :
    (w.adopt manifest).settings.path.Same (settingsPath w.base w.config manifest) := by
  unfold adopt
  dsimp only
  split
  next h => exact h.symm
  next => rfl

theorem read_of_same {s : Shelf} {p q : Path} {lines : List String} (h : p.Same q)
    (hread : Store.read s q = .ok lines) : Store.read s p = .ok lines := by
  rw [Shelf.read_eq_ok_iff, Shelf.text?] at hread ⊢
  rw [show p.location = q.location from h]
  exact hread

theorem settings_path_update (w : Workspace) (s : Shelf) (keep : Bool) :
    (w.update s keep).1.settings.path = w.settings.path := by
  have hcomply : (w.update s keep).1.settings = (w.survey s keep).settings :=
    (congrArg settings (comply_rest (w.survey s keep) s) :)
  rw [hcomply]
  cases keep <;> exact SettingsFile.refresh_keeps_path s w.settings

theorem survey_adopt {manifest : Manifest} {lines : List String} (h : w.Fits base config)
    (hread : Store.read s (settingsPath base config manifest) = .ok lines) :
    (w.adopt manifest).survey s false
      = ((blank base config manifest).survey s false).respell (w.adopt manifest).settings.path := by
  have hsame := same_settings_adopt w manifest
  rw [h.base, h.config] at hsame
  have hlook : (w.adopt manifest).look s
      = { w with manifest, settings := { path := (w.adopt manifest).settings.path,
                                         snapshot := .ofLines lines, error := none } } := by
    simp only [look, SettingsFile.refresh, read_of_same hsame hread]
    rfl
  have hblank : (blank base config manifest).look s
      = { blank base config manifest with
          settings := { path := settingsPath base config manifest,
                        snapshot := .ofLines lines, error := none } } := by
    simp only [look, SettingsFile.refresh, blank, hread]
  rw [survey_false, survey_false, hlook, hblank]
  obtain ⟨rfl, rfl, -⟩ := h
  rfl

/-- In every state, a reload that keeps nodes, one that does not, a round of watching and a fresh
load end alike and with the same files; if the manifest does not load, nothing changes. -/
theorem reload_of_reachable (h : Reachable base config w s) :
    (∀ manifest lines, Manifest.load s (manifestPath base config) = .ok manifest →
      Store.read s (settingsPath base config manifest) = .ok lines →
      ∃ w₁ w₂ s', w.reload s true = .ok (w₁, s') ∧ w.reload s false = .ok (w₁, s')
        ∧ w.tick s = (w₁, s') ∧ Workspace.load s base config = .ok (w₂, s') ∧ w₁.Alike w₂) ∧
    ∀ e, Manifest.load s (manifestPath base config) = .error e →
      (∀ keep, w.reload s keep = .error e) ∧ w.tick s = (w, s) := by
  have hfits := h.fits
  constructor
  · intro manifest lines hload hread
    rw [← hfits.base, ← hfits.config] at hload
    have hkeep : (w.adopt manifest).update s true = (w.adopt manifest).update s false := by
      rw [Workspace.update, survey_keep (hfits.sound.adopt manifest)]
      rfl
    have hfalse : (w.adopt manifest).update s false
        = (((blank base config manifest).update s false).1.respell
            (w.adopt manifest).settings.path, ((blank base config manifest).update s false).2) := by
      rw [Workspace.update, survey_adopt hfits hread, respell_comply]
      rfl
    have htrue := hkeep.trans hfalse
    have hreload := reload_eq_ok_iff.mpr ⟨manifest, hload, htrue.symm⟩
    have halike : (w.adopt manifest).settings.path.Same
        ((blank base config manifest).update s false).1.settings.path := by
      rw [settings_path_update]
      exact hfits.base ▸ hfits.config ▸ same_settings_adopt w manifest
    refine ⟨_, _, _, hreload, reload_eq_ok_iff.mpr ⟨manifest, hload, hfalse.symm⟩, ?_,
      load_eq_ok_iff.mpr ⟨manifest, hfits.base ▸ hfits.config ▸ hload, rfl⟩, halike, rfl⟩
    rw [tick, hreload]
  · intro e hload
    rw [← hfits.base, ← hfits.config] at hload
    have hreload : ∀ keep, w.reload s keep = .error e := fun keep =>
      reload_eq_error_iff.mpr hload
    refine ⟨hreload, ?_⟩
    rw [tick, hreload]

/-- A module that moved while nobody looked: the states in between leave no trace. -/
theorem reload_of_reachable_moved :
    let base : Path := ⟨"/ws"⟩
    let s := Shelf.ofFiles
      [ ("/ws/workspace.manifest", "[\"d\",\"\",[[\"core\",\"new\",\"g\"]]]"),
        ("/ws/settings.gradle", "include ':core'") ]
    let w := (ofManifest Shelf.empty base {} { name := "d", modules := [⟨"core", "old", "g"⟩] }).1
    ∃ w₁ w₂ s', w.reload s true = .ok (w₁, s') ∧ w.reload s false = .ok (w₁, s')
      ∧ w.tick s = (w₁, s') ∧ Workspace.load s base {} = .ok (w₂, s') ∧ w₁.Alike w₂ := by
  intro base s w
  refine (reload_of_reachable (.edit (.ofManifest Shelf.empty _) s)).1
    { name := "d", modules := [⟨"core", "new", "g"⟩] } ["include ':core'"] ?_ ?_
  · have htext : s.text? (manifestPath base {})
        = some "[\"d\",\"\",[[\"core\",\"new\",\"g\"]]]" := by decide
    exact (Manifest.load_of_text? htext).trans rfl
  · exact Shelf.read_eq_ok_iff.mpr ⟨"include ':core'", by decide, by decide⟩

end Workspace

end Inclusion
