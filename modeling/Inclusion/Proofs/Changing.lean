import Inclusion.Store.Shelf
import Inclusion.Workspace.Change
import Inclusion.Workspace.Update

/-!
# A change that fails is undone

A module is included or excluded by first editing the snapshot of the settings and then bringing the
settings file in line with it. If the file cannot be read or written, the edit is taken back: the
failure is recorded on the settings and nothing else is changed, neither in the files nor in the
workspace.

* `SettingsFile.write_eq_error_iff`, `editSettings_eq_error_iff`: when a settings file refuses an
  edit.
* `of_editSettings`, `of_includeModule`, `of_excludeModule`: what succeeds, step by step.
* `rest_of_failed_change`: what a failed change leaves alone.
-/
namespace Inclusion

/-- Whether all failures of a store are about files. -/
def Store.FailsOnFiles {σ : Type} [Store σ] (store : σ) : Prop :=
  (∀ path e, Store.read store path = .error e → e.isFileError = true)
    ∧ ∀ path lines e, Store.write store path lines = .error e → e.isFileError = true

theorem Shelf.failsOnFiles (s : Shelf) : Store.FailsOnFiles s := by
  constructor
  · intro path e h
    simp only [Store.read] at h
    split at h <;> cases h
    rfl
  · intro path lines e h
    simp only [Store.write] at h
    split at h <;> cases h
    rfl

namespace SettingsFile

variable {σ : Type} [Store σ] {store store' : σ} {f f' : SettingsFile} {e : Error}

/-- Why a settings file cannot be brought in line with its snapshot: it cannot be read, or it would
have to be written and cannot. -/
inductive Refuses (store : σ) (f : SettingsFile) (e : Error) : Prop
  | unread (h : Store.read store f.path = .error e)
  | unwritten {lines : List String} (hread : Store.read store f.path = .ok lines)
    (hedited : Settings.reconcile lines f.snapshot ≠ lines)
    (h : Store.write store f.path (Settings.reconcile lines f.snapshot) = .error e)

theorem write_eq_error_iff :
    f.write store = (.error e, f', store')
      ↔ f.Refuses store e ∧ f' = { f with error := some e } ∧ store' = store := by
  constructor
  · intro h
    unfold write at h
    split at h
    next e' hread => cases h; exact ⟨.unread hread, rfl, rfl⟩
    next lines hread =>
      dsimp only at h
      split at h
      next => cases h
      next hedited =>
        split at h
        next e' hwrite => cases h; exact ⟨.unwritten hread hedited hwrite, rfl, rfl⟩
        next => cases h
  · rintro ⟨h | ⟨hread, hedited, hwrite⟩, rfl, rfl⟩
    · simp only [write, h]
    · simp only [write, hread, if_neg hedited, hwrite]

theorem eq_of_write (h : f.write store = (.ok (), f', store')) : f' = f := by
  unfold write at h
  split at h
  next => cases h
  next =>
    dsimp only at h
    split at h
    next => cases h; rfl
    next => split at h <;> cases h; rfl

theorem Refuses.isFileError (h : f.Refuses store e) (hstore : Store.FailsOnFiles store) :
    e.isFileError = true := by
  cases h with
  | unread h => exact hstore.1 _ _ h
  | unwritten _ _ h => exact hstore.2 _ _ _ h

end SettingsFile

namespace Workspace

variable {σ : Type} [Store σ] {w w' : Workspace} {store store' : σ}
  {edit : Settings.Snapshot → Settings.Snapshot} {name : String} {e : Error}

/-- A workspace whose settings carry a failure. -/
def withFailure (w : Workspace) (e : Error) : Workspace :=
  { w with settings := { w.settings with error := some e } }

theorem editSettings_eq_error_iff :
    w.editSettings store edit = (.error e, w', store')
      ↔ ({ w.settings with snapshot := edit w.settings.snapshot } : SettingsFile).Refuses store e
        ∧ w' = w.withFailure e ∧ store' = store := by
  constructor
  · intro h
    unfold editSettings at h
    dsimp only at h
    split at h
    next e' file store₁ hwrite =>
      obtain ⟨hrefuses, rfl, rfl⟩ := SettingsFile.write_eq_error_iff.mp hwrite
      cases h
      exact ⟨hrefuses, rfl, rfl⟩
    next => cases h
  · rintro ⟨hrefuses, rfl, rfl⟩
    have hwrite := SettingsFile.write_eq_error_iff.mpr ⟨hrefuses, rfl, rfl⟩
    unfold editSettings
    simp only [hwrite]
    rfl

theorem of_editSettings (h : w.editSettings store edit = (.ok (), w', store')) :
    w' = { w with settings := { w.settings with snapshot := edit w.settings.snapshot } }
      ∧ ∃ f, ({ w.settings with snapshot := edit w.settings.snapshot } : SettingsFile).write store
        = (.ok (), f, store') := by
  unfold editSettings at h
  dsimp only at h
  split at h
  next => cases h
  next f store₁ hwrite =>
    obtain rfl := SettingsFile.eq_of_write hwrite
    cases h
    exact ⟨rfl, _, hwrite⟩

theorem path_editSettings (w : Workspace) (store : σ)
    (edit : Settings.Snapshot → Settings.Snapshot) :
    (w.editSettings store edit).2.1.settings.path = w.settings.path := by
  generalize hresult : w.editSettings store edit = r
  obtain ⟨result, w', store'⟩ := r
  cases result with
  | error e => rw [(editSettings_eq_error_iff.mp hresult).2.1]; rfl
  | ok => rw [(of_editSettings hresult).1]

theorem of_includeModule {u : Manifest.Module} (hu : w.modules.get? name = some u)
    (h : w.includeModule store name = (.ok (), w', store')) :
    ∃ v store₁, w.editSettings store (·.addExternal u.name (w.base.resolve u.path).text)
        = (.ok (), v, store₁)
      ∧ ({ v with included := NameSet.add v.included u.name } : Workspace).comply store₁
        = (w', store') := by
  unfold includeModule at h
  simp only [hu] at h
  split at h
  next => cases h
  next v store₁ hedit => exact ⟨v, store₁, hedit, (Prod.mk.inj h).2⟩

/-- A module that was not included is only dropped from the settings. -/
theorem of_excludeModule (h : w.excludeModule store name = (.ok (), w', store')) :
    ∃ u v store₁, w.modules.get? name = some u
      ∧ w.editSettings store (·.remove u.name) = (.ok (), v, store₁)
      ∧ (({ v with included := v.included.erase u.name } : Workspace).comply store₁ = (w', store')
        ∨ v.included.contains u.name = false ∧ v = w' ∧ store₁ = store') := by
  unfold excludeModule at h
  split at h
  next => cases h
  next u hu =>
    split at h
    next => cases h
    next v store₁ hedit =>
      refine ⟨u, v, store₁, hu, hedit, ?_⟩
      split at h
      next => exact .inl (Prod.mk.inj h).2
      next hnot => exact .inr ⟨by simpa using hnot, Prod.mk.inj (Prod.mk.inj h).2⟩

/-- Why a change fails: the module is not listed, or the settings file refuses an edit. -/
def Fails (w : Workspace) (store : σ) (name : String) (e : Error) (w' : Workspace) : Prop :=
  w.modules.contains name = false ∧ e = .moduleNotFound name ∧ w' = w
    ∨ w.modules.contains name = true ∧ w' = w.withFailure e
      ∧ ∃ f : SettingsFile, f.Refuses store e

theorem fails_of_editSettings {u : Manifest.Module} (hu : w.modules.get? name = some u)
    (h : w.editSettings store edit = (.error e, w', store')) :
    store' = store ∧ w.Fails store name e w' := by
  obtain ⟨hrefuses, rfl, rfl⟩ := editSettings_eq_error_iff.mp h
  exact ⟨rfl, .inr ⟨by simp [NameMap.contains, hu], rfl, _, hrefuses⟩⟩

theorem of_includeModule_error (h : w.includeModule store name = (.error e, w', store')) :
    store' = store ∧ w.Fails store name e w' := by
  unfold includeModule at h
  split at h
  next hnone => cases h; exact ⟨rfl, .inl ⟨by simp [NameMap.contains, hnone], rfl, rfl⟩⟩
  next u hu =>
    dsimp only at h
    split at h
    next hedit => cases h; exact fails_of_editSettings hu hedit
    next => cases h

theorem of_excludeModule_error (h : w.excludeModule store name = (.error e, w', store')) :
    store' = store ∧ w.Fails store name e w' := by
  unfold excludeModule at h
  split at h
  next hnone => cases h; exact ⟨rfl, .inl ⟨by simp [NameMap.contains, hnone], rfl, rfl⟩⟩
  next u hu =>
    split at h
    next hedit => cases h; exact fails_of_editSettings hu hedit
    next => split at h <;> cases h

/-- A failed change leaves all files as they were, and all of the workspace but the failure recorded
on its settings; that a module is not listed is not recorded at all. -/
theorem rest_of_failed_change
    (h : w.includeModule store name = (.error e, w', store')
      ∨ w.excludeModule store name = (.error e, w', store')) :
    store' = store ∧ { w' with settings := { w'.settings with error := w.settings.error } } = w
      ∧ (w'.settings.error = w.settings.error ∨ w'.settings.error = some e)
      ∧ (w.modules.contains name = false → e = .moduleNotFound name ∧ w' = w)
      ∧ (Store.FailsOnFiles store → ∀ other, e = .moduleNotFound other → w' = w) := by
  obtain ⟨hstore, ⟨hnot, he, rfl⟩ | ⟨hlisted, rfl, f, hrefuses⟩⟩ :=
    h.elim of_includeModule_error of_excludeModule_error
  · exact ⟨hstore, rfl, .inl rfl, fun _ => ⟨he, rfl⟩, fun _ _ _ => rfl⟩
  · refine ⟨hstore, rfl, .inr rfl, fun hnot => absurd hlisted (by simp [hnot]), ?_⟩
    rintro hfiles other rfl
    exact absurd (hrefuses.isFileError hfiles) (by simp [Error.isFileError])

/-- There is no settings file, so a module that is listed cannot be included. -/
theorem rest_of_failed_change_missing :
    let w := (blank ⟨"/ws"⟩ {} { name := "d", modules := [⟨"core", "core", "g"⟩] }).survey
      Shelf.empty false
    let failed := w.includeModule Shelf.empty "core"
    failed.1 = .error (.notFound ⟨"/ws/settings.gradle"⟩) ∧ failed.2.2 = Shelf.empty
      ∧ { failed.2.1 with
          settings := { failed.2.1.settings with error := w.settings.error } } = w := by
  intro w failed
  have hfails : failed.1 = .error (.notFound ⟨"/ws/settings.gradle"⟩) := rfl
  obtain ⟨hstore, hrest, -⟩ := rest_of_failed_change (.inl (Prod.ext hfails rfl))
  exact ⟨hfails, hstore, hrest⟩

end Workspace

end Inclusion
