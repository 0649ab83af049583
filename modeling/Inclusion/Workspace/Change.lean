import Inclusion.Workspace.Compliance

/-!
# Including and excluding modules

A module is included by registering it in the settings file, bound to its directory, and excluded by
dropping it there. The settings file is written first; if that fails, the workspace stays as it was
but for the recorded failure, and no build file is touched.

* `includeModule_of_not_listed`, `excludeModule_of_not_listed`: an unknown module changes nothing.
-/
namespace Inclusion.Workspace

variable {σ : Type} [Store σ]

/-- Edits the snapshot of the settings and writes it out. A failed write leaves the snapshot as it
was. -/
def editSettings (w : Workspace) (store : σ) (edit : Settings.Snapshot → Settings.Snapshot) :
    Except Error Unit × Workspace × σ :=
  let before := w.settings.snapshot
  match { w.settings with snapshot := edit before }.write store with
  | (.error e, file, store) =>
    (.error e, { w with settings := { file with snapshot := before } }, store)
  | (.ok (), file, store) => (.ok (), { w with settings := file }, store)

/-- Makes a manifest module part of the workspace. -/
def includeModule (w : Workspace) (store : σ) (name : String) :
    Except Error Unit × Workspace × σ :=
  match w.modules.get? name with
  | none => (.error (.moduleNotFound name), w, store)
  | some u =>
    let directory := (w.base.resolve u.path).text
    match w.editSettings store fun s => s.addExternal u.name directory with
    | (.error e, w, store) => (.error e, w, store)
    | (.ok (), w, store) =>
      (.ok (), { w with included := NameSet.add w.included u.name }.comply store)

/-- Takes a manifest module out of the workspace. Build files are looked at only if it was
included. -/
def excludeModule (w : Workspace) (store : σ) (name : String) :
    Except Error Unit × Workspace × σ :=
  match w.modules.get? name with
  | none => (.error (.moduleNotFound name), w, store)
  | some u =>
    match w.editSettings store fun s => s.remove u.name with
    | (.error e, w, store) => (.error e, w, store)
    | (.ok (), w, store) =>
      if w.included.contains u.name then
        (.ok (), { w with included := w.included.erase u.name }.comply store)
      else (.ok (), w, store)

theorem includeModule_of_not_listed {w : Workspace} {name : String}
    (h : w.modules.get? name = none) (store : σ) :
    w.includeModule store name = (.error (.moduleNotFound name), w, store) := by
  simp [includeModule, h]

theorem excludeModule_of_not_listed {w : Workspace} {name : String}
    (h : w.modules.get? name = none) (store : σ) :
    w.excludeModule store name = (.error (.moduleNotFound name), w, store) := by
  simp [excludeModule, h]

end Inclusion.Workspace
