import Inclusion.Settings.Reconcile
import Inclusion.Store

/-!
# The settings file

The projects that the settings file registers, as the last successful read found them and as they
were edited since, and the writing of that snapshot back into the file.

* `refresh_keeps_path`, `write_keeps_snapshot`: what reading and writing leave alone.
-/
namespace Inclusion

/-- The settings file with the snapshot taken of it. -/
structure SettingsFile where
  path : Path
  snapshot : Settings.Snapshot := {}
  /-- The last failure; only a successful read clears it. -/
  error : Option Error := none
deriving DecidableEq, Repr

namespace SettingsFile

variable {σ : Type} [Store σ]

/-- Reads the file anew. After a failure the snapshot stays as it was. -/
def refresh (store : σ) (f : SettingsFile) : Except Error Unit × SettingsFile :=
  match Store.read store f.path with
  | .error e => (.error e, { f with error := some e })
  | .ok lines => (.ok (), { f with snapshot := .ofLines lines, error := none })

/-- Brings the file in line with the snapshot; if it already is, it is not written. -/
def write (store : σ) (f : SettingsFile) : Except Error Unit × SettingsFile × σ :=
  match Store.read store f.path with
  | .error e => (.error e, { f with error := some e }, store)
  | .ok lines =>
    let updated := Settings.reconcile lines f.snapshot
    if updated = lines then (.ok (), f, store)
    else
      match Store.write store f.path updated with
      | .error e => (.error e, { f with error := some e }, store)
      | .ok store => (.ok (), f, store)

theorem refresh_keeps_path (store : σ) (f : SettingsFile) :
    (f.refresh store).2.path = f.path := by
  unfold refresh
  split <;> rfl

theorem write_keeps_snapshot (store : σ) (f : SettingsFile) :
    (f.write store).2.1.snapshot = f.snapshot := by
  unfold write
  split
  next => rfl
  next =>
    dsimp only
    split
    next => rfl
    next => split <;> rfl

end SettingsFile

end Inclusion
