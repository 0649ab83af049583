import Inclusion.Manifest.Json
import Inclusion.Store
import Inclusion.Text.Lines

/-!
# Manifest files

Manifests are loaded through a store, and a new workspace is given an empty one.

* `load_eq_error_of_read`: a manifest that cannot be read is no manifest.
-/
namespace Inclusion.Manifest

variable {σ : Type}

/-- Reads the manifest at a path. -/
def load [Store σ] (store : σ) (path : Path) : Except Error Manifest :=
  match Store.read store path with
  | .error e => .error e
  | .ok lines => ofText (Text.joinLines lines) path

/-- Writes an empty manifest where nothing exists yet. -/
def create [CreatingStore σ] (store : σ) (path : Path) (name : String) :
    Except Error (Manifest × σ) :=
  if CreatingStore.holds store path then .error (.manifestExists path)
  else
    let manifest : Manifest := { name }
    match CreatingStore.create store path (manifest.pretty ++ "\n") with
    | .error e => .error e
    | .ok store => .ok (manifest, store)

theorem load_eq_error_of_read [Store σ] {store : σ} {path : Path} {e : Error}
    (h : Store.read store path = .error e) : load store path = .error e := by
  simp [load, h]

end Inclusion.Manifest
