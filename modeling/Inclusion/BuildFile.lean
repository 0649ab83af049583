import Inclusion.Dependency.Reading
import Inclusion.Store
import Inclusion.Text.Lines

/-!
# Build files

The dependencies that a build file declares, and the restating of those declarations that are in
another form than desired. All other lines are kept as they are.

* `restated?_eq_none_of_ofLine?`: a line that declares nothing is never restated.
* `length_restateAll`: the number of lines is kept.
* `restateAll_of_count_eq_zero`: if no declaration is restated, the lines come back.
-/
namespace Inclusion

/-- A build file with what the last look at it found. -/
structure BuildFile where
  path : Path
  /-- The dependencies in the order of their lines. -/
  dependencies : List Dependency := []
  /-- The last failure; only a successful read clears it. -/
  error : Option Error := none
deriving DecidableEq, Repr

namespace BuildFile

open Text

/-- The line that declares the same dependency in the desired form, if `line` declares one in the
other form. A dependency on a manifest module is declared with the coordinates of the module. -/
def restated? (desired : Dependencies) (modules : NameMap Manifest.Module) (line : String) :
    Option String := do
  let found ← Dependency.ofLine? line
  let wanted ← desired.get? found.name
  if wanted.source = found.source then none
  else
    let declaration :=
      match modules.get? wanted.name with
      | some u => wanted.declarationFor u
      | none => wanted.declaration
    some (restate line declaration)

/-- Lines with every declaration in its desired form, and how many of them changed. -/
def restateAll (desired : Dependencies) (modules : NameMap Manifest.Module) (lines : List String) :
    List String × Nat :=
  let restated := lines.map fun line => (line, restated? desired modules line)
  (restated.map fun r => r.2.getD r.1, restated.countP fun r => r.2.isSome)

variable {σ : Type} [Store σ]

/-- Reads the file anew. After a failure no dependencies are known. -/
def refresh (store : σ) (f : BuildFile) : Except Error Unit × BuildFile :=
  match Store.read store f.path with
  | .error e => (.error e, { f with dependencies := [], error := some e })
  | .ok lines =>
    (.ok (), { f with dependencies := lines.filterMap Dependency.ofLine?, error := none })

/-- Brings the declarations of the file into their desired forms and answers how many lines changed;
if none does, the file is not written. -/
def write (store : σ) (desired : Dependencies) (modules : NameMap Manifest.Module)
    (f : BuildFile) : Except Error Nat × BuildFile × σ :=
  match Store.read store f.path with
  | .error e => (.error e, { f with error := some e }, store)
  | .ok lines =>
    let (updated, changed) := restateAll desired modules lines
    if changed = 0 then (.ok 0, f, store)
    else
      match Store.write store f.path updated with
      | .error e => (.error e, { f with error := some e }, store)
      | .ok store => (.ok changed, f, store)

theorem restated?_eq_none_of_ofLine? {line : String} (h : Dependency.ofLine? line = none)
    (desired : Dependencies) (modules : NameMap Manifest.Module) :
    restated? desired modules line = none := by
  simp [restated?, h]

theorem restateAll_fst (desired : Dependencies) (modules : NameMap Manifest.Module)
    (lines : List String) :
    (restateAll desired modules lines).1
      = lines.map fun line => (restated? desired modules line).getD line := by
  simp [restateAll, Function.comp_def]

theorem restateAll_snd (desired : Dependencies) (modules : NameMap Manifest.Module)
    (lines : List String) :
    (restateAll desired modules lines).2
      = lines.countP fun line => (restated? desired modules line).isSome := by
  simp [restateAll, List.countP_map, Function.comp_def]

theorem length_restateAll (desired : Dependencies) (modules : NameMap Manifest.Module)
    (lines : List String) : (restateAll desired modules lines).1.length = lines.length := by
  simp [restateAll]

theorem restateAll_of_count_eq_zero {desired : Dependencies} {modules : NameMap Manifest.Module}
    {lines : List String} (h : (restateAll desired modules lines).2 = 0) :
    (restateAll desired modules lines).1 = lines := by
  rw [restateAll_snd, List.countP_eq_zero] at h
  rw [restateAll_fst]
  refine (List.map_congr_left fun line hline => ?_).trans (List.map_id lines)
  have hnone : restated? desired modules line = none := by simpa using h line hline
  simp [hnone]

end BuildFile

end Inclusion
