import Inclusion.Proofs.Restatement

/-!
# Restating lines once is enough

A restated line may be read as something else than it was restated with, as nothing keeps odd
coordinates from looking like others. It is read under its own name or not at all, though, if an
artifact is never stated without a group: then a colon too many is left for the version.

* `of_ofLine?_restate_statementFor_keyed`: what a restated line says.
* `restateAll_restateAll`: lines that were restated stay as they are.
* `exists_restateAll_restateAll`: without a group they may not.
-/
namespace Inclusion

open Text BuildFile

/-- Whether dependencies are desired under their own names. -/
def Keyed (desired : Dependencies) : Prop :=
  ∀ name d, desired.get? name = some d → d.name = name

/-- Whether whatever is desired as an artifact is stated with a group: that of a module, or its own.
-/
structure HasGroups (desired : Dependencies) (modules : NameMap Manifest.Module) : Prop where
  module : ∀ name u, modules.get? name = some u → u.group ≠ ""
  foreign : ∀ name d, desired.get? name = some d → d.source = false →
    modules.contains name = false → ∃ group, d.group = some group ∧ group ≠ ""

section

variable {desired : Dependencies} {modules : NameMap Manifest.Module}

theorem groupFor_ne_empty (hkeyed : Keyed desired) (hgroups : HasGroups desired modules)
    {name : String} {wanted : Dependency} (hwanted : desired.get? name = some wanted)
    (hsource : wanted.source = false) : groupFor modules wanted ≠ "" := by
  refine groupFor_of (P := (· ≠ "")) hgroups.module fun hforeign => ?_
  rw [hkeyed name wanted hwanted] at hforeign
  obtain ⟨group, hgroup, hne⟩ := hgroups.foreign name wanted hwanted hsource hforeign
  rwa [hgroup, Option.getD_some]

/-- What a restated line says, if anything, has the name and the form that were wanted, whatever
characters its coordinates are made of. -/
theorem of_ofLine?_restate_statementFor_keyed (hkeyed : Keyed desired) (htitled : Titled modules)
    (hgroups : HasGroups desired modules) {line : String} {found wanted d : Dependency}
    (hread : Dependency.ofLine? line = some found)
    (hwanted : desired.get? found.name = some wanted) (hsource : wanted.source ≠ found.source)
    (h : Dependency.ofLine? (restate line (statementFor modules wanted)) = some d) :
    d.name = found.name ∧ d.source = wanted.source := by
  rw [statementFor_eq htitled, hkeyed _ wanted hwanted] at h
  exact of_ofLine?_restate_declare hread hsource (groupFor_ne_empty hkeyed hgroups hwanted) h

/-- A line that was restated is not restated again. -/
theorem restated?_eq_none_of_restated? (hkeyed : Keyed desired) (htitled : Titled modules)
    (hgroups : HasGroups desired modules) {line new : String}
    (h : restated? desired modules line = some new) : restated? desired modules new = none := by
  obtain ⟨found, wanted, hread, hwanted, hsource, rfl⟩ := restated?_eq_some_iff.mp h
  refine restated?_eq_none_iff.mpr fun d hd wanted' hwanted' => ?_
  obtain ⟨hname, hform⟩ :=
    of_ofLine?_restate_statementFor_keyed hkeyed htitled hgroups hread hwanted hsource hd
  rw [hname] at hwanted'
  cases hwanted.symm.trans hwanted'
  exact hform.symm

/-- Restating lines that were restated changes none of them: each one says what was wanted of it, or
nothing. -/
theorem restateAll_restateAll (hkeyed : Keyed desired) (htitled : Titled modules)
    (hgroups : HasGroups desired modules) (lines : List String) :
    restateAll desired modules (restateAll desired modules lines).1
      = ((restateAll desired modules lines).1, 0) := by
  have hnone : ∀ line ∈ (restateAll desired modules lines).1,
      restated? desired modules line = none := by
    rw [restateAll_fst]
    intro line' hline'
    obtain ⟨line, -, rfl⟩ := List.mem_map.mp hline'
    cases hrestated : restated? desired modules line with
    | none => rwa [Option.getD_none]
    | some new => exact restated?_eq_none_of_restated? hkeyed htitled hgroups hrestated
  have hcount : (restateAll desired modules (restateAll desired modules lines).1).2 = 0 := by
    rw [restateAll_snd, List.countP_eq_zero]
    intro line hline
    simp [hnone line hline]
  exact Prod.ext (restateAll_of_count_eq_zero hcount) hcount

end

/-- A group of odd characters: the restated line still says what was wanted, with a shorter
group. -/
theorem restateAll_restateAll_colon :
    let core : Dependency :=
      { name := "core", group := some ":com.example", verb := .api, quote := .single,
        source := false, version := some "1.0" }
    let desired := NameMap.empty.insert "core" core
    Keyed desired ∧ Titled .empty ∧ HasGroups desired .empty
      ∧ (restateAll desired .empty ["  api project(':core')"]).1 = ["  api ':com.example:core:1.0'"]
      ∧ restateAll desired .empty (restateAll desired .empty ["  api project(':core')"]).1
        = ((restateAll desired .empty ["  api project(':core')"]).1, 0) := by
  intro core desired
  have hdesired : ∀ name d, desired.get? name = some d → name = "core" ∧ d = core := by
    intro name d h
    rw [NameMap.get?_insert] at h
    split at h
    next hname => exact ⟨hname, (Option.some.inj h).symm⟩
    next => cases h
  have hkeyed : Keyed desired := fun name d h => by
    obtain ⟨rfl, rfl⟩ := hdesired name d h
    rfl
  have htitled : Titled .empty := nofun
  have hgroups : HasGroups desired .empty := ⟨nofun, fun name d h _ _ => by
    obtain ⟨rfl, rfl⟩ := hdesired name d h
    exact ⟨":com.example", rfl, by decide⟩⟩
  exact ⟨hkeyed, htitled, hgroups, by decide,
    restateAll_restateAll hkeyed htitled hgroups _⟩

/-- Without a group, an artifact and its version are read as a group and an artifact, which may be
wanted as a project. -/
theorem exists_restateAll_restateAll :
    ∃ (desired : Dependencies) (lines : List String),
      (restateAll desired .empty lines).1 = ["api ':core:1.0'"]
        ∧ restateAll desired .empty (restateAll desired .empty lines).1
          = (["api project(\":1\")"], 1) := by
  let core : Dependency :=
    { name := "core", verb := .api, quote := .single, source := false, version := some "1.0" }
  let one : Dependency := { name := "1", verb := .api, quote := .single, source := true }
  refine ⟨(NameMap.empty.insert "core" core).insert "1" one, ["api project(':core')"], ?_, ?_⟩
  · decide
  · decide

end Inclusion
