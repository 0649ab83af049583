import Inclusion.NameMap

/-!
# The projects that a settings file registers

A snapshot lists all registered projects, those that an include statement names, and those that are
bound to a directory, each list in the order of registration and without repetition.

* `mem_addNew`, `addNew_nodup`: adding a name adds just that name, and never a second time.
* `map_fst_bindTo`, `lookup_bindTo`: binding a name binds just that name, and adds it if it is new.
* `not_mem_remove`: a removed project is gone from all three lists.
-/
namespace Inclusion.Settings

/-- The projects registered in a settings file, in the order of registration. -/
structure Snapshot where
  all : List String := []
  /-- Projects that an include statement names. -/
  internal : List String := []
  /-- Projects bound to a directory. -/
  external : List (String × String) := []
deriving DecidableEq, Repr, Inhabited

/-- The list with a name at its end, unless it holds the name already. -/
def addNew (names : List String) (name : String) : List String :=
  if name ∈ names then names else names ++ [name]

/-- The list with a name bound to a path: in its place if it was bound, else at the end. -/
def bindTo (bindings : List (String × String)) (name path : String) : List (String × String) :=
  if name ∈ bindings.map Prod.fst then
    bindings.map fun b => if b.1 = name then (name, path) else b
  else bindings ++ [(name, path)]

namespace Snapshot

def contains (s : Snapshot) (name : String) : Bool := decide (name ∈ s.all)

/-- The directory that a project is bound to. -/
def directory? (s : Snapshot) (name : String) : Option String := s.external.lookup name

def addInternal (s : Snapshot) (name : String) : Snapshot :=
  { s with all := addNew s.all name, internal := addNew s.internal name }

def addExternal (s : Snapshot) (name path : String) : Snapshot :=
  { s with all := addNew s.all name, external := bindTo s.external name path }

/-- Drops every registration of a project. -/
def remove (s : Snapshot) (name : String) : Snapshot :=
  { all := s.all.filter (· != name),
    internal := s.internal.filter (· != name),
    external := s.external.filter (·.1 != name) }

/-- Whether a project is registered in any way, so that removing it drops something. -/
def mentions (s : Snapshot) (name : String) : Bool :=
  decide (name ∈ s.all) || decide (name ∈ s.internal) || decide (name ∈ s.external.map Prod.fst)

end Snapshot

theorem mem_addNew {names : List String} {name n : String} :
    n ∈ addNew names name ↔ n ∈ names ∨ n = name := by
  unfold addNew
  split
  next h => exact ⟨.inl, fun hn => hn.elim id fun heq => heq ▸ h⟩
  next => simp

theorem addNew_nodup {names : List String} (h : names.Nodup) (name : String) :
    (addNew names name).Nodup := by
  unfold addNew
  split
  next => exact h
  next hnot =>
    refine List.nodup_append.mpr ⟨h, by simp, fun a ha b hb => ?_⟩
    rintro rfl
    exact hnot (List.mem_singleton.mp hb ▸ ha)

/-- A name that was bound keeps its place. -/
theorem map_fst_bindTo (bindings : List (String × String)) (name path : String) :
    (bindTo bindings name path).map Prod.fst = addNew (bindings.map Prod.fst) name := by
  unfold bindTo addNew
  split
  next =>
    rw [List.map_map]
    refine List.map_congr_left fun b _ => ?_
    by_cases hb : b.1 = name <;> simp [hb]
  next => rw [List.map_append, List.map_singleton]

theorem lookup_map_replace (bindings : List (String × String)) (name path n : String) :
    (bindings.map fun b => if b.1 = name then (name, path) else b).lookup n
      = if n = name ∧ name ∈ bindings.map Prod.fst then some path else bindings.lookup n := by
  induction bindings with
  | nil => simp
  | cons b bindings ih =>
    rw [List.map_cons, NameMap.lookup_cons, NameMap.lookup_cons, ih]
    by_cases hb : b.1 = name
    · by_cases hn : n = name <;> simp [hb, hn]
    · have hbn : ¬name = b.1 := fun h => hb h.symm
      by_cases hn : n = name
      · subst hn
        have hmem : n ∈ (b :: bindings).map Prod.fst ↔ n ∈ bindings.map Prod.fst := by
          simp [hbn]
        simp only [if_neg hb, if_neg hbn, hmem, true_and]
      · simp [hb, hn]

theorem lookup_bindTo (bindings : List (String × String)) (name path n : String) :
    (bindTo bindings name path).lookup n
      = if n = name then some path else bindings.lookup n := by
  unfold bindTo
  split
  next h => simp [lookup_map_replace, h]
  next h =>
    have hnone : bindings.lookup name = none :=
      List.lookup_eq_none_iff.mpr fun b hb => by
        have : name ≠ b.1 := fun he => h (he ▸ List.mem_map_of_mem hb)
        simpa using this
    by_cases hn : n = name
    · subst hn; simp [List.lookup_append, hnone]
    · simp [List.lookup_append, hn]

theorem Snapshot.not_mem_remove (s : Snapshot) (name : String) :
    (s.remove name).mentions name = false := by
  simp [mentions, remove]

end Inclusion.Settings
