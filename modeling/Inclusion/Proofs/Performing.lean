import Inclusion.Proofs.Detour

/-!
# Changes, one after the other

A caller includes and excludes modules, one call after the other. A call comes to one of four things:
the module is not listed, the settings file refuses the edit, the settings file is edited and the
policy enforced anew, or a module that was not included is only dropped from the settings file.

* `outcome_perform`: what a call comes to.
* `akin_performAll`: what no calls change.
-/
namespace Inclusion

theorem NameMap.erase_of_not_contains {α : Type} {m : NameMap α} {k : String}
    (h : m.contains k = false) : m.erase k = m := by
  refine NameMap.ext fun j => ?_
  rw [NameMap.get?_erase]
  split
  next hj => exact hj ▸ (by simpa [NameMap.contains] using h : m.get? k = none).symm
  next => rfl

namespace Workspace

/-- A module that is to become part of a workspace, or no longer to be one. -/
inductive Change
  | including (name : String)
  | excluding (name : String)
deriving DecidableEq, Repr

namespace Change

def name : Change → String
  | including name => name
  | excluding name => name

/-- What the change makes of the settings, given the base and the module. -/
def edit (base : Path) (u : Manifest.Module) : Change → Settings.Snapshot → Settings.Snapshot
  | including _ => fun s => s.addExternal u.name (base.resolve u.path).text
  | excluding _ => fun s => s.remove u.name

/-- A workspace that has taken up the change of a module but has not enforced its policy yet. -/
def taken (w : Workspace) (u : Manifest.Module) : Change → Workspace
  | including _ => w.enlist u
  | excluding _ => w.release u

end Change

section

variable {σ : Type} [Store σ]

def perform (w : Workspace) (store : σ) : Change → Except Error Unit × Workspace × σ
  | .including name => w.includeModule store name
  | .excluding name => w.excludeModule store name

/-- Changes one after the other, where one that fails does not hold up those behind it. -/
def performAll (w : Workspace) (store : σ) (changes : List Change) : Workspace × σ :=
  changes.foldl (fun r c => (r.1.perform r.2 c).2) (w, store)

/-- What a change can come to. -/
inductive Outcome (w : Workspace) (store : σ) (c : Change) :
    Except Error Unit × Workspace × σ → Prop
  | unlisted (h : w.modules.get? c.name = none) :
    Outcome w store c (.error (.moduleNotFound c.name), w, store)
  | refused {u : Manifest.Module} {e : Error} (hu : w.modules.get? c.name = some u)
    (hedit : w.editSettings store (c.edit w.base u) = (.error e, w.withFailure e, store)) :
    Outcome w store c (.error e, w.withFailure e, store)
  | enforced {u : Manifest.Module} {v : Workspace} {store₁ : σ}
    (hu : w.modules.get? c.name = some u)
    (hedit : w.editSettings store (c.edit w.base u) = (.ok (), v, store₁)) :
    Outcome w store c (.ok (), (c.taken w u).comply store₁)
  /-- The module was not included. -/
  | dropped {u : Manifest.Module} {v : Workspace} {store₁ : σ} {name : String}
    (hu : w.modules.get? c.name = some u)
    (hedit : w.editSettings store (c.edit w.base u) = (.ok (), v, store₁))
    (hc : c = .excluding name) (hout : w.included.contains u.name = false) :
    Outcome w store c (.ok (), w.release u, store₁)

theorem outcome_includeModule (w : Workspace) (store : σ) (name : String) :
    w.Outcome store (.including name) (w.includeModule store name) := by
  unfold includeModule
  split
  next h => exact .unlisted h
  next u hu =>
    dsimp only
    split
    next e v store₁ hedit =>
      obtain ⟨-, rfl, rfl⟩ := editSettings_eq_error_iff.mp hedit
      exact .refused hu hedit
    next v store₁ hedit =>
      obtain ⟨rfl, -⟩ := of_editSettings hedit
      exact .enforced (c := .including name) hu hedit

theorem outcome_excludeModule (w : Workspace) (store : σ) (name : String) :
    w.Outcome store (.excluding name) (w.excludeModule store name) := by
  unfold excludeModule
  split
  next h => exact .unlisted h
  next u hu =>
    split
    next e v store₁ hedit =>
      obtain ⟨-, rfl, rfl⟩ := editSettings_eq_error_iff.mp hedit
      exact .refused hu hedit
    next v store₁ hedit =>
      obtain ⟨rfl, -⟩ := of_editSettings hedit
      split
      next => exact .enforced (c := .excluding name) hu hedit
      next hout =>
        have hout : w.included.contains u.name = false := by simpa using hout
        have hsame : w.release u = { w with settings := { w.settings with
            snapshot := w.settings.snapshot.remove u.name } } := by
          rw [release, NameMap.erase_of_not_contains hout]
        rw [← hsame]
        exact .dropped hu hedit rfl hout

theorem outcome_perform (w : Workspace) (store : σ) (c : Change) :
    w.Outcome store c (w.perform store c) := by
  cases c with
  | including name => exact outcome_includeModule w store name
  | excluding name => exact outcome_excludeModule w store name

/-- A change leaves what outlasts passes, edits of the settings and other included modules. -/
theorem Lasting.perform {P : Workspace → Prop} (h : Lasting P) (w : Workspace) (store : σ)
    (c : Change) (hw : P w) : P (w.perform store c).2.1 := by
  cases c with
  | including name => exact h.includeModule w store name hw
  | excluding name => exact h.excludeModule w store name hw

theorem Lasting.performAll {P : Workspace → Prop} (h : Lasting P) (w : Workspace) (store : σ)
    (changes : List Change) (hw : P w) : P (w.performAll store changes).1 := by
  induction changes generalizing w store with
  | nil => exact hw
  | cons c changes ih => exact ih _ _ (h.perform w store c hw)

/-- Whether two workspaces are made of the same manifest, base and settings file and have the same
nodes with the same declared names, the same edges and the same roots. -/
structure Akin (w w' : Workspace) : Prop where
  base : w'.base = w.base
  config : w'.config = w.config
  manifest : w'.manifest = w.manifest
  modules : w'.modules = w.modules
  settings : w'.settings.path = w.settings.path
  shape : w'.shape = w.shape
  edges : w'.edgesOf = w.edgesOf
  roots : w'.roots = w.roots

theorem Akin.refl (w : Workspace) : w.Akin w := ⟨rfl, rfl, rfl, rfl, rfl, rfl, rfl, rfl⟩

theorem lasting_akin (w : Workspace) : Lasting w.Akin where
  comply v store h :=
    ⟨(base_comply v store).trans h.base, (config_comply v store).trans h.config,
      (manifest_comply v store).trans h.manifest, (modules_comply v store).trans h.modules,
      (congrArg SettingsFile.path (settings_comply v store)).trans h.settings,
      (shape_comply v store).trans h.shape, (edgesOf_comply v store).trans h.edges,
      (roots_comply v store).trans h.roots⟩
  settings _ _ hpath h :=
    ⟨h.base, h.config, h.manifest, h.modules, hpath.trans h.settings, h.shape, h.edges, h.roots⟩
  included _ _ h :=
    ⟨h.base, h.config, h.manifest, h.modules, h.settings, h.shape, h.edges, h.roots⟩

/-- Changes leave all of a workspace as it is but what it knows of its files and which modules are
included. -/
theorem akin_performAll (w : Workspace) (store : σ) (changes : List Change) :
    w.Akin (w.performAll store changes).1 :=
  (lasting_akin w).performAll w store changes (.refl w)

end

variable {w w' w₀ : Workspace} {name : String}

theorem Akin.sameGraph (h : w₀.Akin w) (h' : w₀.Akin w') (hincluded : w'.included = w.included) :
    w.SameGraph w' :=
  ⟨h'.shape.trans h.shape.symm, h'.edges.trans h.edges.symm, h'.roots.trans h.roots.symm, hincluded⟩

theorem Akin.isAt_iff (h : w.Akin w') {l : List Path.Step} : w'.IsAt name l ↔ w.IsAt name l := by
  rw [isAt_iff_shape, isAt_iff_shape, h.shape]

theorem Akin.exists_node (h : w.Akin w') {path : Path}
    (hn : (w.nodes.get? name).map (·.file.path) = some path) :
    ∃ n, w'.nodes.get? name = some n ∧ n.file.path = path :=
  SameGraph.exists_node (w := { w with included := w'.included }) ⟨h.shape, h.edges, h.roots, rfl⟩ hn

/-- A root that is a project or an included module is met. -/
theorem Akin.isMet (h : w.Akin w') (hroot : name ∈ w.roots)
    (hinside : (w.shape.get? name).any fun n =>
      n.origin.isInternal || w'.included.contains name) : w'.IsMet name :=
  .start (h.roots ▸ hroot) (by rw [inside_eq, h.shape, hinside])

end Workspace

end Inclusion
