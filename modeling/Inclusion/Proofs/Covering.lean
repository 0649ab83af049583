import Inclusion.Proofs.History
import Inclusion.Proofs.Pass
import Mathlib.Order.WellFoundedSet

/-!
# Graphs that their roots cover

A node depends on the other nodes that it declares. Where no node depends on itself over others,
going from a node to one that depends on it, again and again, comes to an end, and it can end at a
root only. So every node is reached from a root, and a pass over a workspace with all nodes inside
gives each of them a turn.

* `Acyclic.wellFounded`: going against dependencies comes to an end.
* `Acyclic.exists_root`: every node is reached from a root.
* `covered_of_acyclic`: the roots cover an acyclic workspace, and so does a pass over all of it.
-/
namespace Inclusion.Workspace

open Relation

/-- Whether a node declares another one. -/
def Depends (w : Workspace) (name other : String) : Prop :=
  w.nodes.contains other = true ∧ other ≠ name
    ∧ ∃ n, w.nodes.get? name = some n ∧ n.declares other = true

/-- Whether no node depends on itself over other nodes. That a node declares itself does not count. -/
def Acyclic (w : Workspace) : Prop := ∀ name, ¬TransGen w.Depends name name

variable {w : Workspace}

theorem depends_iff_mem_edges {name other : String} :
    w.Depends name other ↔ other ∈ w.relink.edgesOf name := by
  cases hn : w.nodes.get? name with
  | none => simp [Depends, edgesOf, get?_nodes_relink, hn]
  | some n =>
    rw [mem_edges_relink hn, Depends]
    simp [hn]

theorem mem_roots_iff_not_depends {name : String} :
    name ∈ w.relink.roots ↔ w.nodes.contains name = true ∧ ∀ other, ¬w.Depends other name := by
  rw [mem_roots_relink]
  refine and_congr_right fun hname => forall_congr' fun other => ⟨?_, fun h n hn hne => ?_⟩
  · rintro hroot ⟨-, hne, n, hn, hdeclares⟩
    simp [hroot n hn hne.symm] at hdeclares
  · exact Bool.eq_false_iff.mpr fun hdeclares => h ⟨hname, hne.symm, n, hn, hdeclares⟩

theorem Depends.contains {name other : String} (h : w.Depends name other) :
    w.nodes.contains name = true := by
  obtain ⟨-, -, n, hn, -⟩ := h
  simp [NameMap.contains, hn]

/-- Numbers that grow along dependencies rule out cycles. -/
theorem acyclic_of_rank (rank : String → Nat)
    (h : ∀ e ∈ w.nodes.entries, ∀ other ∈ w.nodes.keys, e.2.declares other = true →
      other ≠ e.1 → rank e.1 < rank other) : w.Acyclic := by
  have hgrows : ∀ {name other}, TransGen w.Depends name other → rank name < rank other := by
    intro name other hpath
    refine TransGen.trans_induction_on (motive := fun {a b} _ => rank a < rank b) hpath
      (fun {a b} hab => ?_) fun _ _ => Nat.lt_trans
    obtain ⟨hb, hne, n, hn, hdeclares⟩ := hab
    exact h (a, n) (NameMap.mem_entries_iff.mpr hn) b (NameMap.mem_keys_iff.mpr hb) hdeclares hne
  exact fun name hcycle => Nat.lt_irrefl _ (hgrows hcycle)

namespace Acyclic

/-- Among finitely many nodes, going from a node to one that depends on it comes to an end. -/
theorem wellFounded (h : w.Acyclic) : WellFounded w.Depends := by
  have : IsStrictOrder String (TransGen w.Depends) :=
    { irrefl := h, trans := fun _ _ _ => TransGen.trans }
  have hfinite := (w.nodes.keys.finite_toSet).wellFoundedOn (r := TransGen w.Depends)
  refine Subrelation.wf (fun {name other} hdepends => ?_) (Set.wellFoundedOn_iff.mp hfinite)
  exact ⟨.single hdepends, NameMap.mem_keys_iff.mpr hdepends.contains,
    NameMap.mem_keys_iff.mpr hdepends.1⟩

theorem exists_root (h : w.Acyclic) {name : String} (hname : w.nodes.contains name = true) :
    ∃ root ∈ w.relink.roots, ReflTransGen w.Depends root name := by
  induction name using h.wellFounded.induction with
  | h name ih =>
    by_cases hroot : name ∈ w.relink.roots
    · exact ⟨name, hroot, .refl⟩
    · -- what is not a root is declared by another node
      obtain ⟨other, hother⟩ : ∃ other, w.Depends other name := by
        simpa [mem_roots_iff_not_depends, hname] using hroot
      obtain ⟨root, hmem, hpath⟩ := ih other hother hother.contains
      exact ⟨root, hmem, hpath.tail hother⟩

/-- With all nodes inside, every node is met from the roots. -/
theorem isMet (h : w.Acyclic)
    (hinside : ∀ name, w.nodes.contains name = true → w.relink.inside name = true) {name : String}
    (hname : w.nodes.contains name = true) : w.relink.IsMet name := by
  obtain ⟨root, hroot, hpath⟩ := h.exists_root hname
  have hstart : w.relink.IsMet root :=
    .start hroot (hinside root (mem_roots_iff_not_depends.mp hroot).1)
  clear hname
  induction hpath with
  | refl => exact hstart
  | tail _ hdepends ih => exact ih.edge (depends_iff_mem_edges.mp hdepends) (hinside _ hdepends.1)

end Acyclic

variable {σ : Type} [Store σ]

/-- The roots of an acyclic workspace cover it: every node is reached from one along edges. If all
nodes are inside, a pass gives each of them just one turn. -/
theorem covered_of_acyclic (w : Workspace) (store : σ) (h : w.Acyclic) :
    (∀ name, w.nodes.contains name = true → ∃ root ∈ w.relink.roots,
      ReflTransGen (fun name other => other ∈ w.relink.edgesOf name) root name)
    ∧ (w.nodes.keys ≠ [] → w.relink.roots ≠ [])
    ∧ ((∀ name, w.nodes.contains name = true → w.relink.inside name = true) →
      ∃ last, Pass.Run (Pass.start w.relink store) last
        ∧ (last.workspace, last.store) = w.relink.comply store
        ∧ last.visited.Perm w.nodes.keys) := by
  refine ⟨fun name hname => ?_, fun hne => ?_, fun hinside => ?_⟩
  · obtain ⟨root, hroot, hpath⟩ := h.exists_root hname
    exact ⟨root, hroot, hpath.lift id fun _ _ => depends_iff_mem_edges.mp⟩
  · obtain ⟨name, hname⟩ := List.exists_mem_of_ne_nil _ hne
    obtain ⟨root, hroot, -⟩ := h.exists_root (NameMap.mem_keys_iff.mp hname)
    exact List.ne_nil_of_mem hroot
  · obtain ⟨last, hrun, hlast, horder⟩ := Pass.exists_run_start w.relink store
    refine ⟨last, hrun, hlast, ?_⟩
    rw [horder, List.perm_ext_iff_of_nodup w.relink.visitOrder_nodup w.nodes.keys_nodup]
    intro name
    rw [NameMap.mem_keys_iff]
    refine ⟨fun hmem => ?_, fun hname => mem_visitOrder_iff.mpr (h.isMet hinside hname)⟩
    have hcontains := contains_of_inside (inside_of_mem_visitOrder hmem)
    rwa [NameMap.contains, get?_nodes_relink, Option.isSome_map] at hcontains

/-- A project that declares two others, one of which declares the other one. -/
def shortcutFiles : Shelf := .ofFiles
  [ ("/ws/settings.gradle", "include ':app', ':core', ':login'"),
    ("/ws/app/build.gradle", "api project(':core')\napi project(':login')"),
    ("/ws/login/build.gradle", "api project(':core')") ]

def shortcut : Workspace := (blank ⟨"/ws"⟩ {} { name := "d" }).survey shortcutFiles false

/-- How far each project is from the one that declares all others, at most. -/
def shortcutRank (name : String) : Nat :=
  if name = "app" then 0 else if name = "login" then 1 else 2

theorem acyclic_shortcut : shortcut.Acyclic := acyclic_of_rank shortcutRank (by decide)

theorem graph_shortcut :
    (shortcut.nodes.keys = ["app", "core", "login"]
      ∧ shortcut.relink.nodes.keys.filter shortcut.relink.inside = ["app", "core", "login"])
    ∧ shortcut.relink.roots = ["app"] ∧ shortcut.relink.edgesOf "app" = ["core", "login"]
      ∧ shortcut.relink.edgesOf "core" = [] ∧ shortcut.relink.edgesOf "login" = ["core"] := by
  decide

theorem covered_of_acyclic_shortcut :
    shortcut.Acyclic
      ∧ (∃ root ∈ shortcut.relink.roots,
        ReflTransGen (fun name other => other ∈ shortcut.relink.edgesOf name) root "core")
      ∧ ∃ last, Pass.Run (Pass.start shortcut.relink shortcutFiles) last
        ∧ last.visited.Perm ["app", "core", "login"] := by
  obtain ⟨⟨hkeys, hfilter⟩, -⟩ := graph_shortcut
  obtain ⟨hreached, -, hpass⟩ := covered_of_acyclic shortcut shortcutFiles acyclic_shortcut
  have hinside : ∀ name, shortcut.nodes.contains name = true →
      shortcut.relink.inside name = true := by
    intro name hname
    rwa [← NameMap.mem_keys_iff, hkeys, ← hfilter, mem_keys_inside_iff] at hname
  obtain ⟨last, hrun, -, hvisited⟩ := hpass hinside
  refine ⟨acyclic_shortcut, hreached "core" ?_, last, hrun, hkeys ▸ hvisited⟩
  exact NameMap.mem_keys_iff.mp (by simp [hkeys])

end Inclusion.Workspace
