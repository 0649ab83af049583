import Inclusion.Workspace.Basic

/-!
# Edges and roots

A node has an edge to every other node that it declares as a dependency. The roots are the nodes
that no other node declares.

* `mem_edges_relink`: when there is an edge.
* `mem_roots_relink`: which nodes are roots.
-/
namespace Inclusion

namespace Node

/-- The nodes that `n`, under the name `name`, declares, in ascending order. -/
def linkTo (nodes : NameMap Node) (name : String) (n : Node) : List String :=
  nodes.keys.filter fun other => other != name && n.declares other

/-- Whether another node than `name` declares it. -/
def isDeclared (nodes : NameMap Node) (name : String) : Bool :=
  nodes.entries.any fun e => e.1 != name && e.2.declares name

end Node

namespace Workspace

/-- Draws all edges anew and finds the roots. -/
def relink (w : Workspace) : Workspace :=
  { w with
    nodes := w.nodes.mapValues fun name n => { n with edges := Node.linkTo w.nodes name n }
    roots := w.nodes.keys.filter fun name => !Node.isDeclared w.nodes name }

theorem get?_nodes_relink (w : Workspace) (name : String) :
    w.relink.nodes.get? name
      = (w.nodes.get? name).map fun n => { n with edges := Node.linkTo w.nodes name n } :=
  NameMap.get?_mapValues _ _ _

theorem mem_edges_relink {w : Workspace} {name other : String} {n : Node}
    (h : w.nodes.get? name = some n) :
    other ∈ w.relink.edgesOf name ↔
      w.nodes.contains other = true ∧ other ≠ name ∧ n.declares other = true := by
  simp [edgesOf, get?_nodes_relink, h, Node.linkTo, NameMap.mem_keys_iff]

theorem mem_roots_relink {w : Workspace} {name : String} :
    name ∈ w.relink.roots ↔
      w.nodes.contains name = true
        ∧ ∀ other n, w.nodes.get? other = some n → other ≠ name → n.declares name = false := by
  simp only [relink, List.mem_filter, NameMap.mem_keys_iff, Node.isDeclared, Bool.not_eq_true',
    List.any_eq_false, Bool.and_eq_true, bne_iff_ne, not_and, Bool.not_eq_true]
  refine and_congr_right fun _ => ⟨fun h other n hn hne => ?_, fun h e he hne => ?_⟩
  · exact h (other, n) (NameMap.mem_entries_iff.mpr hn) hne
  · exact h e.1 e.2 (NameMap.mem_entries_iff.mp he) hne

end Workspace

end Inclusion
