import Inclusion.Workspace.Basic
import Inclusion.Workspace.Traversal

/-!
# Enforcing the policy

The policy of a workspace is enforced on the nodes inside it that are met from the roots, in
breadth-first order over edges between nodes inside it. A node whose build file cannot be read or
written keeps the failure and does not hold up the others.

* `visitOrder_nodup`, `inside_of_mem_visitOrder`: each node inside is visited at most once.
* `enforceOn_modules`, `enforceOn_included`: enforcing leaves the policy as it is.
-/
namespace Inclusion.Workspace

/-- The nodes on which the policy is enforced, in order. -/
def visitOrder (w : Workspace) : List String :=
  traverse w.edgesOf (w.nodes.keys.filter w.inside) w.roots

variable {σ : Type} [Store σ]

/-- Enforces the policy on one node. -/
def enforceOn (w : Workspace) (store : σ) (name : String) : Workspace × σ :=
  match w.nodes.get? name with
  | none => (w, store)
  | some n =>
    let (_, n, store) := n.enforce store w.policy
    ({ w with nodes := w.nodes.insert name n }, store)

/-- Enforces the policy on nodes one after the other. -/
def enforceAll (w : Workspace) (store : σ) (names : List String) : Workspace × σ :=
  names.foldl (fun s name => s.1.enforceOn s.2 name) (w, store)

/-- Enforces the policy on all nodes inside that are met from the roots. -/
def comply (w : Workspace) (store : σ) : Workspace × σ := w.enforceAll store w.visitOrder

theorem visitOrder_nodup (w : Workspace) : w.visitOrder.Nodup :=
  traverse_nodup (w.nodes.keys_nodup.filter _) _

theorem inside_of_mem_visitOrder {w : Workspace} {name : String} (h : name ∈ w.visitOrder) :
    w.inside name = true :=
  (List.mem_filter.mp (mem_pending_of_mem_traverse h)).2

theorem enforceOn_modules (w : Workspace) (store : σ) (name : String) :
    (w.enforceOn store name).1.modules = w.modules := by
  unfold enforceOn
  split <;> rfl

theorem enforceOn_included (w : Workspace) (store : σ) (name : String) :
    (w.enforceOn store name).1.included = w.included := by
  unfold enforceOn
  split <;> rfl

end Inclusion.Workspace
