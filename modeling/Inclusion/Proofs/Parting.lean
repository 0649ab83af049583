import Inclusion.Proofs.Refreshing
import Inclusion.Workspace.Update

/-!
# The two parts of what a node knows

A node holds its dependencies three times: all of them, those on source and those on remote
artifacts. Whatever is done to it, whether that succeeds or fails, the last two are the parts of the
first, and each dependency stands under its own name.

* `Node.parted_repartition`: parting what is known under its own names.
* `Node.Parted.refresh`, `Node.Parted.renew`, `Node.Parted.enforce`: what each operation keeps.
* `Node.parted_of_career`: what they keep in any order.
-/
namespace Inclusion.Node

open Workspace

/-- Whether the dependencies on source and those on remote artifacts are just the two parts of all
dependencies, and each one is known under its own name. -/
structure Parted (n : Node) : Prop where
  named : ∀ name d, n.all.get? name = some d → d.name = name
  source : ∀ name d,
    n.source.get? name = some d ↔ n.all.get? name = some d ∧ d.source = true
  remote : ∀ name d,
    n.remote.get? name = some d ↔ n.all.get? name = some d ∧ d.source = false

/-- What a node went through: how it was made, and what was done to it since, over any files. A
newer node that it was to take over has such a past of its own. -/
inductive Career : Type 1
  | external (u : Manifest.Module) (base : Path) (buildFile : String)
  | internal (project : String) (base : Path) (buildFile : String)
  | refresh {σ : Type} [Store σ] (before : Career) (store : σ) (keep : Bool)
  | supersede (before newer : Career)
  | enforce {σ : Type} [Store σ] (before : Career) (store : σ) (policy : Policy)

/-- What has become of a node. One of another kind than it is not taken over and changes nothing. -/
def Career.node : Career → Node
  | external u base buildFile => .external u base buildFile
  | internal project base buildFile => .internal project base buildFile
  | refresh before store keep => (before.node.refresh store keep).2
  | supersede before newer => renew (some before.node) newer.node
  | enforce before store policy => (before.node.enforce store policy).2.1

theorem parted_repartition {n : Node} (h : Named n.all) : n.repartition.Parted where
  named := h
  source name d := by rw [get?_source_repartition, Option.filter_eq_some_iff, repartition_all]
  remote name d := by
    rw [get?_remote_repartition, Option.filter_eq_some_iff, repartition_all, Bool.not_eq_true']

theorem named_desired {known : Dependencies} (h : Named known) (policy : Policy) :
    Named (desired policy known) := by
  intro name wanted hwanted
  obtain ⟨d, hd, rfl⟩ := get?_desired hwanted
  split
  · exact h name d hd
  · exact h name d hd

namespace Parted

variable {n newer : Node} {σ : Type} [Store σ]

theorem refresh (h : n.Parted) (store : σ) (keep : Bool) : (n.refresh store keep).2.Parted := by
  cases keep with
  | false => rw [refresh_false]; exact parted_repartition (named_listed _)
  | true =>
    obtain ⟨all, hrefresh, hknown⟩ := refresh_true h.named store
    rw [hrefresh]
    refine parted_repartition fun name d hd => ?_
    exact name_of_remembered (h.named name) (fun _ => name_of_mem_observedAs) (hknown name ▸ hd)

/-- A newer node is read anew, taken over with its parts, or refused. -/
theorem renew (h : n.Parted) (hnewer : newer.Parted) :
    (Workspace.renew (some n) newer).Parted := by
  unfold Workspace.renew
  split
  next => trivial
  next known hknown =>
    cases hknown
    split
    next merged hmerged =>
      unfold supersede at hmerged
      split at hmerged
      next => cases hmerged
      next =>
        dsimp only at hmerged
        split at hmerged
        next =>
          rw [populate_false] at hmerged
          cases hmerged
          exact parted_repartition (named_listed _)
        next => cases hmerged; exact ⟨hnewer.named, hnewer.source, hnewer.remote⟩
    next => exact h

theorem enforce (h : n.Parted) (store : σ) (policy : Policy) :
    (n.enforce store policy).2.1.Parted := by
  have hparted := parted_repartition (n := { n with all := desired policy n.all })
    (named_desired h.named policy)
  exact ⟨hparted.named, hparted.source, hparted.remote⟩

end Parted

/-- Whatever a node went through, each dependency is known under its own name, and those on source and
those on remote artifacts are just the two parts of all. -/
theorem parted_of_career (c : Career) : c.node.Parted := by
  induction c with
  | external u base buildFile => exact parted_repartition (n := .external u base buildFile) nofun
  | internal project base buildFile =>
    exact parted_repartition (n := .internal project base buildFile) nofun
  | refresh before store keep ih => exact ih.refresh store keep
  | supersede before newer ih ihnewer => exact ih.renew ihnewer
  | enforce before store policy ih => exact ih.enforce store policy

end Inclusion.Node
