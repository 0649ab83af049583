import Inclusion.Workspace.Compliance

/-!
# What a search meets

A breadth-first search meets the pending names that can be reached from its queue over pending
names. For a workspace these are the nodes inside it that can be reached from a root inside it
without leaving it; on them, and on no others, its policy is enforced.

* `mem_traverse_iff`: the names of a search are those that are met.
* `Workspace.mem_visitOrder_iff`: the nodes that are visited are those met from the roots.
-/
namespace Inclusion

/-- The names reached from a queue over names that pass a test. -/
inductive Met (edges : String → List String) (passes : String → Prop) (queue : List String) :
    String → Prop
  | start {name : String} (hqueue : name ∈ queue) (h : passes name) : Met edges passes queue name
  | edge {name other : String} (hmet : Met edges passes queue name) (hedge : other ∈ edges name)
      (h : passes other) : Met edges passes queue other

namespace Met

variable {edges : String → List String} {passes : String → Prop} {queue : List String}

/-- A search that starts from met names over fewer names meets nothing else. -/
theorem mono {passes' : String → Prop} {queue' : List String}
    (hqueue : ∀ name ∈ queue', passes' name → Met edges passes queue name)
    (hpasses : ∀ name, passes' name → passes name) {name : String}
    (h : Met edges passes' queue' name) : Met edges passes queue name := by
  induction h with
  | start hmem h => exact hqueue _ hmem h
  | edge _ hedge h ih => exact edge ih hedge (hpasses _ h)

/-- Names that hold the start of a search and are closed under its steps hold all that is met. -/
theorem mem_of_closed {names : List String} (hstart : ∀ name ∈ queue, passes name → name ∈ names)
    (hclosed : ∀ name ∈ names, ∀ other ∈ edges name, passes other → other ∈ names) {name : String}
    (h : Met edges passes queue name) : name ∈ names := by
  induction h with
  | start hqueue h => exact hstart _ hqueue h
  | edge _ hedge h ih => exact hclosed _ ih _ hedge h

end Met

theorem met_of_mem_traverse {edges : String → List String} {pending queue : List String}
    {name : String} (h : name ∈ traverse edges pending queue) :
    Met edges (· ∈ pending) queue name := by
  fun_induction traverse edges pending queue with
  | case1 => simp at h
  | case2 pending first queue hmem ih =>
    have hfirst : Met edges (· ∈ pending) (first :: queue) first :=
      .start (List.mem_cons_self ..) hmem
    rcases List.mem_cons.mp h with rfl | h
    · exact hfirst
    · refine (ih h).mono (fun other hother hin => ?_) fun _ => List.mem_of_mem_erase
      have hin := List.mem_of_mem_erase hin
      rcases List.mem_append.mp hother with hqueue | hedge
      · exact .start (List.mem_cons_of_mem _ hqueue) hin
      · exact hfirst.edge hedge hin
  | case3 pending first queue _ ih =>
    exact (ih h).mono (fun _ hqueue hin => .start (List.mem_cons_of_mem _ hqueue) hin) fun _ => id

/-- A search takes in the pending names of its queue, and with a name those behind its edges. -/
theorem traverse_closed (edges : String → List String) (pending queue : List String) :
    (∀ name ∈ queue, name ∈ pending → name ∈ traverse edges pending queue) ∧
      ∀ name ∈ traverse edges pending queue, ∀ other ∈ edges name, other ∈ pending →
        other ∈ traverse edges pending queue := by
  fun_induction traverse edges pending queue with
  | case1 => simp
  | case2 pending first queue _ ih =>
    obtain ⟨hstart, hclosed⟩ := ih
    -- a pending name is the first one or still pending after it
    have hrest : ∀ name, name ∈ pending → name ∈ queue ++ edges first →
        name ∈ first :: traverse edges (pending.erase first) (queue ++ edges first) := by
      intro name hin hqueue
      by_cases hname : name = first
      · exact hname ▸ List.mem_cons_self ..
      · exact List.mem_cons_of_mem _ (hstart name hqueue ((List.mem_erase_of_ne hname).mpr hin))
    refine ⟨fun name hqueue hin => ?_, fun name hname other hedge hin => ?_⟩
    · rcases List.mem_cons.mp hqueue with rfl | hqueue
      · exact List.mem_cons_self ..
      · exact hrest name hin (List.mem_append_left _ hqueue)
    · rcases List.mem_cons.mp hname with rfl | hname
      · exact hrest other hin (List.mem_append_right _ hedge)
      · by_cases hother : other = first
        · exact hother ▸ List.mem_cons_self ..
        · exact List.mem_cons_of_mem _
            (hclosed name hname other hedge ((List.mem_erase_of_ne hother).mpr hin))
  | case3 pending first queue hnot ih =>
    refine ⟨fun name hqueue hin => ?_, ih.2⟩
    rcases List.mem_cons.mp hqueue with rfl | hqueue
    · exact absurd hin hnot
    · exact ih.1 name hqueue hin

theorem mem_traverse_iff {edges : String → List String} {pending queue : List String}
    {name : String} :
    name ∈ traverse edges pending queue ↔ Met edges (· ∈ pending) queue name :=
  ⟨met_of_mem_traverse, Met.mem_of_closed (traverse_closed edges pending queue).1
    (traverse_closed edges pending queue).2⟩

namespace Workspace

/-- Whether a node can be reached from a root over edges between nodes inside the workspace. -/
def IsMet (w : Workspace) (name : String) : Prop :=
  Met w.edgesOf (fun name => w.inside name = true) w.roots name

theorem contains_of_inside {w : Workspace} {name : String} (h : w.inside name = true) :
    w.nodes.contains name = true := by
  obtain ⟨n, hn, _⟩ := inside_iff.mp h
  simp [NameMap.contains, hn]

theorem mem_keys_inside_iff {w : Workspace} {name : String} :
    name ∈ w.nodes.keys.filter w.inside ↔ w.inside name = true := by
  rw [List.mem_filter, NameMap.mem_keys_iff]
  exact ⟨And.right, fun h => ⟨contains_of_inside h, h⟩⟩

theorem mem_visitOrder_iff {w : Workspace} {name : String} :
    name ∈ w.visitOrder ↔ w.IsMet name := by
  rw [visitOrder, mem_traverse_iff, IsMet]
  simp only [mem_keys_inside_iff]

end Workspace

end Inclusion
