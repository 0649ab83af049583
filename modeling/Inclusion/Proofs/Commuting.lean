import Inclusion.Proofs.Convergence
import Inclusion.Proofs.Reporting
import Inclusion.Proofs.Restyling

/-!
# Nodes in any order

A policy may be enforced on nodes that have just been read in any order. What becomes of a node
depends on what it read, and on the files only in that its own one is there. What becomes of a file is
settled by the first node that has it for its build file: the text then is in the form that the policy
asks for, and the others find nothing left to restate.

* `Policy.settle`: the text that a build file ends up with.
* `Node.textAt_enforce_of_between`: one node settles its build file, if no one did so before.
* `Node.enforceEach_eq`: what becomes of nodes and files.
* `Node.enforceEach_perm`: the order of the nodes does not matter.
-/
namespace Inclusion

open Text BuildFile

/-- A text with what it declares in the forms that a policy asks for. -/
def Policy.settle (policy : Policy) (text : String) : String :=
  restateText (Node.desired policy (declared (splitLines text))) policy.modules text

namespace Node

/-- Whether a node has just been read, keeping nothing. -/
def IsRead (s : Shelf) (n : Node) : Prop := ∃ m : Node, n = (m.refresh s false).2

/-- Enforces a policy on nodes one after the other. -/
def enforceEach (policy : Policy) : List Node → Shelf → List Node × Shelf
  | [], s => ([], s)
  | n :: nodes, s =>
    let (_, n, s) := n.enforce s policy
    let (nodes, s) := enforceEach policy nodes s
    (n :: nodes, s)

/-- Whether each text is as it was or is settled. -/
def Between (policy : Policy) (s t : Shelf) : Prop :=
  ∀ l, t.textAt l = s.textAt l ∨ t.textAt l = (s.textAt l).map policy.settle

section

variable {policy : Policy} {s t : Shelf} {n : Node}

theorem IsRead.all_eq (h : n.IsRead s) : n.all = declared (linesAt s n.file.path) := by
  obtain ⟨m, rfl⟩ := h
  exact all_of_refresh s m

theorem IsRead.error_eq (h : n.IsRead s) : n.file.error = faultAt s n.file.path := by
  obtain ⟨m, rfl⟩ := h
  exact Node.error_refresh s m

theorem Between.isSome_eq (h : Between policy s t) (l : List Path.Step) :
    (t.textAt l).isSome = (s.textAt l).isSome := by
  rcases h l with h | h
  · rw [h]
  · rw [h, Option.isSome_map]

/-- What becomes of a node does not depend on how far the texts are settled. -/
theorem enforce_of_between (hn : n.IsRead s) (h : Between policy s t) :
    (n.enforce t policy).2.1 = (n.enforce s policy).2.1 := by
  have herror : n.file.error = faultAt t n.file.path := by
    rw [hn.error_eq, faultAt_eq, faultAt_eq, Shelf.text?, Shelf.text?, h.isSome_eq]
  have hfile : (n.enforce t policy).2.1.file = (n.enforce s policy).2.1.file := by
    rw [file_enforce herror, file_enforce hn.error_eq]
  -- all but the file is computed from the node alone
  exact congrArg (fun file => { (n.enforce s policy).2.1 with file := file }) hfile

/-- A node settles the text of its build file, whether or not it was settled before. -/
theorem textAt_enforce_of_between (hmodules : Nameable policy.modules) (hn : n.IsRead s)
    (hgrouped : Grouped (linesAt s n.file.path)) (h : Between policy s t) (l : List Path.Step) :
    (n.enforce t policy).2.2.textAt l
      = if l = n.file.path.location then (s.textAt l).map policy.settle else t.textAt l := by
  rw [textAt_enforce]
  split
  next hl =>
    subst hl
    cases htext : s.textAt n.file.path.location with
    | none =>
      have hnone : t.textAt n.file.path.location = none := by
        simpa [htext] using h.isSome_eq n.file.path.location
      rw [hnone, Option.map_none, Option.map_none]
    | some text =>
      have hlines : linesAt s n.file.path = splitLines text :=
        linesAt_of_read (Shelf.read_of_text? htext)
      have hcovers := covers_declared ((hlines ▸ hgrouped).untorn policy.modules)
      rw [hn.all_eq, hlines]
      rcases h n.file.path.location with hsame | hsettled
      · rw [hsame, htext, Option.map_some, Option.map_some, Policy.settle]
      · rw [hsettled, htext, Option.map_some, Option.map_some, Policy.settle,
          restateText_restateText hmodules hcovers]
  next => rfl

theorem Between.enforce (h : Between policy s t) (hmodules : Nameable policy.modules)
    (hn : n.IsRead s) (hgrouped : Grouped (linesAt s n.file.path)) :
    Between policy s (n.enforce t policy).2.2 := by
  intro l
  rw [textAt_enforce_of_between hmodules hn hgrouped h]
  split
  next => exact .inr rfl
  next => exact h l

end

/-- Each node ends up as if it were the only one, and the text of each of their build files is
settled. -/
theorem enforceEach_eq {policy : Policy} {s t : Shelf} {nodes : List Node}
    (hmodules : Nameable policy.modules) (hread : ∀ n ∈ nodes, n.IsRead s)
    (hgrouped : ∀ n ∈ nodes, Grouped (linesAt s n.file.path)) (h : Between policy s t) :
    (enforceEach policy nodes t).1 = nodes.map (fun n => (n.enforce s policy).2.1)
      ∧ ∀ l, (enforceEach policy nodes t).2.textAt l
        = if ∃ n ∈ nodes, l = n.file.path.location then (s.textAt l).map policy.settle
          else t.textAt l := by
  induction nodes generalizing t with
  | nil => simp [enforceEach]
  | cons n nodes ih =>
    obtain ⟨hn, hnodes⟩ := List.forall_mem_cons.mp hread
    obtain ⟨hlines, hrest⟩ := List.forall_mem_cons.mp hgrouped
    obtain ⟨hstates, htexts⟩ := ih hnodes hrest (h.enforce hmodules hn hlines)
    refine ⟨?_, fun l => ?_⟩
    · change (n.enforce t policy).2.1 :: (enforceEach policy nodes (n.enforce t policy).2.2).1 = _
      rw [hstates, enforce_of_between hn h, List.map_cons]
    · change (enforceEach policy nodes (n.enforce t policy).2.2).2.textAt l = _
      rw [htexts, textAt_enforce_of_between hmodules hn hlines h]
      by_cases hl : l = n.file.path.location
      · have hany : ∃ m ∈ n :: nodes, l = m.file.path.location := ⟨n, List.mem_cons_self .., hl⟩
        rw [if_pos hany, if_pos hl, ite_self]
      · rw [if_neg hl]
        simp only [List.exists_mem_cons_iff, hl, false_or]

/-- Enforcing the policy of a manifest on nodes that have just been read gives the same files in
whatever order it is done, and leaves each node as if it were the only one. -/
theorem enforceEach_perm {manifest : Manifest}
    (hmanifest : ∀ u ∈ manifest.modules, IsSegment u.name ∧ IsWord u.group) (included : NameSet)
    {s : Shelf} {nodes nodes' : List Node}
    (hread : ∀ n ∈ nodes, ∃ m : Node, n = (m.refresh s false).2)
    (hgrouped : ∀ n ∈ nodes, Grouped (linesAt s n.file.path)) (hperm : nodes.Perm nodes') :
    (enforceEach (manifest.policy included) nodes' s).2
        = (enforceEach (manifest.policy included) nodes s).2
      ∧ (enforceEach (manifest.policy included) nodes s).1
        = nodes.map (fun n => (n.enforce s (manifest.policy included)).2.1)
      ∧ (enforceEach (manifest.policy included) nodes' s).1
        = nodes'.map (fun n => (n.enforce s (manifest.policy included)).2.1) := by
  have hmodules : Nameable (manifest.policy included).modules :=
    (Workspace.wellNamed_listing (w := .blank ⟨"/"⟩ {} manifest) fun u hu _ => hmanifest u hu).nameable
  have hstart : Between (manifest.policy included) s s := fun _ => .inl rfl
  obtain ⟨hstates, htexts⟩ := enforceEach_eq hmodules hread hgrouped hstart
  obtain ⟨hstates', htexts'⟩ := enforceEach_eq hmodules (fun n hn => hread n (hperm.mem_iff.mpr hn))
    (fun n hn => hgrouped n (hperm.mem_iff.mpr hn)) hstart
  refine ⟨Shelf.ext fun l => ?_, hstates, hstates'⟩
  rw [htexts, htexts']
  simp only [hperm.mem_iff]

/-- Three nodes, two of which share a build file; that of the third one is missing. -/
theorem enforceEach_perm_shared :
    let manifest : Manifest := { name := "d", modules := [⟨"x", "x", "g"⟩, ⟨"login", "app", "g"⟩] }
    let s := appFile "api project(':x')"
    let app := readApp "api project(':x')"
    let login := ((external ⟨"login", "app", "g"⟩ ⟨"/ws"⟩ "build.gradle").refresh s false).2
    let core := ((Node.internal "core" ⟨"/ws"⟩ "build.gradle").refresh s false).2
    (app.file.path.Same login.file.path ∧ core.file.error.isSome)
      ∧ (enforceEach (manifest.policy .empty) [core, login, app] s).2
        = (enforceEach (manifest.policy .empty) [app, login, core] s).2
      ∧ (enforceEach (manifest.policy .empty) [app, login, core] s).2.text? app.file.path
        = some "api 'g:x:UNKNOWN'" := by
  intro manifest s app login core
  have hread : ∀ n ∈ [app, login, core], ∃ m : Node, n = (m.refresh s false).2 := by
    simp only [List.forall_mem_cons, List.not_mem_nil, false_implies, implies_true, and_true]
    exact ⟨⟨_, rfl⟩, ⟨_, rfl⟩, ⟨_, rfl⟩⟩
  have hgroups : ∀ n ∈ [app, login, core],
      ∀ d ∈ (linesAt s n.file.path).filterMap Dependency.ofLine?, d.source = true := by decide
  have hgrouped : ∀ n ∈ [app, login, core], Grouped (linesAt s n.file.path) := by
    intro n hn line hline d hfound hsource
    have hproject := hgroups n hn d (List.mem_filterMap.mpr ⟨line, hline, hfound⟩)
    simp [hsource] at hproject
  have hmanifest : ∀ u ∈ manifest.modules, IsSegment u.name ∧ IsWord u.group := by decide
  have h := enforceEach_perm hmanifest .empty hread hgrouped (List.reverse_perm _).symm
  exact ⟨by decide, h.1, by decide +kernel⟩

end Node

end Inclusion
