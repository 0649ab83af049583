import Inclusion.Proofs.Restatement
import Inclusion.Store.Shelf
import Inclusion.Workspace.Compliance

/-!
# What enforcing a policy does to files

Enforcing the policy on a node restates the text at the location of its build file and leaves all
other texts alone. Nodes may share a build file: as they know the same of it, the first one brings
the text into its final form and the others find nothing left to restate.

* `Node.textAt_enforce`: the texts after one node.
* `Workspace.textAt_enforceAll`, `Workspace.isSome_textAt_enforceAll`: the texts after any nodes.
* `Workspace.restyled_enforceAll`: what becomes of the nodes.
-/
namespace Inclusion

open Text BuildFile

section

variable {α : Type} {r : α → α → Prop} {a b : Option α}

theorem exists_of_rel_left {x : α} (h : Option.Rel r (some x) b) : ∃ y, b = some y ∧ r x y := by
  cases h with | some h => exact ⟨_, rfl, h⟩

theorem exists_of_rel_right {y : α} (h : Option.Rel r a (some y)) : ∃ x, a = some x ∧ r x y := by
  cases h with | some h => exact ⟨_, rfl, h⟩

theorem rel_trans (htrans : ∀ x y z, r x y → r y z → r x z) {c : Option α}
    (h : Option.Rel r a b) (h' : Option.Rel r b c) : Option.Rel r a c := by
  cases h with
  | none => exact h'
  | some h => cases h' with | some h' => exact .some (htrans _ _ _ h h')

theorem map_eq_of_rel {β : Type} {f : α → β} (hf : ∀ x y, r x y → f y = f x)
    (h : Option.Rel r a b) : b.map f = a.map f := by
  cases h with
  | none => rfl
  | some h => exact congrArg some (hf _ _ h)

end

/-- A file that is there is written, unless that would change nothing. -/
theorem BuildFile.write_of_text? {f : BuildFile} {s : Shelf} {text : String}
    (htext : s.text? f.path = some text) (desired : Dependencies)
    (modules : NameMap Manifest.Module) :
    f.write s desired modules
      = (.ok (restateAll desired modules (splitLines text)).2, f,
          if (restateAll desired modules (splitLines text)).2 = 0 then s
          else s.put f.path (restateText desired modules text)) := by
  simp only [write, Shelf.read_of_text? htext, Shelf.write_of_text? htext]
  split
  next hcount => rw [hcount]
  next => rfl

theorem BuildFile.textAt_write (f : BuildFile) (s : Shelf) (desired : Dependencies)
    (modules : NameMap Manifest.Module) (l : List Path.Step) :
    (f.write s desired modules).2.2.textAt l
      = if l = f.path.location then (s.textAt l).map (restateText desired modules)
        else s.textAt l := by
  cases htext : s.text? f.path with
  | none =>
    simp only [write, Shelf.read_of_text?_eq_none htext]
    split
    next h => rw [h, show s.textAt f.path.location = none from htext]; rfl
    next => rfl
  | some text =>
    have hat : s.textAt f.path.location = some text := htext
    rw [write_of_text? htext desired modules]
    dsimp only
    split
    next hcount =>
      have hsame : restateText desired modules text = text := by
        rw [restateText, restateAll_of_count_eq_zero hcount, joinLines_splitLines]
      split
      next h => rw [h, hat, Option.map_some, hsame]
      next => rfl
    next =>
      simp only [Shelf.put, Shelf.set]
      split
      next h => rw [h, hat, Option.map_some]
      next => rfl

section

variable {σ : Type} [Store σ] (f : BuildFile) (store : σ) (desired : Dependencies)
  (modules : NameMap Manifest.Module)

/-- Restating a file changes nothing of what is known about it but its failure. -/
theorem BuildFile.write_rest :
    { (f.write store desired modules).2.1 with error := f.error } = f := by
  unfold write
  split
  · rfl
  · dsimp only
    split
    · rfl
    · split <;> rfl

theorem BuildFile.path_write : (f.write store desired modules).2.1.path = f.path :=
  (congrArg BuildFile.path (write_rest f store desired modules) :)

theorem BuildFile.dependencies_write :
    (f.write store desired modules).2.1.dependencies = f.dependencies :=
  (congrArg BuildFile.dependencies (write_rest f store desired modules) :)

end

namespace Node

theorem textAt_enforce (n : Node) (s : Shelf) (policy : Policy) (l : List Path.Step) :
    (n.enforce s policy).2.2.textAt l
      = if l = n.file.path.location
        then (s.textAt l).map (restateText (desired policy n.all) policy.modules)
        else s.textAt l :=
  BuildFile.textAt_write n.file s (desired policy n.all) policy.modules l

/-- No file is made or removed. -/
theorem isSome_textAt_enforce (n : Node) (s : Shelf) (policy : Policy) (l : List Path.Step) :
    ((n.enforce s policy).2.2.textAt l).isSome = (s.textAt l).isSome := by
  rw [textAt_enforce]
  split
  next => rw [Option.isSome_map]
  next => rfl

/-- What a policy may have changed about a node, and what it has not. -/
structure Restyled (policy : Policy) (n n' : Node) : Prop where
  name : n'.name = n.name
  origin : n'.origin = n.origin
  edges : n'.edges = n.edges
  path : n'.file.path = n.file.path
  all : n'.all = n.all ∨ n'.all = desired policy n.all

variable {policy : Policy} {n n' n'' : Node}

theorem Restyled.refl (policy : Policy) (n : Node) : Restyled policy n n :=
  ⟨rfl, rfl, rfl, rfl, .inl rfl⟩

theorem Restyled.trans (h : Restyled policy n n') (h' : Restyled policy n' n'') :
    Restyled policy n n'' where
  name := h'.name.trans h.name
  origin := h'.origin.trans h.origin
  edges := h'.edges.trans h.edges
  path := h'.path.trans h.path
  all := by
    rcases h.all with h₁ | h₁ <;> rcases h'.all with h₂ | h₂
    · exact .inl (h₂.trans h₁)
    · exact .inr (h₁ ▸ h₂)
    · exact .inr (h₂.trans h₁)
    · exact .inr (by rw [h₂, h₁, desired_desired rfl])

theorem restyled_enforce {σ : Type} [Store σ] (n : Node) (store : σ) (policy : Policy) :
    Restyled policy n (n.enforce store policy).2.1 where
  name := rfl
  origin := rfl
  edges := rfl
  path := BuildFile.path_write n.file store _ _
  all := .inr rfl

/-- What is desired of a node does not depend on what was desired before. -/
theorem Restyled.desired_eq (h : Restyled policy n n') {policy' : Policy}
    (hmodules : policy'.modules = policy.modules) :
    desired policy' n'.all = desired policy' n.all := by
  rcases h.all with h | h
  · rw [h]
  · rw [h, desired_desired hmodules]

theorem Restyled.declares_eq (h : Restyled policy n n') (name : String) :
    n'.declares name = n.declares name := by
  rcases h.all with h | h
  · rw [declares, h, declares]
  · rw [declares, h, contains_desired, declares]

end Node

namespace Workspace

variable {σ : Type} [Store σ]

theorem policy_enforceOn (w : Workspace) (store : σ) (name : String) :
    (w.enforceOn store name).1.policy = w.policy := by
  rw [policy, enforceOn_modules, enforceOn_included, policy]

theorem restyled_enforceOn (w : Workspace) (store : σ) (name k : String) :
    Option.Rel (Node.Restyled w.policy) (w.nodes.get? k)
      ((w.enforceOn store name).1.nodes.get? k) := by
  have hrefl : ∀ o, Option.Rel (Node.Restyled w.policy) o o := by
    rintro (_ | n)
    · exact .none
    · exact .some (.refl w.policy n)
  unfold enforceOn
  split
  next => exact hrefl _
  next n hn =>
    dsimp only
    rw [NameMap.get?_insert]
    split
    next hk => exact hk ▸ hn ▸ .some (Node.restyled_enforce n store w.policy)
    next => exact hrefl _

/-- Nodes are the same after enforcing the policy, but for what they know and the failures of their
files. -/
theorem restyled_enforceAll (w : Workspace) (store : σ) (names : List String) (k : String) :
    Option.Rel (Node.Restyled w.policy) (w.nodes.get? k)
      ((w.enforceAll store names).1.nodes.get? k) := by
  induction names generalizing w store with
  | nil =>
    cases h : w.nodes.get? k with
    | none => rw [enforceAll, List.foldl_nil, h]; exact .none
    | some n => rw [enforceAll, List.foldl_nil, h]; exact .some (.refl w.policy n)
  | cons name names ih =>
    have hstep := restyled_enforceOn w store name k
    have hrest := ih (w.enforceOn store name).1 (w.enforceOn store name).2
    rw [policy_enforceOn] at hrest
    exact rel_trans (fun _ _ _ h h' => h.trans h') hstep hrest

/-- Whether the build file of a node is at a location. -/
def IsAt (w : Workspace) (name : String) (l : List Path.Step) : Prop :=
  ∃ n, w.nodes.get? name = some n ∧ n.file.path.location = l

/-- Whether all nodes whose build file is at a location know the same of it. -/
def Shares (w : Workspace) (l : List Path.Step) (known : Dependencies) : Prop :=
  ∀ name n, w.nodes.get? name = some n → n.file.path.location = l →
    Node.desired w.policy n.all = Node.desired w.policy known

theorem isAt_iff {w : Workspace} {name : String} {l : List Path.Step} :
    w.IsAt name l ↔ (w.nodes.get? name).map (·.file.path.location) = some l := by
  rw [IsAt, Option.map_eq_some_iff]

theorem isAt_enforceOn {w : Workspace} {store : σ} {name k : String} {l : List Path.Step} :
    (w.enforceOn store name).1.IsAt k l ↔ w.IsAt k l := by
  rw [isAt_iff, isAt_iff,
    map_eq_of_rel (fun _ _ h => congrArg Path.location h.path) (restyled_enforceOn w store name k)]

theorem exists_of_get?_enforceOn {w : Workspace} {store : σ} {name k : String} {n' : Node}
    (h : (w.enforceOn store name).1.nodes.get? k = some n') :
    ∃ n, w.nodes.get? k = some n ∧ Node.Restyled w.policy n n' :=
  exists_of_rel_right (h ▸ restyled_enforceOn w store name k)

theorem Shares.enforceOn {w : Workspace} {l : List Path.Step} {known : Dependencies}
    (h : w.Shares l known) (store : σ) (name : String) :
    (w.enforceOn store name).1.Shares l known := by
  intro k n' hn' hl
  obtain ⟨n, hn, hstyle⟩ := exists_of_get?_enforceOn hn'
  rw [policy_enforceOn, hstyle.desired_eq rfl]
  exact h k n hn (hstyle.path ▸ hl)

theorem textAt_enforceOn {w : Workspace} {l : List Path.Step} {known : Dependencies}
    (h : w.Shares l known) (s : Shelf) (name : String) [Decidable (w.IsAt name l)] :
    (w.enforceOn s name).2.textAt l
      = if w.IsAt name l
        then (s.textAt l).map (restateText (Node.desired w.policy known) w.policy.modules)
        else s.textAt l := by
  unfold enforceOn
  split
  next hnone =>
    rw [if_neg]
    rintro ⟨n, hn, -⟩
    simp [hnone] at hn
  next n hn =>
    rw [Node.textAt_enforce]
    by_cases hl : l = n.file.path.location
    · rw [if_pos hl, if_pos ⟨n, hn, hl.symm⟩, h name n hn hl.symm]
    · rw [if_neg hl, if_neg]
      rintro ⟨m, hm, hat⟩
      rw [hn, Option.some.injEq] at hm
      exact hl (hm ▸ hat.symm)

theorem isSome_textAt_enforceOn (w : Workspace) (s : Shelf) (name : String) (l : List Path.Step) :
    ((w.enforceOn s name).2.textAt l).isSome = (s.textAt l).isSome := by
  unfold enforceOn
  split
  next => rfl
  next n _ => exact n.isSome_textAt_enforce s w.policy l

/-- No file is made or removed while the policy is enforced. -/
theorem isSome_textAt_enforceAll (w : Workspace) (s : Shelf) (names : List String)
    (l : List Path.Step) : ((w.enforceAll s names).2.textAt l).isSome = (s.textAt l).isSome := by
  induction names generalizing w s with
  | nil => rfl
  | cons name names ih => exact (ih _ _).trans (isSome_textAt_enforceOn w s name l)

open Classical in
/-- After enforcing the policy on nodes, a text is restated if the build file of one of them is at
its location; all other texts are as they were. -/
theorem textAt_enforceAll {w : Workspace} {s : Shelf} {l : List Path.Step} {known : Dependencies}
    (hmodules : Nameable w.policy.modules) (hshares : w.Shares l known)
    (hcovers : ∀ text, s.textAt l = some text → Covers w.policy.modules known (splitLines text))
    (names : List String) :
    (w.enforceAll s names).2.textAt l
      = if ∃ name ∈ names, w.IsAt name l
        then (s.textAt l).map (restateText (Node.desired w.policy known) w.policy.modules)
        else s.textAt l := by
  induction names generalizing w s with
  | nil => simp [enforceAll]
  | cons name names ih =>
    have hstep := textAt_enforceOn hshares s name
    have hmodules' := hmodules
    have hshares' := hshares.enforceOn s name
    rw [← policy_enforceOn w s name] at hmodules'
    have hat : (∃ k ∈ names, (w.enforceOn s name).1.IsAt k l) ↔ ∃ k ∈ names, w.IsAt k l := by
      simp only [isAt_enforceOn]
    have hcovers' : ∀ text, (w.enforceOn s name).2.textAt l = some text →
        Covers (w.enforceOn s name).1.policy.modules known (splitLines text) := by
      intro text htext
      rw [policy_enforceOn]
      rw [hstep] at htext
      split at htext
      next =>
        obtain ⟨before, hbefore, rfl⟩ := Option.map_eq_some_iff.mp htext
        exact covers_restateText hmodules (hcovers before hbefore)
      next => exact hcovers text htext
    have hrest := ih hmodules' hshares' hcovers'
    rw [policy_enforceOn, hstep] at hrest
    simp only [hat] at hrest
    change ((w.enforceOn s name).1.enforceAll (w.enforceOn s name).2 names).2.textAt l = _
    rw [hrest]
    by_cases hfirst : w.IsAt name l
    · -- whoever else shares the file finds it restated
      have hall : ∃ k ∈ name :: names, w.IsAt k l := ⟨name, List.mem_cons_self .., hfirst⟩
      rw [if_pos hfirst, if_pos hall]
      split
      next =>
        cases htext : s.textAt l with
        | none => rfl
        | some text =>
          simp only [Option.map_some, restateText_restateText hmodules (hcovers text htext)]
      next => rfl
    · have hall : (∃ k ∈ name :: names, w.IsAt k l) ↔ ∃ k ∈ names, w.IsAt k l := by
        simp [hfirst]
      rw [if_neg hfirst]
      simp only [hall]

end Workspace

end Inclusion
