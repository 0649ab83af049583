import Inclusion.Node
import Inclusion.Store.Shelf

/-!
# What a reading finds

A build file that is read anew yields the dependencies its lines declare, the last one of each name;
a node that takes it up without keeping anything knows just these.

* `NameMap.get?_ofList`: of several bindings of a name the last one counts.
* `exists_get?_declared`: the last declaration of a name is what is known of it.
* `Node.refresh_false`: a node after a reading that keeps nothing.
-/
namespace Inclusion

namespace NameMap

universe u

variable {α : Type u}

theorem get?_foldl_insert (bindings : List (String × α)) (m : NameMap α) (k : String) :
    (bindings.foldl (fun m b => m.insert b.1 b.2) m).get? k
      = (bindings.reverse.lookup k).or (m.get? k) := by
  induction bindings generalizing m with
  | nil => simp
  | cons b bindings ih =>
    rw [List.foldl_cons, ih, get?_insert, List.reverse_cons, List.lookup_append, lookup_cons,
      Option.or_assoc]
    by_cases hk : k = b.1 <;> simp [hk]

theorem get?_ofList (bindings : List (String × α)) (k : String) :
    (ofList bindings).get? k = bindings.reverse.lookup k := by
  rw [ofList, get?_foldl_insert, get?_empty, Option.or_none]

theorem mem_of_get?_ofList {bindings : List (String × α)} {k : String} {value : α}
    (h : (ofList bindings).get? k = some value) : (k, value) ∈ bindings := by
  rw [get?_ofList, List.lookup_eq_some_iff] at h
  obtain ⟨before, after, heq, -⟩ := h
  rw [← List.mem_reverse, heq]
  simp

theorem contains_ofList {bindings : List (String × α)} {k : String} :
    (ofList bindings).contains k = true ↔ k ∈ bindings.map Prod.fst := by
  rw [contains, get?_ofList, isSome_lookup_iff, List.map_reverse, List.mem_reverse]

end NameMap

/-- Dependencies under their names, where a later one replaces an earlier one. -/
def listed (fresh : List Dependency) : Dependencies := .ofList (fresh.map fun d => (d.name, d))

/-- The dependencies that lines declare. -/
def declared (lines : List String) : Dependencies := listed (lines.filterMap Dependency.ofLine?)

theorem get?_declared {lines : List String} {name : String} {d : Dependency}
    (h : (declared lines).get? name = some d) :
    ∃ line ∈ lines, Dependency.ofLine? line = some d ∧ d.name = name := by
  obtain ⟨d', hmem, heq⟩ := List.mem_map.mp (NameMap.mem_of_get?_ofList h)
  obtain ⟨line, hline, hread⟩ := List.mem_filterMap.mp hmem
  cases heq
  exact ⟨line, hline, hread, rfl⟩

theorem exists_get?_declared {lines : List String} {line : String} (hline : line ∈ lines)
    {d : Dependency} (hread : Dependency.ofLine? line = some d) :
    ∃ last, (declared lines).get? d.name = some last
      ∧ ∃ line' ∈ lines, Dependency.ofLine? line' = some last ∧ last.name = d.name := by
  have hcontains : (declared lines).contains d.name = true := by
    rw [declared, listed, NameMap.contains_ofList, List.map_map]
    exact List.mem_map_of_mem (List.mem_filterMap.mpr ⟨line, hline, hread⟩)
  obtain ⟨last, hlast⟩ := Option.isSome_iff_exists.mp hcontains
  exact ⟨last, hlast, get?_declared hlast⟩

section

variable {σ : Type} [Store σ]

/-- The lines of a file, none if it cannot be read. -/
def linesAt (store : σ) (path : Path) : List String :=
  match Store.read store path with
  | .ok lines => lines
  | .error _ => []

theorem linesAt_of_read {store : σ} {path : Path} {lines : List String}
    (h : Store.read store path = .ok lines) : linesAt store path = lines := by
  rw [linesAt, h]

theorem BuildFile.dependencies_refresh (store : σ) (f : BuildFile) :
    (f.refresh store).2.dependencies = (linesAt store f.path).filterMap Dependency.ofLine? := by
  unfold refresh linesAt
  split <;> simp_all

theorem BuildFile.path_refresh (store : σ) (f : BuildFile) :
    (f.refresh store).2.path = f.path := by
  unfold refresh
  split <;> rfl

namespace Node

/-- Where nothing is kept, no observation is refused. -/
theorem foldlM_observe_false (fresh : List Dependency) (known : Dependencies) :
    fresh.foldlM (observe false) known
      = .ok ((fresh.map fun d => (d.name, d)).foldl (fun m b => m.insert b.1 b.2) known) := by
  induction fresh generalizing known with
  | nil => rfl
  | cons d fresh ih => exact ih (known.insert d.name d)

theorem populate_false (fresh : List Dependency) (n : Node) :
    populate false fresh n = .ok { n with all := listed fresh }.repartition := by
  simp only [populate, foldlM_observe_false]
  rfl

theorem refresh_false (store : σ) (n : Node) :
    (n.refresh store false).2
      = { n with file := (n.file.refresh store).2,
                 all := declared (linesAt store n.file.path) }.repartition := by
  simp only [refresh, populate_false, BuildFile.dependencies_refresh]
  rfl

theorem all_of_refresh (store : σ) (n : Node) :
    (n.refresh store false).2.all
      = declared (linesAt store (n.refresh store false).2.file.path) := by
  have hpath := BuildFile.path_refresh store n.file
  rw [refresh_false]
  exact congrArg (fun p => declared (linesAt store p)) hpath.symm

end Node

end

/-! ### Lines of files in memory -/

theorem linesAt_eq (s : Shelf) (path : Path) :
    linesAt s path = ((s.text? path).map Text.splitLines).getD [] := by
  unfold linesAt
  simp only [Store.read]
  cases s.text? path <;> rfl

/-- A file that is there can be read. -/
theorem read_of_isSome {s : Shelf} {path : Path} (h : (s.text? path).isSome) :
    Store.read s path = .ok (linesAt s path) := by
  obtain ⟨text, htext⟩ := Option.isSome_iff_exists.mp h
  have hread := Shelf.read_of_text? htext
  rw [linesAt_of_read hread, hread]

theorem isSome_of_read {s : Shelf} {path : Path} {lines : List String}
    (h : Store.read s path = .ok lines) : (s.text? path).isSome := by
  obtain ⟨text, htext, -⟩ := Shelf.read_eq_ok_iff.mp h
  exact Option.isSome_of_eq_some htext

theorem isSome_of_mem_linesAt {s : Shelf} {path : Path} {line : String} (h : line ∈ linesAt s path) :
    (s.text? path).isSome := by
  rw [linesAt_eq] at h
  cases htext : s.text? path with
  | none => rw [htext] at h; cases h
  | some _ => rfl

theorem linesAt_of_same {s : Shelf} {p q : Path} (h : p.Same q) : linesAt s p = linesAt s q := by
  rw [linesAt_eq, linesAt_eq, show s.text? p = s.text? q from congrArg s.textAt h]

theorem linesAt_put (s : Shelf) (path : Path) (text : String) (q : Path) :
    linesAt (s.put path text) q
      = if q.Same path then Text.splitLines text else linesAt s q := by
  rw [linesAt_eq, Shelf.text?_put]
  split
  next => rfl
  next => rw [linesAt_eq]

end Inclusion
