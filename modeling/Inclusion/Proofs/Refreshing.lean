import Inclusion.Proofs.Restyling

/-!
# What a refresh leaves

A node that reads its build file takes up its declarations one after the other. Each one is merged
with what is known of its name by then, be that from earlier or from a line above it, and such a
merge can only fail if a record is known under the name of another one. That never happens, so what
is known of a name afterwards can be said at once: the last declaration of the name, and for its
group and its version the last one that any of its declarations gives, or else the old one.

* `observe_true`: one observation.
* `exists_foldlM_observe`: all of them, by induction from the last one.
* `refresh_true`: a refresh that keeps what is known.
* `Node.merges_of_refresh`: what a refresh answers and leaves, and that a second one changes nothing.
-/
namespace Inclusion

open Text

/-- Whether every dependency is known under its own name. -/
def Named (known : Dependencies) : Prop := ∀ name d, known.get? name = some d → d.name = name

/-- The observations of a name, in order. -/
def observedAs (fresh : List Dependency) (name : String) : List Dependency :=
  fresh.filter (·.name == name)

/-- The last value that observations give of a part that may be missing. -/
def lastGiven (part : Dependency → Option String) (found : List Dependency) : Option String :=
  (found.filterMap part).getLast?

/-- What is known of a name once its observations are merged with what was known before. -/
def remembered (old? : Option Dependency) (found : List Dependency) : Option Dependency :=
  match found.getLast? with
  | none => old?
  | some last => some
    { last with
      group := (lastGiven Dependency.group found).or (old?.bind Dependency.group)
      version := (lastGiven Dependency.version found).or (old?.bind Dependency.version) }

theorem Versed.named {known : Dependencies} (h : Versed known) : Named known :=
  fun name d hd => (h name d hd).1

/-! ### Observations of one name -/

section

variable {fresh found : List Dependency} {d : Dependency} {name : String}

theorem name_of_mem_observedAs (h : d ∈ observedAs fresh name) : d.name = name :=
  beq_iff_eq.mp (List.mem_filter.mp h).2

theorem observedAs_eq_nil (h : name ∉ fresh.map Dependency.name) : observedAs fresh name = [] :=
  List.filter_eq_nil_iff.mpr fun d hd heq => h (List.mem_map.mpr ⟨d, hd, beq_iff_eq.mp heq⟩)

theorem isSome_getLast?_observedAs :
    (observedAs fresh name).getLast?.isSome = true ↔ name ∈ fresh.map Dependency.name := by
  rw [List.getLast?_isSome, ne_eq, observedAs, List.filter_eq_nil_iff]
  simp

theorem observedAs_concat (fresh : List Dependency) (d : Dependency) (name : String) :
    observedAs (fresh ++ [d]) name
      = observedAs fresh name ++ if name = d.name then [d] else [] := by
  by_cases h : name = d.name
  · simp [observedAs, h]
  · simp [observedAs, h, Ne.symm h]

theorem lastGiven_concat (part : Dependency → Option String) (found : List Dependency)
    (d : Dependency) : lastGiven part (found ++ [d]) = (part d).or (lastGiven part found) := by
  cases h : part d <;> simp [lastGiven, h]

theorem remembered_nil (old? : Option Dependency) : remembered old? [] = old? := rfl

/-- What is remembered gives the last group and the last version that there was. -/
theorem bind_remembered (old? : Option Dependency) (found : List Dependency) :
    (remembered old? found).bind Dependency.group
        = (lastGiven Dependency.group found).or (old?.bind Dependency.group)
      ∧ (remembered old? found).bind Dependency.version
        = (lastGiven Dependency.version found).or (old?.bind Dependency.version) := by
  rcases List.eq_nil_or_concat found with rfl | ⟨before, last, rfl⟩
  · exact ⟨rfl, rfl⟩
  · simp [remembered]

theorem remembered_concat (old? : Option Dependency) (found : List Dependency) (d : Dependency) :
    remembered old? (found ++ [d]) = some
      { d with
        group := d.group.or ((remembered old? found).bind Dependency.group)
        version := d.version.or ((remembered old? found).bind Dependency.version) } := by
  obtain ⟨hgroup, hversion⟩ := bind_remembered old? found
  rw [hgroup, hversion, ← Option.or_assoc, ← Option.or_assoc, ← lastGiven_concat,
    ← lastGiven_concat]
  simp [remembered]

/-- Merging the same observations once more changes nothing. -/
theorem remembered_remembered (old? : Option Dependency) (found : List Dependency) :
    remembered (remembered old? found) found = remembered old? found := by
  obtain ⟨hgroup, hversion⟩ := bind_remembered old? found
  rcases List.eq_nil_or_concat found with rfl | ⟨before, last, rfl⟩
  · rfl
  · rw [remembered, hgroup, hversion, ← Option.or_assoc, Option.or_self, ← Option.or_assoc,
      Option.or_self]
    simp [remembered]

theorem isSome_remembered {old? : Option Dependency} :
    (remembered old? found).isSome = true ↔ old?.isSome = true ∨ found.getLast?.isSome = true := by
  unfold remembered
  split <;> simp [*]

theorem name_of_remembered {old? : Option Dependency} (hold : ∀ old ∈ old?, old.name = name)
    (hfound : ∀ d ∈ found, d.name = name) (h : remembered old? found = some d) : d.name = name := by
  unfold remembered at h
  split at h
  next => exact hold d h
  next last hlast => cases h; exact hfound last (List.mem_of_getLast? hlast)

end

/-! ### Observations of all names -/

/-- One observation is merged with what is known of its name. -/
theorem observe_true {known : Dependencies} (h : Named known) (fresh : Dependency) :
    Node.observe true known fresh = .ok (known.insert fresh.name
      { fresh with
        group := fresh.group.or ((known.get? fresh.name).bind Dependency.group)
        version := fresh.version.or ((known.get? fresh.name).bind Dependency.version) }) := by
  cases hold : known.get? fresh.name with
  | none => simp [Node.observe, hold]
  | some old => simp [Node.observe, hold, Dependency.merge, h _ old hold, Except.map]

theorem foldlM_observe_append_singleton {keep : Bool} {known before : Dependencies}
    {fresh : List Dependency} (h : fresh.foldlM (Node.observe keep) known = .ok before)
    (d : Dependency) :
    (fresh ++ [d]).foldlM (Node.observe keep) known = Node.observe keep before d := by
  rw [List.foldlM_append, h]
  exact bind_pure (Node.observe keep before d)

/-- Nothing that is observed is refused, and each name is known as its observations say. -/
theorem exists_foldlM_observe {known : Dependencies} (h : Named known) (fresh : List Dependency) :
    ∃ all, fresh.foldlM (Node.observe true) known = .ok all
      ∧ ∀ name, all.get? name = remembered (known.get? name) (observedAs fresh name) := by
  induction fresh using List.reverseRecOn with
  | nil => exact ⟨known, rfl, fun _ => rfl⟩
  | append_singleton fresh d ih =>
    obtain ⟨before, hbefore, hknown⟩ := ih
    have hnamed : Named before := fun name e he => by
      rw [hknown] at he
      exact name_of_remembered (fun old hold => h name old hold) (fun _ => name_of_mem_observedAs) he
    refine ⟨_, (foldlM_observe_append_singleton hbefore d).trans (observe_true hnamed d), ?_⟩
    intro name
    rw [NameMap.get?_insert, observedAs_concat]
    split
    next hname => subst hname; rw [remembered_concat, hknown]
    next => rw [List.append_nil, hknown]

/-- Where nothing is kept, the last observation of a name is all that is known of it. -/
theorem get?_listed (fresh : List Dependency) (name : String) :
    (listed fresh).get? name = (observedAs fresh name).getLast? := by
  induction fresh using List.reverseRecOn with
  | nil => rfl
  | append_singleton fresh d ih =>
    rw [listed_concat, NameMap.get?_insert, observedAs_concat, ih]
    split <;> simp

theorem named_listed (fresh : List Dependency) : Named (listed fresh) := fun name d hd => by
  rw [get?_listed] at hd
  exact name_of_mem_observedAs (List.mem_of_getLast? hd)

/-! ### Build files and nodes -/

section

variable {σ : Type} [Store σ]

theorem BuildFile.result_refresh (store : σ) (f : BuildFile) :
    (f.refresh store).1 = (Store.read store f.path).map fun _ => () := by
  unfold refresh
  split <;> simp_all [Except.map]

/-- A file that was not edited is found as it was. -/
theorem BuildFile.refresh_refresh (store : σ) (f : BuildFile) :
    (f.refresh store).2.refresh store = f.refresh store := by
  cases h : Store.read store f.path <;> simp [refresh, h]

namespace Node

variable {n : Node}

theorem populate_true (h : Named n.all) (fresh : List Dependency) :
    ∃ all, n.populate true fresh = .ok { n with all }.repartition
      ∧ ∀ name, all.get? name = remembered (n.all.get? name) (observedAs fresh name) := by
  obtain ⟨all, hall, hknown⟩ := exists_foldlM_observe h fresh
  refine ⟨all, ?_, hknown⟩
  simp only [populate, ↓reduceIte, hall]

/-- A refresh that keeps what is known. -/
theorem refresh_true (h : Named n.all) (store : σ) :
    ∃ all, n.refresh store true
        = ((n.file.refresh store).1, { n with file := (n.file.refresh store).2, all }.repartition)
      ∧ ∀ name, all.get? name = remembered (n.all.get? name)
        (observedAs ((linesAt store n.file.path).filterMap Dependency.ofLine?) name) := by
  obtain ⟨all, hall, hknown⟩ := populate_true (n := { n with file := (n.file.refresh store).2 }) h
    (n.file.refresh store).2.dependencies
  refine ⟨all, ?_, fun name => ?_⟩
  · simp only [refresh, hall]
  · rw [hknown, BuildFile.dependencies_refresh]

theorem result_refresh (h : Named n.all) (store : σ) (keep : Bool) :
    (n.refresh store keep).1 = (Store.read store n.file.path).map fun _ => () := by
  rw [← BuildFile.result_refresh]
  cases keep with
  | false => simp only [refresh, populate_false]
  | true =>
    obtain ⟨all, hrefresh, -⟩ := refresh_true h store
    rw [hrefresh]

/-- A second refresh of a file that was not edited changes nothing. -/
theorem refresh_refresh (h : Named n.all) (store : σ) :
    (n.refresh store true).2.refresh store true = n.refresh store true := by
  obtain ⟨all, hrefresh, hknown⟩ := refresh_true h store
  have hnamed : Named all := fun name d hd => by
    rw [hknown] at hd
    exact name_of_remembered (fun old hold => h name old hold) (fun _ => name_of_mem_observedAs) hd
  rw [hrefresh]
  obtain ⟨all', hrefresh', hknown'⟩ :=
    refresh_true (n := { n with file := (n.file.refresh store).2, all }.repartition) hnamed store
  have hall : all' = all := NameMap.ext fun name => by
    have hpath := BuildFile.path_refresh store n.file
    simp only [repartition, hpath] at hknown'
    rw [hknown', hknown, remembered_remembered]
  have hfile := BuildFile.refresh_refresh store n.file
  simp only [repartition, hfile, hall] at hrefresh'
  exact hrefresh'

/-- What a refresh answers and leaves, whatever the node went through and whatever the files are. It
fails exactly as the reading of the build file does, for no observation is ever refused. Without
keeping anything, each declared name is known by its last declaration. Keeping what is known, the names
are those known before and those declared; for a declared name the last declaration counts, and for its
group and its version the last one that is given, or else what was known; the others stay as they
were. A second refresh of that kind changes nothing, in the node and in the answer. -/
theorem merges_of_refresh (h : n.Reached) (store : σ) :
    let fresh := (linesAt store n.file.path).filterMap Dependency.ofLine?
    let rebuilt := (n.refresh store false).2.all
    let merged := (n.refresh store true).2.all
    (∀ keep, (n.refresh store keep).1 = (Store.read store n.file.path).map fun _ => ())
      ∧ (∀ keep, ∃ all, fresh.foldlM (observe keep) (if keep then n.all else .empty) = .ok all)
      ∧ (∀ keep expected found,
        Store.read store n.file.path ≠ .error (.nameMismatch expected found) →
        (n.refresh store keep).1 ≠ .error (.nameMismatch expected found))
      ∧ (∀ name, name ∈ rebuilt.keys ↔ name ∈ fresh.map Dependency.name)
      ∧ (∀ name, rebuilt.get? name = (observedAs fresh name).getLast?)
      ∧ (∀ name, name ∈ merged.keys ↔ name ∈ n.all.keys ∨ name ∈ fresh.map Dependency.name)
      ∧ (∀ name, name ∉ fresh.map Dependency.name → merged.get? name = n.all.get? name)
      ∧ (∀ name last, (observedAs fresh name).getLast? = some last →
        merged.get? name = some
          { last with
            group := (lastGiven Dependency.group (observedAs fresh name)).or
              ((n.all.get? name).bind Dependency.group)
            version := (lastGiven Dependency.version (observedAs fresh name)).or
              ((n.all.get? name).bind Dependency.version) })
      ∧ (n.refresh store true).2.refresh store true = n.refresh store true := by
  intro fresh rebuilt merged
  have hnamed : Named n.all := h.versed.named
  have hresult := result_refresh hnamed store
  have hrebuilt : rebuilt = listed fresh := congrArg Node.all (refresh_false store n)
  obtain ⟨all, hrefresh, hmerged⟩ := refresh_true hnamed store
  have hall : merged = all := congrArg (fun r => r.2.all) hrefresh
  rw [← hall] at hmerged
  refine ⟨hresult, fun keep => ?_, fun keep expected found hread hfail => ?_, fun name => ?_,
    fun name => ?_, fun name => ?_, fun name hname => ?_, fun name last hlast => ?_,
    refresh_refresh hnamed store⟩
  · cases keep with
    | false => exact ⟨_, foldlM_observe_false fresh .empty⟩
    | true =>
      obtain ⟨all, hall, -⟩ := exists_foldlM_observe hnamed fresh
      exact ⟨all, hall⟩
  · rw [hresult] at hfail
    cases hfile : Store.read store n.file.path with
    | ok lines => rw [hfile] at hfail; cases hfail
    | error e => rw [hfile] at hfail; cases hfail; exact hread hfile
  · rw [hrebuilt, NameMap.mem_keys_iff, NameMap.contains, get?_listed, isSome_getLast?_observedAs]
  · rw [hrebuilt, get?_listed]
  · rw [NameMap.mem_keys_iff, NameMap.mem_keys_iff, NameMap.contains, hmerged, isSome_remembered,
      isSome_getLast?_observedAs]
    rfl
  · rw [hmerged, observedAs_eq_nil hname, remembered_nil]
  · rw [hmerged, remembered, hlast]

end Node

end

namespace Node

/-- The last line of a name decides the form, but its group is that of the line above and its version
that of an earlier reading; and a file that is gone takes nothing away. -/
theorem merges_of_refresh_net :
    let n := readApp "api 'com.example:old:2.0'\nimplementation 'com.example:net:1.0'"
    let text := "api 'org.other:net'\ncompile project(\":net\")"
    let files := appFile text
    n.Reached ∧ (n.refresh files true).1 = .ok ()
      ∧ (n.refresh files true).2.all.get? "net" = some
        { name := "net", group := some "org.other", verb := .compile, quote := .double, source := true,
          version := some "1.0" }
      ∧ (n.refresh files true).2.all.get? "old" = n.all.get? "old"
      ∧ (n.refresh Shelf.empty true).1 = .error (.notFound n.file.path)
      ∧ (n.refresh Shelf.empty true).2.all.get? "net" = n.all.get? "net" := by
  intro n text files
  have hreached : n.Reached := .refresh (.internal _ _ _) _ false
  obtain ⟨hanswer, -, -, -, -, -, hrest, hmerged, -⟩ := merges_of_refresh hreached files
  obtain ⟨hanswer', -, -, -, -, -, hrest', -, -⟩ := merges_of_refresh hreached Shelf.empty
  have hread : Store.read files n.file.path = .ok (splitLines text) := by
    rw [path_readApp]
    exact Shelf.read_of_text? (text?_appFile text)
  have hfresh : (linesAt files n.file.path).filterMap Dependency.ofLine?
      = [ { name := "net", group := some "org.other", verb := .api, quote := .single, source := false },
          { name := "net", verb := .compile, quote := .double, source := true } ] := by
    rw [linesAt_of_read hread]
    decide +kernel
  have hknown : (n.all.get? "net").bind Dependency.version = some "1.0" := by
    rw [all_readApp]
    decide +kernel
  rw [hread] at hanswer
  rw [hfresh] at hrest hmerged
  refine ⟨hreached, hanswer true, ?_, hrest "old" (by decide), hanswer' true, hrest' "net" nofun⟩
  refine (hmerged "net" _ rfl).trans ?_
  rw [hknown]
  rfl

end Node

end Inclusion
