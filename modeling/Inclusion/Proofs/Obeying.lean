import Inclusion.Proofs.Restyling

/-!
# Lines that obey a manifest

A node that has just read its build file knows the last declaration of each name in it. When the
policy of a manifest is enforced on it then, each line that declares a module is left alone if it is
in the form that is asked for, and else is stated anew with the coordinates of the module, in a way
that reads back.

* `covers_singleton_declared`: what is known of the lines is enough to restate any one of them.
* `Node.read_enforce`: the lines of the build file after a policy was enforced.
* `Node.obeys_of_enforce`: each line that declared a module declares it in the form that is asked
  for.
-/
namespace Inclusion

open Text BuildFile

/-- What is known of lines is enough to restate one of them that declares a module. -/
theorem covers_singleton_declared {modules : NameMap Manifest.Module} {lines : List String}
    {line : String} (hline : line ∈ lines) {d : Dependency}
    (hread : Dependency.ofLine? line = some d)
    (hmodule : modules.contains d.name = true) : Covers modules (declared lines) [line] := by
  intro line' hline' found hfound
  obtain rfl := List.mem_singleton.mp hline'
  cases hread.symm.trans hfound
  obtain ⟨last, hlast, line'', -, hread', hname⟩ := exists_get?_declared hline hread
  exact ⟨last, hlast, hname, .of_ofLine? hread', fun _ _ _ => hmodule⟩

section

variable {policy : Policy} {known : Dependencies} {lines : List String}
  (htitled : Titled policy.modules)
  (hgroups : ∀ name u, policy.modules.get? name = some u → IsWord u.group)
include htitled hgroups

/-- With words for groups, statements are lines. -/
theorem lineFeed_not_mem_restateAll_of_versed (hknown : Versed known)
    (hlines : ∀ line ∈ lines, '\n' ∉ line.toList) :
    ∀ line ∈ (restateAll (Node.desired policy known) policy.modules lines).1,
      '\n' ∉ line.toList := by
  refine lineFeed_not_mem_restateAll_of_statements hlines
    fun line hline found wanted hread hwanted _ => ?_
  obtain ⟨hname, hspelled⟩ := hknown.desired policy _ _ hwanted
  have hword : ∀ group, IsWord group → '\n' ∉ group.toList := fun group h =>
    not_mem_of_isMark (isMark_of_all_isDottedChar h.2) (by decide)
  have hgroup : '\n' ∉ (groupFor policy.modules wanted).toList :=
    groupFor_of (P := ('\n' ∉ ·.toList)) (fun name u hu => hword _ (hgroups name u hu))
      fun _ => hspelled.getD_group (P := ('\n' ∉ ·.toList)) (by decide) hword
  rw [statementFor_eq htitled]
  exact not_mem_declare (by decide) (by decide) hspelled
    (hname ▸ (Legible.of_ofLine? hread).isProjectName) fun _ => hgroup

/-- A line that declares a module declares it in the form that is asked for once it is restated, and
is not restated if it was in that form. -/
theorem exists_ofLine?_of_contains {line : String} (hline : line ∈ lines) {d : Dependency}
    (hfound : Dependency.ofLine? line = some d) (hsegment : IsSegment d.name)
    (hmodule : policy.modules.contains d.name = true) :
    let new := (restated? (Node.desired policy (declared lines)) policy.modules line).getD line
    ∃ d', Dependency.ofLine? new = some d' ∧ d'.name = d.name
      ∧ d'.source = policy.included.contains d.name
      ∧ (d.source = policy.included.contains d.name → new = line) := by
  intro new
  have hturned : ∀ u, Turned policy [line] u → IsSegment u.name ∧ IsGroup u.group := by
    rintro u ⟨line', hline', found, hread, -, hu, -⟩
    obtain rfl := List.mem_singleton.mp hline'
    cases hfound.symm.trans hread
    exact ⟨htitled _ u hu ▸ hsegment, (hgroups _ u hu).isGroup⟩
  obtain ⟨last, hlast, -⟩ := exists_get?_declared hline hfound
  obtain ⟨wanted, hwanted⟩ :
      ∃ wanted, (Node.desired policy (declared lines)).get? d.name = some wanted :=
    ⟨_, get?_desired_of_get? hlast⟩
  have hform := source_of_desired hwanted hmodule
  by_cases hsource : wanted.source = d.source
  · have hkept : restated? (Node.desired policy (declared lines)) policy.modules line = none := by
      refine restated?_eq_none_iff.mpr fun found hread wanted' hwanted' => ?_
      cases hfound.symm.trans hread
      cases hwanted.symm.trans hwanted'
      exact hsource
    have hnew : new = line := congrArg (Option.getD · line) hkept
    exact ⟨d, hnew ▸ hfound, rfl, hsource.symm.trans hform, fun _ => hnew⟩
  · have hrestated : restated? (Node.desired policy (declared lines)) policy.modules line
        = some (restate line (statementFor policy.modules wanted)) :=
      restated?_eq_some_iff.mpr ⟨d, wanted, hfound, hwanted, hsource, rfl⟩
    have hnew : new = restate line (statementFor policy.modules wanted) :=
      congrArg (Option.getD · line) hrestated
    obtain ⟨d', hd', hname⟩ := exists_ofLine?_restate_statementFor htitled hturned
      (covers_singleton_declared hline hfound hmodule) (List.mem_singleton_self line) hfound hwanted
      hsource
    refine ⟨d', hnew ▸ hd', hname, (source_of_ofLine?_restate_statementFor hd').trans hform,
      fun hsame => ?_⟩
    exact absurd (hform.trans hsame.symm) hsource

/-- The lines of a build file whose declarations a node knows, once a policy was enforced on it. -/
theorem Node.read_enforce {n : Node} {s : Shelf} (hknown : n.all = declared lines)
    (hread : Store.read s n.file.path = .ok lines) :
    ∃ count, (n.enforce s policy).1 = .ok count
      ∧ Store.read (n.enforce s policy).2.2 n.file.path
        = .ok (restateAll (desired policy (declared lines)) policy.modules lines).1 := by
  obtain ⟨text, htext, rfl⟩ := Shelf.read_eq_ok_iff.mp hread
  have hwrite := BuildFile.write_of_text? htext (desired policy n.all) policy.modules
  have hafter := textAt_enforce n s policy n.file.path.location
  rw [if_pos rfl, show s.textAt n.file.path.location = some text from htext, hknown] at hafter
  refine ⟨_, congrArg Prod.fst hwrite, Shelf.read_eq_ok_iff.mpr ⟨_, hafter, ?_⟩⟩
  exact splitLines_restateText_of_lines (lineFeed_not_mem_restateAll_of_versed htitled hgroups
    (versed_declared (splitLines text)) fun _ hline => lineFeed_not_mem_of_mem_splitLines hline)

end

/-- If the policy of a manifest whose groups are words is enforced on a node that has just read its
build file, then each line that declared a module under a name of one segment declares it
afterwards, on source exactly if the module is included, and is the same line if that was its form
before. -/
theorem Node.obeys_of_enforce {manifest : Manifest}
    (hgroups : ∀ u ∈ manifest.modules, IsWord u.group) (included : NameSet) {n n' : Node}
    {s : Shelf} {lines : List String} (hrefresh : n.refresh s false = (.ok (), n'))
    (hread : Store.read s n'.file.path = .ok lines) :
    ∃ (count : Nat) (lines' : List String),
      (n'.enforce s (manifest.policy included)).1 = .ok count
        ∧ Store.read (n'.enforce s (manifest.policy included)).2.2 n'.file.path = .ok lines'
        ∧ lines'.length = lines.length
        ∧ ∀ (i : Nat) (line : String) (d : Dependency), lines[i]? = some line →
          Dependency.ofLine? line = some d → IsSegment d.name →
          (∃ u ∈ manifest.modules, u.name = d.name) →
          ∃ (new : String) (d' : Dependency), lines'[i]? = some new
            ∧ Dependency.ofLine? new = some d' ∧ d'.name = d.name
            ∧ d'.source = included.contains d.name
            ∧ (d.source = included.contains d.name → new = line) := by
  have htitled := manifest.titled_policy included
  have hwords : ∀ name u, (manifest.policy included).modules.get? name = some u → IsWord u.group :=
    fun name u hu => hgroups u (Manifest.of_get?_policy hu).2
  have hknown : n'.all = declared lines := by
    have hall := n.all_of_refresh s
    rw [hrefresh, linesAt_of_read hread] at hall
    exact hall
  obtain ⟨count, hcount, hafter⟩ := read_enforce htitled hwords hknown hread
  refine ⟨count, _, hcount, hafter, length_restateAll _ _ _,
    fun i line d hline hfound hsegment hmodule => ?_⟩
  have hcontains : (manifest.policy included).modules.contains d.name = true := by
    obtain ⟨u, hu, hname⟩ := hmodule
    rw [Manifest.policy, NameMap.contains_ofList, List.map_map]
    exact List.mem_map.mpr ⟨u, hu, hname⟩
  obtain ⟨d', hd', hkept⟩ := exists_ofLine?_of_contains htitled hwords
    (List.mem_of_getElem? hline) hfound hsegment hcontains
  refine ⟨_, d', ?_, hd', hkept⟩
  rw [restateAll_fst, List.getElem?_map, hline, Option.map_some]

/-- An included module that is declared in both forms: the artifact turns, the project stays. -/
theorem Node.obeys_of_enforce_both :
    let manifest : Manifest := { name := "d", modules := [⟨"core", "core", "com.example"⟩] }
    let included := NameSet.ofNames ["core"]
    let text := "\tapi project(':core')\r\ncompile 'com.example:core:1.0'"
    ∃ (lines' : List String) (new : String) (d' : Dependency),
      Store.read ((readApp text).enforce (appFile text) (manifest.policy included)).2.2
          (readApp text).file.path = .ok lines'
        ∧ lines'[0]? = some "\tapi project(':core')\r"
        ∧ lines'[1]? = some new ∧ Dependency.ofLine? new = some d' ∧ d'.name = "core"
        ∧ d'.source = true := by
  intro manifest included text
  have hgroups : ∀ u ∈ manifest.modules, IsWord u.group := by decide
  let core (verb : Verb) (source : Bool) : Dependency :=
    { name := "core", verb, quote := .single, source }
  have hproject : Dependency.ofLine? "\tapi project(':core')\r" = some (core .api true) := by
    decide
  have hartifact : Dependency.ofLine? "compile 'com.example:core:1.0'"
      = some { core .compile false with group := some "com.example", version := some "1.0" } := by
    decide
  obtain ⟨count, lines', -, hread, -, hlines⟩ :=
    obeys_of_enforce hgroups included (refresh_app text) (read_appFile text)
  have hmodule : ∃ u ∈ manifest.modules, u.name = "core" := by decide
  obtain ⟨kept, -, hkept, -, -, -, hsame⟩ :=
    hlines 0 _ _ (by decide) hproject (by decide) hmodule
  obtain ⟨new, d', hnew, hd', hname, hsource, -⟩ :=
    hlines 1 _ _ (by decide) hartifact (by decide) hmodule
  have hincluded : included.contains "core" = true := by decide
  have hline : kept = "\tapi project(':core')\r" := hsame hincluded.symm
  exact ⟨lines', new, d', hread, hline ▸ hkept, hnew, hd', hname, hsource.trans hincluded⟩

end Inclusion
