import Inclusion.Proofs.Enforcement

/-!
# A write as an edit of lines

Writing a build file changes those lines that declare a dependency in another form than desired,
each between its leading white space and its carriage return, and nothing else of the text. The
number that is answered is that of the lines which changed.

* `countDiffering_restateAll`: restated lines are counted exactly when they differ.
* `BuildFile.edits_of_write`: the edit of the text, if nothing that is desired breaks a line.
-/
namespace Inclusion

open Text BuildFile

/-- Whether a dependency can be stated on one line. -/
structure Dependency.OneLine (d : Dependency) : Prop where
  name : '\n' ∉ d.name.toList
  group : ∀ group, d.group = some group → '\n' ∉ group.toList
  version : ∀ version, d.version = some version → '\n' ∉ version.toList

/-- Whether a module can be stated on one line. -/
structure Manifest.Module.OneLine (u : Manifest.Module) : Prop where
  name : '\n' ∉ u.name.toList
  group : '\n' ∉ u.group.toList

/-- How many of the lines differ, place by place. -/
def countDiffering (old new : List String) : Nat := (old.zip new).countP fun p => p.1 != p.2

/-- Whether a line has the same leading white space and the same ending as another one. -/
structure SameFrame (line new : String) : Prop where
  indentation : indentation new = indentation line
  ending : endsWithReturn new = endsWithReturn line

section

variable {desired : Dependencies} {modules : NameMap Manifest.Module}

theorem lineFeed_not_mem_statementFor {wanted : Dependency} (hwanted : wanted.OneLine)
    (hmodules : ∀ name u, modules.get? name = some u → u.OneLine) :
    '\n' ∉ (statementFor modules wanted).toList := by
  have hversion : '\n' ∉ (wanted.version.getD Dependency.unknownVersion).toList := by
    cases h : wanted.version with
    | none => decide
    | some version => exact hwanted.version version h
  unfold statementFor
  split
  next u hu =>
    exact not_mem_declare_of_parts (by decide) (by decide) (hmodules _ u hu).name
      fun _ => ⟨(hmodules _ u hu).group, hversion⟩
  next =>
    refine not_mem_declare_of_parts (by decide) (by decide) hwanted.name fun _ => ⟨?_, hversion⟩
    cases h : wanted.group with
    | none => decide
    | some group => exact hwanted.group group h

/-- A line that is restated keeps its frame. -/
theorem sameFrame_of_restated? {line new : String} (h : restated? desired modules line = some new) :
    SameFrame line new := by
  obtain ⟨-, wanted, -, -, -, rfl⟩ := restated?_eq_some_iff.mp h
  have htight := tight_statementFor modules wanted
  refine ⟨?_, endsWithReturn_restate line htight⟩
  rw [Text.indentation, Text.indentation, (frame_restate line htight).1]

/-- A line changes exactly if it is restated, and is counted exactly then. -/
theorem countDiffering_restateAll (lines : List String) :
    countDiffering lines (restateAll desired modules lines).1
      = (restateAll desired modules lines).2 := by
  have hdiffers (line : String) : (line != (restated? desired modules line).getD line)
      = (restated? desired modules line).isSome := by
    rw [Bool.eq_iff_iff, bne_iff_ne, ne_comm, ne_eq, getD_restated?_eq_iff, ← ne_eq,
      Option.ne_none_iff_isSome]
  rw [restateAll_fst, restateAll_snd, countDiffering]
  induction lines with
  | nil => rfl
  | cons line lines ih =>
    simp only [List.map_cons, List.zip_cons_cons, List.countP_cons, ih, hdiffers]

end

namespace BuildFile

variable {f : BuildFile} {s : Shelf} {text : String} {desired : Dependencies}
  {modules : NameMap Manifest.Module}

/-- Writing a file edits its lines in place. What is answered is the number of lines that differ
afterwards; if there is none, nothing is written. A line changes exactly if it declares a dependency
in another form than desired, and then keeps its leading white space and its carriage return. -/
theorem edits_of_write (htext : s.text? f.path = some text)
    (hdesired : ∀ name d, desired.get? name = some d → d.OneLine)
    (hmodules : ∀ name u, modules.get? name = some u → u.OneLine) :
    ∃ (count : Nat) (s' : Shelf) (text' : String),
      f.write s desired modules = (.ok count, f, s')
        ∧ s'.text? f.path = some text'
        ∧ (∀ path, ¬path.Same f.path → s'.text? path = s.text? path)
        ∧ count = countDiffering (splitLines text) (splitLines text')
        ∧ (count = 0 → s' = s ∧ text' = text)
        ∧ text'.toList.count '\n' = text.toList.count '\n'
        ∧ (splitLines text').length = (splitLines text).length
        ∧ ∀ (i : Nat) (line new : String), (splitLines text)[i]? = some line →
          (splitLines text')[i]? = some new →
            (new = line ↔ ¬Misdeclares desired line) ∧ (new ≠ line → SameFrame line new) := by
  have hlines : splitLines (restateText desired modules text)
      = (restateAll desired modules (splitLines text)).1 :=
    splitLines_restateText_of_lines (lineFeed_not_mem_restateAll_of_statements
      (fun _ hline => lineFeed_not_mem_of_mem_splitLines hline)
      fun _ _ _ wanted _ hwanted _ =>
        lineFeed_not_mem_statementFor (hdesired _ wanted hwanted) hmodules)
  have hlength : (splitLines (restateText desired modules text)).length
      = (splitLines text).length := by rw [hlines, length_restateAll]
  have hwrite := write_of_text? htext desired modules
  refine ⟨(restateAll desired modules (splitLines text)).2, (f.write s desired modules).2.2,
    restateText desired modules text, ?_, ?_, fun path hpath => ?_, ?_, fun hcount => ⟨?_, ?_⟩, ?_,
    hlength, fun i line new hline hnew => ?_⟩
  · rw [hwrite]
  · rw [Shelf.text?, textAt_write, if_pos rfl, show s.textAt f.path.location = some text from htext]
    rfl
  · exact (textAt_write f s desired modules path.location).trans (if_neg hpath)
  · rw [hlines, countDiffering_restateAll]
  · rw [hwrite, if_pos hcount]
  · rw [restateText, restateAll_of_count_eq_zero hcount, joinLines_splitLines]
  · rw [length_splitLines, length_splitLines] at hlength
    omega
  · rw [hlines, restateAll_fst, List.getElem?_map, hline, Option.map_some,
      Option.some.injEq] at hnew
    subst hnew
    refine ⟨?_, fun hne => ?_⟩
    · have hmisdeclares : restated? desired modules line ≠ none ↔ Misdeclares desired line :=
        restated?_ne_none_iff_misdeclares
      rw [getD_restated?_eq_iff, ← hmisdeclares, not_not]
    · cases hrestated : restated? desired modules line with
      | none => simp [hrestated] at hne
      | some new => exact sameFrame_of_restated? hrestated

/-- A line that is indented by an ideographic space and ends in a carriage return, before one that
does not. -/
theorem edits_of_write_return :
    let core : Dependency := { name := "core", verb := .api, quote := .single, source := true }
    let desired := NameMap.empty.insert "core" core
    let line := "\u3000api 'com.example:core:1.0'\r"
    let text := line ++ "\n// api 'com.example:core:1.0'"
    let f : BuildFile := { path := ⟨"/ws/build.gradle"⟩ }
    let s := Shelf.empty.put f.path text
    ∃ (s' : Shelf) (text' new : String),
      f.write s desired .empty = (.ok 1, f, s') ∧ s'.text? f.path = some text'
        ∧ countDiffering (splitLines text) (splitLines text') = 1
        ∧ (splitLines text')[0]? = some new ∧ Misdeclares desired line ∧ SameFrame line new := by
  intro core desired line text f s
  have hdesired : ∀ name d, desired.get? name = some d → d.OneLine := by
    intro name d h
    rw [NameMap.get?_insert] at h
    split at h
    next =>
      obtain rfl := Option.some.inj h
      exact ⟨by decide, nofun, nofun⟩
    next => cases h
  have hmodules : ∀ name u, (NameMap.empty : NameMap Manifest.Module).get? name = some u →
      u.OneLine := nofun
  have htext : s.text? f.path = some text := if_pos rfl
  obtain ⟨count, s', text', hwrite, htext', -, hcount, -, -, hlength, hlines⟩ :=
    edits_of_write htext hdesired hmodules
  have hone : (restateAll desired .empty (splitLines text)).2 = 1 := by decide
  obtain rfl : count = 1 := by
    rw [write_of_text? htext, hone] at hwrite
    exact (Except.ok.inj (Prod.mk.inj hwrite).1).symm
  have hline : (splitLines text)[0]? = some line := by decide
  have htwo : (splitLines text).length = 2 := by decide
  have hnew : (splitLines text')[0]? = some (splitLines text')[0] :=
    List.getElem?_eq_getElem (by omega)
  have hoff : Misdeclares desired line :=
    ⟨{ name := "core", group := some "com.example", verb := .api, quote := .single, source := false,
       version := some "1.0" }, core, by decide, by decide, by decide⟩
  obtain ⟨hsame, hframe⟩ := hlines 0 line _ hline hnew
  exact ⟨s', text', _, hwrite, htext', hcount.symm, hnew, hoff,
    hframe fun heq => hsame.mp heq hoff⟩

end BuildFile

end Inclusion
