import Inclusion.Proofs.Restyling

/-!
# Which verb a restated line has

A line is restated from what its node knows of the name, not from what stood there. So it is given
the verb that the node knows, which is that of the last declaration of the name in the lines that
the node read. The verb that stood on the line is kept exactly if it is the same.

* `startingVerb?_of_restated?`: the verb of a line before and after it is restated.
* `Node.verb_of_enforce`: the verbs before and after a policy is enforced.
-/
namespace Inclusion

open Text BuildFile

/-- The verb that stands first on a line. -/
def startingVerb? (line : String) : Option Verb :=
  (Declaration.readVerb? (trim line.toList)).map Prod.fst

theorem startingVerb?_of_ofLine? {line : String} {d : Dependency}
    (h : Dependency.ofLine? line = some d) : startingVerb? line = some d.verb := by
  obtain ⟨declaration, hread, hd⟩ := Option.bind_eq_some_iff.mp h
  obtain ⟨⟨rest, hverb⟩, -⟩ := Declaration.of_read? hread
  have hkept : d.verb = declaration.verb := by
    unfold Declaration.dependency? at hd
    split at hd <;> obtain ⟨_, -, rfl⟩ := Option.map_eq_some_iff.mp hd <;> rfl
  rw [startingVerb?, hverb, Option.map_some, hkept]

theorem exists_toList_declare (d : Dependency) (group name : String) :
    ∃ rest, (d.declare group name).toList = d.verb.text.toList ++ rest := by
  cases h : d.source with
  | true => exact ⟨_, Dependency.toList_declare_project h group name⟩
  | false => exact ⟨_, Dependency.toList_declare_artifact h group name⟩

theorem startingVerb?_restate_declare (line : String) (d : Dependency) (group name : String) :
    startingVerb? (restate line (d.declare group name)) = some d.verb := by
  obtain ⟨rest, hrest⟩ := exists_toList_declare d group name
  rw [startingVerb?, trim_restate line (Dependency.tight_declare d group name), hrest,
    Declaration.readVerb?_text]
  rfl

/-- A restated line has the verb of what was wanted. -/
theorem startingVerb?_restate_statementFor (line : String) (modules : NameMap Manifest.Module)
    (wanted : Dependency) :
    startingVerb? (restate line (statementFor modules wanted)) = some wanted.verb := by
  obtain ⟨group, name, hstatement⟩ := exists_statementFor_eq modules wanted
  rw [hstatement]
  exact startingVerb?_restate_declare line wanted group name

/-- A policy asks for another form, never for another verb. -/
theorem verb_of_get?_desired {policy : Policy} {known : Dependencies} {name : String}
    {wanted : Dependency} (h : (Node.desired policy known).get? name = some wanted) :
    ∃ d, known.get? name = some d ∧ wanted.verb = d.verb := by
  obtain ⟨d, hd, rfl⟩ := get?_desired h
  refine ⟨d, hd, ?_⟩
  split <;> rfl

/-- What a line that is restated declared, and what was known of that name: these have the verbs that
stood there before and that stand there now. -/
theorem startingVerb?_of_restated? {policy : Policy} {known : Dependencies} {line new : String}
    (h : restated? (Node.desired policy known) policy.modules line = some new) :
    ∃ found d, Dependency.ofLine? line = some found ∧ known.get? found.name = some d
      ∧ startingVerb? line = some found.verb ∧ startingVerb? new = some d.verb := by
  obtain ⟨found, wanted, hfound, hwanted, -, rfl⟩ := restated?_eq_some_iff.mp h
  obtain ⟨d, hd, hverb⟩ := verb_of_get?_desired hwanted
  refine ⟨found, d, hfound, hd, startingVerb?_of_ofLine? hfound, ?_⟩
  rw [startingVerb?_restate_statementFor, hverb]

/-- Whether a line declares a dependency in another form than a policy asks for, given what is
known. -/
def Deviates (policy : Policy) (known : Dependencies) (line : String) : Prop :=
  ∃ found wanted, Dependency.ofLine? line = some found
    ∧ (Node.desired policy known).get? found.name = some wanted ∧ wanted.source ≠ found.source

theorem restated?_ne_none_iff {policy : Policy} {known : Dependencies} {line : String} :
    restated? (Node.desired policy known) policy.modules line ≠ none
      ↔ Deviates policy known line :=
  restated?_ne_none_iff_misdeclares

namespace Node

/-- Enforcing a policy rewrites the lines that deviate from it. Each of them gets the verb that the
node knows of the name declared there, so it keeps its own exactly if that is the same. A node that
has just read its file knows the verb of the last declaration of the name in the lines it read,
whatever the file holds by now. -/
theorem verb_of_enforce {n : Node} {s : Shelf} {lines : List String}
    (hread : Store.read s n.file.path = .ok lines) (policy : Policy) :
    ∃ lines', (n.enforce s policy).2.2.text? n.file.path = some (joinLines lines')
      ∧ lines'.length = lines.length
      ∧ ∀ (i : Nat) (line new : String), lines[i]? = some line → lines'[i]? = some new →
        (new ≠ line ↔ Deviates policy n.all line)
          ∧ (new ≠ line → ∃ found d, Dependency.ofLine? line = some found
            ∧ n.all.get? found.name = some d
            ∧ startingVerb? line = some found.verb ∧ startingVerb? new = some d.verb
            ∧ (startingVerb? new = startingVerb? line ↔ d.verb = found.verb)
            ∧ ∀ {σ : Type} [Store σ] (store : σ) (before : Node) (keep : Bool)
                (old : List String) (last : Dependency),
              before.refresh store keep = (.ok (), n) → Store.read store n.file.path = .ok old →
              (declared old).get? found.name = some last → d.verb = last.verb) := by
  obtain ⟨text, htext, rfl⟩ := Shelf.read_eq_ok_iff.mp hread
  have hafter : (n.enforce s policy).2.2.text? n.file.path
      = (s.text? n.file.path).map (restateText (desired policy n.all) policy.modules) :=
    (textAt_enforce n s policy n.file.path.location).trans (if_pos rfl)
  rw [htext, Option.map_some] at hafter
  refine ⟨_, hafter, length_restateAll _ _ _, fun i line new hline hnew => ?_⟩
  rw [restateAll_fst, List.getElem?_map, hline, Option.map_some, Option.some.injEq] at hnew
  have hchanged : new ≠ line ↔ restated? (desired policy n.all) policy.modules line ≠ none :=
    hnew ▸ not_congr getD_restated?_eq_iff
  refine ⟨hchanged.trans restated?_ne_none_iff, fun hne => ?_⟩
  obtain ⟨restated, hrestated⟩ := Option.ne_none_iff_exists'.mp (hchanged.mp hne)
  rw [hrestated, Option.getD_some] at hnew
  obtain ⟨found, d, hfound, hd, hfoundVerb, hverb⟩ := startingVerb?_of_restated? (hnew ▸ hrestated)
  refine ⟨found, d, hfound, hd, hfoundVerb, hverb,
    by rw [hverb, hfoundVerb, Option.some.injEq], ?_⟩
  intro σ _ store before keep old last hrefresh hold hlast
  obtain ⟨shown, hshown, hshows⟩ := shows_of_refresh hrefresh hold hlast
  cases hd.symm.trans hshown
  exact hshows.verb

/-- The policy of a manifest with one module, which is included. -/
def corePolicy : Policy :=
  Manifest.policy { name := "d", modules := [⟨"core", "core", "com.example"⟩] } (.ofNames ["core"])

/-- A verb that was edited since the node read its file is undone when the line is rewritten. -/
theorem verb_of_enforce_edited :
    let old := "compile 'com.example:core:1.0'"
    let line := "api 'com.example:core:1.0'"
    ∃ lines', ((readApp old).enforce (appFile line) corePolicy).2.2.text? (readApp old).file.path
        = some (joinLines lines')
      ∧ lines'.length = 1
      ∧ ∀ new, lines'[0]? = some new → new ≠ line →
        startingVerb? line = some .api ∧ startingVerb? new = some .compile := by
  intro old line
  have hread : Store.read (appFile line) (readApp old).file.path = .ok [line] := by
    rw [path_readApp, ← path_readApp line, read_appFile]
    decide
  let core (verb : Verb) : Dependency :=
    { name := "core", group := some "com.example", verb, quote := .single, source := false,
      version := some "1.0" }
  have hline : Dependency.ofLine? line = some (core .api) := by decide +kernel
  have hold : (declared (splitLines old)).get? "core" = some (core .compile) := by
    decide +kernel
  obtain ⟨lines', htext, hlength, hlines⟩ := verb_of_enforce hread corePolicy
  refine ⟨lines', htext, hlength, fun new hnew hne => ?_⟩
  obtain ⟨found, d, hfound, -, hverb, hnewVerb, -, hlast⟩ := (hlines 0 line new rfl hnew).2 hne
  obtain rfl : found = core .api := Option.some.inj (hfound.symm.trans hline)
  have hd : d.verb = .compile :=
    hlast (appFile old) app false _ _ (refresh_app old) (read_appFile old) hold
  exact ⟨hverb, hd ▸ hnewVerb⟩

/-- Of two declarations of a name, the first one gets the verb of the second. -/
theorem exists_reworded :
    ∃ (n n' : Node) (s : Shelf) (policy : Policy) (lines lines' : List String)
      (line new : String),
      n.refresh s false = (.ok (), n') ∧ Store.read s n'.file.path = .ok lines
        ∧ (n'.enforce s policy).1 = .ok 2
        ∧ Store.read (n'.enforce s policy).2.2 n'.file.path = .ok lines'
        ∧ lines[0]? = some line ∧ lines'[0]? = some new
        ∧ startingVerb? line = some .api ∧ startingVerb? new = some .compile := by
  let text := "api 'com.example:core:1.0'\ncompile 'com.example:core:1.0'"
  let text' := "compile project(\":core\")\ncompile project(\":core\")"
  have henforce : ((readApp text).enforce (appFile text) corePolicy).1 = .ok 2
      ∧ ((readApp text).enforce (appFile text) corePolicy).2.2.text? app.file.path
        = some text' := by
    decide +kernel
  refine ⟨app, readApp text, appFile text, corePolicy, _, splitLines text',
    "api 'com.example:core:1.0'", "compile project(\":core\")", refresh_app text,
    read_appFile text, henforce.1, ?_, by decide, by decide, by decide +kernel,
    by decide +kernel⟩
  rw [path_readApp]
  exact Shelf.read_of_text? henforce.2

end Node

end Inclusion
