import Inclusion.Proofs.Declaration
import Mathlib.Data.List.TakeDrop

/-!
# What written declarations are read as

A declaration can be written for the path of a project, or anew for what was read of another one.
Reading fills the three places of the coordinates from the left, whatever they were written for: a
third segment of a path is taken for a version and lost, and without a group the name is taken for
one.

* `ofLine?_projectLine`: what is read of a project path of any length.
* `named_after_path`: which paths a project is named after.
* `Dependency.rereads_iff`: which dependencies are declared anew as they were read.
-/
namespace Inclusion

open Text

/-! ### The path of a project -/

/-- Whether names make a path, as its segments. -/
structure IsPath (segments : List String) : Prop where
  ne_nil : segments ≠ []
  isSegment : ∀ s ∈ segments, IsSegment s

instance (segments : List String) : Decidable (IsPath segments) :=
  decidable_of_iff (segments ≠ [] ∧ ∀ s ∈ segments, IsSegment s)
    ⟨fun h => ⟨h.1, h.2⟩, fun h => ⟨h.ne_nil, h.isSegment⟩⟩

/-- The path of a project, with a colon between segments. -/
def projectPath (segments : List String) : String := ":".intercalate segments

/-- A declaration on the project of a path. -/
def projectLine (verb : Verb) (quote : Quote) (segments : List String) : String :=
  verb.text ++ " project(" ++ quote.text ++ ":" ++ projectPath segments ++ quote.text ++ ")"

theorem IsPath.tail {first : String} {rest : List String} (h : IsPath (first :: rest))
    (hne : rest ≠ []) : IsPath rest :=
  ⟨hne, fun s hs => h.isSegment s (List.mem_cons_of_mem _ hs)⟩

theorem IsPath.take {segments : List String} (h : IsPath segments) : IsPath (segments.take 2) where
  ne_nil := by simpa using h.ne_nil
  isSegment s hs := h.isSegment s (List.mem_of_mem_take hs)

theorem toList_projectPath (segments : List String) :
    (projectPath segments).toList = [':'].intercalate (segments.map String.toList) :=
  String.toList_intercalate

theorem toList_projectPath_singleton (segment : String) :
    (projectPath [segment]).toList = segment.toList := rfl

theorem toList_projectPath_cons_cons (first second : String) (rest : List String) :
    (projectPath (first :: second :: rest)).toList
      = first.toList ++ ':' :: (projectPath (second :: rest)).toList := by
  simp [toList_projectPath, List.intercalate_cons_cons]

theorem toList_projectLine (verb : Verb) (quote : Quote) (segments : List String) :
    (projectLine verb quote segments).toList
      = verb.text.toList ++ (" project(".toList
        ++ quote.char :: ((':' :: (projectPath segments).toList) ++ [quote.char, ')'])) := by
  simp [projectLine, Quote.text]

theorem tight_projectLine (verb : Verb) (quote : Quote) (segments : List String) :
    Tight (projectLine verb quote segments).toList := by
  obtain ⟨c, hc, hblank⟩ := Dependency.Verb.exists_head verb
  rw [toList_projectLine]
  simpa using tight_append (t := " project(".toList
    ++ quote.char :: ((':' :: (projectPath segments).toList) ++ [quote.char])) hc hblank
    (d := ')') (by decide)

/-- A path is told by its segments. -/
theorem projectPath_inj {segments segments' : List String} (h : IsPath segments)
    (h' : IsPath segments') : projectPath segments = projectPath segments' ↔ segments = segments' := by
  refine ⟨fun heq => ?_, fun heq => heq ▸ rfl⟩
  have hcut : ∀ {segments}, IsPath segments →
      (projectPath segments).toList.splitOn ':' = segments.map String.toList := by
    intro segments h
    rw [toList_projectPath]
    refine List.splitOn_intercalate ':' ?_ (by simpa using h.ne_nil)
    simp only [List.mem_map, forall_exists_index, and_imp, forall_apply_eq_imp_iff₂]
    intro s hs hcolon
    exact absurd (List.all_eq_true.mp (h.isSegment s hs).2 ':' hcolon) (by decide)
  have hchars : segments.map String.toList = segments'.map String.toList := by
    rw [← hcut h, heq, hcut h']
  exact (List.map_inj_right fun _ _ => String.toList_inj.mp).mp hchars

theorem IsPath.toList_ne_nil {segments : List String} (h : IsPath segments) :
    (projectPath segments).toList ≠ [] := by
  match segments, h with
  | [first], h => exact (h.isSegment first (by simp)).toList_ne_nil
  | first :: second :: rest, h => simp [toList_projectPath_cons_cons]

theorem IsPath.isMark {segments : List String} (h : IsPath segments) :
    ∀ c ∈ (projectPath segments).toList, isMark c = false := by
  induction segments with
  | nil => exact absurd rfl h.ne_nil
  | cons first rest ih =>
    have hfirst := (h.isSegment first (List.mem_cons_self ..)).isMark
    cases rest with
    | nil => exact hfirst
    | cons second rest =>
      intro c hc
      rw [toList_projectPath_cons_cons, List.mem_append, List.mem_cons] at hc
      rcases hc with hc | rfl | hc
      · exact hfirst c hc
      · decide
      · exact ih (h.tail (by simp)) c hc

theorem IsWord.isVersion {text : String} (h : IsWord text) :
    Coordinates.isVersion text.toList = true := by
  have hskip : skipOne (· == '$') text.toList = text.toList := by
    cases hcs : text.toList with
    | nil => rfl
    | cons c cs =>
      refine skipOne_cons_neg (fun hdollar => ?_) cs
      have hdotted : isDottedChar c = true := List.all_eq_true.mp h.2 c (by simp [hcs])
      rw [beq_iff_eq.mp hdollar] at hdotted
      exact absurd hdotted (by decide)
  simp [Coordinates.isVersion, hskip, h.toList_ne_nil, h.2]

/-- Only a path of one segment can stand for a version. -/
theorem IsPath.isVersion_iff {first : String} {rest : List String} (h : IsPath (first :: rest)) :
    Coordinates.isVersion (projectPath (first :: rest)).toList = true ↔ rest = [] := by
  cases rest with
  | nil =>
    simpa [toList_projectPath_singleton] using (h.isSegment first (by simp)).isWord.isVersion
  | cons second rest =>
    have hcolon : ':' ∈ (projectPath (first :: second :: rest)).toList := by
      simp [toList_projectPath_cons_cons]
    simpa using fun hversion => (isMark_of_isVersion hversion ':' hcolon).1 rfl

namespace Coordinates

/-- The coordinates have room for three segments. -/
theorem ofBody?_projectPath {segments : List String} (h : IsPath segments) :
    ofBody? (':' :: (projectPath segments).toList)
      = if segments.length ≤ 3 then
          some ⟨(segments.getD 0 "").toList, (segments.getD 1 "").toList,
            (segments.getD 2 "").toList⟩
        else none := by
  match segments, h with
  | [first], h =>
    have hfirst := h.isSegment first (by simp)
    have hread := ofBody?_project hfirst.isWord.2 (List.all_nil : [].all isNameChar = true)
    simpa [toList_projectPath_singleton] using hread
  | [first, second], h =>
    have hfirst := h.isSegment first (by simp)
    have hsecond := h.isSegment second (by simp)
    have hread := ofBody?_project hfirst.isWord.2 hsecond.2
    rw [if_neg hsecond.toList_ne_nil] at hread
    simpa [toList_projectPath_cons_cons, toList_projectPath_singleton] using hread
  | first :: second :: third :: rest, h =>
    have hfirst := h.isSegment first (by simp)
    have hsecond := h.isSegment second (by simp)
    have htail := (h.tail (by simp)).tail (by simp)
    have hskip : skipOne isColon (':' :: first.toList) = first.toList := skipOne_cons_pos rfl _
    have hread := ofBody?_parts (List.cons_ne_nil ':' first.toList) (hskip ▸ hfirst.isWord.2)
      hsecond.2 (projectPath (third :: rest)).toList
    rw [toList_projectPath_cons_cons, toList_projectPath_cons_cons, ← List.cons_append, hread, hskip]
    simp only [List.isEmpty_iff, htail.toList_ne_nil, Bool.or_eq_true, false_or,
      htail.isVersion_iff]
    cases rest with
    | nil => simp [toList_projectPath_singleton]
    | cons fourth rest => simp

theorem first_of_ofBody? {body : List Char} {c : Coordinates} (h : ofBody? body = some c) :
    c.first = (skipOne isColon body).takeWhile isDottedChar := by
  simp only [ofBody?] at h
  split at h <;> cases h
  rfl

end Coordinates

theorem projectName?_of_isPath {segments : List String} (h : IsPath segments)
    (version : List Char) :
    Declaration.projectName? ⟨(segments.getD 0 "").toList, (segments.getD 1 "").toList, version⟩
      = some (projectPath (segments.take 2)) := by
  match segments, h with
  | [first], h =>
    have hfirst := (h.isSegment first (by simp)).1
    simp [Declaration.projectName?, Declaration.present?, hfirst, projectPath]
  | first :: second :: rest, h =>
    have hfirst := (h.isSegment first (by simp)).1
    have hsecond := (h.isSegment second (by simp)).1
    simp [Declaration.projectName?, Declaration.present?, hfirst, hsecond, projectPath]

/-- A project is named after the first two segments of its path; a third one is lost, and no path
with a fourth is read. -/
theorem ofLine?_projectLine (verb : Verb) (quote : Quote) {segments : List String}
    (h : IsPath segments) :
    Dependency.ofLine? (projectLine verb quote segments)
      = if segments.length ≤ 3 then
          some { name := projectPath (segments.take 2), verb, quote, source := true }
        else none := by
  have hbody : ∀ c ∈ ':' :: (projectPath segments).toList, isQuote c = false := by
    intro c hc
    rcases List.mem_cons.mp hc with rfl | hc
    · decide
    · exact isQuote_of_isMark (h.isMark c hc)
  rw [Dependency.ofLine?, trim_of_tight (tight_projectLine verb quote segments),
    toList_projectLine, Declaration.read?_quoted,
    Declaration.readBody?_close hbody (Dependency.isQuote_char quote) (.inr rfl), Option.bind_some,
    Coordinates.ofBody?_projectPath h]
  split
  next =>
    simp only [Option.map_some, Option.bind_some, Declaration.dependency?, if_true,
      projectName?_of_isPath h]
  next => rfl

theorem name_of_ofLine?_projectLine {verb : Verb} {quote : Quote} {segments : List String}
    (h : IsPath segments) {d : Dependency}
    (hd : Dependency.ofLine? (projectLine verb quote segments) = some d) :
    d.name = projectPath (segments.take 2) := by
  rw [ofLine?_projectLine verb quote h] at hd
  split at hd <;> cases hd
  rfl

/-- Which name a project gets for the path it is declared with: that of the whole path, unless the
path has three segments. Of the paths that are read, those with the same first two segments share a
name. -/
theorem named_after_path (verb : Verb) (quote : Quote) {segments : List String}
    (h : IsPath segments) :
    Dependency.ofLine? (projectLine verb quote segments)
        = (if segments.length ≤ 3 then
            some { name := projectPath (segments.take 2), verb, quote, source := true }
          else none)
      ∧ ((∀ d, Dependency.ofLine? (projectLine verb quote segments) = some d →
            d.source = true ∧ d.name = projectPath segments) ↔ segments.length ≠ 3)
      ∧ ∀ (verb' : Verb) (quote' : Quote) (segments' : List String), IsPath segments' →
          ∀ d d', Dependency.ofLine? (projectLine verb quote segments) = some d →
            Dependency.ofLine? (projectLine verb' quote' segments') = some d' →
            (d.name = d'.name ↔ segments.take 2 = segments'.take 2) := by
  have hread := ofLine?_projectLine verb quote h
  refine ⟨hread, ?_, fun verb' quote' segments' h' d d' hd hd' => ?_⟩
  · rw [hread]
    split
    next hlength =>
      simp only [Option.some.injEq, forall_eq', true_and]
      rw [projectPath_inj h.take h, List.take_eq_self_iff]
      omega
    next hlength => simpa using by omega
  · rw [name_of_ofLine?_projectLine h hd, name_of_ofLine?_projectLine h' hd',
      projectPath_inj h.take h'.take]

/-- The third segment of a path is lost. -/
theorem named_after_path_three :
    let segments := ["feature", "login", "ui"]
    IsPath segments
      ∧ Dependency.ofLine? (projectLine .implementation .double segments)
        = some { name := "feature:login", verb := .implementation, quote := .double, source := true }
      := by
  have h : IsPath ["feature", "login", "ui"] := by decide
  exact ⟨h, (named_after_path .implementation .double h).1⟩

/-- Two different paths share a name, so one of them is not what the project is named after. -/
theorem exists_shared_name :
    ∃ (verb : Verb) (quote : Quote) (segments segments' : List String) (d : Dependency),
      IsPath segments ∧ IsPath segments' ∧ segments ≠ segments'
        ∧ Dependency.ofLine? (projectLine verb quote segments) = some d
        ∧ Dependency.ofLine? (projectLine verb quote segments') = some d
        ∧ d.name ≠ projectPath segments :=
  ⟨.api, .single, ["a", "b", "c"], ["a", "b"],
    { name := "a:b", verb := .api, quote := .single, source := true },
    by decide, by decide, by decide, by decide, by decide, by decide⟩

/-! ### A dependency that is declared anew -/

namespace Dependency

/-- Whether the declaration of a dependency is read in the same form and for the same verb under its
name, and is declared again as it stands. -/
def Rereads (d : Dependency) : Prop :=
  ∃ d', ofLine? d.declaration = some d' ∧ d'.name = d.name ∧ d'.source = d.source
    ∧ d'.verb = d.verb ∧ d'.declaration = d.declaration

variable {line : String} {d : Dependency}

theorem rereads_project (hd : Legible d) (hsource : d.source = true) : d.Rereads := by
  have hread := ofLine?_restate_project "" (d.group.getD "") hsource (hd.project hsource)
  rw [ofLine?_restate_declare] at hread
  refine ⟨_, hread, rfl, hsource.symm, rfl, ?_⟩
  simp [declaration, declare, hsource]

theorem rereads_artifact (hd : Legible d) (hsource : d.source = false) {group : String}
    (hgroup : d.group = some group) : d.Rereads := by
  have hword := hd.group group hgroup
  have hread := ofLine?_restate_artifact "" hd.toSpelled hsource hword.isGroup (hd.artifact hsource)
  have hdeclaration : d.declare group d.name = d.declaration := by
    rw [declaration, hgroup, Option.getD_some]
  have hpresent : Declaration.present? group.toList = some group := by
    simp [Declaration.present?, hword.1]
  rw [ofLine?_restate_declare, skipOne_of_isDottedChar hword.2, hpresent, hdeclaration] at hread
  refine ⟨_, hread, rfl, hsource.symm, rfl, ?_⟩
  simp [declaration, declare, hsource, hgroup]

/-- Without a group, the name is read in its place. -/
theorem of_ofLine?_declare_groupless (hd : Legible d) (hsource : d.source = false)
    {found : Dependency} (h : ofLine? (d.declare "" d.name) = some found) :
    found.source = false ∧ found.quote = d.quote ∧ found.verb = d.verb
      ∧ found.group = some d.name := by
  have hname := hd.artifact hsource
  rw [← ofLine?_restate_declare "", ofLine?_restate, toList_declare_artifact hsource,
    Declaration.read?_artifact] at h
  obtain ⟨declaration, hread, hfound⟩ := Option.bind_eq_some_iff.mp h
  obtain ⟨body, hbody, hread⟩ := Option.bind_eq_some_iff.mp hread
  obtain ⟨c, hc, rfl⟩ := Option.map_eq_some_iff.mp hread
  obtain rfl := Declaration.eq_of_readBody? (isQuote_char _) hbody
  have hfirst := Coordinates.first_of_ofBody? hc
  obtain ⟨_, -, rfl⟩ := Option.map_eq_some_iff.mp hfound
  have hcut := Coordinates.takeWhile_append_cons hname.isWord.2 (d := ':') (by decide)
    (d.version.getD unknownVersion).toList
  have hfirst : c.first = d.name.toList := by
    rw [hfirst]
    exact hcut.1
  exact ⟨rfl, rfl, rfl, by simp [hfirst, Declaration.present?, hname.1]⟩

theorem not_rereads (hd : Legible d) (hsource : d.source = false) (hgroup : d.group = none) :
    ¬d.Rereads := by
  rintro ⟨found, hfound, -, -, -, hdeclaration⟩
  have hplain : d.declaration = d.declare "" d.name := by rw [declaration, hgroup, Option.getD_none]
  obtain ⟨hfoundSource, hquote, hverb, hfoundGroup⟩ :=
    of_ofLine?_declare_groupless hd hsource (hplain ▸ hfound)
  -- what stands behind the quote is a colon here and a name there
  have hchars := congrArg String.toList hdeclaration
  rw [hplain, declaration, toList_declare_artifact hfoundSource, toList_declare_artifact hsource,
    hverb, hquote, hfoundGroup] at hchars
  obtain ⟨c, cs, hcs⟩ := List.exists_cons_of_ne_nil (hd.artifact hsource).toList_ne_nil
  have hbehind := (List.cons.inj (List.cons.inj (List.append_cancel_left hchars)).2).2
  simp only [Option.getD_some, hcs, List.cons_append] at hbehind
  obtain rfl : c = ':' := (List.cons.inj hbehind).1
  exact absurd (List.all_eq_true.mp (hd.artifact hsource).2 ':' (by simp [hcs])) (by decide)

theorem rereads_iff (h : ofLine? line = some d) :
    d.Rereads ↔ (d.source = false → d.group ≠ none) := by
  have hd := Legible.of_ofLine? h
  cases hsource : d.source with
  | true => simpa using rereads_project hd hsource
  | false =>
    cases hgroup : d.group with
    | none => simpa using not_rereads hd hsource hgroup
    | some group => simpa using rereads_artifact hd hsource hgroup

/-- A declaration in brackets and without a version is declared anew without brackets and with the
version that stands for none. -/
theorem rereads_iff_bracketed :
    let line := "  compile (\"com.example:core\")"
    let d : Dependency :=
      { name := "core", group := some "com.example", verb := .compile, quote := .double,
        source := false }
    ofLine? line = some d ∧ d.Rereads := by
  intro line d
  have h : ofLine? line = some d := by decide
  exact ⟨h, (rereads_iff h).mpr fun _ => by decide⟩

/-- Declared anew, an artifact without a group is read under another name. -/
theorem exists_misread :
    ∃ (line : String) (d found : Dependency), ofLine? line = some d
      ∧ ofLine? d.declaration = some found ∧ found.name ≠ d.name
      ∧ found.declaration ≠ d.declaration :=
  ⟨"api '::core:1.0'",
    { name := "core", verb := .api, quote := .single, source := false, version := some "1.0" },
    { name := "1", group := some "core", verb := .api, quote := .single, source := false,
      version := some ".0" },
    by decide, by decide, by decide, by decide⟩

end Dependency

end Inclusion
