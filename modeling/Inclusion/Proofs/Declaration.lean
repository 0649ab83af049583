import Inclusion.BuildFile
import Inclusion.Proofs.Text
import Mathlib.Data.List.TakeWhile

/-!
# Declarations that read back

What a declaration says when the line it was written to is read again. A project reads back under
its name. An artifact reads back if its group is a dotted word, maybe behind a colon; any other group
may make the line unreadable, but never lets it declare something else.

* `Legible.of_ofLine?`: the names, groups and versions that lines give.
* `ofLine?_restate_project`, `ofLine?_restate_artifact`: a declaration reads back.
* `of_ofLine?_restate_artifact`: an artifact of an arbitrary group is read under its name or not at
  all.
* `source_of_ofLine?_restate`: nothing is ever read in the other form.
-/
namespace Inclusion

open Text

/-- A name of one segment. -/
def IsSegment (name : String) : Prop := name ≠ "" ∧ name.toList.all isNameChar = true

/-- A dotted word, as groups are. -/
def IsWord (text : String) : Prop := text ≠ "" ∧ text.toList.all isDottedChar = true

/-- A group behind which a name is read as such: a dotted word, or a colon in front of one. -/
def IsGroup (text : String) : Prop :=
  text ≠ "" ∧ (skipOne Coordinates.isColon text.toList).all isDottedChar = true

/-- A name that a line can give to a project: a dotted word, or one before a segment. -/
def IsProjectName (name : String) : Prop :=
  ∃ first second : List Char, first ≠ [] ∧ first.all isDottedChar = true
    ∧ second.all isNameChar = true
    ∧ name = String.ofList (if second = [] then first else first ++ ':' :: second)

instance (name : String) : Decidable (IsSegment name) := inferInstanceAs (Decidable (_ ∧ _))

instance (text : String) : Decidable (IsWord text) := inferInstanceAs (Decidable (_ ∧ _))

instance (text : String) : Decidable (IsGroup text) := inferInstanceAs (Decidable (_ ∧ _))

theorem IsSegment.toList_ne_nil {name : String} (h : IsSegment name) : name.toList ≠ [] := by
  simpa using h.1

theorem IsWord.toList_ne_nil {text : String} (h : IsWord text) : text.toList ≠ [] := by
  simpa using h.1

/-! ### Characters -/

/-- The characters that no name, group or version has. -/
def isMark (c : Char) : Bool := isQuote c || c == '\n' || c == ','

theorem isDottedChar_of_isNameChar {c : Char} (h : isNameChar c = true) :
    isDottedChar c = true := by
  simp [isDottedChar, h]

theorem isNameChar_colon : isNameChar ':' = false := by decide

theorem all_isDottedChar_of_isNameChar {cs : List Char} (h : cs.all isNameChar = true) :
    cs.all isDottedChar = true := by
  simp only [List.all_eq_true] at h ⊢
  exact fun c hc => isDottedChar_of_isNameChar (h c hc)

theorem IsSegment.isWord {name : String} (h : IsSegment name) : IsWord name :=
  ⟨h.1, all_isDottedChar_of_isNameChar h.2⟩

theorem IsSegment.isProjectName {name : String} (h : IsSegment name) : IsProjectName name :=
  ⟨name.toList, [], h.toList_ne_nil, h.isWord.2, rfl, by simp⟩

theorem isMark_of_isDottedChar {c : Char} (h : isDottedChar c = true) : isMark c = false := by
  refine Bool.eq_false_iff.mpr fun hmark => ?_
  simp only [isMark, isQuote, Bool.or_eq_true, beq_iff_eq] at hmark
  rcases hmark with ((rfl | rfl) | rfl) | rfl <;> exact absurd h (by decide)

theorem isMark_of_all_isDottedChar {cs : List Char} (h : cs.all isDottedChar = true) :
    ∀ c ∈ cs, isMark c = false :=
  fun c hc => isMark_of_isDottedChar (List.all_eq_true.mp h c hc)

/-- A dotted word does not start with a colon. -/
theorem skipOne_of_isDottedChar {cs : List Char} (h : cs.all isDottedChar = true) :
    skipOne Coordinates.isColon cs = cs := by
  cases cs with
  | nil => rfl
  | cons c cs =>
    refine skipOne_cons_neg (fun hcolon => ?_) cs
    have hdotted : isDottedChar c = true := List.all_eq_true.mp h c (List.mem_cons_self ..)
    rw [beq_iff_eq.mp hcolon] at hdotted
    exact absurd hdotted (by decide)

theorem IsWord.isGroup {text : String} (h : IsWord text) : IsGroup text :=
  ⟨h.1, (skipOne_of_isDottedChar h.2).symm ▸ h.2⟩

theorem IsGroup.isMark {text : String} (h : IsGroup text) : ∀ c ∈ text.toList, isMark c = false := by
  have hrest := isMark_of_all_isDottedChar h.2
  cases hcs : text.toList with
  | nil => simp
  | cons d cs =>
    rw [hcs, skipOne] at hrest
    intro c hc
    split at hrest
    next hcolon =>
      rcases List.mem_cons.mp hc with rfl | hc
      · rw [beq_iff_eq.mp hcolon]
        decide
      · exact hrest c hc
    next => exact hrest c hc

theorem isQuote_of_isMark {c : Char} (h : isMark c = false) : isQuote c = false :=
  (Bool.or_eq_false_iff.mp (Bool.or_eq_false_iff.mp h).1).1

/-- A version holds no colon and no mark. -/
theorem isMark_of_isVersion {cs : List Char} (h : Coordinates.isVersion cs = true) :
    ∀ c ∈ cs, c ≠ ':' ∧ isMark c = false := by
  have hdotted : ∀ c, isDottedChar c = true → c ≠ ':' ∧ isMark c = false := fun c hc =>
    ⟨fun heq => absurd (heq ▸ hc) (by decide), isMark_of_isDottedChar hc⟩
  have hword := List.all_eq_true.mp (Bool.and_eq_true_iff.mp h).2
  cases cs with
  | nil => simp
  | cons d cs =>
    intro c hc
    by_cases hd : (d == '$') = true
    · rw [skipOne, if_pos hd] at hword
      rcases List.mem_cons.mp hc with rfl | hc
      · rw [beq_iff_eq.mp hd]
        decide
      · exact hdotted c (hword c hc)
    · rw [skipOne, if_neg hd] at hword
      exact hdotted c (hword c hc)

theorem isVersion_unknown : Coordinates.isVersion Dependency.unknownVersion.toList = true := by
  decide

theorem not_mem_of_isMark {cs : List Char} (h : ∀ d ∈ cs, isMark d = false) {c : Char}
    (hc : isMark c = true) : c ∉ cs := fun hmem => by simp [h c hmem] at hc

theorem IsSegment.isMark {name : String} (h : IsSegment name) : ∀ c ∈ name.toList, isMark c = false :=
  isMark_of_all_isDottedChar h.isWord.2

theorem IsProjectName.isMark {name : String} (h : IsProjectName name) :
    ∀ c ∈ name.toList, isMark c = false := by
  obtain ⟨first, second, -, hfirst, hsecond, rfl⟩ := h
  have hfirst := isMark_of_all_isDottedChar hfirst
  have hsecond := isMark_of_all_isDottedChar (all_isDottedChar_of_isNameChar hsecond)
  rw [String.toList_ofList]
  intro c hc
  split at hc
  · exact hfirst c hc
  · rcases List.mem_append.mp hc with hc | hc
    · exact hfirst c hc
    · rcases List.mem_cons.mp hc with rfl | hc
      · decide
      · exact hsecond c hc

/-! ### What lines give -/

/-- Whether group and version of a dependency, where known, are ones that lines can give. -/
structure Spelled (d : Dependency) : Prop where
  group : ∀ g, d.group = some g → IsWord g
  version : ∀ v, d.version = some v → Coordinates.isVersion v.toList = true

theorem Spelled.getD_group {P : String → Prop} {d : Dependency} (h : Spelled d) (hempty : P "")
    (hword : ∀ group, IsWord group → P group) : P (d.group.getD "") := by
  cases hgroup : d.group with
  | none => exact hempty
  | some group => exact hword group (h.group group hgroup)

/-- Whether a dependency has the shape of one that was read from a line. -/
structure Legible (d : Dependency) : Prop extends Spelled d where
  project : d.source = true → IsProjectName d.name
  artifact : d.source = false → IsSegment d.name

theorem Legible.isProjectName {d : Dependency} (h : Legible d) : IsProjectName d.name := by
  cases hs : d.source with
  | true => exact h.project hs
  | false => exact (h.artifact hs).isProjectName

theorem present?_eq_some_iff {cs : List Char} {text : String} :
    Declaration.present? cs = some text ↔ cs ≠ [] ∧ text = String.ofList cs := by
  unfold Declaration.present?
  split
  next h => simp [h]
  next h => simp [h, eq_comm]

theorem all_of_ofBody? {body : List Char} {c : Coordinates}
    (h : Coordinates.ofBody? body = some c) :
    c.first.all isDottedChar = true ∧ c.second.all isNameChar = true
      ∧ (c.version = [] ∨ Coordinates.isVersion c.version = true) := by
  simp only [Coordinates.ofBody?] at h
  split at h
  next hversion =>
    cases h
    refine ⟨List.all_takeWhile, List.all_takeWhile, ?_⟩
    simpa using hversion
  next => cases h

theorem isProjectName_of_projectName? {c : Coordinates} {name : String}
    (hfirst : c.first.all isDottedChar = true) (hsecond : c.second.all isNameChar = true)
    (h : Declaration.projectName? c = some name) : IsProjectName name := by
  simp only [Declaration.projectName?, Declaration.present?] at h
  by_cases hf : c.first = []
  · by_cases hs : c.second = []
    · simp [hf, hs] at h
    · simp only [hf, hs, ↓reduceIte, Option.none_or, Option.some.injEq] at h
      exact ⟨c.second, [], hs, all_isDottedChar_of_isNameChar hsecond, rfl, by simp [← h]⟩
  · by_cases hs : c.second = []
    · simp only [hf, hs, ↓reduceIte, Option.or_none, Option.some.injEq] at h
      exact ⟨c.first, [], hf, hfirst, rfl, by simp [← h]⟩
    · simp only [hf, hs, ↓reduceIte, Option.some.injEq] at h
      refine ⟨c.first, c.second, hf, hfirst, hsecond, ?_⟩
      apply String.toList_inj.mp
      simp [← h, hs]

theorem Legible.of_dependency? {d : Declaration} {dependency : Dependency}
    (hcoordinates : d.coordinates.first.all isDottedChar = true
      ∧ d.coordinates.second.all isNameChar = true
      ∧ (d.coordinates.version = [] ∨ Coordinates.isVersion d.coordinates.version = true))
    (h : d.dependency? = some dependency) : Legible dependency := by
  obtain ⟨hfirst, hsecond, hversion⟩ := hcoordinates
  simp only [Declaration.dependency?] at h
  split at h
  · obtain ⟨name, hname, rfl⟩ := Option.map_eq_some_iff.mp h
    exact ⟨⟨nofun, nofun⟩, fun _ => isProjectName_of_projectName? hfirst hsecond hname, nofun⟩
  · obtain ⟨name, hname, rfl⟩ := Option.map_eq_some_iff.mp h
    obtain ⟨hne, rfl⟩ := present?_eq_some_iff.mp hname
    refine ⟨⟨?_, ?_⟩, nofun, fun _ => ⟨by simpa using hne, by simpa using hsecond⟩⟩
    · rintro group hgroup
      obtain ⟨hne, rfl⟩ := present?_eq_some_iff.mp hgroup
      exact ⟨by simpa using hne, by simpa using hfirst⟩
    · rintro version hv
      obtain ⟨hne, rfl⟩ := present?_eq_some_iff.mp hv
      simpa using hversion.resolve_left hne

theorem Legible.of_ofLine? {line : String} {d : Dependency}
    (h : Dependency.ofLine? line = some d) : Legible d := by
  obtain ⟨declaration, hread, hd⟩ := Option.bind_eq_some_iff.mp h
  obtain ⟨-, body, hbody⟩ := Declaration.of_read? hread
  exact .of_dependency? (all_of_ofBody? hbody) hd

/-! ### Reading a written declaration -/

namespace Declaration

theorem readVerb?_text (v : Verb) (rest : List Char) :
    readVerb? (v.text.toList ++ rest) = some (v, rest) := by
  cases v <;> rfl

theorem readBody?_close {body tail : List Char} {q : Char} (hbody : ∀ c ∈ body, isQuote c = false)
    (hq : isQuote q = true) (htail : tail = [] ∨ tail = [')']) :
    readBody? (body ++ q :: tail) = some body := by
  have hall : body.all (!isQuote ·) = true := by simpa using hbody
  have h := Coordinates.takeWhile_append_cons hall (d := q) (by simp [hq]) tail
  simp [readBody?, h, htail]

/-- A quote inside a body leaves too much behind it. -/
theorem readBody?_eq_none {body : List Char} {q : Char} (hbody : ∃ c ∈ body, isQuote c = true)
    (hq : isQuote q = true) : readBody? (body ++ [q]) = none := by
  obtain ⟨c, hc, hquote⟩ := hbody
  have hne : body.dropWhile (!isQuote ·) ≠ [] := fun h => by
    simpa [hquote] using List.dropWhile_eq_nil_iff.mp h c hc
  obtain ⟨d, tail, hdrop⟩ := List.exists_cons_of_ne_nil hne
  have hlast : ¬(tail ++ [q] = [')']) := fun heq => by
    have : q = ')' := by simpa using congrArg List.getLast? heq
    exact absurd (this ▸ hq) (by decide)
  simp [readBody?, List.dropWhile_append, hdrop, hlast]

theorem eq_of_readBody? {body read : List Char} {q : Char} (hq : isQuote q = true)
    (h : readBody? (body ++ [q]) = some read) : read = body := by
  by_cases hbody : ∃ c ∈ body, isQuote c = true
  · simp [readBody?_eq_none hbody hq] at h
  · have hbody : ∀ c ∈ body, isQuote c = false := by simpa using hbody
    rw [readBody?_close hbody hq (.inl rfl), Option.some.injEq] at h
    exact h.symm

/-- The path of a project is read between quotes of either kind. -/
theorem read?_quoted (v : Verb) (q : Quote) (body : List Char) :
    read? (v.text.toList ++ (" project(".toList ++ q.char :: (body ++ [q.char, ')'])))
      = (readBody? (body ++ [q.char, ')'])).bind fun body => (Coordinates.ofBody? body).map fun c =>
        { verb := v, project := true, quote := q, coordinates := c } := by
  have hread : read? (v.text.toList ++ (" project(".toList ++ q.char :: (body ++ [q.char, ')'])))
      = (readBody? (body ++ [q.char, ')'])).bind fun body => (Coordinates.ofBody? body).bind fun c =>
        some { verb := v, project := true, quote := q, coordinates := c } := by
    cases v <;> cases q <;> rfl
  simp only [hread, Option.map_eq_bind]
  rfl

theorem read?_project (v : Verb) (body : List Char) :
    read? (v.text.toList ++ (" project(\"".toList ++ (body ++ "\")".toList)))
      = (readBody? (body ++ "\")".toList)).bind fun body => (Coordinates.ofBody? body).map fun c =>
        { verb := v, project := true, quote := .double, coordinates := c } :=
  read?_quoted v .double body

theorem read?_artifact (v : Verb) (q : Quote) (body : List Char) :
    read? (v.text.toList ++ ' ' :: q.char :: (body ++ [q.char]))
      = (readBody? (body ++ [q.char])).bind fun body => (Coordinates.ofBody? body).map fun c =>
        { verb := v, project := false, quote := q, coordinates := c } := by
  have hread : read? (v.text.toList ++ ' ' :: q.char :: (body ++ [q.char]))
      = (readBody? (body ++ [q.char])).bind fun body => (Coordinates.ofBody? body).bind fun c =>
        some { verb := v, project := false, quote := q, coordinates := c } := by
    cases v <;> cases q <;> rfl
  simp only [hread, Option.map_eq_bind]
  rfl

end Declaration

namespace Coordinates

theorem ofBody?_project {first second : List Char}
    (hfirst : first.all isDottedChar = true) (hsecond : second.all isNameChar = true) :
    ofBody? (':' :: if second = [] then first else first ++ ':' :: second)
      = some ⟨first, second, []⟩ := by
  have hskip : ∀ cs, skipOne isColon (':' :: cs) = cs := fun cs => skipOne_cons_pos rfl cs
  have htake : ∀ {p : Char → Bool} {cs : List Char}, cs.all p = true →
      cs.takeWhile p = cs ∧ cs.dropWhile p = [] := fun h =>
    ⟨List.takeWhile_eq_self_iff.mpr (List.all_eq_true.mp h),
      List.dropWhile_eq_nil_iff.mpr (List.all_eq_true.mp h)⟩
  split
  next h =>
    subst h
    simp only [ofBody?, hskip, htake hfirst]
    rfl
  next h =>
    have hcut := takeWhile_append_cons hfirst (d := ':') (by decide) second
    simp only [ofBody?, hskip, hcut, htake hsecond]
    rfl

theorem count_dropWhile {p : Char → Bool} (hp : p ':' = false) (cs : List Char) :
    (cs.dropWhile p).count ':' = cs.count ':' := by
  induction cs with
  | nil => rfl
  | cons c cs ih =>
    rw [List.dropWhile_cons]
    split
    next hc =>
      have hne : c ≠ ':' := fun heq => by simp [heq, hp] at hc
      rw [ih, List.count_cons_of_ne hne]
    next => rfl

theorem count_le_count_skipOne (cs : List Char) :
    cs.count ':' ≤ (skipOne isColon cs).count ':' + 1 := by
  cases cs with
  | nil => simp
  | cons c cs =>
    rw [skipOne]
    split
    · rw [List.count_cons]
      split <;> omega
    · exact Nat.le_succ _

theorem skipOne_append {cs : List Char} (h : cs ≠ []) (tail : List Char) :
    skipOne isColon (cs ++ tail) = skipOne isColon cs ++ tail := by
  cases cs with
  | nil => exact absurd rfl h
  | cons d cs => simp only [List.cons_append, skipOne]; split <;> rfl

/-- Three parts are read as such, also behind a colon, unless the last one is no version. -/
theorem ofBody?_parts {front name : List Char} (hne : front ≠ [])
    (hfront : (skipOne isColon front).all isDottedChar = true) (hname : name.all isNameChar = true)
    (version : List Char) :
    ofBody? (front ++ ':' :: (name ++ ':' :: version))
      = if version.isEmpty || isVersion version then some ⟨skipOne isColon front, name, version⟩
        else none := by
  have h₁ := takeWhile_append_cons hfront (d := ':') (by decide) (name ++ ':' :: version)
  have h₂ := takeWhile_append_cons hname (d := ':') (by decide) version
  have hcolon : ∀ cs, skipOne isColon (':' :: cs) = cs := fun cs => skipOne_cons_pos rfl cs
  simp only [ofBody?, skipOne_append hne, h₁, h₂, hcolon]

/-- All three parts read back, also behind a colon. -/
theorem ofBody?_group {front name version : List Char} (hne : front ≠ [])
    (hfront : (skipOne isColon front).all isDottedChar = true)
    (hname : name.all isNameChar = true) (hversion : version = [] ∨ isVersion version = true) :
    ofBody? (front ++ ':' :: (name ++ ':' :: version))
      = some ⟨skipOne isColon front, name, version⟩ := by
  have hread : (version.isEmpty || isVersion version) = true := by
    rcases hversion with h | h <;> simp [h]
  rw [ofBody?_parts hne hfront hname, if_pos hread]

theorem not_isVersion_of_mem {left : List Char} (h : ':' ∈ left) :
    ¬(left.isEmpty || isVersion left) = true := by
  intro hread
  rcases Bool.or_eq_true_iff.mp hread with hnil | hread
  · simp [List.isEmpty_iff.mp hnil] at h
  · exact (isMark_of_isVersion hread _ h).1 rfl

/-- However odd the part in front of it and the name itself, a name before a version is read as such
or not at all. -/
theorem second_of_ofBody? {front name version : List Char} {c : Coordinates} (hne : front ≠ [])
    (h : ofBody? (front ++ ':' :: (name ++ ':' :: version)) = some c) : c.second = name := by
  -- what stops a word inside `cs` leaves the colons behind it for what follows
  have hleft {p : Char → Bool} {cs : List Char} (hcs : ¬cs.all p = true) (tail : List Char) :
      ∃ rest, skipOne isColon ((cs ++ tail).dropWhile p) = rest ++ tail := by
    obtain ⟨d, rest, hdrop⟩ := List.exists_cons_of_ne_nil
      (mt List.dropWhile_eq_nil_iff.mp (mt List.all_eq_true.mpr hcs))
    refine ⟨skipOne isColon (d :: rest), ?_⟩
    rw [List.dropWhile_append, hdrop, ← skipOne_append (List.cons_ne_nil d rest)]
    rfl
  by_cases hfront : (skipOne isColon front).all isDottedChar = true
  · by_cases hname : name.all isNameChar = true
    · rw [ofBody?_parts hne hfront hname] at h
      split at h
      · cases h; rfl
      · cases h
    · exfalso
      have hcut := (takeWhile_append_cons hfront (d := ':') (by decide) (name ++ ':' :: version)).2
      obtain ⟨rest, hrest⟩ := hleft hname (':' :: version)
      simp only [ofBody?, skipOne_append hne, hcut, skipOne_cons_pos (show isColon ':' = true from rfl),
        hrest] at h
      rw [if_neg (not_isVersion_of_mem (by simp))] at h
      cases h
  · -- two colons are left for the last two parts, one too many
    exfalso
    obtain ⟨rest, hrest⟩ := hleft hfront (':' :: (name ++ ':' :: version))
    simp only [ofBody?, skipOne_append hne, hrest] at h
    have hcount := count_le_count_skipOne
      ((rest ++ ':' :: (name ++ ':' :: version)).dropWhile isNameChar)
    rw [count_dropWhile isNameChar_colon] at hcount
    simp only [List.count_append, List.count_cons_self] at hcount
    rw [if_neg (not_isVersion_of_mem (List.count_pos_iff.mp (by omega)))] at h
    cases h

end Coordinates

namespace Dependency

theorem Verb.exists_head (v : Verb) : ∃ c, v.text.toList.head? = some c ∧ isBlank c = false := by
  cases v <;> exact ⟨_, rfl, rfl⟩

theorem toList_declare_project {d : Dependency} (h : d.source = true) (group name : String) :
    (d.declare group name).toList
      = d.verb.text.toList ++ (" project(\"".toList ++ ((':' :: name.toList) ++ "\")".toList)) := by
  simp [declare, h]

theorem toList_declare_artifact {d : Dependency} (h : d.source = false) (group name : String) :
    (d.declare group name).toList
      = d.verb.text.toList ++ ' ' :: d.quote.char
        :: (group.toList ++ ':' :: (name.toList
          ++ ':' :: (d.version.getD unknownVersion).toList) ++ [d.quote.char]) := by
  simp [declare, h, Quote.text]

theorem tight_declare (d : Dependency) (group name : String) :
    Tight (d.declare group name).toList := by
  obtain ⟨c, hc, hblank⟩ := Verb.exists_head d.verb
  by_cases h : d.source = true
  · have : (d.declare group name).toList
        = d.verb.text.toList ++ (" project(\":".toList ++ name.toList ++ ['"']) ++ [')'] := by
      simp [declare, h]
    exact this ▸ tight_append hc hblank (by decide)
  · rw [toList_declare_artifact (by simpa using h)]
    have hquote : isBlank d.quote.char = false := by cases d.quote <;> decide
    simpa using tight_append (t := ' ' :: d.quote.char :: (group.toList ++ ':' :: (name.toList
      ++ ':' :: (d.version.getD unknownVersion).toList))) hc hblank hquote

theorem ofLine?_restate (line : String) (d : Dependency) (group name : String) :
    ofLine? (restate line (d.declare group name))
      = (Declaration.read? (d.declare group name).toList).bind Declaration.dependency? := by
  rw [ofLine?, trim_restate line (tight_declare d group name)]

/-- It makes no difference which line a declaration is restated on. -/
theorem ofLine?_restate_declare (line : String) (d : Dependency) (group name : String) :
    ofLine? (restate line (d.declare group name)) = ofLine? (d.declare group name) := by
  rw [ofLine?_restate, ofLine?, trim_of_tight (tight_declare d group name)]

theorem ofLine?_restate_project {d : Dependency} {name : String} (line group : String)
    (hsource : d.source = true) (hname : IsProjectName name) :
    ofLine? (restate line (d.declare group name))
      = some { name, verb := d.verb, quote := .double, source := true } := by
  have hbody : ∀ c ∈ ':' :: name.toList, isQuote c = false := by
    intro c hc
    rcases List.mem_cons.mp hc with rfl | hc
    · decide
    · exact isQuote_of_isMark (hname.isMark c hc)
  obtain ⟨first, second, hne, hfirst, hsecond, hname⟩ := hname
  have htext : name.toList = if second = [] then first else first ++ ':' :: second := by
    rw [hname, String.toList_ofList]
  have hclose : Declaration.readBody? ((':' :: name.toList) ++ "\")".toList)
      = some (':' :: name.toList) := Declaration.readBody?_close hbody rfl (.inr rfl)
  rw [ofLine?_restate, toList_declare_project hsource, Declaration.read?_project, hclose,
    Option.bind_some, htext, Coordinates.ofBody?_project hfirst hsecond]
  by_cases hs : second = []
  · simp [Declaration.dependency?, Declaration.projectName?, Declaration.present?, hne, hs, hname]
  · simp [Declaration.dependency?, Declaration.projectName?, Declaration.present?, hne, hs, hname,
      String.append_assoc]

theorem isVersion_getD_unknownVersion {d : Dependency} (h : Spelled d) :
    Coordinates.isVersion (d.version.getD unknownVersion).toList = true := by
  cases hv : d.version with
  | none => exact isVersion_unknown
  | some v => exact h.version v hv

theorem isQuote_char (q : Quote) : isQuote q.char = true := by cases q <;> rfl

theorem ofLine?_restate_artifact {d : Dependency} {group name : String} (line : String)
    (hd : Spelled d) (hsource : d.source = false) (hgroup : IsGroup group) (hname : IsSegment name) :
    ofLine? (restate line (d.declare group name))
      = some { name, group := Declaration.present? (skipOne Coordinates.isColon group.toList),
               verb := d.verb, quote := d.quote, source := false,
               version := some (d.version.getD unknownVersion) } := by
  have hversion := isVersion_getD_unknownVersion hd
  have hbody : ∀ c ∈ group.toList ++ ':' :: (name.toList
      ++ ':' :: (d.version.getD unknownVersion).toList), isQuote c = false := by
    have h₁ := hgroup.isMark
    have h₂ := hname.isMark
    have h₃ := isMark_of_isVersion hversion
    intro c hc
    simp only [List.mem_cons, List.mem_append] at hc
    grind [isQuote_of_isMark, isQuote]
  have hread := Coordinates.ofBody?_group (by simpa using hgroup.1) hgroup.2 hname.2 (.inr hversion)
  have hne : (d.version.getD unknownVersion).toList ≠ [] := fun h => by
    simp [h, Coordinates.isVersion, skipOne] at hversion
  rw [ofLine?_restate, toList_declare_artifact hsource, Declaration.read?_artifact,
    Declaration.readBody?_close hbody (isQuote_char _) (.inl rfl), Option.bind_some, hread]
  simp [Declaration.dependency?, Declaration.present?, hname.1, hne]

/-- A restated line declares what it was restated with in the same form, or nothing, whatever the
coordinates. -/
theorem source_of_ofLine?_restate {d found : Dependency} {group name line : String}
    (h : ofLine? (restate line (d.declare group name)) = some found) : found.source = d.source := by
  rw [ofLine?_restate] at h
  obtain ⟨declaration, hread, hfound⟩ := Option.bind_eq_some_iff.mp h
  cases hsource : d.source with
  | true =>
    rw [toList_declare_project hsource, Declaration.read?_project] at hread
    obtain ⟨_, -, hread⟩ := Option.bind_eq_some_iff.mp hread
    obtain ⟨_, -, rfl⟩ := Option.map_eq_some_iff.mp hread
    obtain ⟨_, -, rfl⟩ := Option.map_eq_some_iff.mp hfound
    rfl
  | false =>
    rw [toList_declare_artifact hsource, Declaration.read?_artifact] at hread
    obtain ⟨_, -, hread⟩ := Option.bind_eq_some_iff.mp hread
    obtain ⟨_, -, rfl⟩ := Option.map_eq_some_iff.mp hread
    obtain ⟨_, -, rfl⟩ := Option.map_eq_some_iff.mp hfound
    rfl

theorem of_ofLine?_restate_artifact {d found : Dependency} {group name line : String}
    (hsource : d.source = false) (hgroup : group ≠ "")
    (h : ofLine? (restate line (d.declare group name)) = some found) : found.name = name := by
  rw [ofLine?_restate, toList_declare_artifact hsource, Declaration.read?_artifact] at h
  obtain ⟨declaration, hread, hfound⟩ := Option.bind_eq_some_iff.mp h
  obtain ⟨body, hbody, hread⟩ := Option.bind_eq_some_iff.mp hread
  obtain ⟨c, hc, rfl⟩ := Option.map_eq_some_iff.mp hread
  have hbody := Declaration.eq_of_readBody? (isQuote_char _) hbody
  have hsecond := Coordinates.second_of_ofBody? (by simpa using hgroup) (hbody ▸ hc)
  obtain ⟨_, hpresent, rfl⟩ := Option.map_eq_some_iff.mp hfound
  rw [(present?_eq_some_iff.mp hpresent).2, hsecond, String.ofList_toList]

end Dependency

end Inclusion
