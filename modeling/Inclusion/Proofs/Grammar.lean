import Inclusion.Proofs.Declaration

/-!
# The grammar of declarations

A declaration has one reading from the left: each part of it is as long as it can be, and what was
taken is never given back.

* `splits_iff`: the coordinates in a body.
* `Declaration.read?_eq_some_iff`: what is read has a layout, and a layout is read by the
  coordinates in its body.
* `Layout.isSome_dependency?`, `Layout.carries_of_dependency?`: whether a layout declares a
  dependency, and which one.
-/
namespace Inclusion

open Text

/-! ### Bodies -/

/-- Whether `rest` is what a colon in front is taken away from, if there is one. -/
def SkipsColon (cs rest : List Char) : Prop :=
  cs = ':' :: rest ∨ cs = rest ∧ cs.head? ≠ some ':'

/-- Whether a text starts with a word of such characters that cannot be longer. -/
structure IsLongest (p : Char → Bool) (cs word rest : List Char) : Prop where
  eq : cs = word ++ rest
  all : word.all p = true
  stops : rest.head?.any p = false

/-- The coordinates in a body read from the left: a colon, a dotted word, a colon, a name, a colon
and a version, each as long as it can be. Any of these may be missing. -/
def Splits (body : List Char) (c : Coordinates) : Prop :=
  ∃ cs cs₁ cs₂ cs₃, SkipsColon body cs ∧ IsLongest isDottedChar cs c.first cs₁
    ∧ SkipsColon cs₁ cs₂ ∧ IsLongest isNameChar cs₂ c.second cs₃ ∧ SkipsColon cs₃ c.version
    ∧ (c.version = [] ∨ Coordinates.isVersion c.version = true)

theorem skipsColon_iff {cs rest : List Char} :
    SkipsColon cs rest ↔ skipOne Coordinates.isColon cs = rest := by
  cases cs with
  | nil => simp [SkipsColon, skipOne]
  | cons c cs =>
    by_cases hc : c = ':'
    · simp [SkipsColon, skipOne, Coordinates.isColon, hc]
    · simp [SkipsColon, skipOne, Coordinates.isColon, hc]

theorem isLongest_iff {p : Char → Bool} {cs word rest : List Char} :
    IsLongest p cs word rest ↔ cs.takeWhile p = word ∧ cs.dropWhile p = rest := by
  constructor
  · rintro ⟨rfl, hall, hstops⟩
    cases rest with
    | nil =>
      have hword := List.all_eq_true.mp hall
      exact ⟨by simpa using hword, by simpa using hword⟩
    | cons c rest => exact Coordinates.takeWhile_append_cons hall (by simpa using hstops) rest
  · rintro ⟨rfl, rfl⟩
    refine ⟨List.takeWhile_append_dropWhile.symm, List.all_takeWhile, ?_⟩
    have hhead := List.head?_dropWhile_not p cs
    cases hrest : (cs.dropWhile p).head? with
    | none => rfl
    | some c =>
      rw [hrest] at hhead
      exact hhead

theorem splits_iff {body : List Char} {c : Coordinates} :
    Splits body c ↔ Coordinates.ofBody? body = some c := by
  simp only [Splits, skipsColon_iff, isLongest_iff, Coordinates.ofBody?]
  constructor
  · rintro ⟨_, _, _, _, rfl, ⟨hfirst, rfl⟩, rfl, ⟨hsecond, rfl⟩, hrest, hversion⟩
    rw [if_pos (by simpa [hrest] using hversion), hfirst, hsecond, hrest]
  · intro h
    split at h
    next hversion =>
      cases h
      exact ⟨_, _, _, _, rfl, ⟨rfl, rfl⟩, rfl, ⟨rfl, rfl⟩, rfl, by simpa using hversion⟩
    next => cases h

/-- A group, a name and a version with colons between them are read as such. -/
theorem splits_toBody {c : Coordinates} (hne : c.first ≠ [])
    (hfirst : c.first.all isDottedChar = true) (hsecond : c.second.all isNameChar = true)
    (hversion : Coordinates.isVersion c.version = true) : Splits c.toBody c :=
  splits_iff.mpr (Coordinates.ofBody?_toBody hne hfirst hsecond (.inr hversion))

/-! ### Layouts -/

/-- A declaration with all that can be told of how it is written. -/
structure Layout where
  verb : Verb
  /-- Whether there is a blank behind the verb. -/
  gap : Bool
  project : Bool
  /-- Whether there is a blank behind `project`, or behind the place for it. -/
  spaced : Bool
  bracket : Bool
  opening : Quote
  body : List Char
  closing : Quote
  closed : Bool

/-- A part that may be missing. -/
def part (there : Bool) (text : String) : List Char := if there then text.toList else []

namespace Layout

/-- What stands behind the verb. -/
def rest (l : Layout) : List Char :=
  part l.gap " " ++ (part l.project "project" ++ (part l.spaced " " ++ (part l.bracket "("
    ++ l.opening.char :: (l.body ++ l.closing.char :: part l.closed ")"))))

def chars (l : Layout) : List Char := l.verb.text.toList ++ l.rest

/-- Whether the verb is a word of its own and the body holds no quote. -/
structure WellFormed (isWord : Char → Bool) (l : Layout) : Prop where
  verb : l.rest.head?.any isWord = false
  body : ∀ c ∈ l.body, isQuote c = false

/-- What is read of a layout, given the coordinates in its body. -/
def declaration (l : Layout) (c : Coordinates) : Declaration :=
  { verb := l.verb, project := l.project, quote := l.opening, coordinates := c }

/-- Whether a dependency says what a layout does. The name of a project is that of the words which
are there, with a colon between them. -/
structure Carries (l : Layout) (c : Coordinates) (d : Dependency) : Prop where
  verb : d.verb = l.verb
  quote : d.quote = l.opening
  source : d.source = l.project
  artifact : l.project = false → d.name = String.ofList c.second
    ∧ d.group = Declaration.present? c.first ∧ d.version = Declaration.present? c.version
  project : l.project = true → d.group = none ∧ d.version = none
    ∧ d.name.toList = [':'].intercalate ([c.first, c.second].filter (· ≠ []))

variable {l : Layout} {c : Coordinates}

theorem head?_rest (l : Layout) :
    l.rest.head? = some (if l.gap then ' ' else if l.project then 'p' else if l.spaced then ' '
      else if l.bracket then '(' else l.opening.char) := by
  obtain ⟨verb, gap, project, spaced, bracket, opening, body, closing, closed⟩ := l
  cases gap <;> cases project <;> cases spaced <;> cases bracket <;> rfl

section

variable {isWord : Char → Bool} (hword : ∀ c : Char, c.toNat < 128 → isWord c = isWordChar c)
include hword

theorem any_getLast?_verb (v : Verb) : v.text.toList.getLast?.any isWord = true := by
  cases v <;> exact (hword _ (by decide)).trans (by decide)

/-- Of all that can stand behind a verb, only `project` starts with a word character. Which
characters beyond ASCII are in words makes no difference. -/
theorem any_head?_rest (l : Layout) : l.rest.head?.any isWord = (l.project && !l.gap) := by
  have hquote : l.opening.char.toNat < 128 ∧ isWordChar l.opening.char = false := by
    cases l.opening <;> decide
  have hblank : isWord ' ' = false := hword ' ' (by decide)
  have hproject : isWord 'p' = true := hword 'p' (by decide)
  have hbracket : isWord '(' = false := hword '(' (by decide)
  have hopening : isWord l.opening.char = false := (hword _ hquote.1).trans hquote.2
  rw [head?_rest, Option.any_some]
  cases l.gap <;> cases l.project <;> cases l.spaced <;> cases l.bracket <;>
    simp [hblank, hproject, hbracket, hopening]

theorem wellFormed_iff :
    l.WellFormed isWord ↔ (l.project = true → l.gap = true) ∧ ∀ c ∈ l.body, isQuote c = false := by
  have hverb : l.rest.head?.any isWord = false ↔ (l.project = true → l.gap = true) := by
    rw [any_head?_rest hword]
    cases l.project <;> cases l.gap <;> decide
  exact ⟨fun h => ⟨hverb.mp h.verb, h.body⟩, fun h => ⟨hverb.mpr h.1, h.2⟩⟩

theorem wellFormed_congr : l.WellFormed isWord ↔ l.WellFormed isWordChar :=
  (wellFormed_iff hword).trans (wellFormed_iff fun _ _ => rfl).symm

end

theorem isSome_dependency? (l : Layout) (c : Coordinates) :
    (l.declaration c).dependency?.isSome = true
      ↔ c.second ≠ [] ∨ l.project = true ∧ c.first ≠ [] := by
  obtain ⟨first, second, version⟩ := c
  cases hproject : l.project <;> by_cases hfirst : first = [] <;> by_cases hsecond : second = [] <;>
    simp [declaration, Declaration.dependency?, Declaration.projectName?, Declaration.present?,
      hproject, hfirst, hsecond]

theorem carries_of_dependency? {d : Dependency} (h : (l.declaration c).dependency? = some d) :
    l.Carries c d := by
  unfold Declaration.dependency? at h
  split at h
  next hproject =>
    obtain ⟨name, hname, rfl⟩ := Option.map_eq_some_iff.mp h
    replace hproject : l.project = true := hproject
    refine ⟨rfl, rfl, hproject.symm, fun h => absurd (hproject.symm.trans h) (by decide),
      fun _ => ⟨rfl, rfl, ?_⟩⟩
    obtain ⟨first, second, version⟩ := c
    by_cases hfirst : first = [] <;> by_cases hsecond : second = [] <;>
      simp [declaration, Declaration.projectName?, Declaration.present?, hfirst, hsecond] at hname <;>
      simp [hfirst, hsecond, ← hname, List.intercalate]
  next hproject =>
    obtain ⟨name, hname, rfl⟩ := Option.map_eq_some_iff.mp h
    replace hproject : l.project = false := Bool.not_eq_true _ ▸ hproject
    obtain ⟨-, rfl⟩ := present?_eq_some_iff.mp hname
    exact ⟨rfl, rfl, hproject.symm, fun _ => ⟨rfl, rfl, rfl⟩,
      fun h => absurd (hproject.symm.trans h) (by decide)⟩

end Layout

namespace Declaration

/-- A layout is read as the coordinates in its body are. -/
theorem read?_chars {l : Layout} (h : l.WellFormed isWordChar) :
    read? l.chars = (Coordinates.ofBody? l.body).map l.declaration := by
  have hgap := ((Layout.wellFormed_iff fun _ _ => rfl).mp h).1
  have hend : atWordEnd l.rest = true := by rw [atWordEnd, h.verb]; rfl
  have hclose : readBody? (l.body ++ l.closing.char :: part l.closed ")") = some l.body := by
    refine readBody?_close h.body (Dependency.isQuote_char _) ?_
    cases l.closed
    · exact .inl rfl
    · exact .inr rfl
  have hrest : ∃ rest, readProject (skipOne (· == ' ') l.rest) = (l.project, rest)
      ∧ readQuote? (skipOne (· == '(') (skipOne (· == ' ') rest))
        = some (l.opening, l.body ++ l.closing.char :: part l.closed ")") := by
    obtain ⟨verb, gap, project, spaced, bracket, opening, body, closing, closed⟩ := l
    cases project with
    | false =>
      cases gap <;> cases spaced <;> cases bracket <;> cases opening <;> exact ⟨_, rfl, rfl⟩
    | true =>
      obtain rfl : gap = true := hgap rfl
      cases spaced <;> cases bracket <;> cases opening <;> exact ⟨_, rfl, rfl⟩
  obtain ⟨rest, hproject, hquote⟩ := hrest
  have hguard : (guard (atWordEnd l.rest = true) : Option Unit) = some () := if_pos hend
  rw [read?, Layout.chars, readVerb?_text]
  dsimp only [Option.bind_eq_bind, Option.bind_some]
  rw [hguard, hproject]
  dsimp only [Option.bind_some]
  rw [hquote]
  dsimp only [Option.bind_some]
  rw [hclose, Option.bind_some, Option.map_eq_bind]
  rfl

theorem exists_part_skipOne (c : Char) (cs : List Char) :
    ∃ there, cs = part there (String.singleton c) ++ skipOne (· == c) cs := by
  cases cs with
  | nil => exact ⟨false, rfl⟩
  | cons d cs =>
    by_cases hd : d = c
    · exact ⟨true, by simp [part, skipOne, hd]⟩
    · exact ⟨false, by simp [part, skipOne, hd]⟩

theorem of_readVerb? {cs rest : List Char} {v : Verb} (h : readVerb? cs = some (v, rest)) :
    cs = v.text.toList ++ rest := by
  obtain ⟨w, -, hw⟩ := List.exists_of_findSome?_eq_some h
  obtain ⟨_, hafter, heq⟩ := Option.map_eq_some_iff.mp hw
  cases heq
  exact after?_eq_some_iff.mp hafter

theorem of_readProject {cs rest : List Char} {project : Bool}
    (h : readProject cs = (project, rest)) : cs = part project "project" ++ rest := by
  unfold readProject at h
  split at h
  next hafter => cases h; exact after?_eq_some_iff.mp hafter
  next => cases h; rfl

theorem of_ofChar? {c : Char} {q : Quote} (h : Quote.ofChar? c = some q) : c = q.char := by
  unfold Quote.ofChar? at h
  split at h
  next hc => cases h; exact hc
  next =>
    split at h
    next hc => cases h; exact hc
    next => cases h

theorem of_readQuote? {cs rest : List Char} {q : Quote} (h : readQuote? cs = some (q, rest)) :
    cs = q.char :: rest := by
  cases cs with
  | nil => cases h
  | cons c cs =>
    obtain ⟨_, hc, heq⟩ := Option.map_eq_some_iff.mp h
    cases heq
    rw [of_ofChar? hc]

theorem exists_char_of_isQuote {c : Char} (h : isQuote c = true) : ∃ q : Quote, q.char = c := by
  rcases Bool.or_eq_true_iff.mp h with h | h
  · exact ⟨.single, (beq_iff_eq.mp h).symm⟩
  · exact ⟨.double, (beq_iff_eq.mp h).symm⟩

theorem of_readBody? {cs body : List Char} (h : readBody? cs = some body) :
    ∃ (closing : Quote) (closed : Bool), cs = body ++ closing.char :: part closed ")"
      ∧ ∀ c ∈ body, isQuote c = false := by
  unfold readBody? at h
  split at h
  next => cases h
  next c tail hdrop =>
    split at h
    next htail =>
      cases h
      have hhead := List.head?_dropWhile_not (!isQuote ·) cs
      rw [hdrop] at hhead
      obtain ⟨closing, hclosing⟩ := exists_char_of_isQuote (by simpa using hhead)
      have hcs := (List.takeWhile_append_dropWhile (p := (!isQuote ·)) (l := cs)).symm
      rw [hdrop, ← hclosing] at hcs
      have hbody : ∀ c ∈ cs.takeWhile (!isQuote ·), isQuote c = false := fun c hc => by
        simpa using List.all_eq_true.mp List.all_takeWhile c hc
      rcases htail with rfl | rfl
      · exact ⟨closing, false, hcs, hbody⟩
      · exact ⟨closing, true, hcs, hbody⟩
    next => cases h

/-- What is read has a layout. -/
theorem exists_layout_of_read? {cs : List Char} {d : Declaration} (h : read? cs = some d) :
    ∃ l : Layout, l.chars = cs ∧ l.WellFormed isWordChar := by
  unfold read? at h
  obtain ⟨⟨verb, rest⟩, hverb, h⟩ := Option.bind_eq_some_iff.mp h
  obtain ⟨_, hend, h⟩ := Option.bind_eq_some_iff.mp h
  obtain ⟨gap, hgap⟩ := exists_part_skipOne ' ' rest
  generalize hproject : readProject (skipOne (· == ' ') rest) = r at h
  obtain ⟨project, rest'⟩ := r
  obtain ⟨spaced, hspaced⟩ := exists_part_skipOne ' ' rest'
  obtain ⟨bracket, hbracket⟩ := exists_part_skipOne '(' (skipOne (· == ' ') rest')
  obtain ⟨⟨opening, inner⟩, hopening, h⟩ := Option.bind_eq_some_iff.mp h
  obtain ⟨body, hbody, -⟩ := Option.bind_eq_some_iff.mp h
  obtain ⟨closing, closed, hinner, hquotes⟩ := of_readBody? hbody
  let l : Layout := { verb, gap, project, spaced, bracket, opening, body, closing, closed }
  have hrest : l.rest = rest := by
    rw [hgap, of_readProject hproject, hspaced, hbracket, of_readQuote? hopening, hinner]
    rfl
  refine ⟨l, by rw [Layout.chars, hrest, of_readVerb? hverb], ?_, hquotes⟩
  rw [hrest]
  unfold atWordEnd at hend
  cases hhead : rest.head?.any isWordChar with
  | false => rfl
  | true => rw [hhead] at hend; cases hend

/-- What is read of a text. -/
theorem read?_eq_some_iff {cs : List Char} {d : Declaration} :
    read? cs = some d
      ↔ ∃ (l : Layout) (c : Coordinates), l.chars = cs ∧ l.WellFormed isWordChar
        ∧ Splits l.body c ∧ l.declaration c = d := by
  constructor
  · intro h
    obtain ⟨l, rfl, hl⟩ := exists_layout_of_read? h
    rw [read?_chars hl] at h
    obtain ⟨c, hbody, rfl⟩ := Option.map_eq_some_iff.mp h
    exact ⟨l, c, rfl, hl, splits_iff.mpr hbody, rfl⟩
  · rintro ⟨l, c, rfl, hl, hbody, rfl⟩
    rw [read?_chars hl, splits_iff.mp hbody, Option.map_some]

end Declaration

end Inclusion
