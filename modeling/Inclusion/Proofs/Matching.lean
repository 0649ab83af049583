import Inclusion.Proofs.Grammar
import Inclusion.Proofs.Pattern

/-!
# Declarations as the matches of a pattern

A declaration is described by a pattern of many optional parts, whose characters overlap: a text can
match it in several ways. The reading from the left, in which nothing is taken back, is the
preferred one of these ways, and where it fails there is no other.

* `Coordinates.isSome_ofBody?_of_spells`: a body that matches in some way can be read from the left.
* `Declaration.exists_match?_pattern`: the preferred match of a layout is its reading from the left.
* `exists_layout_of_mem_ways`: whatever matches has a layout.
* `ofLine?_grammar`: the lines that declare a dependency, and which one.
-/
namespace Inclusion

open Text Text.Pattern

/-! ### The pattern -/

/-- What the match of a declaration keeps. -/
inductive Slot
  | verb
  | project
  | quote
  | group
  | name
  | version
deriving DecidableEq

/-- A character that may be missing. -/
def maybe (c : Char) : Pattern Slot := optional (one (· == c))

def versionPattern : Pattern Slot :=
  chain [maybe '$', one isDottedChar, run isDottedChar]

def coordinatesPattern : Pattern Slot :=
  chain [maybe ':', keep .group (run isDottedChar), maybe ':', keep .name (run isNameChar),
    maybe ':', optional (keep .version versionPattern)]

def verbPattern : Pattern Slot :=
  keep .verb (either (word "compile") (either (word "api") (word "implementation")))

/-- What stands behind the verb. -/
def restPattern : Pattern Slot :=
  chain [maybe ' ', optional (keep .project (word "project")), maybe ' ', maybe '(',
    keep .quote (one isQuote), coordinatesPattern, one isQuote, maybe ')']

def declarationPattern : Pattern Slot := chain [verbPattern, edge, restPattern, finish]

/-- The declaration that the kept texts make. -/
def Declaration.ofKept (kept : Slot → Option (List Char)) : Option Declaration := do
  let verb ← Verb.ofText? (String.ofList (← kept .verb))
  let quote ← Quote.ofChar? (← (← kept .quote).head?)
  return { verb, project := (kept .project).isSome, quote
           coordinates := ⟨(kept .group).getD [], (kept .name).getD [], (kept .version).getD []⟩ }

/-! ### Bodies -/

namespace Coordinates

/-- Whether nothing or a version is left. -/
def endsWell (cs : List Char) : Bool := cs.isEmpty || isVersion cs

/-- Whether a name and what follows can be read from the left. -/
def readsName (cs : List Char) : Bool := endsWell (skipOne isColon (cs.dropWhile isNameChar))

/-- Whether a group and what follows can be read from the left. -/
def readsGroup (cs : List Char) : Bool := readsName (skipOne isColon (cs.dropWhile isDottedChar))

theorem isSome_ofBody? (body : List Char) :
    (ofBody? body).isSome = readsGroup (skipOne isColon body) := by
  simp only [ofBody?, readsGroup, readsName, endsWell]
  split <;> simp [*]

section

variable {group name version cs : List Char}

theorem readsName_append (hname : name.all isNameChar = true) :
    readsName (name ++ cs) = readsName cs := by
  rw [readsName, List.dropWhile_append_of_pos (List.all_eq_true.mp hname), readsName]

theorem readsGroup_append (hgroup : group.all isDottedChar = true) :
    readsGroup (group ++ cs) = readsGroup cs := by
  rw [readsGroup, List.dropWhile_append_of_pos (List.all_eq_true.mp hgroup), readsGroup]

/-- What can end a body is a dotted word or starts with a dollar sign. -/
theorem of_endsWell (h : endsWell version = true) :
    version.all isDottedChar = true ∨ ∃ word, version = '$' :: word := by
  cases version with
  | nil => exact .inl rfl
  | cons c cs =>
    by_cases hc : c = '$'
    · exact .inr ⟨cs, hc ▸ rfl⟩
    · refine .inl ?_
      simpa [endsWell, isVersion, skipOne, hc] using h

theorem skipOne_of_endsWell (h : endsWell version = true) : skipOne isColon version = version := by
  rcases of_endsWell h with hall | ⟨word, rfl⟩
  · exact skipOne_of_isDottedChar hall
  · rfl

theorem endsWell_of_all (h : version.all isDottedChar = true) : endsWell version = true := by
  cases version with
  | nil => rfl
  | cons c cs =>
    have hc : ¬c = '$' := by
      rintro rfl
      exact absurd (List.all_eq_true.mp h '$' (List.mem_cons_self ..)) (by decide)
    simpa [endsWell, isVersion, skipOne, hc] using h

/-- A name takes away from a version only what leaves a version. -/
theorem readsName_of_endsWell (h : endsWell version = true) : readsName version = true := by
  rcases of_endsWell h with hall | ⟨word, rfl⟩
  · have hrest : (version.dropWhile isNameChar).all isDottedChar = true :=
      List.all_eq_true.mpr fun c hc =>
        List.all_eq_true.mp hall c ((List.dropWhile_sublist isNameChar).mem hc)
    rw [readsName, skipOne_of_isDottedChar hrest]
    exact endsWell_of_all hrest
  · exact h

/-- A group takes away from a version all of it or nothing. -/
theorem readsGroup_of_endsWell (h : endsWell version = true) : readsGroup version = true := by
  rcases of_endsWell h with hall | ⟨word, rfl⟩
  · rw [← List.append_nil version, readsGroup_append hall]
    rfl
  · exact readsName_of_endsWell h

theorem readsGroup_name (hname : name.all isNameChar = true) {colon : List Char}
    (hcolon : colon = [':'] ∨ colon = []) (h : endsWell version = true) :
    readsGroup (name ++ (colon ++ version)) = true
      ∧ readsName (name ++ (colon ++ version)) = true := by
  rw [readsGroup_append (all_isDottedChar_of_isNameChar hname), readsName_append hname]
  rcases hcolon with rfl | rfl
  · exact ⟨readsName_of_endsWell h, h⟩
  · exact ⟨readsGroup_of_endsWell h, readsName_of_endsWell h⟩

/-- Without a colon in front, one further inside may stand first. -/
theorem readsGroup_skipOne_name (hname : name.all isNameChar = true) {colon : List Char}
    (hcolon : colon = [':'] ∨ colon = []) (h : endsWell version = true) :
    readsGroup (skipOne isColon (name ++ (colon ++ version))) = true := by
  by_cases hne : name = []
  · subst hne
    rcases hcolon with rfl | rfl
    · exact readsGroup_of_endsWell h
    · rw [List.nil_append, List.nil_append, skipOne_of_endsWell h]
      exact readsGroup_of_endsWell h
  · rw [skipOne_append hne, skipOne_of_isDottedChar (all_isDottedChar_of_isNameChar hname)]
    exact (readsGroup_name hname hcolon h).1

theorem readsGroup_group (hgroup : group.all isDottedChar = true)
    (hname : name.all isNameChar = true) {colon₁ colon₂ : List Char}
    (hcolon₁ : colon₁ = [':'] ∨ colon₁ = []) (hcolon₂ : colon₂ = [':'] ∨ colon₂ = [])
    (h : endsWell version = true) :
    readsGroup (group ++ (colon₁ ++ (name ++ (colon₂ ++ version)))) = true := by
  obtain ⟨hread, hread'⟩ := readsGroup_name hname hcolon₂ h
  rw [readsGroup_append hgroup]
  rcases hcolon₁ with rfl | rfl
  · exact hread'
  · exact hread

theorem readsGroup_skipOne_group (hgroup : group.all isDottedChar = true)
    (hname : name.all isNameChar = true) {colon₁ colon₂ : List Char}
    (hcolon₁ : colon₁ = [':'] ∨ colon₁ = []) (hcolon₂ : colon₂ = [':'] ∨ colon₂ = [])
    (h : endsWell version = true) :
    readsGroup (skipOne isColon (group ++ (colon₁ ++ (name ++ (colon₂ ++ version))))) = true := by
  by_cases hne : group = []
  · subst hne
    rcases hcolon₁ with rfl | rfl
    · exact (readsGroup_name hname hcolon₂ h).1
    · exact readsGroup_skipOne_name hname hcolon₂ h
  · rw [skipOne_append hne, skipOne_of_isDottedChar hgroup]
    exact readsGroup_group hgroup hname hcolon₁ hcolon₂ h

end

theorem spells_maybe {c : Char} {cs : List Char} : (maybe c).Spells cs ↔ cs = [c] ∨ cs = [] := by
  simp [maybe, Spells]

theorem isVersion_of_spells {cs : List Char} (h : versionPattern.Spells cs) :
    isVersion cs = true := by
  obtain ⟨dollar, _, rfl, hdollar, _, _, rfl, ⟨c, rfl, hc⟩, word, _, rfl, hword, rfl⟩ := h
  have hall : (c :: word).all isDottedChar = true := by
    rw [List.all_cons, hc, Bool.true_and]
    exact hword
  have hc' : ¬c = '$' := by
    rintro rfl
    exact absurd hc (by decide)
  rcases spells_maybe.mp hdollar with rfl | rfl
  · simpa [isVersion, skipOne] using hall
  · simpa [isVersion, skipOne, hc'] using hall

/-- The parts that a body is made of, in some way. -/
theorem of_spells {body : List Char} (h : coordinatesPattern.Spells body) :
    ∃ colon group colon₁ name colon₂ version,
      body = colon ++ (group ++ (colon₁ ++ (name ++ (colon₂ ++ version))))
        ∧ (colon = [':'] ∨ colon = []) ∧ group.all isDottedChar = true
        ∧ (colon₁ = [':'] ∨ colon₁ = []) ∧ name.all isNameChar = true
        ∧ (colon₂ = [':'] ∨ colon₂ = []) ∧ endsWell version = true := by
  obtain ⟨colon, _, rfl, hcolon, group, _, rfl, hgroup, colon₁, _, rfl, hcolon₁, name, _, rfl, hname,
    colon₂, _, rfl, hcolon₂, version, _, rfl, hversion, rfl⟩ := h
  refine ⟨colon, group, colon₁, name, colon₂, version, by simp, spells_maybe.mp hcolon, hgroup,
    spells_maybe.mp hcolon₁, hname, spells_maybe.mp hcolon₂, ?_⟩
  rcases hversion with hversion | rfl
  · simp [endsWell, isVersion_of_spells hversion]
  · rfl

/-- However a body matches, it can be read from the left: whatever is taken too early is a part that
may be missing later on. -/
theorem isSome_ofBody?_of_spells {body : List Char} (h : coordinatesPattern.Spells body) :
    (ofBody? body).isSome = true := by
  obtain ⟨colon, group, colon₁, name, colon₂, version, rfl, hcolon, hgroup, hcolon₁, hname, hcolon₂,
    hversion⟩ := of_spells h
  rw [isSome_ofBody?]
  rcases hcolon with rfl | rfl
  · exact readsGroup_group hgroup hname hcolon₁ hcolon₂ hversion
  · exact readsGroup_skipOne_group hgroup hname hcolon₁ hcolon₂ hversion

theorem isQuote_of_spells {body : List Char} (h : coordinatesPattern.Spells body) :
    ∀ c ∈ body, isQuote c = false := by
  obtain ⟨colon, group, colon₁, name, colon₂, version, rfl, hcolon, hgroup, hcolon₁, hname, hcolon₂,
    hversion⟩ := of_spells h
  have hmark : ∀ {colon : List Char}, colon = [':'] ∨ colon = [] →
      ∀ c ∈ colon, isQuote c = false := by
    rintro _ (rfl | rfl) c hc
    · exact List.mem_singleton.mp hc ▸ rfl
    · cases hc
  have hversion : ∀ c ∈ version, isQuote c = false := by
    intro c hc
    rcases Bool.or_eq_true_iff.mp hversion with hnil | hread
    · simp [List.isEmpty_iff.mp hnil] at hc
    · exact isQuote_of_isMark (isMark_of_isVersion hread c hc).2
  intro c hc
  simp only [List.mem_append] at hc
  rcases hc with hc | hc | hc | hc | hc | hc
  · exact hmark hcolon c hc
  · exact isQuote_of_isMark (isMark_of_all_isDottedChar hgroup c hc)
  · exact hmark hcolon₁ c hc
  · exact isQuote_of_isMark
      (isMark_of_all_isDottedChar (all_isDottedChar_of_isNameChar hname) c hc)
  · exact hmark hcolon₂ c hc
  · exact hversion c hc

end Coordinates

/-! ### The preferred way -/

section

variable (isWord : Char → Bool) {s : Position Slot} {cs tail version : List Char} {q : Char}

theorem isQuote_stops {p : Char → Bool} (hp : ∀ c, p c = true → isMark c = false)
    (hq : isQuote q = true) : p q = false := by
  refine Bool.eq_false_iff.mpr fun h => ?_
  have hmark : isMark q = true := by rw [isMark, hq]; rfl
  exact absurd (hp q h) (by simp [hmark])

/-- What does not take a quote treats a text in front of one as if it stood alone. -/
theorem cut_before {p : Char → Bool} (hq : p q = false) (cs tail : List Char) :
    (cs ++ q :: tail).takeWhile p = cs.takeWhile p
      ∧ (cs ++ q :: tail).dropWhile p = cs.dropWhile p ++ q :: tail
      ∧ skipOne p (cs ++ q :: tail) = skipOne p cs ++ q :: tail := by
  induction cs with
  | nil => simp [hq, skipOne]
  | cons c cs ih =>
    by_cases hc : p c = true
    · simp [hc, ih.1, ih.2.1, skipOne]
    · simp [hc, skipOne]

theorem ne_of_isQuote {c : Char} (hc : isQuote c = false) (hq : isQuote q = true) :
    (q == c) = false := by
  refine beq_eq_false_iff_ne.mpr ?_
  rintro rfl
  rw [hc] at hq
  cases hq

theorem exists_first?_maybe {c : Char} (hc : isQuote c = false) (hs : s.rest = cs ++ q :: tail)
    (hq : isQuote q = true) :
    ∃ taken, cs = taken ++ skipOne (· == c) cs
      ∧ (maybe c).first? isWord s = some (s.past taken (skipOne (· == c) cs ++ q :: tail)) := by
  obtain ⟨taken, htaken, hfirst⟩ := exists_first?_optional_one isWord (· == c) s
  have hcut := (cut_before (p := (· == c)) (ne_of_isQuote hc hq) cs tail).2.2
  rw [hs, hcut] at htaken hfirst
  exact ⟨taken, List.append_cancel_right (htaken.trans (List.append_assoc ..).symm), hfirst⟩

theorem exists_first?_colon (hs : s.rest = cs ++ q :: tail) (hq : isQuote q = true) :
    ∃ t, (maybe ':').first? isWord s = some t
      ∧ t.rest = skipOne Coordinates.isColon cs ++ q :: tail ∧ t.kept = s.kept := by
  obtain ⟨taken, -, hfirst⟩ := exists_first?_maybe isWord (c := ':') rfl hs hq
  exact ⟨_, hfirst, rfl, rfl⟩

theorem exists_first?_keep_run (key : Slot) {p : Char → Bool} (hs : s.rest = cs ++ q :: tail)
    (hq : p q = false) :
    ∃ t, (keep key (run p)).first? isWord s = some t ∧ t.rest = cs.dropWhile p ++ q :: tail
      ∧ t.kept = fun k => if k = key then some (cs.takeWhile p) else s.kept k := by
  obtain ⟨htake, hdrop, -⟩ := cut_before hq cs tail
  refine ⟨_, first?_keep (first?_run p s), by rw [hs, hdrop]; rfl, ?_⟩
  rw [hs, htake]
  rfl

theorem first?_versionPattern (hs : s.rest = version ++ q :: tail) (hq : isQuote q = true)
    (h : Coordinates.isVersion version = true) :
    versionPattern.first? isWord s = some (s.past version (q :: tail)) := by
  obtain ⟨taken, htaken, hdollar⟩ := exists_first?_maybe isWord (c := '$') rfl hs hq
  have hdotted : isDottedChar q = false := isQuote_stops (fun _ => isMark_of_isDottedChar) hq
  obtain ⟨hword, hall⟩ := Bool.and_eq_true_iff.mp h
  obtain ⟨c, word, hcons⟩ := List.exists_cons_of_ne_nil (by simpa using hword)
  rw [hcons, List.all_cons, Bool.and_eq_true] at hall
  rw [hcons] at htaken hdollar
  obtain ⟨htake, hdrop, -⟩ := cut_before hdotted word tail
  have hrest : word.takeWhile isDottedChar = word ∧ word.dropWhile isDottedChar = [] :=
    ⟨List.takeWhile_eq_self_iff.mpr (List.all_eq_true.mp hall.2),
      List.dropWhile_eq_nil_iff.mpr (List.all_eq_true.mp hall.2)⟩
  refine first?_chain_cons hdollar (first?_chain_cons (first?_one hall.1 rfl)
    (first?_chain_cons (first?_run _ _) ?_))
  simp only [Position.past, List.append_eq, htake, hdrop, hrest, first?_chain_nil, List.append_assoc,
    List.singleton_append, List.nil_append, ← htaken]

theorem first?_versionPattern_eq_none (hs : s.rest = q :: tail) (hq : isQuote q = true) :
    versionPattern.first? isWord s = none := by
  refine List.head?_eq_none_iff.mpr (List.eq_nil_iff_forall_not_mem.mpr fun t ht => ?_)
  obtain ⟨taken, hspells, hrest, -⟩ := exists_spells_of_mem_ways ht
  have hversion := Coordinates.isVersion_of_spells hspells
  cases taken with
  | nil => cases hversion
  | cons c taken =>
    rw [hs, List.cons_append, List.cons.injEq] at hrest
    have hmark := (isMark_of_isVersion hversion c (List.mem_cons_self ..)).2
    rw [← hrest.1, isMark, hq] at hmark
    cases hmark

/-- A version is taken if there is one. -/
theorem exists_first?_version (hs : s.rest = version ++ q :: tail) (hq : isQuote q = true)
    (h : Coordinates.endsWell version = true) :
    ∃ t, (optional (keep .version versionPattern)).first? isWord s = some t ∧ t.rest = q :: tail
      ∧ t.kept = fun k => if k = .version ∧ version ≠ [] then some version else s.kept k := by
  rw [first?_optional]
  by_cases hnil : version = []
  · subst hnil
    have hnone : (keep .version versionPattern).first? isWord s = none :=
      first?_keep_eq_none (first?_versionPattern_eq_none isWord hs hq)
    exact ⟨s, by rw [hnone, Option.none_or], hs, by simp⟩
  · have hversion : Coordinates.isVersion version = true := by
      simpa [Coordinates.endsWell, hnil] using h
    have hkeep : (keep .version versionPattern).first? isWord s = _ :=
      first?_keep (first?_versionPattern isWord hs hq hversion)
    exact ⟨_, by rw [hkeep, Option.some_or], rfl, by simp [Position.keep, Position.past, hnil]⟩

/-- What is kept of coordinates, beside what was kept before. -/
def Coordinates.keepIn (c : Coordinates) (kept : Slot → Option (List Char)) :
    Slot → Option (List Char)
  | .group => some c.first
  | .name => some c.second
  | .version => if c.version = [] then kept .version else some c.version
  | k => kept k

/-- The preferred way through a body is to read it from the left. -/
theorem exists_first?_coordinatesPattern {body : List Char} {c : Coordinates}
    (hs : s.rest = body ++ q :: tail) (hq : isQuote q = true)
    (hbody : Coordinates.ofBody? body = some c) :
    ∃ t, coordinatesPattern.first? isWord s = some t ∧ t.rest = q :: tail
      ∧ t.kept = c.keepIn s.kept := by
  have hdotted : isDottedChar q = false := isQuote_stops (fun _ => isMark_of_isDottedChar) hq
  have hname : isNameChar q = false :=
    isQuote_stops (fun _ h => isMark_of_isDottedChar (isDottedChar_of_isNameChar h)) hq
  simp only [Coordinates.ofBody?] at hbody
  split at hbody
  next hversion =>
    cases hbody
    -- one part after the other, each from where the one before it ends
    obtain ⟨t₁, h₁, hs₁, hk₁⟩ := exists_first?_colon isWord hs hq
    obtain ⟨t₂, h₂, hs₂, hk₂⟩ := exists_first?_keep_run isWord .group hs₁ hdotted
    obtain ⟨t₃, h₃, hs₃, hk₃⟩ := exists_first?_colon isWord hs₂ hq
    obtain ⟨t₄, h₄, hs₄, hk₄⟩ := exists_first?_keep_run isWord .name hs₃ hname
    obtain ⟨t₅, h₅, hs₅, hk₅⟩ := exists_first?_colon isWord hs₄ hq
    obtain ⟨t₆, h₆, hs₆, hk₆⟩ := exists_first?_version isWord hs₅ hq hversion
    refine ⟨t₆, first?_chain_cons h₁ (first?_chain_cons h₂ (first?_chain_cons h₃
      (first?_chain_cons h₄ (first?_chain_cons h₅ (first?_chain_cons h₆ first?_chain_nil))))),
      hs₆, ?_⟩
    rw [hk₆, hk₅, hk₄, hk₃, hk₂, hk₁]
    funext k
    cases k <;> simp [Coordinates.keepIn, ite_not]
  next => cases hbody

/-! The parts in front of the body and behind it. -/

theorem exists_first?_part {there : Bool} {c : Char} {rest : List Char}
    (hs : s.rest = part there (String.singleton c) ++ rest)
    (hnext : there = false → rest.head? ≠ some c) :
    ∃ t, (maybe c).first? isWord s = some t ∧ t.rest = rest ∧ t.kept = s.kept := by
  obtain ⟨taken, -, hfirst⟩ := exists_first?_optional_one isWord (· == c) s
  refine ⟨_, hfirst, ?_, rfl⟩
  have hskip : skipOne (· == c) s.rest = rest := by
    cases there with
    | true => rw [hs]; simp [part, skipOne]
    | false =>
      cases rest with
      | nil => rw [hs]; rfl
      | cons d rest =>
        have hd : ¬d = c := by simpa using hnext rfl
        rw [hs]; simp [part, skipOne, hd]
  exact hskip

theorem exists_first?_project {there : Bool} {rest : List Char}
    (hs : s.rest = part there "project" ++ rest)
    (hnext : there = false → after? "project" rest = none) :
    ∃ t, (optional (keep .project (word "project"))).first? isWord s = some t ∧ t.rest = rest
      ∧ t.kept = fun k =>
          if k = .project ∧ there = true then some "project".toList else s.kept k := by
  rw [first?_optional]
  cases there with
  | true =>
    have hfirst : (word "project").first? isWord s = _ := first?_word hs
    have hkeep : (keep .project (word "project")).first? isWord s = _ := first?_keep hfirst
    exact ⟨_, by rw [hkeep, Option.some_or], rfl,
      by simp only [Position.keep, Position.past, and_true]⟩
  | false =>
    have hs : s.rest = rest := hs
    have hnone : (keep .project (word "project")).first? isWord s = none :=
      first?_keep_eq_none (first?_word_eq_none (hs.symm ▸ hnext rfl))
    exact ⟨s, by rw [hnone, Option.none_or], hs, by simp⟩

theorem exists_first?_quote {rest : List Char} (hs : s.rest = q :: rest) (hq : isQuote q = true) :
    ∃ t, (keep .quote (one isQuote)).first? isWord s = some t ∧ t.rest = rest
      ∧ t.kept = fun k => if k = .quote then some [q] else s.kept k :=
  ⟨_, first?_keep (first?_one hq hs), rfl, rfl⟩

/-- The preferred way behind the verb, for a layout in which a blank stands as far in front as it
can. -/
theorem exists_first?_restPattern {l : Layout} (hspaced : l.spaced = true → l.gap = true)
    {c : Coordinates} (hs : s.rest = l.rest) (hbody : Coordinates.ofBody? l.body = some c) :
    ∃ t, restPattern.first? isWord s = some t ∧ t.rest = []
      ∧ t.kept = c.keepIn fun k =>
          if k = .quote then some [l.opening.char]
          else if k = .project ∧ l.project = true then some "project".toList else s.kept k := by
  obtain ⟨verb, gap, project, spaced, bracket, opening, body, closing, closed⟩ := l
  replace hspaced : spaced = true → gap = true := hspaced
  have hopening : isQuote opening.char = true := Dependency.isQuote_char opening
  have hclosing : isQuote closing.char = true := Dependency.isQuote_char closing
  obtain ⟨t₁, h₁, hs₁, hk₁⟩ := exists_first?_part isWord (c := ' ') hs fun hgap => by
    obtain rfl : spaced = false := Bool.eq_false_iff.mpr fun h => by
      rw [hspaced h] at hgap
      cases hgap
    cases project <;> cases bracket <;> cases opening <;> exact fun h => nomatch h
  obtain ⟨t₂, h₂, hs₂, hk₂⟩ := exists_first?_project isWord hs₁ fun hproject => by
    cases spaced <;> cases bracket <;> cases opening <;> rfl
  obtain ⟨t₃, h₃, hs₃, hk₃⟩ := exists_first?_part isWord (c := ' ') hs₂ fun _ => by
    cases bracket <;> cases opening <;> exact fun h => nomatch h
  obtain ⟨t₄, h₄, hs₄, hk₄⟩ := exists_first?_part isWord (c := '(') hs₃ fun _ => by
    cases opening <;> exact fun h => nomatch h
  obtain ⟨t₅, h₅, hs₅, hk₅⟩ := exists_first?_quote isWord hs₄ hopening
  obtain ⟨t₆, h₆, hs₆, hk₆⟩ := exists_first?_coordinatesPattern isWord hs₅ hclosing hbody
  have h₇ : (one isQuote).first? isWord t₆ = _ := first?_one hclosing hs₆
  have hs₇ : (t₆.past [closing.char] (part closed ")")).rest = part closed ")" ++ [] :=
    (List.append_nil _).symm
  obtain ⟨t₈, h₈, hs₈, hk₈⟩ := exists_first?_part isWord (c := ')') hs₇ fun _ => nofun
  refine ⟨t₈, first?_chain_cons h₁ (first?_chain_cons h₂ (first?_chain_cons h₃
    (first?_chain_cons h₄ (first?_chain_cons h₅ (first?_chain_cons h₆ (first?_chain_cons h₇
    (first?_chain_cons h₈ first?_chain_nil))))))), hs₈, ?_⟩
  rw [hk₈]
  change t₆.kept = _
  rw [hk₆, hk₅, hk₄, hk₃, hk₂, hk₁]

theorem exists_first?_verb (v : Verb) {rest : List Char} (hs : s.rest = v.text.toList ++ rest) :
    ∃ t, verbPattern.first? isWord s = some t ∧ t.before = s.before ++ v.text.toList ∧ t.rest = rest
      ∧ t.kept = fun k => if k = .verb then some v.text.toList else s.kept k := by
  have hverb : (either (word "compile") (either (word "api") (word "implementation"))).first? isWord s
      = some (s.past v.text.toList rest) := by
    rw [first?_either, first?_either]
    cases v with
    | compile =>
      have hfirst : (word "compile").first? isWord s = _ := first?_word hs
      rw [hfirst]
      rfl
    | api =>
      have hfirst : (word "api").first? isWord s = _ := first?_word hs
      rw [first?_word_eq_none (by rw [hs]; rfl), hfirst]
      rfl
    | implementation =>
      have hfirst : (word "implementation").first? isWord s = _ := first?_word hs
      rw [first?_word_eq_none (by rw [hs]; rfl), first?_word_eq_none (by rw [hs]; rfl), hfirst]
      rfl
  exact ⟨_, first?_keep hverb, rfl, rfl, rfl⟩

end

namespace Layout

variable {isWord : Char → Bool} {l : Layout}

/-- A layout whose blank stands as far in front as it can. -/
def eager (l : Layout) : Layout :=
  if l.gap = false ∧ l.spaced = true then { l with gap := true, spaced := false } else l

theorem gap_of_spaced_eager (h : l.eager.spaced = true) : l.eager.gap = true := by
  unfold eager at h ⊢
  split
  next => rfl
  next hno =>
    rw [if_neg hno] at h
    exact Bool.of_not_eq_false fun hgap => hno ⟨hgap, h⟩

theorem rest_eager (h : l.project = true → l.gap = true) : l.eager.rest = l.rest := by
  unfold eager
  split
  next hmoved =>
    obtain ⟨hgap, hspaced⟩ := hmoved
    have hproject : l.project = false := Bool.eq_false_iff.mpr fun hp => by
      rw [h hp] at hgap
      cases hgap
    simp [rest, hgap, hspaced, hproject, part]
  next => rfl

theorem eager_parts (l : Layout) :
    l.eager.verb = l.verb ∧ l.eager.project = l.project ∧ l.eager.opening = l.opening
      ∧ l.eager.body = l.body := by
  unfold eager
  split <;> exact ⟨rfl, rfl, rfl, rfl⟩

end Layout

namespace Declaration

variable {isWord : Char → Bool} {cs : List Char} {l : Layout}

theorem ofKept_keepIn {verb : Verb} {project : Bool} {quote : Quote}
    {kept : Slot → Option (List Char)} (hverb : kept .verb = some verb.text.toList)
    (hproject : (kept .project).isSome = project) (hquote : kept .quote = some [quote.char])
    (hversion : kept .version = none) (c : Coordinates) :
    ofKept (c.keepIn kept) = some { verb, project, quote, coordinates := c } := by
  have hkept : (c.keepIn kept .version).getD [] = c.version := by
    by_cases h : c.version = [] <;> simp [Coordinates.keepIn, h, hversion]
  have hrest : c.keepIn kept .verb = some verb.text.toList ∧ c.keepIn kept .project = kept .project
      ∧ c.keepIn kept .quote = some [quote.char] := ⟨hverb, rfl, hquote⟩
  simp only [ofKept, hkept, hrest, hproject, Option.bind_eq_bind, Option.bind_some,
    String.ofList_toList, Verb.ofText?_text, List.head?_cons, Quote.ofChar?_char]
  rfl

/-- The preferred match of a layout keeps what is read from the left. -/
theorem exists_match?_pattern (hword : ∀ c : Char, c.toNat < 128 → isWord c = isWordChar c)
    (hl : l.WellFormed isWord) {c : Coordinates} (hbody : Coordinates.ofBody? l.body = some c) :
    ∃ kept, declarationPattern.match? isWord l.chars = some kept
      ∧ ofKept kept = some (l.declaration c) := by
  obtain ⟨hgap, -⟩ := (Layout.wellFormed_iff hword).mp hl
  obtain ⟨-, hproject, hopening, hsame⟩ := l.eager_parts
  obtain ⟨t, ht, hbefore, hrest, hverb⟩ :=
    exists_first?_verb isWord (s := .start l.chars) l.verb rfl
  have hedge : t.isEdge isWord = true := by
    rw [Position.isEdge, hbefore, hrest, hl.verb]
    exact congrArg (· != false) (Layout.any_getLast?_verb hword l.verb)
  obtain ⟨u, hu, hend, hkept⟩ := exists_first?_restPattern isWord (l := l.eager)
    Layout.gap_of_spaced_eager (hrest.trans (Layout.rest_eager hgap).symm) (hsame ▸ hbody)
  have hfirst : declarationPattern.first? isWord (.start l.chars) = some u :=
    first?_chain_cons ht (first?_chain_cons (first?_edge hedge) (first?_chain_cons hu
      (first?_chain_cons (first?_finish hend) first?_chain_nil)))
  refine ⟨u.kept, by rw [match?, hfirst, Option.map_some], ?_⟩
  rw [hkept, hverb, hproject, hopening]
  refine ofKept_keepIn rfl ?_ rfl rfl c
  cases l.project <;> rfl

end Declaration

/-! ### All ways -/

section

variable {isWord : Char → Bool} {cs : List Char} {t : Position Slot}

theorem exists_part_of_spells {c : Char} (h : (maybe c).Spells cs) :
    ∃ there, cs = part there (String.singleton c) := by
  rcases Coordinates.spells_maybe.mp h with rfl | rfl
  · exact ⟨true, (String.toList_singleton c).symm⟩
  · exact ⟨false, rfl⟩

theorem exists_verb_of_spells (h : verbPattern.Spells cs) : ∃ v : Verb, cs = v.text.toList := by
  rcases h with h | h | h
  · exact ⟨.compile, h⟩
  · exact ⟨.api, h⟩
  · exact ⟨.implementation, h⟩

theorem exists_layout_of_spells (verb : Verb) (h : restPattern.Spells cs) :
    ∃ l : Layout, l.verb = verb ∧ l.rest = cs ∧ coordinatesPattern.Spells l.body := by
  obtain ⟨gap, _, rfl, hgap, project, _, rfl, hproject, spaced, _, rfl, hspaced, bracket, _, rfl,
    hbracket, _, _, rfl, ⟨q, rfl, hq⟩, body, _, rfl, hbody, _, _, rfl, ⟨q', rfl, hq'⟩, closed, _, rfl,
    hclosed, rfl⟩ := h
  obtain ⟨gap, rfl⟩ := exists_part_of_spells hgap
  obtain ⟨project, rfl⟩ : ∃ there, project = part there "project" := by
    rcases hproject with hproject | rfl
    · exact ⟨true, hproject⟩
    · exact ⟨false, rfl⟩
  obtain ⟨spaced, rfl⟩ := exists_part_of_spells hspaced
  obtain ⟨bracket, rfl⟩ := exists_part_of_spells hbracket
  obtain ⟨opening, rfl⟩ := Declaration.exists_char_of_isQuote hq
  obtain ⟨closing, rfl⟩ := Declaration.exists_char_of_isQuote hq'
  obtain ⟨closed, rfl⟩ := exists_part_of_spells hclosed
  refine ⟨{ verb, gap, project, spaced, bracket, opening, body, closing, closed }, rfl, ?_, hbody⟩
  rw [List.append_nil]
  rfl

/-- Whatever matches, in some way, has a layout with a body that can be read from the left. -/
theorem exists_layout_of_mem_ways (hword : ∀ c : Char, c.toNat < 128 → isWord c = isWordChar c)
    (h : t ∈ declarationPattern.ways isWord (.start cs)) :
    ∃ (l : Layout) (c : Coordinates), l.chars = cs ∧ l.WellFormed isWord ∧ Splits l.body c := by
  obtain ⟨u, hu, hbehind⟩ := mem_ways_chain_cons.mp h
  obtain ⟨v, hv, hrest⟩ := mem_ways_chain_cons.mp hbehind
  obtain ⟨w, hw, hlast⟩ := mem_ways_chain_cons.mp hrest
  obtain ⟨_, hfinish, -⟩ := mem_ways_chain_cons.mp hlast
  obtain ⟨rfl, hedge⟩ := mem_ways_edge.mp hv
  obtain ⟨-, hend⟩ := mem_ways_finish.mp hfinish
  obtain ⟨taken, hverb, hcs, hbefore⟩ := exists_spells_of_mem_ways hu
  obtain ⟨verb, rfl⟩ := exists_verb_of_spells hverb
  obtain ⟨rest, hspells, hrest, -⟩ := exists_spells_of_mem_ways hw
  obtain ⟨l, rfl, rfl, hbody⟩ := exists_layout_of_spells verb hspells
  rw [hend, List.append_nil] at hrest
  obtain ⟨c, hc⟩ := Option.isSome_iff_exists.mp (Coordinates.isSome_ofBody?_of_spells hbody)
  refine ⟨l, c, ?_, ⟨?_, Coordinates.isQuote_of_spells hbody⟩, splits_iff.mpr hc⟩
  · rw [Layout.chars, ← hrest]
    exact hcs.symm
  · -- a verb ends with a word character, so the edge behind it is no start of a word
    have hlast : v.before.getLast?.any isWord = true := hbefore ▸ Layout.any_getLast?_verb hword l.verb
    rw [Position.isEdge, hlast, hrest] at hedge
    simpa using hedge

/-- A text matches if it can be read from the left, and the preferred match keeps what is read. -/
theorem Declaration.match?_pattern
    (hword : ∀ c : Char, c.toNat < 128 → isWord c = isWordChar c) (cs : List Char) :
    (declarationPattern.match? isWord cs).bind ofKept = read? cs
      ∧ ((declarationPattern.match? isWord cs).isSome = true
        ↔ ∃ (l : Layout) (c : Coordinates), l.chars = cs ∧ l.WellFormed isWord ∧ Splits l.body c) := by
  by_cases h : ∃ (l : Layout) (c : Coordinates), l.chars = cs ∧ l.WellFormed isWord ∧ Splits l.body c
  · obtain ⟨l, c, rfl, hl, hbody⟩ := h
    obtain ⟨kept, hmatch, hkept⟩ := exists_match?_pattern hword hl (splits_iff.mp hbody)
    rw [hmatch, Option.bind_some, hkept]
    exact ⟨(read?_eq_some_iff.mpr ⟨l, c, rfl, (Layout.wellFormed_congr hword).mp hl, hbody, rfl⟩).symm,
      iff_of_true rfl ⟨l, c, rfl, hl, hbody⟩⟩
  · have hmatch : declarationPattern.match? isWord cs = none := by
      rw [match?, first?, Option.map_eq_none_iff, List.head?_eq_none_iff,
        List.eq_nil_iff_forall_not_mem]
      exact fun t ht => h (exists_layout_of_mem_ways hword ht)
    have hread : read? cs = none := by
      refine Option.eq_none_iff_forall_ne_some.mpr fun d hd => ?_
      obtain ⟨l, c, hcs, hl, hbody, -⟩ := read?_eq_some_iff.mp hd
      exact h ⟨l, c, hcs, (Layout.wellFormed_congr hword).mpr hl, hbody⟩
    rw [hmatch, hread]
    exact ⟨rfl, iff_of_false (by simp) h⟩

end

/-! ### Lines -/

/-- A line declares what the preferred match of its text says. It matches if and only if it has a
layout, whose coordinates are read from the left. Then it declares a dependency unless the name is
missing: the second word of an artifact, or both words of a project. In particular a group, a name
and a version with colons between them are read as such. -/
theorem ofLine?_grammar {isWord : Char → Bool}
    (hword : ∀ c : Char, c.toNat < 128 → isWord c = isWordChar c) (line : String) :
    let kept := declarationPattern.match? isWord (trim line.toList)
    Dependency.ofLine? line = (kept.bind Declaration.ofKept).bind Declaration.dependency?
      ∧ (kept.isSome = true ↔ ∃ (l : Layout) (c : Coordinates),
          l.chars = trim line.toList ∧ l.WellFormed isWord ∧ Splits l.body c)
      ∧ (∀ (l : Layout) (c : Coordinates),
          l.chars = trim line.toList → l.WellFormed isWord → Splits l.body c →
          kept.bind Declaration.ofKept = some (l.declaration c)
            ∧ ((Dependency.ofLine? line).isSome = true
              ↔ c.second ≠ [] ∨ l.project = true ∧ c.first ≠ [])
            ∧ ∀ d, Dependency.ofLine? line = some d → l.Carries c d)
      ∧ ∀ (l : Layout) (group name version : String),
          IsWord group → IsSegment name → Coordinates.isVersion version.toList = true →
          l.chars = trim line.toList → l.WellFormed isWord →
          l.body = (group ++ ":" ++ name ++ ":" ++ version).toList →
          Dependency.ofLine? line = some (if l.project
            then { name := group ++ ":" ++ name, verb := l.verb, quote := l.opening,
                   source := true }
            else { name, group := some group, verb := l.verb, quote := l.opening, source := false,
                   version := some version }) := by
  intro kept
  obtain ⟨hread, hmatch⟩ := Declaration.match?_pattern hword (trim line.toList)
  have hline : Dependency.ofLine? line
      = (kept.bind Declaration.ofKept).bind Declaration.dependency? := by
    rw [hread, Dependency.ofLine?]
  have hlayout {l : Layout} {c : Coordinates} (hl : l.chars = trim line.toList)
      (hwell : l.WellFormed isWord) (hbody : Splits l.body c) :
      kept.bind Declaration.ofKept = some (l.declaration c) :=
    hread.trans (Declaration.read?_eq_some_iff.mpr
      ⟨l, c, hl, (Layout.wellFormed_congr hword).mp hwell, hbody, rfl⟩)
  refine ⟨hline, hmatch, fun l c hl hwell hbody => ?_, fun l group name version hgroup hname hversion
    hl hwell hbody => ?_⟩
  · have hkept := hlayout hl hwell hbody
    rw [hline, hkept, Option.bind_some]
    exact ⟨rfl, l.isSome_dependency? c, fun d => Layout.carries_of_dependency?⟩
  · have hsplits : Splits l.body ⟨group.toList, name.toList, version.toList⟩ := by
      have hparts : l.body = Coordinates.toBody ⟨group.toList, name.toList, version.toList⟩ := by
        simp [hbody, Coordinates.toBody]
      exact hparts ▸ splits_toBody hgroup.toList_ne_nil hgroup.2 hname.2 hversion
    have hne : version ≠ "" := by
      rintro rfl
      cases hversion
    rw [hline, hlayout hl hwell hsplits, Option.bind_some]
    cases hproject : l.project <;>
      simp [Layout.declaration, Declaration.dependency?, Declaration.projectName?,
        Declaration.present?, hproject, hgroup.1, hname.1, hne]

/-- Words may have any characters beyond ASCII, and the quotes need not be the same. -/
theorem ofLine?_grammar_quotes :
    let isWord := fun c : Char => isWordChar c || decide (128 ≤ c.toNat)
    let line := "\u00a0implementation(\"com.example:core:$v') "
    (∀ c : Char, c.toNat < 128 → isWord c = isWordChar c)
      ∧ Dependency.ofLine? line
        = some { name := "core", group := some "com.example", verb := .implementation,
                 quote := .double, source := false, version := some "$v" } := by
  intro isWord line
  have hword : ∀ c : Char, c.toNat < 128 → isWord c = isWordChar c := fun c hc => by
    simp [isWord, Nat.not_le.mpr hc]
  let l : Layout :=
    { verb := .implementation, gap := false, project := false, spaced := false, bracket := true,
      opening := .double, body := "com.example:core:$v".toList, closing := .single, closed := true }
  have hquotes : l.body.all (!isQuote ·) = true := by decide
  have hwell : l.WellFormed isWord :=
    ⟨by decide, fun c hc => by simpa using List.all_eq_true.mp hquotes c hc⟩
  obtain ⟨-, -, -, hparts⟩ := ofLine?_grammar hword line
  exact ⟨hword, hparts l "com.example" "core" "$v" (by decide) (by decide) (by decide) (by decide)
    hwell (by decide)⟩

end Inclusion
