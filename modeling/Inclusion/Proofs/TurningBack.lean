import Inclusion.Proofs.Settings.Undoing
import Inclusion.Proofs.Tracking

/-!
# A declaration that is turned and turned back

A module that is included turns its declarations into projects; excluding it turns them into
artifacts again, with the version, the verb and the quote that the nodes remember. A line comes back
as it was if it said nothing but that, or if it was written in the same way before.

* `Covers.restates`: a restated line says as little of settings as it did.
* `restate_statementFor_of_declaresOnce`: what an excluded module is restated as.
* `restateAll_restateAll_of_declaresOnce`: all lines come back.
-/
namespace Inclusion

open Text Settings BuildFile

/-- A module as an artifact of a version. -/
def Manifest.Module.artifact (u : Manifest.Module) (verb : Verb) (quote : Quote)
    (version : String) : Dependency :=
  { name := u.name, group := some u.group, verb, quote, source := false, version := some version }

/-- Whether a line is the declaration of a module as an artifact of a version and nothing else: with the
group in the manifest and between equal quotes. -/
def IsArtifactLine (u : Manifest.Module) (version line : String) : Prop :=
  ∃ (verb : Verb) (quote : Quote) (indent ending : List Char),
    (∀ c ∈ indent, isBlank c = true) ∧ (ending = [] ∨ ending = ['\r'])
      ∧ line.toList = indent
          ++ (verb.text ++ " " ++ quote.text ++ u.group ++ ":" ++ u.name ++ ":" ++ version
            ++ quote.text).toList ++ ending

/-- Whether lines declare a module at most once, and then by a line that is an artifact of a version
and nothing else. -/
def DeclaresOnce (u : Manifest.Module) (lines : List String) : Prop :=
  (declaredNames lines).count u.name ≤ 1 ∧ ∀ line ∈ lines, ∀ d,
    Dependency.ofLine? line = some d → d.name = u.name →
      ∃ version, version ≠ "" ∧ IsArtifactLine u version line

/-! ### A line that comes back -/

namespace Coordinates

/-- What is read of all three parts, if anything, are these parts. -/
theorem eq_of_ofBody? {group name version : List Char} {c : Coordinates} (hne : group ≠ [])
    (hgroup : group.all isDottedChar = true) (hname : name.all isNameChar = true)
    (h : ofBody? (group ++ ':' :: (name ++ ':' :: version)) = some c) :
    c = ⟨group, name, version⟩ := by
  have hskip := skipOne_of_isDottedChar hgroup
  rw [ofBody?_parts hne (hskip.symm ▸ hgroup) hname, hskip] at h
  split at h <;> cases h
  rfl

end Coordinates

theorem toList_artifact (u : Manifest.Module) (verb : Verb) (quote : Quote) (version : String) :
    ((u.artifact verb quote version).declarationFor u).toList
      = verb.text.toList ++ ' ' :: quote.char
        :: (u.group.toList ++ ':' :: (u.name.toList ++ ':' :: version.toList) ++ [quote.char]) :=
  Dependency.toList_declare_artifact rfl u.group u.name

/-- A line that is an artifact and nothing else declares this artifact, if it declares anything. -/
theorem eq_of_ofLine?_artifact {u : Manifest.Module} (hname : IsSegment u.name)
    (hgroup : IsWord u.group) {verb : Verb} {quote : Quote} {version line : String}
    (hversion : version ≠ "")
    (hline : trim line.toList = ((u.artifact verb quote version).declarationFor u).toList)
    {found : Dependency} (h : Dependency.ofLine? line = some found) :
    found = u.artifact verb quote version := by
  rw [Dependency.ofLine?, hline, toList_artifact, Declaration.read?_artifact] at h
  obtain ⟨declaration, hread, hfound⟩ := Option.bind_eq_some_iff.mp h
  obtain ⟨body, hbody, hread⟩ := Option.bind_eq_some_iff.mp hread
  obtain ⟨c, hc, rfl⟩ := Option.map_eq_some_iff.mp hread
  obtain rfl := Declaration.eq_of_readBody? (Dependency.isQuote_char _) hbody
  obtain rfl := Coordinates.eq_of_ofBody? hgroup.toList_ne_nil hgroup.2 hname.2 hc
  have hartifact : some (u.artifact verb quote version) = some found := by
    simpa [Declaration.dependency?, Declaration.present?, hname.1, hgroup.1, hversion,
      Manifest.Module.artifact] using hfound
  exact (Option.some.inj hartifact).symm

/-- A line that is an artifact and nothing else is what it is restated as. -/
theorem of_isArtifactLine {u : Manifest.Module} (hname : IsSegment u.name)
    (hgroup : IsWord u.group) {version line : String} (hversion : version ≠ "")
    (hline : IsArtifactLine u version line) {d : Dependency} (h : Dependency.ofLine? line = some d) :
    d.source = false ∧ restate line (d.declarationFor u) = line := by
  obtain ⟨verb, quote, indent, ending, hindent, hending, htext⟩ := hline
  change line.toList
    = indent ++ ((u.artifact verb quote version).declarationFor u).toList ++ ending at htext
  have htight : Tight ((u.artifact verb quote version).declarationFor u).toList :=
    Dependency.tight_declare _ u.group u.name
  have hblank : ∀ c ∈ ending, isBlank c = true := by
    rcases hending with rfl | rfl <;> simp [isBlank]
  obtain rfl := eq_of_ofLine?_artifact hname hgroup hversion
    (htext ▸ trim_frame hindent hblank htight) h
  exact ⟨rfl, restate_of_frame hindent htight hending htext⟩

/-- A name that is listed at most once is that of at most one member. -/
theorem eq_of_count_map_le_one {α : Type} {f : α → String} {l : List α} {name : String}
    (h : (l.map f).count name ≤ 1) {x y : α} (hx : x ∈ l) (hy : y ∈ l) (hfx : f x = name)
    (hfy : f y = name) : x = y := by
  induction l with
  | nil => cases hx
  | cons z l ih =>
    rw [List.map_cons, List.count_cons] at h
    have hrest : ∀ z' ∈ l, f z' = name → f z ≠ name := fun z' hz' hfz' hfz => by
      have := List.count_pos_iff.mpr (hfz' ▸ List.mem_map_of_mem hz' : name ∈ l.map f)
      simp only [hfz, beq_self_eq_true, ↓reduceIte] at h
      omega
    rcases List.mem_cons.mp hx with hxz | hxl <;> rcases List.mem_cons.mp hy with hyz | hyl
    · exact hxz.trans hyz.symm
    · exact absurd (hxz ▸ hfx) (hrest y hyl hfy)
    · exact absurd (hyz ▸ hfy) (hrest x hxl hfx)
    · exact ih (by omega) hxl hyl

theorem Covers.restateAll {modules : NameMap Manifest.Module} {known : Dependencies}
    {lines : List String} (h : Covers modules known lines) (hmodules : WellNamed modules)
    (included : NameSet) :
    Covers modules known (restateAll (Node.desired ⟨modules, included⟩ known) modules lines).1 := by
  have hnameable : Nameable (Policy.mk modules included).modules := hmodules.nameable
  exact covers_restateAll hnameable h

/-- Restating declarations leaves alone what a settings file is edited for. -/
theorem Covers.restates {modules : NameMap Manifest.Module} {known : Dependencies}
    {lines : List String} (h : Covers modules known lines) (hmodules : WellNamed modules)
    (included : NameSet) :
    Restates (fun line =>
      (restated? (Node.desired ⟨modules, included⟩ known) modules line).getD line) lines where
  other line hread := by rw [restated?_eq_none_of_ofLine? hread, Option.getD_none]
  pieces line hline hread := by
    obtain ⟨found, hread⟩ := Option.ne_none_iff_exists'.mp hread
    cases hrestated : restated? (Node.desired ⟨modules, included⟩ known) modules line with
    | none => exact linePieces_of_ofLine? hread
    | some new =>
      obtain ⟨found', wanted, hread', hwanted, hsource, rfl⟩ := restated?_eq_some_iff.mp hrestated
      obtain ⟨d, hd, -⟩ := exists_ofLine?_restate_statementFor hmodules.titled
        (fun _ => hmodules.of_turned) h hline hread' hwanted hsource
      exact linePieces_of_ofLine? hd
  ending line hline := by
    cases hrestated : restated? (Node.desired ⟨modules, included⟩ known) modules line with
    | none => rfl
    | some new =>
      obtain ⟨-, wanted, -, -, -, rfl⟩ := restated?_eq_some_iff.mp hrestated
      exact endsWithReturn_restate line (tight_statementFor modules wanted)

section

variable {modules : NameMap Manifest.Module} {included : NameSet} {known : Dependencies}
  {line : String} {found : Dependency} (hread : Dependency.ofLine? line = some found)

include hread

/-- Including a module restates no declaration of another name. -/
theorem restated?_add_of_ne {name : String} (hname : found.name ≠ name) :
    restated? (Node.desired ⟨modules, NameSet.add included name⟩ known) modules line
      = restated? (Node.desired ⟨modules, included⟩ known) modules line := by
  have hsame : (Node.desired ⟨modules, NameSet.add included name⟩ known).get? found.name
      = (Node.desired ⟨modules, included⟩ known).get? found.name := by
    simp only [Node.desired, NameMap.get?_mapValues, NameSet.contains_add,
      beq_eq_false_iff_ne.mpr hname, Bool.false_or]
  simp only [restated?, hread, Option.bind_eq_bind, Option.bind_some, hsame]

/-- Including a module restates its declaration as an artifact to one as a project. -/
theorem restated?_add_of_name {u : Manifest.Module} (hu : modules.get? u.name = some u)
    {lines : List String} (hcovers : Covers modules known lines) (hline : line ∈ lines)
    (hname : found.name = u.name) (hartifact : found.source = false) :
    ∃ statement, Tight statement.toList
      ∧ restated? (Node.desired ⟨modules, NameSet.add included u.name⟩ known) modules line
        = some (restate line statement)
      ∧ ∃ d, Dependency.ofLine? (restate line statement) = some d ∧ d.name = u.name
        ∧ d.source = true := by
  obtain ⟨last, hlast, hlastname, -⟩ := hcovers line hline found hread
  have hcontains : modules.contains found.name = true := by simp [NameMap.contains, hname, hu]
  have hproject : (Node.desired ⟨modules, NameSet.add included u.name⟩ known).get? found.name
      = some { last with source := true } := by
    rw [get?_desired_of_get? hlast, if_pos hcontains]
    simp [NameSet.contains_add, hname]
  refine ⟨statementFor modules { last with source := true }, tight_statementFor modules _,
    restated?_eq_some_iff.mpr ⟨found, _, hread, hproject, by simp [hartifact], rfl⟩, ?_⟩
  simp only [statementFor, hlastname, hname, hu]
  exact ⟨_, Dependency.ofLine?_restate_project line u.group rfl
    (hname ▸ (Legible.of_ofLine? hread).isProjectName), rfl, rfl⟩

end

section

variable {modules : NameMap Manifest.Module} {included : NameSet} {u : Manifest.Module}
  {lines : List String} (hmodules : WellNamed modules) (hu : modules.get? u.name = some u)
  (hout : included.contains u.name = false)

include hmodules hu hout

/-- The only declaration of an excluded module is what the module would be restated as, if it is an
artifact and nothing else. -/
theorem restate_statementFor_of_isArtifactLine {line version : String} (hline : line ∈ lines)
    (hcount : (declaredNames lines).count u.name ≤ 1) (hversion : version ≠ "")
    (hartifact : IsArtifactLine u version line) {found wanted : Dependency}
    (hread : Dependency.ofLine? line = some found) (hname : found.name = u.name)
    (hwanted : (Node.desired ⟨modules, included⟩ (declared lines)).get? found.name = some wanted) :
    restate line (statementFor modules wanted) = line := by
  obtain ⟨last, hlast, line', hline', hread', hlastname⟩ := exists_get?_declared hline hread
  obtain rfl : last = found :=
    eq_of_count_map_le_one hcount (List.mem_filterMap.mpr ⟨line', hline', hread'⟩)
      (List.mem_filterMap.mpr ⟨line, hline, hread⟩) (hlastname.trans hname) hname
  obtain ⟨hsegment, hword⟩ := (hmodules u.name u hu).2
    (hname ▸ (Legible.of_ofLine? hread).isProjectName)
  obtain ⟨hsource, hrestate⟩ := of_isArtifactLine hsegment hword hversion hartifact hread
  have hcontains : modules.contains last.name = true := by simp [NameMap.contains, hname, hu]
  have hform : included.contains last.name = last.source := by rw [hname, hout, hsource]
  have hsame : wanted = last := by
    rw [get?_desired_of_get? hlast, if_pos hcontains, Option.some.injEq] at hwanted
    rw [← hwanted, hform]
  simpa only [hsame, statementFor, hname, hu] using hrestate

variable {rest : List String} (hcovers : Covers modules (declared lines) lines)
  (hrest : rest = (restateAll (Node.desired ⟨modules, included⟩ (declared lines)) modules lines).1)
  (honce : DeclaresOnce u rest)

include hcovers hrest honce

/-- The line that declares an excluded module is what the module would be restated as, be it that it
was restated before or that it is an artifact and nothing else. -/
theorem restate_statementFor_of_declaresOnce {line : String} (hline : line ∈ rest)
    {found wanted : Dependency} (hread : Dependency.ofLine? line = some found)
    (hname : found.name = u.name)
    (hwanted : (Node.desired ⟨modules, included⟩ (declared lines)).get? found.name = some wanted) :
    restate line (statementFor modules wanted) = line := by
  have hnames : declaredNames rest = declaredNames lines :=
    hrest ▸ declaredNames_restateAll hmodules.titled (fun _ => hmodules.of_turned) hcovers
  obtain ⟨version, hversion, hartifact⟩ := honce.2 line hline found hread hname
  rw [hrest, restateAll_fst] at hline
  obtain ⟨before, hbefore, hline⟩ := List.mem_map.mp hline
  cases hrestated : restated? (Node.desired ⟨modules, included⟩ (declared lines)) modules before with
  | some new =>
    obtain ⟨found', wanted', hread', hwanted', hsource, rfl⟩ := restated?_eq_some_iff.mp hrestated
    rw [hrestated, Option.getD_some] at hline
    subst hline
    obtain ⟨hname', -⟩ := of_ofLine?_restate_statementFor hmodules.nameable hcovers hbefore hread'
      hwanted' hsource hread
    rw [← hname', hwanted, Option.some.injEq] at hwanted'
    rw [hwanted', restate_restate _ (tight_statementFor modules wanted')]
  | none =>
    rw [hrestated, Option.getD_none] at hline
    subst hline
    exact restate_statementFor_of_isArtifactLine hmodules hu hout hbefore (hnames ▸ honce.1) hversion
      hartifact hread hname hwanted

/-- Including a module and excluding it again gives every line back. -/
theorem restateAll_restateAll_of_declaresOnce :
    (restateAll (Node.desired ⟨modules, included⟩ (declared lines)) modules
        (restateAll (Node.desired ⟨modules, NameSet.add included u.name⟩ (declared lines)) modules
          rest).1).1 = rest := by
  have hagrees : Agrees (Node.desired ⟨modules, included⟩ (declared lines)) rest :=
    hrest ▸ agrees_restateAll hmodules.nameable hcovers
  have hcovers' : Covers modules (declared lines) rest :=
    hrest ▸ hcovers.restateAll hmodules included
  rw [restateAll_fst, restateAll_fst, List.map_map]
  refine (List.map_congr_left fun line hline => ?_).trans (List.map_id rest)
  rw [Function.comp_apply, id]
  cases hread : Dependency.ofLine? line with
  | none => simp only [restated?_eq_none_of_ofLine? hread, Option.getD_none]
  | some found =>
    obtain ⟨wanted, hwanted, hsource⟩ := hagrees line hline found hread
    by_cases hname : found.name = u.name
    · -- the module turns into a project, and then back into what it was
      have hcontains : modules.contains found.name = true := by simp [NameMap.contains, hname, hu]
      have hform : wanted.source = false := by
        rw [source_of_desired hwanted hcontains, hname, hout]
      obtain ⟨statement, htight, hturned, project, hproject, hprojectname, hprojectsource⟩ :=
        restated?_add_of_name hread hu hcovers' hline hname (hsource ▸ hform)
      have hback : restated? (Node.desired ⟨modules, included⟩ (declared lines)) modules
          (restate line statement)
            = some (restate (restate line statement) (statementFor modules wanted)) :=
        restated?_eq_some_iff.mpr ⟨project, wanted, hproject, by rw [hprojectname, ← hname, hwanted],
          by rw [hform, hprojectsource]; decide, rfl⟩
      rw [hturned, Option.getD_some, hback, Option.getD_some, restate_restate line htight]
      exact restate_statementFor_of_declaresOnce hmodules hu hout hcovers hrest honce hline hread
        hname hwanted
    · have hkept : restated? (Node.desired ⟨modules, included⟩ (declared lines)) modules line
          = none := restated?_eq_none_of_agrees hagrees hline
      rw [restated?_add_of_ne hread hname, hkept, Option.getD_none, hkept, Option.getD_none]

end

end Inclusion
