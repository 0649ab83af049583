import Inclusion.Node
import Inclusion.Proofs.Declaration
import Inclusion.Proofs.Reading
import Mathlib.Data.List.Basic

/-!
# Restated lines say what was asked for

The lines of a build file agree with the desired dependencies if each declaration is in the desired
form; restating brings them there and leaves them alone once they are. Two things could keep a
restated line from saying what was asked for: coordinates of a module that cannot be written on a
line, and a name outside the manifest that the same file declares both as a project and as an
artifact without a group, whose form no policy settles.

* `agrees_restateAll`: restated lines agree with what was desired.
* `restateAll_of_agrees`: lines that agree are kept.
* `Agrees.complies`: lines that agree with what a policy desires comply with it.
* `declaredNames_restateAll`: restating keeps the declared names, if all groups are dotted words.
* `splitLines_restateText`: a restated text is read back line by line.
-/
namespace Inclusion

open Text BuildFile

/-- Whether every module that lines can declare has a name of one segment and a group that is
neither empty nor broken over lines. -/
def Nameable (modules : NameMap Manifest.Module) : Prop :=
  ∀ name u, modules.get? name = some u → u.name = name
    ∧ (IsProjectName name → IsSegment name ∧ u.group ≠ "" ∧ '\n' ∉ u.group.toList)

/-- Whether every module that lines can declare has a name of one segment and a dotted word for a
group. -/
def WellNamed (modules : NameMap Manifest.Module) : Prop :=
  ∀ name u, modules.get? name = some u → u.name = name
    ∧ (IsProjectName name → IsSegment name ∧ IsWord u.group)

/-- Whether modules are listed under their own names. -/
def Titled (modules : NameMap Manifest.Module) : Prop :=
  ∀ name u, modules.get? name = some u → u.name = name

/-- Whether a module is to turn from a project into an artifact: some line declares it on source, but
it is not included. -/
def Turned (policy : Policy) (lines : List String) (u : Manifest.Module) : Prop :=
  ∃ line ∈ lines, ∃ d, Dependency.ofLine? line = some d ∧ d.source = true
    ∧ policy.modules.get? d.name = some u ∧ policy.included.contains d.name = false

/-- Whether no name outside the manifest is declared both as a project and as an artifact without a
group. -/
def Untorn (modules : NameMap Manifest.Module) (lines : List String) : Prop :=
  ∀ l₁ ∈ lines, ∀ l₂ ∈ lines, ∀ d₁ d₂, Dependency.ofLine? l₁ = some d₁ →
    Dependency.ofLine? l₂ = some d₂ → d₁.name = d₂.name → d₁.source = true → d₂.source = false →
    d₂.group = none → modules.contains d₁.name = true

/-- Whether known dependencies have what it takes to restate lines: one of every name that is
declared there, of the shape that lines give, and with a group if its name is not in the manifest
and is to turn from a project into an artifact. -/
def Covers (modules : NameMap Manifest.Module) (known : Dependencies) (lines : List String) : Prop :=
  ∀ line ∈ lines, ∀ found, Dependency.ofLine? line = some found →
    ∃ d, known.get? found.name = some d ∧ d.name = found.name ∧ Legible d
      ∧ (found.source = true → d.source = false → d.group = none →
          modules.contains found.name = true)

/-- Whether every declaration among lines is in the form that is desired. -/
def Agrees (desired : Dependencies) (lines : List String) : Prop :=
  ∀ line ∈ lines, ∀ d, Dependency.ofLine? line = some d →
    ∃ wanted, desired.get? d.name = some wanted ∧ wanted.source = d.source

/-- Whether lines declare manifest modules as a policy asks: on source exactly when included. -/
def Complies (policy : Policy) (lines : List String) : Prop :=
  ∀ line ∈ lines, ∀ d, Dependency.ofLine? line = some d → policy.modules.contains d.name = true →
    d.source = policy.included.contains d.name

theorem WellNamed.nameable {modules : NameMap Manifest.Module} (h : WellNamed modules) :
    Nameable modules := by
  intro name u hu
  obtain ⟨hname, hwritable⟩ := h name u hu
  refine ⟨hname, fun hdeclared => ?_⟩
  obtain ⟨hsegment, hword⟩ := hwritable hdeclared
  exact ⟨hsegment, hword.1, not_mem_of_isMark (isMark_of_all_isDottedChar hword.2) (by decide)⟩

theorem Nameable.titled {modules : NameMap Manifest.Module} (h : Nameable modules) :
    Titled modules := fun name u hu => (h name u hu).1

theorem WellNamed.titled {modules : NameMap Manifest.Module} (h : WellNamed modules) :
    Titled modules := h.nameable.titled

section

variable {policy : Policy} {lines : List String} {u : Manifest.Module}

theorem Turned.isProjectName (h : Turned policy lines u) :
    ∃ name, policy.modules.get? name = some u ∧ IsProjectName name := by
  obtain ⟨line, -, d, hread, -, hu, -⟩ := h
  exact ⟨d.name, hu, (Legible.of_ofLine? hread).isProjectName⟩

theorem Nameable.of_turned (hmodules : Nameable policy.modules) (h : Turned policy lines u) :
    IsSegment u.name ∧ u.group ≠ "" ∧ '\n' ∉ u.group.toList := by
  obtain ⟨name, hu, hdeclared⟩ := h.isProjectName
  obtain ⟨rfl, hnamed⟩ := hmodules name u hu
  exact hnamed hdeclared

theorem WellNamed.of_turned (hmodules : WellNamed policy.modules) (h : Turned policy lines u) :
    IsSegment u.name ∧ IsGroup u.group := by
  obtain ⟨name, hu, hdeclared⟩ := h.isProjectName
  obtain ⟨rfl, hnamed⟩ := hmodules name u hu
  exact ⟨(hnamed hdeclared).1, (hnamed hdeclared).2.isGroup⟩

end

/-- The names that lines declare, in order. -/
def declaredNames (lines : List String) : List String :=
  (lines.filterMap Dependency.ofLine?).map (·.name)

theorem declaredNames_eq (lines : List String) :
    declaredNames lines = lines.filterMap fun line => (Dependency.ofLine? line).map (·.name) := by
  rw [declaredNames, List.map_filterMap]

theorem contains_declared_iff {lines : List String} {name : String} :
    (declared lines).contains name = true ↔ name ∈ declaredNames lines := by
  rw [declared, listed, NameMap.contains_ofList, List.map_map]
  rfl

/-! ### What a policy desires -/

theorem get?_desired {policy : Policy} {known : Dependencies} {name : String} {wanted : Dependency}
    (h : (Node.desired policy known).get? name = some wanted) :
    ∃ d, known.get? name = some d ∧ wanted
      = if policy.modules.contains name then { d with source := policy.included.contains name }
        else d := by
  rw [Node.desired, NameMap.get?_mapValues] at h
  obtain ⟨d, hd, hwanted⟩ := Option.map_eq_some_iff.mp h
  exact ⟨d, hd, hwanted.symm⟩

theorem get?_desired_of_get? {policy : Policy} {known : Dependencies} {name : String}
    {d : Dependency} (h : known.get? name = some d) :
    (Node.desired policy known).get? name
      = some (if policy.modules.contains name
          then { d with source := policy.included.contains name } else d) := by
  rw [Node.desired, NameMap.get?_mapValues, h, Option.map_some]

theorem source_of_desired {policy : Policy} {known : Dependencies} {name : String}
    {wanted : Dependency} (h : (Node.desired policy known).get? name = some wanted)
    (hmodule : policy.modules.contains name = true) :
    wanted.source = policy.included.contains name := by
  obtain ⟨d, -, rfl⟩ := get?_desired h
  rw [if_pos hmodule]

/-- Only the forms of modules depend on the policy, so the last policy decides. -/
theorem desired_desired {policy policy' : Policy} (h : policy.modules = policy'.modules)
    (known : Dependencies) :
    Node.desired policy (Node.desired policy' known) = Node.desired policy known := by
  refine NameMap.ext fun k => ?_
  simp only [Node.desired, NameMap.get?_mapValues, Option.map_map]
  refine congrArg (Option.map · _) (funext fun d => ?_)
  simp only [Function.comp_apply, h]
  split <;> simp [*]

theorem Agrees.complies {policy : Policy} {known : Dependencies} {lines : List String}
    (h : Agrees (Node.desired policy known) lines) : Complies policy lines := by
  intro line hline d hread hmodule
  obtain ⟨wanted, hwanted, hsource⟩ := h line hline d hread
  exact hsource ▸ source_of_desired hwanted hmodule

/-! ### Restating a line -/

/-- The statement that a line is restated with. -/
def statementFor (modules : NameMap Manifest.Module) (wanted : Dependency) : String :=
  match modules.get? wanted.name with
  | some u => wanted.declarationFor u
  | none => wanted.declaration

/-- A statement is a declaration of what is wanted, under some coordinates. -/
theorem exists_statementFor_eq (modules : NameMap Manifest.Module) (wanted : Dependency) :
    ∃ group name, statementFor modules wanted = wanted.declare group name := by
  unfold statementFor
  split
  next u _ => exact ⟨u.group, u.name, rfl⟩
  next => exact ⟨wanted.group.getD "", wanted.name, rfl⟩

theorem tight_statementFor (modules : NameMap Manifest.Module) (d : Dependency) :
    Tight (statementFor modules d).toList := by
  obtain ⟨group, name, hstatement⟩ := exists_statementFor_eq modules d
  exact hstatement ▸ Dependency.tight_declare d group name

/-- What can be read of a restated line is in the form that was wanted, whatever the coordinates. -/
theorem source_of_ofLine?_restate_statementFor {modules : NameMap Manifest.Module}
    {wanted d : Dependency} {line : String}
    (h : Dependency.ofLine? (restate line (statementFor modules wanted)) = some d) :
    d.source = wanted.source := by
  obtain ⟨group, name, hstatement⟩ := exists_statementFor_eq modules wanted
  rw [hstatement] at h
  exact Dependency.source_of_ofLine?_restate h

/-- The group that a dependency is stated with: that of the module of its name, or its own. -/
def groupFor (modules : NameMap Manifest.Module) (wanted : Dependency) : String :=
  match modules.get? wanted.name with
  | some u => u.group
  | none => wanted.group.getD ""

theorem groupFor_of {P : String → Prop} {modules : NameMap Manifest.Module} {wanted : Dependency}
    (hmodules : ∀ name u, modules.get? name = some u → P u.group)
    (hown : modules.contains wanted.name = false → P (wanted.group.getD "")) :
    P (groupFor modules wanted) := by
  unfold groupFor
  split
  next u hu => exact hmodules _ u hu
  next hnone => exact hown (by rw [NameMap.contains, hnone, Option.isSome_none])

theorem statementFor_eq {modules : NameMap Manifest.Module} (htitled : Titled modules)
    (wanted : Dependency) :
    statementFor modules wanted = wanted.declare (groupFor modules wanted) wanted.name := by
  unfold statementFor groupFor
  split
  next u hu => rw [Dependency.declarationFor, htitled _ u hu]
  next => rfl

theorem restated?_eq_some_iff {desired : Dependencies} {modules : NameMap Manifest.Module}
    {line new : String} :
    restated? desired modules line = some new ↔
      ∃ found wanted, Dependency.ofLine? line = some found
        ∧ desired.get? found.name = some wanted ∧ wanted.source ≠ found.source
        ∧ new = restate line (statementFor modules wanted) := by
  simp only [restated?, Option.bind_eq_bind, Option.bind_eq_some_iff]
  constructor
  · rintro ⟨found, hfound, wanted, hwanted, h⟩
    split at h
    · cases h
    · rename_i hsource
      cases h
      exact ⟨found, wanted, hfound, hwanted, hsource, rfl⟩
  · rintro ⟨found, wanted, hfound, hwanted, hsource, rfl⟩
    exact ⟨found, hfound, wanted, hwanted, by rw [if_neg hsource]; rfl⟩

theorem restated?_eq_none_iff {desired : Dependencies} {modules : NameMap Manifest.Module}
    {line : String} :
    restated? desired modules line = none ↔ ∀ found, Dependency.ofLine? line = some found →
      ∀ wanted, desired.get? found.name = some wanted → wanted.source = found.source := by
  rw [Option.eq_none_iff_forall_ne_some]
  constructor
  · intro h found hread wanted hwanted
    by_contra hsource
    exact h _ (restated?_eq_some_iff.mpr ⟨found, wanted, hread, hwanted, hsource, rfl⟩)
  · intro h new hnew
    obtain ⟨found, wanted, hread, hwanted, hsource, -⟩ := restated?_eq_some_iff.mp hnew
    exact hsource (h found hread wanted hwanted)

/-- Whether a line declares a dependency in another form than desired. -/
def Misdeclares (desired : Dependencies) (line : String) : Prop :=
  ∃ found wanted, Dependency.ofLine? line = some found
    ∧ desired.get? found.name = some wanted ∧ wanted.source ≠ found.source

theorem restated?_ne_none_iff_misdeclares {desired : Dependencies}
    {modules : NameMap Manifest.Module} {line : String} :
    restated? desired modules line ≠ none ↔ Misdeclares desired line := by
  simp only [Option.ne_none_iff_exists', restated?_eq_some_iff, Misdeclares]
  constructor
  · rintro ⟨_, found, wanted, hfound, hwanted, hsource, -⟩
    exact ⟨found, wanted, hfound, hwanted, hsource⟩
  · rintro ⟨found, wanted, hfound, hwanted, hsource⟩
    exact ⟨_, found, wanted, hfound, hwanted, hsource, rfl⟩

/-- A line that is restated is never the same again: it is read in the other form or not at all. -/
theorem restated?_ne {desired : Dependencies} {modules : NameMap Manifest.Module} {line : String} :
    restated? desired modules line ≠ some line := by
  intro h
  obtain ⟨found, wanted, hread, -, hsource, hline⟩ := restated?_eq_some_iff.mp h
  rw [hline] at hread
  exact hsource (source_of_ofLine?_restate_statementFor hread).symm

theorem getD_restated?_eq_iff {desired : Dependencies} {modules : NameMap Manifest.Module}
    {line : String} :
    (restated? desired modules line).getD line = line ↔ restated? desired modules line = none := by
  cases h : restated? desired modules line with
  | none => simp
  | some new =>
    have hne : new ≠ line := fun heq => restated?_ne (heq ▸ h)
    simp [hne]

theorem restated?_eq_none_of_agrees {desired : Dependencies} {modules : NameMap Manifest.Module}
    {lines : List String} (h : Agrees desired lines) {line : String} (hline : line ∈ lines) :
    restated? desired modules line = none := by
  refine restated?_eq_none_iff.mpr fun found hread wanted hwanted => ?_
  obtain ⟨wanted', hwanted', hsource⟩ := h line hline found hread
  cases hwanted.symm.trans hwanted'
  exact hsource

theorem restateAll_snd_of_agrees {desired : Dependencies} {modules : NameMap Manifest.Module}
    {lines : List String} (h : Agrees desired lines) :
    (restateAll desired modules lines).2 = 0 := by
  rw [restateAll_snd, List.countP_eq_zero]
  intro line hline
  simp [restated?_eq_none_of_agrees h hline]

theorem restateAll_of_agrees {desired : Dependencies} {modules : NameMap Manifest.Module}
    {lines : List String} (h : Agrees desired lines) :
    (restateAll desired modules lines).1 = lines :=
  restateAll_of_count_eq_zero (restateAll_snd_of_agrees h)

/-- What is read of a line that was restated in the other form, if anything, has the name that was
found there: an artifact with a group is read under its name, and that of an artifact can be written
as that of a project. -/
theorem of_ofLine?_restate_declare {found wanted d : Dependency} {group line : String}
    (hread : Dependency.ofLine? line = some found) (hsource : wanted.source ≠ found.source)
    (hgroup : wanted.source = false → group ≠ "")
    (h : Dependency.ofLine? (restate line (wanted.declare group found.name)) = some d) :
    d.name = found.name ∧ d.source = wanted.source := by
  refine ⟨?_, Dependency.source_of_ofLine?_restate h⟩
  cases hs : wanted.source with
  | true =>
    have hsegment := (Legible.of_ofLine? hread).artifact (by simpa [hs] using hsource.symm)
    rw [Dependency.ofLine?_restate_project line _ hs hsegment.isProjectName] at h
    cases h
    rfl
  | false => exact Dependency.of_ofLine?_restate_artifact hs (hgroup hs) h

theorem covers_declared {modules : NameMap Manifest.Module} {lines : List String}
    (h : Untorn modules lines) : Covers modules (declared lines) lines := by
  intro line hline found hread
  obtain ⟨d, hd, line', hline', hread', hname⟩ := exists_get?_declared hline hread
  exact ⟨d, hd, hname, .of_ofLine? hread',
    h line hline line' hline' found d hread hread' hname.symm⟩

section

variable {policy : Policy} {known : Dependencies} {lines : List String}

/-- The coordinates that a line is restated with, and the name that it keeps. What is asked of the
groups is asked of those modules alone that turn from projects into artifacts. -/
theorem statementFor_eq_declare {P : String → Prop}
    (hword : ∀ group, IsWord group → P group) (htitled : Titled policy.modules)
    (hturned : ∀ u, Turned policy lines u → IsSegment u.name ∧ P u.group)
    (hcovers : Covers policy.modules known lines) {line : String} (hline : line ∈ lines)
    {found wanted : Dependency} (hread : Dependency.ofLine? line = some found)
    (hwanted : (Node.desired policy known).get? found.name = some wanted)
    (hsource : wanted.source ≠ found.source) :
    IsSegment found.name ∧ Spelled wanted ∧
      ∃ group, statementFor policy.modules wanted = wanted.declare group found.name
        ∧ (wanted.source = false → P group) := by
  obtain ⟨e, he, hname, hlegible, hgrouped⟩ := hcovers line hline found hread
  rw [get?_desired_of_get? he, Option.some.injEq] at hwanted
  have hproject : wanted.source = true → IsSegment found.name := fun hs =>
    (Legible.of_ofLine? hread).artifact (by simpa [hs] using hsource.symm)
  have hturns : wanted.source = false → found.source = true := fun hs => by simpa [hs] using hsource
  cases hmodule : policy.modules.contains found.name with
  | true =>
    obtain ⟨u, hu⟩ := Option.isSome_iff_exists.mp hmodule
    have huname := htitled _ u hu
    rw [hmodule, if_pos rfl] at hwanted
    have hallowed : wanted.source = false → IsSegment found.name ∧ P u.group := fun hs =>
      huname ▸ hturned u ⟨line, hline, found, hread, hturns hs, hu, by simpa [← hwanted] using hs⟩
    subst hwanted
    refine ⟨?_, ⟨hlegible.group, hlegible.version⟩, u.group, ?_, fun hs => (hallowed hs).2⟩
    · cases hs : policy.included.contains found.name with
      | true => exact hproject hs
      | false => exact (hallowed hs).1
    · simp only [statementFor, hname, hu, Dependency.declarationFor, huname]
  | false =>
    have hnone : policy.modules.get? found.name = none := by simpa [NameMap.contains] using hmodule
    rw [hmodule, if_neg (by simp)] at hwanted
    subst hwanted
    refine ⟨?_, hlegible.toSpelled, e.group.getD "", ?_, fun hs => ?_⟩
    · cases hs : e.source with
      | true => exact hproject hs
      | false => exact hname ▸ hlegible.artifact hs
    · rw [statementFor, hname, hnone, Dependency.declaration, hname]
    · obtain ⟨group, hgroup⟩ := Option.ne_none_iff_exists'.mp fun hgroup => by
        simp [hmodule] at hgrouped
        exact hgrouped (hturns hs) hs hgroup
      rw [hgroup, Option.getD_some]
      exact hword group (hlegible.group group hgroup)

/-- What a restated line says, if anything, is what was desired. -/
theorem of_ofLine?_restate_statementFor (hmodules : Nameable policy.modules)
    (hcovers : Covers policy.modules known lines) {line : String} (hline : line ∈ lines)
    {found wanted d : Dependency} (hread : Dependency.ofLine? line = some found)
    (hwanted : (Node.desired policy known).get? found.name = some wanted)
    (hsource : wanted.source ≠ found.source)
    (h : Dependency.ofLine? (restate line (statementFor policy.modules wanted)) = some d) :
    d.name = found.name ∧ d.source = wanted.source := by
  obtain ⟨-, -, group, hstatement, hgroup⟩ :=
    statementFor_eq_declare (P := (· ≠ "")) (fun _ h => h.1) hmodules.titled
      (fun _ hu => (hmodules.of_turned hu).imp_right And.left) hcovers hline hread hwanted hsource
  exact of_ofLine?_restate_declare hread hsource hgroup (hstatement ▸ h)

/-- A restated line keeps declaring its name, if those modules that turn into artifacts can be named
on a line. -/
theorem exists_ofLine?_restate_statementFor (htitled : Titled policy.modules)
    (hturned : ∀ u, Turned policy lines u → IsSegment u.name ∧ IsGroup u.group)
    (hcovers : Covers policy.modules known lines) {line : String} (hline : line ∈ lines)
    {found wanted : Dependency} (hread : Dependency.ofLine? line = some found)
    (hwanted : (Node.desired policy known).get? found.name = some wanted)
    (hsource : wanted.source ≠ found.source) :
    ∃ d, Dependency.ofLine? (restate line (statementFor policy.modules wanted)) = some d
      ∧ d.name = found.name := by
  obtain ⟨hsegment, hspelled, group, hstatement, hgroup⟩ :=
    statementFor_eq_declare (fun _ h => h.isGroup) htitled hturned hcovers hline hread hwanted hsource
  rw [hstatement]
  cases hs : wanted.source with
  | true => exact ⟨_, Dependency.ofLine?_restate_project line _ hs hsegment.isProjectName, rfl⟩
  | false =>
    exact ⟨_, Dependency.ofLine?_restate_artifact line hspelled hs (hgroup hs) hsegment, rfl⟩

/-- Every declaration among restated lines comes from one of its name, and is in the desired form.
-/
theorem of_mem_restateAll (hmodules : Nameable policy.modules)
    (hcovers : Covers policy.modules known lines) {line' : String} {d : Dependency}
    (hline' : line' ∈ (restateAll (Node.desired policy known) policy.modules lines).1)
    (hd : Dependency.ofLine? line' = some d) :
    (∃ line ∈ lines, ∃ found, Dependency.ofLine? line = some found ∧ found.name = d.name)
      ∧ ∃ wanted, (Node.desired policy known).get? d.name = some wanted
        ∧ wanted.source = d.source := by
  rw [restateAll_fst] at hline'
  obtain ⟨line, hline, rfl⟩ := List.mem_map.mp hline'
  cases hrestated : restated? (Node.desired policy known) policy.modules line with
  | none =>
    rw [hrestated, Option.getD_none] at hd
    obtain ⟨e, he, -⟩ := hcovers line hline d hd
    have hwanted : (Node.desired policy known).get? d.name = _ := get?_desired_of_get? he
    exact ⟨⟨line, hline, d, hd, rfl⟩, _, hwanted, restated?_eq_none_iff.mp hrestated d hd _ hwanted⟩
  | some new =>
    rw [hrestated, Option.getD_some] at hd
    obtain ⟨found, wanted, hread, hwanted, hsource, rfl⟩ := restated?_eq_some_iff.mp hrestated
    obtain ⟨hname, hform⟩ :=
      of_ofLine?_restate_statementFor hmodules hcovers hline hread hwanted hsource hd
    exact ⟨⟨line, hline, found, hread, hname.symm⟩, wanted, hname ▸ hwanted, hform.symm⟩

/-- Restated lines agree with what was desired. -/
theorem agrees_restateAll (hmodules : Nameable policy.modules)
    (hcovers : Covers policy.modules known lines) :
    Agrees (Node.desired policy known)
      (restateAll (Node.desired policy known) policy.modules lines).1 :=
  fun _ hline _ hd => (of_mem_restateAll hmodules hcovers hline hd).2

/-- What could restate lines once can restate them again. -/
theorem covers_restateAll (hmodules : Nameable policy.modules)
    (hcovers : Covers policy.modules known lines) :
    Covers policy.modules known
      (restateAll (Node.desired policy known) policy.modules lines).1 := by
  intro line' hline' d hd
  obtain ⟨⟨line, hline, found, hread, hname⟩, wanted, hwanted, hsource⟩ :=
    of_mem_restateAll hmodules hcovers hline' hd
  obtain ⟨e, he, hename, hlegible, -⟩ := hcovers line hline found hread
  rw [hname] at he hename
  refine ⟨e, he, hename, hlegible, fun htrue hfalse _ => ?_⟩
  by_contra hmodule
  rw [get?_desired_of_get? he, if_neg hmodule, Option.some.injEq] at hwanted
  rw [← hwanted, hfalse, htrue] at hsource
  cases hsource

/-- Restating keeps the names that lines declare. -/
theorem declaredNames_restateAll (htitled : Titled policy.modules)
    (hturned : ∀ u, Turned policy lines u → IsSegment u.name ∧ IsGroup u.group)
    (hcovers : Covers policy.modules known lines) :
    declaredNames (restateAll (Node.desired policy known) policy.modules lines).1
      = declaredNames lines := by
  rw [restateAll_fst, declaredNames_eq, declaredNames_eq, List.filterMap_map]
  refine List.filterMap_congr fun line hline => ?_
  cases hrestated : restated? (Node.desired policy known) policy.modules line with
  | none => simp [hrestated]
  | some new =>
    obtain ⟨found, wanted, hread, hwanted, hsource, rfl⟩ := restated?_eq_some_iff.mp hrestated
    obtain ⟨d, hd, hname⟩ :=
      exists_ofLine?_restate_statementFor htitled hturned hcovers hline hread hwanted hsource
    simp [hrestated, hread, hd, hname]

/-! ### A restated text -/

/-- Whatever but a quote gets into a declaration comes with its coordinates or its version. -/
theorem not_mem_declare_of_parts {c : Char} (hmark : isMark c = true) (hquote : isQuote c = false)
    {d : Dependency} {group name : String} (hname : c ∉ name.toList)
    (hartifact : d.source = false →
      c ∉ group.toList ∧ c ∉ (d.version.getD Dependency.unknownVersion).toList) :
    c ∉ (d.declare group name).toList := by
  have hverb : c ∉ d.verb.text.toList := by
    have hword : d.verb.text.toList.all isDottedChar = true := by cases d.verb <;> decide
    exact not_mem_of_isMark (isMark_of_all_isDottedChar hword) hmark
  have hc : c = '\n' ∨ c = ',' := by simpa [isMark, hquote] using hmark
  cases h : d.source with
  | true =>
    rw [Dependency.toList_declare_project h]
    rcases hc with rfl | rfl <;> simp [hverb, hname]
  | false =>
    obtain ⟨hgroup, hversion⟩ := hartifact h
    have hopen : c ≠ d.quote.char := by
      rintro rfl
      simp [Dependency.isQuote_char] at hquote
    rw [Dependency.toList_declare_artifact h]
    rcases hc with rfl | rfl <;> simp [hverb, hname, hgroup, hversion, hopen]

/-- A line feed or a comma gets into a declaration with the group of an artifact only. -/
theorem not_mem_declare {c : Char} (hmark : isMark c = true) (hquote : isQuote c = false)
    {d : Dependency} {group name : String} (hd : Spelled d) (hname : IsProjectName name)
    (hgroup : d.source = false → c ∉ group.toList) : c ∉ (d.declare group name).toList :=
  not_mem_declare_of_parts hmark hquote (not_mem_of_isMark hname.isMark hmark) fun h =>
    ⟨hgroup h, not_mem_of_isMark (fun e he =>
      (isMark_of_isVersion (Dependency.isVersion_getD_unknownVersion hd) e he).2) hmark⟩

/-- Statements of one line each give as many lines as there were. -/
theorem lineFeed_not_mem_restateAll_of_statements {desired : Dependencies}
    {modules : NameMap Manifest.Module} {lines : List String}
    (hlines : ∀ line ∈ lines, '\n' ∉ line.toList)
    (hstatements : ∀ line ∈ lines, ∀ found wanted, Dependency.ofLine? line = some found →
      desired.get? found.name = some wanted → wanted.source ≠ found.source →
      '\n' ∉ (statementFor modules wanted).toList) :
    ∀ line ∈ (restateAll desired modules lines).1, '\n' ∉ line.toList := by
  rw [restateAll_fst]
  intro line' hline'
  obtain ⟨line, hline, rfl⟩ := List.mem_map.mp hline'
  cases hrestated : restated? desired modules line with
  | none => exact hlines line hline
  | some new =>
    obtain ⟨found, wanted, hread, hwanted, hsource, rfl⟩ := restated?_eq_some_iff.mp hrestated
    exact lineFeed_not_mem_restate (hlines line hline)
      (hstatements line hline found wanted hread hwanted hsource)

theorem lineFeed_not_mem_restateAll (htitled : Titled policy.modules)
    (hturned : ∀ u, Turned policy lines u → IsSegment u.name ∧ '\n' ∉ u.group.toList)
    (hcovers : Covers policy.modules known lines) (hlines : ∀ line ∈ lines, '\n' ∉ line.toList) :
    ∀ line ∈ (restateAll (Node.desired policy known) policy.modules lines).1,
      '\n' ∉ line.toList := by
  refine lineFeed_not_mem_restateAll_of_statements hlines
    fun line hline found wanted hread hwanted hsource => ?_
  have hword : ∀ group, IsWord group → '\n' ∉ group.toList := fun group h =>
    not_mem_of_isMark (isMark_of_all_isDottedChar h.2) (by decide)
  obtain ⟨hsegment, hspelled, group, hstatement, hgroup⟩ :=
    statementFor_eq_declare hword htitled hturned hcovers hline hread hwanted hsource
  rw [hstatement]
  exact not_mem_declare (by decide) (by decide) hspelled hsegment.isProjectName hgroup

end

/-- A text with its declarations in the desired form. -/
def restateText (desired : Dependencies) (modules : NameMap Manifest.Module) (text : String) :
    String := joinLines (restateAll desired modules (splitLines text)).1

/-- A restated text is read back line by line. -/
theorem splitLines_restateText_of_lines {desired : Dependencies} {modules : NameMap Manifest.Module}
    {text : String}
    (h : ∀ line ∈ (restateAll desired modules (splitLines text)).1, '\n' ∉ line.toList) :
    splitLines (restateText desired modules text)
      = (restateAll desired modules (splitLines text)).1 := by
  refine splitLines_joinLines (fun hnil => splitLines_ne_nil text ?_) h
  rw [← List.length_eq_zero_iff, length_restateAll, List.length_eq_zero_iff] at hnil
  exact hnil

theorem splitLines_restateText_of_turned {policy : Policy} {known : Dependencies} {text : String}
    (htitled : Titled policy.modules)
    (hturned : ∀ u, Turned policy (splitLines text) u → IsSegment u.name ∧ '\n' ∉ u.group.toList)
    (hcovers : Covers policy.modules known (splitLines text)) :
    splitLines (restateText (Node.desired policy known) policy.modules text)
      = (restateAll (Node.desired policy known) policy.modules (splitLines text)).1 :=
  splitLines_restateText_of_lines (lineFeed_not_mem_restateAll htitled hturned hcovers
    fun _ hline => lineFeed_not_mem_of_mem_splitLines hline)

theorem splitLines_restateText {policy : Policy} {known : Dependencies} {text : String}
    (hmodules : Nameable policy.modules) (hcovers : Covers policy.modules known (splitLines text)) :
    splitLines (restateText (Node.desired policy known) policy.modules text)
      = (restateAll (Node.desired policy known) policy.modules (splitLines text)).1 :=
  splitLines_restateText_of_turned hmodules.titled
    (fun _ hu => (hmodules.of_turned hu).imp_right And.right) hcovers

/-- A restated text can be restated again. -/
theorem covers_restateText {policy : Policy} {known : Dependencies} {text : String}
    (hmodules : Nameable policy.modules) (hcovers : Covers policy.modules known (splitLines text)) :
    Covers policy.modules known
      (splitLines (restateText (Node.desired policy known) policy.modules text)) := by
  rw [splitLines_restateText hmodules hcovers]
  exact covers_restateAll hmodules hcovers

theorem restateText_of_agrees {desired : Dependencies} {modules : NameMap Manifest.Module}
    {text : String} (h : Agrees desired (splitLines text)) :
    restateText desired modules text = text := by
  rw [restateText, restateAll_of_agrees h, joinLines_splitLines]

/-- Restating a text once is enough. -/
theorem restateText_restateText {policy : Policy} {known : Dependencies} {text : String}
    (hmodules : Nameable policy.modules) (hcovers : Covers policy.modules known (splitLines text)) :
    restateText (Node.desired policy known) policy.modules
        (restateText (Node.desired policy known) policy.modules text)
      = restateText (Node.desired policy known) policy.modules text := by
  refine restateText_of_agrees ?_
  rw [splitLines_restateText hmodules hcovers]
  exact agrees_restateAll hmodules hcovers

end Inclusion
