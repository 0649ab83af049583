import Inclusion.Proofs.History
import Inclusion.Proofs.Memory

/-!
# What becomes of the lines of a build file

A node that has read its build file and then has a policy enforced on it changes those lines that
declare a dependency in another form than desired. A manifest module is desired in the form that the
policy asks for; any other name in the form of its last declaration in the file, so a name that is
declared both as a project and as an artifact ends up in one form.

* `Node.kept_enforce_iff`: the lines that stay as they are.
* `Node.declaredNames_enforce`: no declared name is lost, if the modules that turn from projects into
  artifacts can be named on a line.
-/
namespace Inclusion

open Text BuildFile

/-! ### The lines that stay -/

/-- Whether a declaration among lines is in the form that is desired: that of the policy for a
manifest module, that of the last declaration of its name for any other. -/
def InForm (policy : Policy) (lines : List String) (d : Dependency) : Prop :=
  if policy.modules.contains d.name then d.source = policy.included.contains d.name
  else ∀ last, (declared lines).get? d.name = some last → d.source = last.source

namespace Node

/-- For a node that has just been read, a declaration is in form exactly if it is as desired. -/
theorem inForm_iff {n n' : Node} {s : Shelf} {keep : Bool} {policy : Policy} {lines : List String}
    (hrefresh : n.refresh s keep = (.ok (), n')) (hread : Store.read s n'.file.path = .ok lines)
    {line : String} (hline : line ∈ lines) {found : Dependency}
    (hfound : Dependency.ofLine? line = some found) :
    InForm policy lines found
      ↔ ∀ wanted, (desired policy n'.all).get? found.name = some wanted →
        wanted.source = found.source := by
  obtain ⟨last, hlast, -⟩ := exists_get?_declared hline hfound
  obtain ⟨d, hd, hshows⟩ := shows_of_refresh hrefresh hread hlast
  rw [InForm, get?_desired_of_get? hd, hlast]
  simp only [Option.some.injEq, forall_eq']
  split
  next => exact eq_comm
  next => rw [hshows.source]; exact eq_comm

/-- Enforcing a policy on a node that has just been read keeps a line exactly if what it declares
is in form. The file keeps its lines in number and place, and no other file changes. -/
theorem kept_enforce_iff {n n' : Node} {s : Shelf} {keep : Bool} {lines : List String}
    (hrefresh : n.refresh s keep = (.ok (), n')) (hread : Store.read s n'.file.path = .ok lines)
    (policy : Policy) :
    ∃ lines', (n'.enforce s policy).2.2 = s.put n'.file.path (joinLines lines')
      ∧ lines'.length = lines.length
      ∧ ∀ (i : Nat) (line : String), lines[i]? = some line →
        (lines'[i]? = some line
          ↔ ∀ d, Dependency.ofLine? line = some d → InForm policy lines d) := by
  obtain ⟨text, htext, rfl⟩ := Shelf.read_eq_ok_iff.mp hread
  refine ⟨(restateAll (desired policy n'.all) policy.modules (splitLines text)).1, ?_,
    length_restateAll _ _ _, fun i line hline => ?_⟩
  · refine Shelf.ext fun l => ?_
    rw [textAt_enforce]
    simp only [Shelf.put, Shelf.set]
    split
    next h => rw [h, show s.textAt n'.file.path.location = some text from htext]; rfl
    next => rfl
  · rw [restateAll_fst, List.getElem?_map, hline, Option.map_some, Option.some.injEq,
      getD_restated?_eq_iff, restated?_eq_none_iff]
    have hmem : line ∈ splitLines text := List.mem_of_getElem? hline
    exact forall₂_congr fun d hd => (inForm_iff hrefresh hread hmem hd).symm

/-! ### A project of a workspace -/

/-- The node of a project whose build file has not been read. -/
def app : Node := Node.internal "app" ⟨"/ws"⟩ "build.gradle"

/-- The shelf with just its build file. -/
def appFile (text : String) : Shelf := .ofFiles [("/ws/app/build.gradle", text)]

theorem text?_appFile (text : String) : (appFile text).text? app.file.path = some text :=
  (Shelf.text?_put Shelf.empty ⟨"/ws/app/build.gradle"⟩ text app.file.path).trans
    (if_pos (by decide))

/-- The node after reading it. -/
def readApp (text : String) : Node := (app.refresh (appFile text) false).2

theorem all_readApp (text : String) : (readApp text).all = declared (splitLines text) := by
  rw [readApp, refresh_false, ← linesAt_of_read (Shelf.read_of_text? (text?_appFile text))]
  rfl

theorem path_readApp (text : String) : (readApp text).file.path = app.file.path := by
  rw [readApp, Node.refresh_false]
  exact BuildFile.path_refresh _ _

theorem read_appFile (text : String) :
    Store.read (appFile text) (readApp text).file.path = .ok (splitLines text) := by
  rw [path_readApp]
  exact Shelf.read_of_text? (text?_appFile text)

theorem refresh_app (text : String) :
    app.refresh (appFile text) false = (.ok (), readApp text) := by
  refine Prod.ext ?_ rfl
  have hread := path_readApp text ▸ read_appFile text
  simp only [Node.refresh, BuildFile.refresh, hread, Node.populate_false]

/-- An artifact that is declared before a project of the same name is not in form, so it changes. -/
theorem kept_enforce_iff_twice :
    let text := "api 'androidx.core:core:1.9'\napi project(':core')"
    ∃ lines', ((readApp text).enforce (appFile text) ⟨.empty, .empty⟩).2.2
        = (appFile text).put (readApp text).file.path (joinLines lines')
      ∧ lines'.length = (splitLines text).length
      ∧ ∀ (i : Nat) (line : String), (splitLines text)[i]? = some line →
        (lines'[i]? = some line ↔ ∀ d, Dependency.ofLine? line = some d →
          InForm ⟨.empty, .empty⟩ (splitLines text) d) :=
  kept_enforce_iff (refresh_app _) (read_appFile _) ⟨.empty, .empty⟩

/-- A line that declares no manifest module is rewritten, as a later one has its name. -/
theorem exists_enforce_foreign :
    ∃ (n n' : Node) (s : Shelf) (policy : Policy) (line : String) (lines lines' : List String)
      (d : Dependency),
      n.refresh s false = (.ok (), n') ∧ Store.read s n'.file.path = .ok lines
        ∧ lines[0]? = some line ∧ Dependency.ofLine? line = some d
        ∧ policy.modules.contains d.name = false
        ∧ (n'.enforce s policy).1 = .ok 1
        ∧ Store.read (n'.enforce s policy).2.2 n'.file.path = .ok lines'
        ∧ lines'[0]? ≠ some line := by
  let text := "api 'androidx.core:core:1.9'\napi project(':core')"
  have henforce : ((readApp text).enforce (appFile text) ⟨.empty, .empty⟩).1 = .ok 1
      ∧ ((readApp text).enforce (appFile text) ⟨.empty, .empty⟩).2.2.text? app.file.path
        = some "api project(\":core\")\napi project(':core')" := by
    decide +kernel
  refine ⟨app, readApp text, appFile text, ⟨.empty, .empty⟩, "api 'androidx.core:core:1.9'", _,
    splitLines "api project(\":core\")\napi project(':core')",
    { name := "core", group := some "androidx.core", verb := .api, quote := .single,
      source := false, version := some "1.9" },
    refresh_app text, read_appFile text, by decide, by decide +kernel, rfl, henforce.1, ?_,
    by decide⟩
  rw [path_readApp]
  exact Shelf.read_eq_ok_iff.mpr ⟨_, henforce.2, rfl⟩

end Node

/-! ### The names that stay -/

/-- The policy of a manifest of which some modules are included. -/
def Manifest.policy (manifest : Manifest) (included : NameSet) : Policy where
  modules := .ofList (manifest.modules.map fun u => (u.name, u))
  included := included

theorem Manifest.of_get?_policy {manifest : Manifest} {included : NameSet} {name : String}
    {u : Manifest.Module} (h : (manifest.policy included).modules.get? name = some u) :
    u.name = name ∧ u ∈ manifest.modules :=
  Workspace.of_get?_listing (w := .blank ⟨"/"⟩ {} manifest) h

theorem Manifest.titled_policy (manifest : Manifest) (included : NameSet) :
    Titled (manifest.policy included).modules := fun _ _ h => (of_get?_policy h).1

namespace Node

/-- Enforcing the policy of a manifest keeps the names that the lines of a build file declare, in
order, whatever the node went through before it read the file. -/
theorem declaredNames_enforce (manifest : Manifest) (included : NameSet) {n n' : Node} {s : Shelf}
    {keep : Bool} {lines : List String} (hn : n.Reached)
    (hrefresh : n.refresh s keep = (.ok (), n')) (hread : Store.read s n'.file.path = .ok lines)
    (hturned : ∀ u, Turned (manifest.policy included) lines u →
      IsSegment u.name ∧ IsGroup u.group)
    (huntorn : Untorn (manifest.policy included).modules lines) :
    ∃ lines', Store.read (n'.enforce s (manifest.policy included)).2.2 n'.file.path = .ok lines'
      ∧ declaredNames lines' = declaredNames lines := by
  have htitled := manifest.titled_policy included
  have hcovers := covers_of_refresh hn hrefresh hread huntorn
  obtain ⟨text, htext, rfl⟩ := Shelf.read_eq_ok_iff.mp hread
  have hafter := textAt_enforce n' s (manifest.policy included) n'.file.path.location
  rw [if_pos rfl, show s.textAt n'.file.path.location = some text from htext] at hafter
  refine ⟨_, Shelf.read_eq_ok_iff.mpr ⟨_, hafter, rfl⟩, ?_⟩
  have hlines : ∀ u, Turned (manifest.policy included) (splitLines text) u →
      IsSegment u.name ∧ '\n' ∉ u.group.toList := fun u hu =>
    (hturned u hu).imp_right fun hgroup => not_mem_of_isMark hgroup.isMark (by decide)
  rw [splitLines_restateText_of_turned htitled hlines hcovers]
  exact declaredNames_restateAll htitled hturned hcovers

/-- A project that turns into an artifact keeps its name. -/
theorem declaredNames_enforce_turned :
    let manifest : Manifest := { name := "d", modules := [⟨"core", "core", "com.example"⟩] }
    let text := "  api project(':core')"
    ∃ lines', Store.read ((readApp text).enforce (appFile text) (manifest.policy .empty)).2.2
        (readApp text).file.path = .ok lines'
      ∧ declaredNames lines' = declaredNames (splitLines text) := by
  intro manifest text
  have hlines : splitLines text = [text] := by decide
  refine declaredNames_enforce manifest .empty (.internal "app" ⟨"/ws"⟩ "build.gradle")
    (refresh_app text) (read_appFile text) ?_ ?_
  · rintro u ⟨line, -, d, -, -, hu, -⟩
    rw [List.mem_singleton.mp (Manifest.of_get?_policy hu).2]
    decide
  · intro l₁ h₁ l₂ h₂ d₁ d₂ hd₁ hd₂ _ hs₁ hs₂
    rw [hlines, List.mem_singleton] at h₁ h₂
    rw [h₁, ← h₂, hd₂] at hd₁
    cases hd₁
    simp [hs₁] at hs₂

/-- Whether there is a build file on which enforcing the policy of a manifest without included
modules succeeds, but other names are declared afterwards. -/
def Loses (manifest : Manifest) : Prop :=
  ∃ (n n' : Node) (s : Shelf) (keep : Bool) (lines lines' : List String) (count : Nat), n.Reached
    ∧ n.refresh s keep = (.ok (), n') ∧ Store.read s n'.file.path = .ok lines
    ∧ (n'.enforce s (manifest.policy .empty)).1 = .ok count
    ∧ Store.read (n'.enforce s (manifest.policy .empty)).2.2 n'.file.path = .ok lines'
    ∧ declaredNames lines' ≠ declaredNames lines

theorem loses_of_text {manifest : Manifest} (text text' : String)
    (henforce : ((readApp text).enforce (appFile text) (manifest.policy .empty)).1 = .ok 1
      ∧ ((readApp text).enforce (appFile text) (manifest.policy .empty)).2.2.text? app.file.path
        = some text')
    (hnames : declaredNames (splitLines text') ≠ declaredNames (splitLines text)) :
    Loses manifest := by
  refine ⟨app, readApp text, appFile text, false, _, splitLines text', 1,
    .internal "app" ⟨"/ws"⟩ "build.gradle", refresh_app text, read_appFile text, henforce.1, ?_,
    hnames⟩
  rw [path_readApp]
  exact Shelf.read_of_text? henforce.2

/-- A declaration is lost if the group of its module cannot stand on a line, if its name is no single
segment, or if there is no group: then the name is read as the group. -/
theorem loses_of_unspeakable :
    Loses { name := "d", modules := [⟨"x", "x", "my group"⟩] }
      ∧ Loses { name := "d", modules := [⟨"a:b", "x", "g"⟩] }
      ∧ Loses { name := "d", modules := [⟨"x", "x", ""⟩] } := by
  refine ⟨loses_of_text "api project(':x')" "api 'my group:x:UNKNOWN'" ?_ ?_,
    loses_of_text "api project(':a:b')" "api 'g:a:b:UNKNOWN'" ?_ ?_,
    loses_of_text "api project(':x')" "api ':x:UNKNOWN'" ?_ ?_⟩
  all_goals decide +kernel

end Node

end Inclusion
