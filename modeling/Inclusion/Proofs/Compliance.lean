import Inclusion.Proofs.Shape

/-!
# Which build files comply after an update

An update is to bring the build files of all nodes inside the workspace in line with the policy. It
restates those of the nodes it meets: the ones that can be reached from a root inside the workspace
without leaving it. Every other build file stays as it was, also that of a node inside which only
nodes outside lead to, or which only a cycle leads to, so that such a file complies only if it did
before.

* `textAt_comply`: the texts after a pass over nodes that know their build files.
* `complies_iff_of_updated`: the build files that comply.
-/
namespace Inclusion

open Text

namespace Workspace

/-- Whether the nodes of a workspace know what their build files declare. -/
def Informed (w : Workspace) (s : Shelf) : Prop :=
  ∀ name n, w.nodes.get? name = some n → n.all = declared (linesAt s n.file.path)

open Classical in
/-- The texts after a pass over informed nodes. -/
theorem textAt_comply {w : Workspace} {s : Shelf} {path : Path} (hmodules : Nameable w.modules)
    (hinformed : w.Informed s) (huntorn : Untorn w.modules (linesAt s path)) :
    (w.comply s).2.text? path
      = if ∃ met, w.IsMet met ∧ w.IsAt met path.location
        then (s.text? path).map
          (restateText (Node.desired w.policy (declared (linesAt s path))) w.policy.modules)
        else s.text? path := by
  have hshares : w.Shares path.location (declared (linesAt s path)) := by
    intro name n hn hl
    rw [hinformed name n hn, linesAt_of_same hl]
  have hcovers : ∀ text, s.textAt path.location = some text →
      Covers w.policy.modules (declared (linesAt s path)) (splitLines text) := by
    intro text htext
    have hlines : linesAt s path = splitLines text :=
      linesAt_of_read (Shelf.read_of_text? htext)
    rw [hlines] at huntorn ⊢
    exact covers_declared huntorn
  have hmet : (∃ name ∈ w.visitOrder, w.IsAt name path.location)
      ↔ ∃ met, w.IsMet met ∧ w.IsAt met path.location := by
    simp only [mem_visitOrder_iff]
  have htext := textAt_enforceAll hmodules hshares hcovers w.visitOrder
  simp only [hmet] at htext
  exact htext

/-- After a pass over informed nodes, a file complies with the policy exactly if it did before or if
it is the build file of a node that is met. -/
theorem complies_comply_iff {w : Workspace} {s : Shelf} {path : Path} {lines : List String}
    (hmodules : Nameable w.modules) (hinformed : w.Informed s)
    (hread : Store.read s path = .ok lines) (huntorn : Untorn w.modules lines) :
    ∃ lines', Store.read (w.comply s).2 path = .ok lines'
      ∧ (Complies w.policy lines' ↔
          (∃ met, w.IsMet met ∧ w.IsAt met path.location) ∨ Complies w.policy lines) := by
  obtain ⟨text, htext, rfl⟩ := Shelf.read_eq_ok_iff.mp hread
  have hlines := linesAt_of_read hread
  have hafter := textAt_comply hmodules hinformed (hlines ▸ huntorn)
  rw [htext, hlines] at hafter
  split at hafter
  next hmet =>
    have hcovers := covers_declared huntorn
    have hagrees : Agrees (Node.desired w.policy (declared (splitLines text))) _ :=
      agrees_restateAll hmodules hcovers
    rw [← splitLines_restateText hmodules hcovers] at hagrees
    exact ⟨_, Shelf.read_of_text? hafter,
      iff_of_true hagrees.complies (.inl hmet)⟩
  next hmet =>
    refine ⟨_, Shelf.read_of_text? hafter, ?_⟩
    simp only [hmet, false_or]

/-! ### After an update -/

/-- The states right after an update, each with the files before and after it. -/
inductive Updated (base : Path) (config : Config) : Shelf → Workspace → Shelf → Prop
  | load {s s' : Shelf} {w : Workspace} (h : Workspace.load s base config = .ok (w, s')) :
    Updated base config s w s'
  | update {w : Workspace} {s : Shelf} (h : Reachable base config w s) (keep : Bool) :
    Updated base config s (w.update s keep).1 (w.update s keep).2

variable {base : Path} {config : Config} {w : Workspace} {s s' : Shelf}

theorem Updated.exists_update (h : Updated base config s w s') :
    ∃ (w₀ : Workspace) (keep : Bool), w₀.Sound ∧ (w, s') = w₀.update s keep := by
  cases h with
  | load h =>
    obtain ⟨manifest, -, hr⟩ := load_eq_ok_iff.mp h
    exact ⟨_, false, (Fits.blank base config manifest).sound, hr⟩
  | update h keep => exact ⟨_, keep, h.fits.sound, rfl⟩

theorem nameable_listing {w : Workspace} (h : ∀ u ∈ w.manifest.modules,
      IsSegment u.name ∧ u.group ≠ "" ∧ '\n' ∉ u.group.toList) : Nameable w.listing := by
  intro name u hu
  obtain ⟨hname, hmem⟩ := of_get?_listing hu
  exact ⟨hname, fun _ => hname ▸ h u hmem⟩

/-- After an update, the build file of a node complies with the policy exactly if it did before or
if it is the build file of a node that is met. -/
theorem complies_iff_of_updated (h : Updated base config s w s')
    (hmanifest : ∀ u ∈ w.manifest.modules,
      IsSegment u.name ∧ u.group ≠ "" ∧ '\n' ∉ u.group.toList)
    {name : String} {n : Node} (hn : w.nodes.get? name = some n) {lines : List String}
    (hread : Store.read s n.file.path = .ok lines) (huntorn : Untorn w.modules lines) :
    ∃ lines', Store.read s' n.file.path = .ok lines'
      ∧ (Complies w.policy lines' ↔
          (∃ met, w.IsMet met ∧ w.IsAt met n.file.path.location) ∨ Complies w.policy lines) := by
  obtain ⟨w₀, keep, hsound, hupdate⟩ := h.exists_update
  obtain rfl : w = ((w₀.survey s keep).comply s).1 := congrArg Prod.fst hupdate
  obtain rfl : s' = ((w₀.survey s keep).comply s).2 := congrArg Prod.snd hupdate
  have hinformed : (w₀.survey s keep).Informed s := fun _ _ h => all_of_survey hsound h
  have hmodules : Nameable (w₀.survey s keep).modules := by
    rw [manifest_comply, manifest_survey] at hmanifest
    rw [modules_survey]
    exact nameable_listing hmanifest
  rw [modules_comply] at huntorn
  simp only [policy_comply, isMet_comply, isAt_comply]
  exact complies_comply_iff hmodules hinformed hread huntorn

/-- A module that is included, but that only an excluded one leads to. -/
def unmetFiles : Shelf := .ofFiles
  [ ("/ws/workspace.manifest",
      "[\"d\",\"\",[[\"app\",\"app\",\"g\"],[\"core\",\"core\",\"g\"],[\"util\",\"util\",\"g\"]]]"),
    ("/ws/settings.gradle", "include ':core'"),
    ("/ws/app/build.gradle", "api 'g:core:1.0'"),
    ("/ws/core/build.gradle", "api project(':util')") ]

def unmetManifest : Manifest :=
  { name := "d", modules := [⟨"app", "app", "g"⟩, ⟨"core", "core", "g"⟩, ⟨"util", "util", "g"⟩] }

theorem load_unmetFiles :
    Manifest.load unmetFiles ⟨"/ws/workspace.manifest"⟩ = .ok unmetManifest := by
  have hwritten : unmetFiles.text? ⟨"/ws/workspace.manifest"⟩ = some
      "[\"d\",\"\",[[\"app\",\"app\",\"g\"],[\"core\",\"core\",\"g\"],[\"util\",\"util\",\"g\"]]]" := by
    decide
  exact (Manifest.load_of_text? hwritten).trans rfl

/-- The build file of the included module is not met there, so it complies only if it did before. -/
theorem complies_iff_of_updated_unmet :
    ∃ (w : Workspace) (s' : Shelf) (n : Node) (lines' : List String),
      Workspace.load unmetFiles ⟨"/ws"⟩ {} = .ok (w, s') ∧ w.nodes.get? "core" = some n
        ∧ Store.read s' n.file.path = .ok lines'
        ∧ (Complies w.policy lines' ↔ (∃ met, w.IsMet met ∧ w.IsAt met n.file.path.location)
            ∨ Complies w.policy ["api project(':util')"]) := by
  let v := (blank ⟨"/ws"⟩ {} unmetManifest).survey unmetFiles false
  have hupdate : Workspace.load unmetFiles ⟨"/ws"⟩ {} = .ok (v.comply unmetFiles) :=
    load_eq_ok_iff.mpr ⟨unmetManifest, load_unmetFiles, rfl⟩
  have hupdated : Updated ⟨"/ws"⟩ {} unmetFiles (v.comply unmetFiles).1 (v.comply unmetFiles).2 :=
    .load hupdate
  obtain ⟨m, hm, hpath⟩ : ∃ m, v.nodes.get? "core" = some m
      ∧ m.file.path = ⟨"/ws/core/build.gradle"⟩ :=
    Option.map_eq_some_iff.mp (by decide +kernel)
  obtain ⟨n, hn, hstyle⟩ := exists_restyled_comply unmetFiles hm
  have hread : Store.read unmetFiles n.file.path = .ok ["api project(':util')"] := by
    rw [hstyle.path, hpath]
    exact Shelf.read_eq_ok_iff.mpr ⟨"api project(':util')", by decide, by decide⟩
  have huntorn : Untorn (v.comply unmetFiles).1.modules ["api project(':util')"] := by
    intro l₁ h₁ l₂ h₂ d₁ d₂ hd₁ hd₂ _ hs₁ hs₂
    rw [List.mem_singleton.mp h₁, ← List.mem_singleton.mp h₂, hd₂] at hd₁
    cases hd₁
    simp [hs₁] at hs₂
  have hmanifest : ∀ u ∈ (v.comply unmetFiles).1.manifest.modules,
      IsSegment u.name ∧ u.group ≠ "" ∧ '\n' ∉ u.group.toList := by
    rw [manifest_comply, manifest_survey]
    decide
  obtain ⟨lines', hlines', hiff⟩ := complies_iff_of_updated hupdated hmanifest hn hread huntorn
  exact ⟨_, _, n, lines', hupdate, hn, hlines', hiff⟩

/-- Whether loading from files leaves the build file of a node inside without compliance, though all
modules have names of one segment and groups. -/
def Violates (s : Shelf) : Prop :=
  ∃ (w : Workspace) (s' : Shelf) (name : String) (n : Node) (lines : List String),
    Workspace.load s ⟨"/ws"⟩ {} = .ok (w, s')
      ∧ (∀ u ∈ w.manifest.modules, IsSegment u.name ∧ u.group ≠ "")
      ∧ w.nodes.get? name = some n ∧ w.inside name = true
      ∧ Store.read s' n.file.path = .ok lines ∧ ¬Complies w.policy lines

theorem violates_of_survey {s : Shelf} {name text : String} (line : String) {manifest : Manifest}
    {path : Path} {d : Dependency} {order : List String} {v : Workspace}
    (hv : v = (blank ⟨"/ws"⟩ {} manifest).survey s false)
    (hload : Manifest.load s ⟨"/ws/workspace.manifest"⟩ = .ok manifest)
    (hmanifest : ∀ u ∈ manifest.modules, IsSegment u.name ∧ u.group ≠ "")
    (horder : v.visitOrder = order)
    (hnode : v.inside name = true ∧ (v.nodes.get? name).map (·.file.path) = some path)
    (htext : (v.enforceAll s order).2.text? path = some text) (hline : line ∈ splitLines text)
    (hread : Dependency.ofLine? line = some d)
    (hsource : v.modules.contains d.name = true ∧ d.source ≠ v.included.contains d.name) :
    Violates s := by
  obtain ⟨n, hn, hpath⟩ := Option.map_eq_some_iff.mp hnode.2
  obtain ⟨n', hn', hstyle⟩ := exists_restyled_comply s hn
  have hmanifest' : v.manifest = manifest := by rw [hv, manifest_survey]; rfl
  refine ⟨(v.comply s).1, (v.comply s).2, name, n', splitLines text,
    load_eq_ok_iff.mpr ⟨manifest, hload, by rw [update, hv]⟩, ?_, hn', ?_, ?_, ?_⟩
  · rw [manifest_comply, hmanifest']
    exact hmanifest
  · rw [inside_comply]
    exact hnode.1
  · rw [hstyle.path, hpath, Shelf.read_eq_ok_iff]
    exact ⟨text, by rw [comply, horder]; exact htext, rfl⟩
  · rw [policy_comply]
    exact fun h => hsource.2 (h line hline d hread hsource.1)

/-- A module whose group is broken over lines, one of which is a declaration of its own. -/
def brokenFiles : Shelf := .ofFiles
  [ ("/ws/workspace.manifest", "[\"d\",\"\",[[\"x\",\"x\",\"g\\napi project(':x')\\nh\"]]]"),
    ("/ws/settings.gradle", "include ':app'"),
    ("/ws/app/build.gradle", "api project(':x')") ]

/-- A name outside the manifest that is declared as a project and as an artifact without a group. -/
def tornFiles : Shelf := .ofFiles
  [ ("/ws/workspace.manifest", "[\"d\",\"\",[[\"x\",\"x\",\"g\"]]]"),
    ("/ws/settings.gradle", "include ':app', ':x'"),
    ("/ws/app/build.gradle", "api project(':n')\napi '::n:x'") ]

theorem unmet_violates : Violates unmetFiles := by
  generalize hv : (blank ⟨"/ws"⟩ {} unmetManifest).survey unmetFiles false = v
  have h : (v.roots = ["app"] ∧ v.nodes.keys.filter v.inside = ["core"])
      ∧ (v.inside "core" = true
        ∧ (v.nodes.get? "core").map (·.file.path) = some ⟨"/ws/core/build.gradle"⟩)
      ∧ v.modules.contains "util" = true ∧ true ≠ v.included.contains "util" := by
    subst hv
    decide +kernel
  have horder : v.visitOrder = [] := by simp [visitOrder, h.1, traverse]
  have htext : unmetFiles.text? ⟨"/ws/core/build.gradle"⟩ = some "api project(':util')" := by decide
  exact violates_of_survey "api project(':util')"
    (d := { name := "util", verb := .api, quote := .single, source := true })
    hv.symm load_unmetFiles (by decide) horder h.2.1 htext (by decide) (by decide +kernel) h.2.2

theorem broken_violates : Violates brokenFiles := by
  have hwritten : brokenFiles.text? ⟨"/ws/workspace.manifest"⟩
      = some "[\"d\",\"\",[[\"x\",\"x\",\"g\\napi project(':x')\\nh\"]]]" := by decide
  generalize hv : (blank ⟨"/ws"⟩ {} { name := "d", modules :=
    [⟨"x", "x", "g\napi project(':x')\nh"⟩] }).survey brokenFiles false = v
  have h : (v.roots = ["app"] ∧ v.nodes.keys.filter v.inside = ["app"] ∧ v.edgesOf "app" = ["x"])
      ∧ (v.inside "app" = true
        ∧ (v.nodes.get? "app").map (·.file.path) = some ⟨"/ws/app/build.gradle"⟩)
      ∧ (v.enforceAll brokenFiles ["app"]).2.text? ⟨"/ws/app/build.gradle"⟩
        = some "api 'g\napi project(':x')\nh:x:UNKNOWN'"
      ∧ v.modules.contains "x" = true ∧ true ≠ v.included.contains "x" := by
    subst hv
    decide +kernel
  have horder : v.visitOrder = ["app"] := by simp [visitOrder, h.1, traverse]
  exact violates_of_survey "api project(':x')"
    (d := { name := "x", verb := .api, quote := .single, source := true })
    hv.symm ((Manifest.load_of_text? hwritten).trans rfl) (by decide) horder h.2.1 h.2.2.1
    (by decide) (by decide +kernel) h.2.2.2

theorem torn_violates : Violates tornFiles := by
  have hwritten : tornFiles.text? ⟨"/ws/workspace.manifest"⟩
      = some "[\"d\",\"\",[[\"x\",\"x\",\"g\"]]]" := by decide
  generalize hv : (blank ⟨"/ws"⟩ {} { name := "d", modules := [⟨"x", "x", "g"⟩] }).survey tornFiles
    false = v
  have h : (v.roots = ["app", "x"] ∧ v.nodes.keys.filter v.inside = ["app", "x"]
        ∧ v.edgesOf "app" = [] ∧ v.edgesOf "x" = [])
      ∧ (v.inside "app" = true
        ∧ (v.nodes.get? "app").map (·.file.path) = some ⟨"/ws/app/build.gradle"⟩)
      ∧ (v.enforceAll tornFiles ["app", "x"]).2.text? ⟨"/ws/app/build.gradle"⟩
        = some "api ':n:x'\napi '::n:x'"
      ∧ v.modules.contains "x" = true ∧ false ≠ v.included.contains "x" := by
    subst hv
    decide +kernel
  have horder : v.visitOrder = ["app", "x"] := by simp [visitOrder, h.1, traverse]
  exact violates_of_survey "api ':n:x'"
    (d := { name := "x", group := some "n", verb := .api, quote := .single, source := false })
    hv.symm ((Manifest.load_of_text? hwritten).trans rfl) (by decide) horder h.2.1 h.2.2.1
    (by decide) (by decide +kernel) h.2.2.2

/-- Opening a workspace does not make the build file of every node inside comply: a node may not be
met, and what is written may not be what was asked for. -/
theorem load_violates : Violates unmetFiles ∧ Violates brokenFiles ∧ Violates tornFiles :=
  ⟨unmet_violates, broken_violates, torn_violates⟩

end Workspace

end Inclusion
