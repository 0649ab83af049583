import Inclusion.Proofs.Performing

/-!
# Which files an operation may change

Whatever a caller asks of a workspace, no file comes or goes. A file that changes is the build file of
a node that is part of the workspace afterwards, or the settings file if a module is included or
excluded.

* `spares_run`, `rest_of_run`: what any operation leaves alone.
* `exists_rewritten_outside`: a build file that is the settings file too, of a module outside.
-/
namespace Inclusion.Workspace

open Settings

/-- What a caller can ask of a workspace. -/
inductive Operation
  | update (keep : Bool)
  | reload (keep : Bool)
  | replaceManifest (manifest : Manifest) (keep : Bool)
  | change (c : Change)

/-- Carries an operation out. One that fails to load a manifest does nothing. -/
def run {σ : Type} [Store σ] (w : Workspace) (store : σ) : Operation → Workspace × σ
  | .update keep => w.update store keep
  | .reload keep =>
    match w.reload store keep with
    | .error _ => (w, store)
    | .ok r => r
  | .replaceManifest manifest keep => w.replaceManifest store manifest keep
  | .change c => (w.perform store c).2

variable {w : Workspace} {s t : Shelf} {path : Path}

/-- Whether the build file of a node that is part of the workspace is at a path. -/
def Holds (w : Workspace) (path : Path) : Prop :=
  ∃ name, w.inside name = true ∧ w.IsAt name path.location

/-- Whether no file came or went and those that changed are build files of nodes inside, or `also`
among them. -/
structure Spares (w : Workspace) (also : Path → Prop) (s t : Shelf) : Prop where
  isSome : ∀ path, (t.text? path).isSome = (s.text? path).isSome
  changed : ∀ path, t.text? path ≠ s.text? path → w.Holds path ∨ also path

theorem Spares.refl (w : Workspace) (also : Path → Prop) (s : Shelf) : w.Spares also s s :=
  ⟨fun _ => rfl, fun _ hne => absurd rfl hne⟩

theorem Spares.mono {also also' : Path → Prop} (h : w.Spares also s t)
    (hmore : ∀ path, also path → also' path) : w.Spares also' s t :=
  ⟨h.isSome, fun path hne => (h.changed path hne).imp_right (hmore path)⟩

/-- A pass changes build files of nodes inside only. -/
theorem holds_of_text?_comply_ne (h : (w.comply s).2.text? path ≠ s.text? path) :
    (w.comply s).1.Holds path := by
  by_contra hnone
  refine h (textAt_comply_of_not_isAt (fun name hmet hat => hnone ⟨name, ?_, ?_⟩) s)
  · rw [inside_comply]
    exact inside_of_mem_visitOrder (mem_visitOrder_iff.mpr hmet)
  · exact isAt_comply.mpr hat

theorem spares_comply {also : Path → Prop} (h : (w.comply t).1.Spares also s t) :
    (w.comply t).1.Spares also s (w.comply t).2 where
  isSome path := (isSome_textAt_comply w t path.location).trans (h.isSome path)
  changed path hne := by
    by_cases hsame : t.text? path = s.text? path
    · exact .inl (holds_of_text?_comply_ne (hsame ▸ hne))
    · exact h.changed path hsame

theorem spares_update (w : Workspace) (s : Shelf) (keep : Bool) :
    (w.update s keep).1.Spares (fun _ => False) s (w.update s keep).2 :=
  spares_comply (.refl _ _ s)

theorem isSome_text?_editSettings {v : Workspace} {edit : Settings.Snapshot → Settings.Snapshot}
    (h : w.editSettings s edit = (.ok (), v, t)) (path : Path) :
    (t.text? path).isSome = (s.text? path).isSome := by
  by_cases hpath : path.Same w.settings.path
  · have hthere := isSome_of_read (read_of_editSettings h)
    obtain ⟨t', hedit, hkept⟩ := exists_editSettings edit hthere
    obtain rfl : t' = t := by
      rw [h] at hedit
      exact (Prod.mk.inj (Prod.mk.inj hedit).2).2.symm
    rw [Shelf.text?, Shelf.text?, show path.location = w.settings.path.location from hpath]
    exact hkept.trans hthere.symm
  · rw [text?_editSettings h hpath]

theorem spares_editSettings {v : Workspace} {edit : Settings.Snapshot → Settings.Snapshot}
    (h : w.editSettings s edit = (.ok (), v, t)) (w' : Workspace) :
    w'.Spares (·.Same w.settings.path) s t where
  isSome := isSome_text?_editSettings h
  changed _ hne := .inr (by_contra fun hpath => hne (text?_editSettings h hpath))

theorem spares_perform (w : Workspace) (s : Shelf) (c : Change) :
    (w.perform s c).2.1.Spares (·.Same w.settings.path) s (w.perform s c).2.2 := by
  generalize hr : w.perform s c = r
  cases hr ▸ outcome_perform w s c with
  | unlisted => exact .refl _ _ s
  | refused => exact .refl _ _ s
  | enforced hu hedit => exact spares_comply (spares_editSettings hedit _)
  | dropped hu hedit => exact spares_editSettings hedit _

theorem spares_run (w : Workspace) (s : Shelf) (o : Operation) :
    (w.run s o).1.Spares (fun path => (∃ c, o = .change c) ∧ path.Same w.settings.path) s
      (w.run s o).2 := by
  cases o with
  | update keep => exact (spares_update w s keep).mono fun _ => False.elim
  | reload keep =>
    unfold run
    dsimp only
    split
    next => exact .refl _ _ s
    next r hreload =>
      obtain ⟨manifest, -, rfl⟩ := reload_eq_ok_iff.mp hreload
      exact (spares_update _ s keep).mono fun _ => False.elim
  | replaceManifest manifest keep => exact (spares_update _ s keep).mono fun _ => False.elim
  | change c => exact (spares_perform w s c).mono fun _ hpath => ⟨⟨c, rfl⟩, hpath⟩

/-- No operation makes or removes a file. Those that change are build files of nodes that are part of
the workspace afterwards, and the settings file if a module is included or excluded. So the build
file of a node outside stays as it is, unless one inside has the same or it is the settings file in
such a change. -/
theorem rest_of_run (w : Workspace) (s : Shelf) (o : Operation) :
    (∀ path, ((w.run s o).2.text? path).isSome = (s.text? path).isSome)
      ∧ (∀ path, (w.run s o).2.text? path ≠ s.text? path →
          (w.run s o).1.Holds path ∨ (∃ c, o = .change c) ∧ path.Same w.settings.path)
      ∧ ∀ name n, (w.run s o).1.nodes.get? name = some n → (w.run s o).1.inside name = false →
          ¬(w.run s o).1.Holds n.file.path →
          (∀ c, o = .change c → ¬n.file.path.Same w.settings.path) →
          (w.run s o).2.text? n.file.path = s.text? n.file.path := by
  have hspares := spares_run w s o
  refine ⟨hspares.isSome, hspares.changed, fun name n _ _ hapart hsettings => ?_⟩
  by_contra hne
  rcases hspares.changed _ hne with hholds | ⟨⟨c, hc⟩, hpath⟩
  · exact hapart hholds
  · exact hsettings c hc hpath

/-- A module that is not included whose build file is the settings file. -/
def sharedSettingsFiles : Shelf := .ofFiles
  [ ("/ws/workspace.manifest",
      "[\"d\",\"\",[[\"root\",\"\",\"g\"],[\"core\",\"core\",\"g\"]]]"),
    ("/ws/settings.gradle", "include ':app'\n") ]

/-- Including another module rewrites it, though no node inside has the same build file. -/
theorem exists_rewritten_outside :
    ∃ (w w' : Workspace) (s' : Shelf) (n : Node),
      Reachable ⟨"/ws"⟩ { buildFile := "settings.gradle" } w sharedSettingsFiles
        ∧ w.perform sharedSettingsFiles (.including "core") = (.ok (), w', s')
        ∧ w'.nodes.get? "root" = some n ∧ w'.inside "root" = false ∧ ¬w'.Holds n.file.path
        ∧ s'.text? n.file.path ≠ sharedSettingsFiles.text? n.file.path := by
  have hwritten : sharedSettingsFiles.text? ⟨"/ws/workspace.manifest"⟩
      = some "[\"d\",\"\",[[\"root\",\"\",\"g\"],[\"core\",\"core\",\"g\"]]]" := by decide
  generalize hv : (blank ⟨"/ws"⟩ { buildFile := "settings.gradle" }
    { name := "d", modules := [⟨"root", "", "g"⟩, ⟨"core", "core", "g"⟩] }).survey
      sharedSettingsFiles false = v
  have hload : Workspace.inspect sharedSettingsFiles ⟨"/ws"⟩ { buildFile := "settings.gradle" }
      = .ok v :=
    inspect_eq_ok_iff.mpr ⟨_, (Manifest.load_of_text? hwritten).trans rfl, hv.symm⟩
  have h : v.modules.get? "core" = some ⟨"core", "core", "g"⟩
      ∧ v.settings.path = ⟨"/ws/settings.gradle"⟩
      ∧ reconcile (linesAt sharedSettingsFiles v.settings.path)
          (v.settings.snapshot.addExternal "core" (v.base.resolve "core").text)
        = ["include ':app'", "include ':core'",
            "project(':core').projectDir = new File('/ws/core')", ""]
      ∧ (v.nodes.get? "root").map (·.file.path) = some ⟨"/ws/settings.gradle"⟩
      ∧ (v.enlist ⟨"core", "core", "g"⟩).inside "root" = false
      ∧ ∀ e ∈ v.nodes.entries, (v.enlist ⟨"core", "core", "g"⟩).inside e.1 = true →
        e.2.file.path.location ≠ v.settings.path.location := by
    subst hv
    decide +kernel
  obtain ⟨hu, hpath, hsaved, hroot, hout, hapart⟩ := h
  obtain ⟨t, hedit, -⟩ := exists_editSettings
    (·.addExternal "core" (v.base.resolve "core").text) (w := v) (s := sharedSettingsFiles)
    (by rw [hpath]; decide)
  have hlines := linesAt_of_editSettings hedit
  rw [hsaved] at hlines
  obtain ⟨n, hn, hfile⟩ := Option.map_eq_some_iff.mp hroot
  obtain ⟨n', hn', hstyle⟩ := exists_restyled_comply (w := v.enlist ⟨"core", "core", "g"⟩) t hn
  have hnone : ¬((v.enlist ⟨"core", "core", "g"⟩).comply t).1.Holds v.settings.path := by
    rintro ⟨other, hinside, hat⟩
    rw [inside_comply] at hinside
    obtain ⟨k, hk, hl⟩ := isAt_comply.mp hat
    exact hapart (other, k) (NameMap.mem_entries_iff.mpr hk) hinside hl
  have hn'path : n'.file.path = v.settings.path := by rw [hstyle.path, hfile, hpath]
  refine ⟨v, ((v.enlist ⟨"core", "core", "g"⟩).comply t).1,
    ((v.enlist ⟨"core", "core", "g"⟩).comply t).2, n', .inspect hload, ?_, hn', ?_, hn'path ▸ hnone,
    fun hsame => ?_⟩
  · simp only [perform, includeModule, hu, hedit]
    rfl
  · rw [inside_comply, hout]
  · rw [hn'path] at hsame
    have hkept : ((v.enlist ⟨"core", "core", "g"⟩).comply t).2.text? v.settings.path
        = t.text? v.settings.path :=
      by_contra fun hne => hnone (holds_of_text?_comply_ne hne)
    rw [linesAt_eq_of_text? (hkept.symm.trans hsame), hpath] at hlines
    exact absurd hlines (by decide +kernel)

end Inclusion.Workspace
