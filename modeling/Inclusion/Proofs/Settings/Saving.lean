import Inclusion.Proofs.Changing
import Inclusion.Proofs.Settings.Separation

/-!
# What is in the files after the settings are saved

The edited lines of a settings file are lines, so they are read as they were written, but that no
line at all is read as one empty one. All other files stay as they were, and every file declares
what it declared.

* `lineFeed_not_mem_reconcile`: the editor breaks no line.
* `flatMap_linesAt_write`: what the lines of each file give after a save.
* `filterMap_ofLine?_linesAt_write`: a save changes no declaration.
-/
namespace Inclusion

open Text

theorem IsSegment.isProject {name : String} (h : IsSegment name) : Settings.IsProject name := by
  refine ⟨h.1, List.all_eq_true.mpr fun c hc => ?_⟩
  simp [isProjectChar, List.all_eq_true.mp h.2 c hc]

namespace Settings

/-! ### Edited lines are lines -/

theorem IsProject.lineFeed_not_mem {name : String} (h : IsProject name) : '\n' ∉ name.toList :=
  fun hmem => absurd (List.all_eq_true.mp h.2 _ hmem) (by decide)

theorem lineFeed_not_mem_includeStatement {names : List String} (h : ∀ n ∈ names, IsProject n) :
    '\n' ∉ (includeStatement names).toList := by
  have hquoted : ∀ {name}, IsProject name → '\n' ∉ quoted name := fun hname => by
    simp [quoted, hname.lineFeed_not_mem]
  cases names with
  | nil => decide
  | cons name names =>
    obtain ⟨hname, hnames⟩ := List.forall_mem_cons.mp h
    rw [toList_includeStatement]
    simp only [List.mem_append, List.mem_flatMap, List.mem_cons, not_or, not_exists, not_and]
    exact ⟨⟨by decide, hquoted hname⟩, fun n hn => ⟨by decide, by decide, hquoted (hnames n hn)⟩⟩

theorem lineFeed_not_mem_directoryStatement {name path : String} (hname : IsProject name)
    (hpath : '\n' ∉ path.toList) : '\n' ∉ (directoryStatement name path).toList := by
  rw [toList_directoryStatement]
  simp [hname.lineFeed_not_mem, hpath]

theorem Snapshot.Writes.lineFeed_not_mem {s : Snapshot} (hs : s.Writable IsOneLine)
    {statement : String} (h : s.Writes statement) : '\n' ∉ statement.toList := by
  cases h with
  | names hne h => exact lineFeed_not_mem_includeStatement fun n hn => hs.name n (h n hn)
  | @directory name path h =>
    obtain ⟨hmem, hpath⟩ := hs.directory name path h
    exact lineFeed_not_mem_directoryStatement (hs.name name hmem) hpath

theorem Block.lineFeed_not_mem_edited {s : Snapshot} (hs : s.Writable IsOneLine) {b : Block}
    (hb : ∀ line ∈ b.lines, '\n' ∉ line.toList) : ∀ line ∈ b.edited s, '\n' ∉ line.toList := by
  by_cases hkept : b.IsKept s
  · rwa [edited_of_isKept hkept]
  · rcases edited_of_not_isKept hkept with hnil | ⟨statement, hstatement, hone⟩
    · simp [hnil]
    · have hfirst := hb b.first (first_mem_lines b)
      simpa [hone] using lineFeed_not_mem_restate hfirst (hstatement.lineFeed_not_mem hs)

theorem lineFeed_not_mem_additions {s : Snapshot} (hs : s.Writable IsOneLine) (bs : List Block)
    {ending : String} (hending : '\n' ∉ ending.toList) :
    ∀ line ∈ additions s bs ending, '\n' ∉ line.toList := by
  intro line hline
  obtain ⟨statement, hstatement, rfl⟩ := writes_of_mem_additions hline
  rw [String.toList_append, List.mem_append, not_or]
  exact ⟨hstatement.lineFeed_not_mem hs, hending⟩

/-- The editor breaks no line. -/
theorem lineFeed_not_mem_reconcile {s : Snapshot} (hs : s.Writable IsOneLine) {lines : List String}
    (h : ∀ line ∈ lines, '\n' ∉ line.toList) : ∀ line ∈ reconcile lines s, '\n' ∉ line.toList := by
  have hedited : ∀ line ∈ (blocks lines).flatMap (Block.edited s), '\n' ∉ line.toList := by
    intro line hline
    obtain ⟨b, hb, hline⟩ := List.mem_flatMap.mp hline
    refine Block.lineFeed_not_mem_edited hs (fun l hl => h l ?_) line hline
    rw [← flatMap_lines_blocks lines]
    exact List.mem_flatMap.mpr ⟨b, hb, hl⟩
  have hending : '\n' ∉ (fileEnding lines).toList := by
    unfold fileEnding
    split <;> decide
  have hadded := lineFeed_not_mem_additions hs (blocks lines) hending
  intro line hline
  rw [reconcile, appendLines] at hline
  split at hline
  next =>
    rcases List.mem_append.mp hline with hline | hline
    · rcases List.mem_append.mp hline with hline | hline
      · exact hedited line ((List.dropLast_sublist _).mem hline)
      · exact hadded line hline
    · rw [List.mem_singleton.mp hline]
      decide
  next => exact (List.mem_append.mp hline).elim (hedited line) (hadded line)

end Settings

/-! ### Files on a shelf -/

theorem lineFeed_not_mem_linesAt {s : Shelf} {path : Path} :
    ∀ line ∈ linesAt s path, '\n' ∉ line.toList := by
  intro line hline
  rw [linesAt_eq] at hline
  cases htext : s.text? path with
  | none => simp [htext] at hline
  | some text => exact lineFeed_not_mem_of_mem_splitLines (by simpa [htext] using hline)

/-- Written lines are read as they were, but that no line is read as an empty one. -/
theorem flatMap_splitLines_joinLines {α : Type} {f : String → List α} (hf : f "" = [])
    {lines : List String} (h : ∀ line ∈ lines, '\n' ∉ line.toList) :
    (splitLines (joinLines lines)).flatMap f = lines.flatMap f := by
  by_cases hne : lines = []
  · subst hne
    have hempty : splitLines (joinLines []) = [""] := by decide
    rw [hempty, List.flatMap_singleton, hf, List.flatMap_nil]
  · rw [splitLines_joinLines hne h]

namespace SettingsFile

variable {f f' : SettingsFile} {s s' : Shelf}

theorem of_write (h : f.write s = (.ok (), f', s')) :
    f' = f ∧ ∃ lines, Store.read s f.path = .ok lines
      ∧ ((Settings.reconcile lines f.snapshot = lines ∧ s' = s)
        ∨ s' = s.put f.path (joinLines (Settings.reconcile lines f.snapshot))) := by
  unfold write at h
  split at h
  next => cases h
  next lines hread =>
    obtain ⟨text, htext, -⟩ := Shelf.read_eq_ok_iff.mp hread
    simp only [Shelf.write_of_text? htext] at h
    split at h
    next hsame => cases h; exact ⟨rfl, lines, hread, .inl ⟨hsame, rfl⟩⟩
    next => cases h; exact ⟨rfl, lines, hread, .inr rfl⟩

/-- A settings file that can be read can be written. -/
theorem exists_write {lines : List String} (hread : Store.read s f.path = .ok lines) :
    ∃ f' s', f.write s = (.ok (), f', s') := by
  obtain ⟨text, htext, -⟩ := Shelf.read_eq_ok_iff.mp hread
  unfold write
  simp only [hread, Shelf.write_of_text? htext]
  split <;> exact ⟨_, _, rfl⟩

/-- What the lines of the files give after a save, if an empty line gives nothing. -/
theorem flatMap_linesAt_write (h : f.write s = (.ok (), f', s'))
    (hs : f.snapshot.Writable Settings.IsOneLine) {α : Type} {g : String → List α} (hg : g "" = []) (q : Path) :
    (linesAt s' q).flatMap g
      = if q.Same f.path then (Settings.reconcile (linesAt s f.path) f.snapshot).flatMap g
        else (linesAt s q).flatMap g := by
  obtain ⟨-, lines, hread, ⟨hsame, rfl⟩ | rfl⟩ := of_write h
  · rw [linesAt_of_read hread, hsame]
    split
    next hq => rw [linesAt_of_same hq, linesAt_of_read hread]
    next => rfl
  · have hlines : ∀ line ∈ Settings.reconcile lines f.snapshot, '\n' ∉ line.toList :=
      Settings.lineFeed_not_mem_reconcile hs (linesAt_of_read hread ▸ lineFeed_not_mem_linesAt)
    rw [linesAt_put, linesAt_of_read hread]
    split
    next => exact flatMap_splitLines_joinLines hg hlines
    next => rfl

/-- A save changes no declaration. -/
theorem filterMap_ofLine?_linesAt_write (h : f.write s = (.ok (), f', s'))
    (hs : f.snapshot.Writable Settings.IsOneLine) (q : Path) :
    (linesAt s' q).filterMap Dependency.ofLine? = (linesAt s q).filterMap Dependency.ofLine? := by
  have hempty : (Dependency.ofLine? "").toList = [] := by decide
  rw [List.filterMap_eq_flatMap_toList, flatMap_linesAt_write h hs hempty]
  split
  next hq =>
    rw [← List.filterMap_eq_flatMap_toList, Settings.filterMap_ofLine?_reconcile hs,
      linesAt_of_same hq]
  next => rw [List.filterMap_eq_flatMap_toList]

end SettingsFile

namespace Workspace

variable {w w' : Workspace} {s s' : Shelf} {edit : Settings.Snapshot → Settings.Snapshot}

/-- Settings can be edited if their file can be read, and then it can be read again. -/
theorem exists_editSettings (edit : Settings.Snapshot → Settings.Snapshot)
    (hread : (s.text? w.settings.path).isSome) :
    ∃ s', w.editSettings s edit
        = (.ok (), { w with settings := { w.settings with snapshot := edit w.settings.snapshot } }, s')
      ∧ (s'.text? w.settings.path).isSome := by
  obtain ⟨text, htext⟩ := Option.isSome_iff_exists.mp hread
  have hlines : Store.read s
      ({ w.settings with snapshot := edit w.settings.snapshot } : SettingsFile).path
        = .ok (splitLines text) := Shelf.read_of_text? htext
  obtain ⟨f, s', hwrite⟩ := SettingsFile.exists_write hlines
  obtain ⟨rfl, _, -, hsaved⟩ := SettingsFile.of_write hwrite
  refine ⟨s', by simp only [editSettings, hwrite], ?_⟩
  rcases hsaved with ⟨-, rfl⟩ | rfl
  · exact hread
  · exact Option.isSome_of_eq_some ((Shelf.text?_put ..).trans (if_pos rfl))

section

variable (h : w.editSettings s edit = (.ok (), w', s'))

include h

/-- An edit of the settings touches no other file. -/
theorem text?_editSettings {path : Path} (hpath : ¬path.Same w.settings.path) :
    s'.text? path = s.text? path := by
  obtain ⟨-, f, hwrite⟩ := of_editSettings h
  obtain ⟨-, lines, -, ⟨-, rfl⟩ | rfl⟩ := SettingsFile.of_write hwrite
  · rfl
  · rw [Shelf.text?_put, if_neg hpath]

theorem read_of_editSettings :
    Store.read s w.settings.path = .ok (linesAt s w.settings.path) := by
  obtain ⟨-, f, hwrite⟩ := of_editSettings h
  obtain ⟨-, lines, hread, -⟩ := SettingsFile.of_write hwrite
  rw [linesAt_of_read hread]
  exact hread

theorem linesAt_of_editSettings :
    linesAt s' w.settings.path = splitLines (joinLines
      (Settings.reconcile (linesAt s w.settings.path) (edit w.settings.snapshot))) := by
  obtain ⟨-, f, hwrite⟩ := of_editSettings h
  obtain ⟨-, lines, hread, hsaved⟩ := SettingsFile.of_write hwrite
  rw [linesAt_of_read hread]
  rcases hsaved with ⟨hsame, rfl⟩ | rfl
  · obtain ⟨text, -, rfl⟩ := Shelf.read_eq_ok_iff.mp hread
    rw [hsame, joinLines_splitLines]
    exact linesAt_of_read hread
  · rw [linesAt_put]
    exact if_pos rfl

/-- An edit leaves the edited lines, if it leaves any. -/
theorem linesAt_of_editSettings_of_ne_nil
    (hedit : (edit w.settings.snapshot).Writable Settings.IsOneLine)
    (hne : Settings.reconcile (linesAt s w.settings.path) (edit w.settings.snapshot) ≠ []) :
    linesAt s' w.settings.path
      = Settings.reconcile (linesAt s w.settings.path) (edit w.settings.snapshot) := by
  rw [linesAt_of_editSettings h]
  exact splitLines_joinLines hne
    (Settings.lineFeed_not_mem_reconcile hedit lineFeed_not_mem_linesAt)

end

theorem exists_includeModule {name : String} {u : Manifest.Module} {lines : List String}
    (hu : w.modules.get? name = some u) (hread : Store.read s w.settings.path = .ok lines) :
    ∃ w' s', w.includeModule s name = (.ok (), w', s') := by
  obtain ⟨text, htext, -⟩ := Shelf.read_eq_ok_iff.mp hread
  obtain ⟨t, hedit, -⟩ := exists_editSettings
    (·.addExternal u.name (w.base.resolve u.path).text) (Option.isSome_of_eq_some htext)
  simp only [includeModule, hu, hedit]
  exact ⟨_, _, rfl⟩

end Workspace

end Inclusion
