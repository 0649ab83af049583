import Inclusion.Proofs.Restatement
import Inclusion.Proofs.Settings.RoundTrip

/-!
# Settings and declarations keep apart

One file may be the settings file and a build file. No line is something in both: a declaration
registers nothing, and a line that the editor changes, drops or adds declares nothing. So restating
declarations leaves alone what the settings say, and editing the settings leaves alone what is
declared.

* `linePieces_of_ofLine?`: a declaration says nothing of settings.
* `flatMap_linePieces_restateAll`: restating keeps what a settings file says.
* `filterMap_ofLine?_reconcile`: editing keeps what a build file declares.
-/
namespace Inclusion.Settings

open Text

/-! ### Declarations hold no comma -/

theorem comma_of_isVersion {cs : List Char} (h : Coordinates.isVersion cs = true) : ',' ∉ cs := by
  refine comma_of_skipOne (p := (· == '$')) (by decide) fun hmem => ?_
  exact absurd (List.all_eq_true.mp (Bool.and_eq_true_iff.mp h).2 _ hmem) (by decide)

theorem comma_of_ofBody? {body : List Char} {c : Coordinates}
    (h : Coordinates.ofBody? body = some c) : ',' ∉ body := by
  have hcolon : Coordinates.isColon ',' = false := by decide
  simp only [Coordinates.ofBody?] at h
  split at h
  next hversion =>
    refine comma_of_skipOne hcolon (comma_of_dropWhile (p := isDottedChar) (by decide)
      (comma_of_skipOne hcolon (comma_of_dropWhile (p := isNameChar) (by decide)
        (comma_of_skipOne hcolon ?_))))
    rcases Bool.or_eq_true_iff.mp hversion with hnil | hversion
    · simp [List.isEmpty_iff.mp hnil]
    · exact comma_of_isVersion hversion
  next => cases h

theorem comma_of_readBody? {cs body : List Char} (h : Declaration.readBody? cs = some body)
    (hbody : ',' ∉ body) : ',' ∉ cs := by
  unfold Declaration.readBody? at h
  split at h
  · cases h
  next q tail hdrop =>
    split at h
    next htail =>
      cases h
      have hq : isQuote q = true := by
        have := List.head?_dropWhile_not (!isQuote ·) cs
        simpa [hdrop] using this
      have hne : ',' ≠ q := by
        rintro rfl
        exact absurd hq (by decide)
      rw [← List.takeWhile_append_dropWhile (p := (!isQuote ·)) (l := cs), hdrop]
      rcases htail with rfl | rfl <;> simp [hbody, hne]
    next => cases h

theorem comma_of_readQuote? {cs rest : List Char} {q : Quote}
    (h : Declaration.readQuote? cs = some (q, rest)) (hrest : ',' ∉ rest) : ',' ∉ cs := by
  cases cs with
  | nil => simp
  | cons c cs =>
    obtain ⟨q', hq, heq⟩ := Option.map_eq_some_iff.mp h
    cases heq
    have hne : ',' ≠ c := by
      rintro rfl
      cases hq
    simp [hne, hrest]

theorem comma_of_readProject {cs : List Char} (h : ',' ∉ (Declaration.readProject cs).2) :
    ',' ∉ cs := by
  unfold Declaration.readProject at h
  split at h
  next hafter => exact comma_of_after? hafter (by decide) h
  next => exact h

/-- A declaration starts with its verb and holds no comma. -/
theorem of_read? {cs : List Char} {d : Declaration} (h : Declaration.read? cs = some d) :
    (∃ (v : Verb) (rest : List Char), cs = v.text.toList ++ rest) ∧ ',' ∉ cs := by
  simp only [Declaration.read?, Option.bind_eq_bind, Option.bind_eq_some_iff] at h
  obtain ⟨⟨v, c₁⟩, hverb, _, _, ⟨q, c₂⟩, hquote, body, hbody, _, hcoordinates, _⟩ := h
  obtain ⟨v', -, hafter⟩ := List.exists_of_findSome?_eq_some hverb
  obtain ⟨rest, hafter, heq⟩ := Option.map_eq_some_iff.mp hafter
  cases heq
  refine ⟨⟨v, c₁, after?_eq_some_iff.mp hafter⟩, ?_⟩
  have h₂ : ',' ∉ c₂ := comma_of_readBody? hbody (comma_of_ofBody? hcoordinates)
  have h₁ : ',' ∉ (Declaration.readProject (skipOne (· == ' ') c₁)).2 :=
    comma_of_skipOne (p := (· == ' ')) (by decide) (comma_of_skipOne (p := (· == '(')) (by decide)
      (comma_of_readQuote? hquote h₂))
  exact comma_of_after? hafter (by cases v <;> decide)
    (comma_of_skipOne (p := (· == ' ')) (by decide) (comma_of_readProject h₁))

theorem ofChars_of_verb {cs rest : List Char} (v : Verb) (h : trim cs = v.text.toList ++ rest) :
    Piece.ofChars cs = .other := by
  unfold Piece.ofChars
  dsimp only
  rw [h]
  cases v <;> rfl

theorem ofChars_of_read? {cs : List Char} {d : Declaration}
    (h : Declaration.read? (trim cs) = some d) : Piece.ofChars cs = .other := by
  obtain ⟨⟨v, rest, hcs⟩, -⟩ := of_read? h
  exact ofChars_of_verb v hcs

/-- A line that declares a dependency says nothing of settings. -/
theorem linePieces_of_ofLine? {line : String} {d : Dependency}
    (h : Dependency.ofLine? line = some d) : linePieces line = [.other] := by
  obtain ⟨declaration, hread, -⟩ := Option.bind_eq_some_iff.mp h
  exact linePieces_of_piece (comma_of_trim (of_read? hread).2) (ofChars_of_read? hread) nofun

section

variable {policy : Policy} {known : Dependencies} {lines : List String}

/-- Restating declarations keeps what a settings file says. -/
theorem flatMap_linePieces_restateAll (hmodules : WellNamed policy.modules)
    (hcovers : Covers policy.modules known lines) :
    (BuildFile.restateAll (Node.desired policy known) policy.modules lines).1.flatMap linePieces
      = lines.flatMap linePieces := by
  rw [BuildFile.restateAll_fst, List.flatMap_map]
  refine List.flatMap_congr fun line hline => ?_
  cases hrestated : BuildFile.restated? (Node.desired policy known) policy.modules line with
  | none => simp
  | some new =>
    obtain ⟨found, wanted, hread, hwanted, hsource, rfl⟩ := restated?_eq_some_iff.mp hrestated
    obtain ⟨d, hd, -⟩ :=
      exists_ofLine?_restate_statementFor hmodules.titled (fun _ => hmodules.of_turned) hcovers hline
        hread hwanted hsource
    rw [Option.getD_some, linePieces_of_ofLine? hd, linePieces_of_ofLine? hread]

end

/-- A restated line says nothing of settings, whatever it declares, if its group holds no comma. -/
theorem linePieces_restate_declare {d : Dependency} {group name : String} (line : String)
    (hd : Spelled d) (hname : IsProjectName name) (hgroup : ',' ∉ group.toList) :
    linePieces (restate line (d.declare group name)) = [.other] := by
  have hstatement := not_mem_declare (by decide) (by decide) hd hname fun _ => hgroup
  refine linePieces_of_piece ?_ ?_ nofun
  · rw [toList_restate, List.mem_append, List.mem_append, not_or, not_or]
    exact ⟨⟨comma_not_mem_of_blank fun _ => isBlank_of_mem_blanks, hstatement⟩,
      comma_not_mem_of_blank fun _ => isBlank_of_mem_ending⟩
  · have htext : ∃ rest, (d.declare group name).toList = d.verb.text.toList ++ rest := by
      cases hs : d.source with
      | true => exact ⟨_, Dependency.toList_declare_project hs group name⟩
      | false => exact ⟨_, Dependency.toList_declare_artifact hs group name⟩
    obtain ⟨rest, hrest⟩ := htext
    exact ofChars_of_verb d.verb
      ((trim_restate line (Dependency.tight_declare d group name)).trans hrest)

/-! ### What the editor touches declares nothing -/

theorem ofLine?_eq_none_of_linePieces {line : String} (h : .other ∉ linePieces line) :
    Dependency.ofLine? line = none :=
  Option.eq_none_iff_forall_ne_some.mpr fun _ hd => h (by simp [linePieces_of_ofLine? hd])

theorem other_not_mem_includePieces (names : List String) : .other ∉ includePieces names := by
  cases names <;> simp [includePieces]

theorem ofLine?_directoryStatement {line : String} (name path : String) {a b : List Char}
    (ha : ∀ c ∈ a, isBlank c = true) (hb : ∀ c ∈ b, isBlank c = true)
    (hline : line.toList = a ++ (directoryStatement name path).toList ++ b) :
    Dependency.ofLine? line = none := by
  have hread : Declaration.read? (directoryStatement name path).toList = none := by
    rw [toList_directoryStatement]
    rfl
  rw [Dependency.ofLine?, hline, trim_frame ha hb (tight_directoryStatement name path), hread]
  rfl

theorem Block.filterMap_ofLine?_edited {s : Snapshot} (hs : s.Writable IsOneLine) {b : Block}
    (hb : b.IsRead) :
    (b.edited s).filterMap Dependency.ofLine? = b.lines.filterMap Dependency.ofLine? := by
  have hkeep : ∀ {lines : List String}, (∀ line ∈ lines, .other ∉ linePieces line) →
      lines.filterMap Dependency.ofLine? = [] := fun h =>
    List.filterMap_eq_nil_iff.mpr fun line hline => ofLine?_eq_none_of_linePieces (h line hline)
  cases b with
  | statement first more names =>
    have hlines : ∀ line ∈ first :: more, .other ∉ linePieces line := fun line hline hmem =>
      other_not_mem_includePieces names (hb.2 ▸ List.mem_flatMap.mpr ⟨line, hline, hmem⟩)
    simp only [edited, lines]
    split
    next => rfl
    next =>
      rw [hkeep hlines]
      split
      next => rfl
      next hkept =>
        have hproject : ∀ n ∈ names.filter s.contains, IsProject n := fun n hn =>
          hs.name n (mem_all_of_mem_filter hn)
        refine hkeep fun line hline => ?_
        rw [List.mem_singleton.mp hline, linePieces_restate_includeStatement first hproject hkept]
        exact other_not_mem_includePieces _
  | loose line names => rfl
  | binding line name path =>
    have hline : Dependency.ofLine? line = none :=
      ofLine?_eq_none_of_linePieces (by rw [show linePieces line = _ from hb]; simp)
    simp only [edited, lines]
    cases s.directory? name with
    | none => simp [hline]
    | some wanted =>
      dsimp only
      split
      next => rfl
      next =>
        have hwritten := ofLine?_directoryStatement name wanted (fun _ => isBlank_of_mem_blanks)
          (fun _ => isBlank_of_mem_ending) (toList_restate line _)
        simp [hline, hwritten]
  | plain line => rfl

theorem filterMap_ofLine?_additions {s : Snapshot} (hs : s.Writable IsOneLine) (bs : List Block)
    (ending : String) (hending : ∀ c ∈ ending.toList, isBlank c = true) :
    (additions s bs ending).filterMap Dependency.ofLine? = [] := by
  refine List.filterMap_eq_nil_iff.mpr fun line hline => ?_
  obtain ⟨name, hname, rfl | ⟨path, -, rfl⟩⟩ := of_mem_additions hline
  · refine ofLine?_eq_none_of_linePieces ?_
    rw [linePieces_includeStatement (a := []) [name] (by simpa using hs.name name hname) (by simp)
      hending (by simp) (by simp)]
    exact other_not_mem_includePieces _
  · exact ofLine?_directoryStatement name path (a := []) (by simp) hending (by simp)

/-- Editing the settings keeps what a build file declares. -/
theorem filterMap_ofLine?_reconcile {s : Snapshot} (hs : s.Writable IsOneLine)
    (lines : List String) :
    (reconcile lines s).filterMap Dependency.ofLine? = lines.filterMap Dependency.ofLine? := by
  have hedited : ((blocks lines).flatMap (Block.edited s)).filterMap Dependency.ofLine?
      = lines.filterMap Dependency.ofLine? := by
    conv_rhs => rw [← flatMap_lines_blocks lines]
    rw [List.filterMap_flatMap, List.filterMap_flatMap]
    exact List.flatMap_congr fun b hb =>
      Block.filterMap_ofLine?_edited hs (Block.isRead_of_mem_blocks b hb)
  have hadded := filterMap_ofLine?_additions hs (blocks lines) (fileEnding lines)
    fun _ => isBlank_of_mem_fileEnding
  rw [reconcile, appendLines]
  split
  next hlast =>
    obtain ⟨before, hbefore⟩ := List.getLast?_eq_some_iff.mp hlast
    have hempty : [""].filterMap Dependency.ofLine? = [] := by decide
    rw [← hedited, hbefore, List.dropLast_concat]
    simp only [List.filterMap_append, hadded, hempty, List.append_nil]
  next => rw [List.filterMap_append, hadded, hedited, List.append_nil]

end Inclusion.Settings
