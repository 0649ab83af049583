import Inclusion.Proofs.Settings.Division

/-!
# Line endings of an edited file

A file in which all lines but the last end with a carriage return, and the last does not, is one whose
lines are ended by a carriage return and a line feed. Restated lines keep the ending of the line they
replace, and added lines take the ending of the file. That is right where the file ends with an empty
line. Where its last line is not ended, that line stays in its place when others are put behind it, and
it may be dropped, or give way to the first line of a statement that goes on: then the edited file
mixes the two kinds of endings.

* `Block.endsWithReturn_of_mem_edited`: an edit keeps the endings of a block.
* `isCrlf_reconcile_iff`: when an edit keeps the endings of a file.
-/
namespace Inclusion.Settings

open Text

/-- Whether all lines but the last end with a carriage return, and the last does not. -/
def IsCrlf (lines : List String) : Prop :=
  (∀ line ∈ lines.dropLast, endsWithReturn line = true)
    ∧ ∀ line ∈ lines.getLast?, endsWithReturn line = false

instance (lines : List String) : Decidable (IsCrlf lines) := inferInstanceAs (Decidable (_ ∧ _))

theorem isCrlf_concat {above : List String} {last : String} : IsCrlf (above ++ [last])
    ↔ (∀ line ∈ above, endsWithReturn line = true) ∧ endsWithReturn last = false := by
  simp [IsCrlf]

theorem isCrlf_append {above below : List String} (hne : below ≠ []) : IsCrlf (above ++ below)
    ↔ (∀ line ∈ above, endsWithReturn line = true) ∧ IsCrlf below := by
  obtain ⟨below, last, rfl⟩ := (List.eq_nil_or_concat below).resolve_left hne
  rw [List.concat_eq_append, ← List.append_assoc, isCrlf_concat, isCrlf_concat,
    List.forall_mem_append, and_assoc]

theorem isCrlf_iff_eq_nil {lines : List String} (h : ∀ line ∈ lines, endsWithReturn line = true) :
    IsCrlf lines ↔ lines = [] := by
  rcases List.eq_nil_or_concat lines with rfl | ⟨above, last, rfl⟩
  · simp [IsCrlf]
  · rw [List.concat_eq_append] at h ⊢
    have hlast := h last (by simp)
    simp [isCrlf_concat, hlast]

theorem endsWithReturn_append_return (line : String) : endsWithReturn (line ++ "\r") = true := by
  simp [endsWithReturn]

/-! ### Endings of blocks -/

namespace Block

variable {s : Snapshot} {b : Block}

theorem exists_lines_eq (b : Block) : ∃ more, b.lines = b.first :: more := by
  cases b <;> exact ⟨_, rfl⟩

/-- An edit keeps the endings of a block. -/
theorem endsWithReturn_of_mem_edited (h : ∀ line ∈ b.lines, endsWithReturn line = true) :
    ∀ line ∈ b.edited s, endsWithReturn line = true := by
  by_cases hkept : b.IsKept s
  · rwa [edited_of_isKept hkept]
  · rcases edited_of_not_isKept hkept with hnil | ⟨statement, hstatement, hone⟩
    · simp [hnil]
    · simpa [hone, endsWithReturn_restate b.first hstatement.tight] using
        h b.first (first_mem_lines b)

/-- The last block of a file keeps its endings where it keeps the number of its lines. -/
theorem isCrlf_edited (h : IsCrlf b.lines) (hlength : (b.edited s).length = b.lines.length) :
    b.edited s ≠ [] ∧ IsCrlf (b.edited s) := by
  obtain ⟨more, hlines⟩ := exists_lines_eq b
  refine ⟨fun hnil => by simp [hnil, hlines] at hlength, ?_⟩
  by_cases hkept : b.IsKept s
  · rwa [edited_of_isKept hkept]
  · rcases edited_of_not_isKept hkept with hnil | ⟨statement, hstatement, hone⟩
    · simp [hnil, hlines] at hlength
    · obtain rfl : more = [] := by simpa [hone, hlines] using hlength.symm
      rw [hlines] at h
      simpa [hone, IsCrlf, endsWithReturn_restate b.first hstatement.tight] using h

/-- What is left of the last block of a file is not its last line where lines are lost. -/
theorem endsWithReturn_of_length_ne (h : IsCrlf b.lines)
    (hlength : (b.edited s).length ≠ b.lines.length) :
    ∀ line ∈ b.edited s, endsWithReturn line = true := by
  have hkept : ¬b.IsKept s := fun hkept => hlength (by rw [edited_of_isKept hkept])
  obtain ⟨more, hlines⟩ := exists_lines_eq b
  rcases edited_of_not_isKept hkept with hnil | ⟨statement, hstatement, hone⟩
  · simp [hnil]
  · have hmore : more ≠ [] := fun hnil => hlength (by simp [hone, hlines, hnil])
    have hfirst : endsWithReturn b.first = true :=
      h.1 b.first (by rw [hlines, List.dropLast_cons_of_ne_nil hmore]; exact List.mem_cons_self ..)
    simpa [hone, endsWithReturn_restate b.first hstatement.tight] using hfirst

theorem empty_mem_of_mem_edited (h : "" ∈ b.edited s) : "" ∈ b.lines := by
  by_cases hkept : b.IsKept s
  · rwa [edited_of_isKept hkept] at h
  · rcases edited_of_not_isKept hkept with hnil | ⟨statement, hstatement, hone⟩
    · simp [hnil] at h
    · rw [hone, List.mem_singleton] at h
      exact absurd h.symm (hstatement.tight.restate_ne_empty b.first)

end Block

/-! ### Endings of files -/

section

variable {lines : List String} {s : Snapshot} (h : IsCrlf lines)

include h

theorem fileEnding_of_isCrlf (hlength : 2 ≤ lines.length) : fileEnding lines = "\r" := by
  obtain ⟨line, hline⟩ : ∃ line, line ∈ lines.dropLast :=
    List.exists_mem_of_ne_nil _ fun hnil => by
      have := congrArg List.length hnil
      rw [List.length_dropLast, List.length_nil] at this
      omega
  exact if_pos (List.any_eq_true.mpr ⟨line, (List.dropLast_sublist _).mem hline, h.1 line hline⟩)

theorem endsWithReturn_of_mem_additions (hlength : 2 ≤ lines.length) :
    ∀ line ∈ additions s (blocks lines) (fileEnding lines), endsWithReturn line = true := by
  intro line hline
  obtain ⟨statement, -, rfl⟩ := writes_of_mem_additions hline
  rw [fileEnding_of_isCrlf h hlength]
  exact endsWithReturn_append_return statement

/-- The lines above the last block are all ended. -/
theorem exists_blocks_concat (hne : lines ≠ []) : ∃ above b, blocks lines = above ++ [b]
    ∧ (∀ line ∈ above.flatMap (Block.edited s), endsWithReturn line = true) ∧ IsCrlf b.lines := by
  have hlines := flatMap_lines_blocks lines
  rcases List.eq_nil_or_concat (blocks lines) with hnil | ⟨above, b, hblocks⟩
  · simp [hnil, hne.symm] at hlines
  · rw [List.concat_eq_append] at hblocks
    obtain ⟨more, hb⟩ := Block.exists_lines_eq b
    rw [← hlines, hblocks, List.flatMap_append, List.flatMap_singleton,
      isCrlf_append (by simp [hb])] at h
    refine ⟨above, b, hblocks, fun line hline => ?_, h.2⟩
    obtain ⟨c, hc, hline⟩ := List.mem_flatMap.mp hline
    exact Block.endsWithReturn_of_mem_edited
      (fun l hl => h.1 l (List.mem_flatMap.mpr ⟨c, hc, hl⟩)) line hline

theorem getLast?_edited_ne_empty (hlast : lines.getLast? ≠ some "") :
    ((blocks lines).flatMap (Block.edited s)).getLast? ≠ some "" := by
  intro hempty
  obtain ⟨b, hb, hmem⟩ := List.mem_flatMap.mp (List.mem_of_getLast? hempty)
  have hmem : "" ∈ lines := by
    rw [← flatMap_lines_blocks lines]
    exact List.mem_flatMap.mpr ⟨b, hb, Block.empty_mem_of_mem_edited hmem⟩
  obtain ⟨above, last, rfl⟩ := (List.eq_nil_or_concat lines).resolve_left (List.ne_nil_of_mem hmem)
  rw [List.concat_eq_append] at hmem hlast h
  rcases List.mem_append.mp hmem with hmem | hmem
  · exact absurd ((isCrlf_concat.mp h).1 "" hmem) (by decide)
  · simp [List.mem_singleton.mp hmem] at hlast

/-- Before an empty last line all lines are ended, and so are those that are put there. -/
theorem isCrlf_reconcile_of_empty (hlength : 2 ≤ lines.length) (hlast : lines.getLast? = some "") :
    IsCrlf (reconcile lines s) := by
  obtain ⟨init, hinit⟩ := List.getLast?_eq_some_iff.mp hlast
  obtain ⟨above, b, hblocks, habove, -⟩ := exists_blocks_concat (s := s) h (by simp [hinit])
  rw [hinit, blocks_concat_empty] at hblocks
  obtain ⟨rfl, -⟩ := List.append_inj' hblocks rfl
  have hedited : (blocks lines).flatMap (Block.edited s)
      = (blocks init).flatMap (Block.edited s) ++ [""] := by
    rw [hinit, blocks_concat_empty, List.flatMap_append]
    rfl
  rw [reconcile, appendLines, hedited, if_pos List.getLast?_concat, List.dropLast_concat,
    isCrlf_concat]
  exact ⟨List.forall_mem_append.mpr ⟨habove, endsWithReturn_of_mem_additions h hlength⟩, by decide⟩

/-- What is left of a file keeps its endings where its last block keeps the number of its lines. -/
theorem isCrlf_flatMap_edited_iff (hne : lines ≠ []) :
    IsCrlf ((blocks lines).flatMap (Block.edited s))
      ↔ (blocks lines).flatMap (Block.edited s) = []
        ∨ ∀ b ∈ (blocks lines).getLast?, (b.edited s).length = b.lines.length := by
  obtain ⟨above, b, hblocks, habove, hb⟩ := exists_blocks_concat (s := s) h hne
  rw [hblocks, List.getLast?_concat, List.flatMap_append, List.flatMap_singleton]
  simp only [Option.mem_def, Option.some.injEq, forall_eq']
  by_cases hkept : (b.edited s).length = b.lines.length
  · obtain ⟨hne, hcrlf⟩ := Block.isCrlf_edited hb hkept
    exact iff_of_true ((isCrlf_append hne).mpr ⟨habove, hcrlf⟩) (.inr hkept)
  · have hlost := Block.endsWithReturn_of_length_ne hb hkept
    rw [or_iff_left hkept, isCrlf_iff_eq_nil (List.forall_mem_append.mpr ⟨habove, hlost⟩)]

end

/-- An edit keeps the endings of a file if and only if the file ends with an empty line, or if nothing
is added and what is left of the last block has as many lines as the block had, or nothing is left at
all. -/
theorem isCrlf_reconcile_iff {lines : List String} {s : Snapshot} (h : IsCrlf lines)
    (hlength : 2 ≤ lines.length) :
    IsCrlf (reconcile lines s) ↔ lines.getLast? = some ""
      ∨ additions s (blocks lines) (fileEnding lines) = []
        ∧ ((blocks lines).flatMap (Block.edited s) = []
          ∨ ∀ b ∈ (blocks lines).getLast?, (b.edited s).length = b.lines.length) := by
  by_cases hlast : lines.getLast? = some ""
  · exact iff_of_true (isCrlf_reconcile_of_empty h hlength hlast) (.inl hlast)
  · have hreconcile : reconcile lines s = (blocks lines).flatMap (Block.edited s)
        ++ additions s (blocks lines) (fileEnding lines) :=
      if_neg (getLast?_edited_ne_empty h hlast)
    rw [or_iff_right hlast, hreconcile]
    by_cases hnil : additions s (blocks lines) (fileEnding lines) = []
    · rw [hnil, List.append_nil, and_iff_right rfl]
      exact isCrlf_flatMap_edited_iff h (List.ne_nil_of_length_pos (by omega))
    · -- the last of the added lines would be the last of the file
      refine iff_of_false (fun hcrlf => hnil ?_) fun hright => hnil hright.1
      exact (isCrlf_iff_eq_nil (endsWithReturn_of_mem_additions h hlength)).mp
        ((isCrlf_append hnil).mp hcrlf).2

/-- Statements between two ends of lines are restated in their places. -/
theorem isCrlf_reconcile_restated :
    let lines := ["include ':app', ':core'\r", "project(':app').projectDir = new File('../app')"]
    let s := ({} : Snapshot).addExternal "app" "/ws/app"
    reconcile lines s
        = ["include ':app'\r", "project(':app').projectDir = new File('/ws/app')"]
      ∧ IsCrlf (reconcile lines s) := by
  intro lines s
  exact ⟨by decide, (isCrlf_reconcile_iff (by decide) (by decide)).mpr (.inr (by decide))⟩

/-- Behind a last line that is not ended, an added line neither ends that line nor stays open itself;
and where the last line is dropped, the line above it is left with an ending. -/
theorem not_isCrlf_reconcile :
    let lines := ["include ':app'\r", "include ':core'"]
    let s := (({} : Snapshot).addInternal "app").addInternal "core"
    IsCrlf lines ∧ 2 ≤ lines.length
      ∧ reconcile lines (s.addInternal "util")
        = ["include ':app'\r", "include ':core'", "include ':util'\r"]
      ∧ ¬IsCrlf (reconcile lines (s.addInternal "util"))
      ∧ reconcile lines (s.remove "core") = ["include ':app'\r"]
      ∧ ¬IsCrlf (reconcile lines (s.remove "core")) := by
  decide

end Inclusion.Settings
