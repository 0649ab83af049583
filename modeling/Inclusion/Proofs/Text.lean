import Inclusion.Text.Lines

/-!
# Texts between blanks

A text that neither starts nor ends with a blank is what trimming leaves of any line that frames it
with blanks; a restated line is such a frame around its statement.

* `trim_frame`: trimming takes a frame of blanks away.
* `trim_restate`: a restated line says just its statement.
* `restate_restate`: only the last restatement of a line counts.
* `lineFeed_not_mem_restate`: restating a line with a statement of one line gives one line.
-/
namespace Inclusion.Text

/-- A text with no blank at either end. -/
structure Tight (cs : List Char) : Prop where
  head : ∃ c, cs.head? = some c ∧ isBlank c = false
  last : ∃ c, cs.getLast? = some c ∧ isBlank c = false

theorem dropWhile_of_head {p : Char → Bool} {cs : List Char} {c : Char} (h : cs.head? = some c)
    (hc : p c = false) : cs.dropWhile p = cs := by
  cases cs with
  | nil => simp at h
  | cons d cs =>
    simp only [List.head?_cons, Option.some.injEq] at h
    simp [h, hc]

theorem tight_append {s t : List Char} {c d : Char} (hc : s.head? = some c)
    (hcb : isBlank c = false) (hdb : isBlank d = false) : Tight (s ++ t ++ [d]) where
  head := ⟨c, by simp [List.head?_append, hc], hcb⟩
  last := ⟨d, by simp, hdb⟩

theorem trim_frame {a s b : List Char} (ha : ∀ c ∈ a, isBlank c = true)
    (hb : ∀ c ∈ b, isBlank c = true) (hs : Tight s) : trim (a ++ s ++ b) = s := by
  obtain ⟨c, hc, hcb⟩ := hs.head
  obtain ⟨d, hd, hdb⟩ := hs.last
  have hstart : trimStart (a ++ s ++ b) = s ++ b := by
    rw [trimStart, List.append_assoc, List.dropWhile_append_of_pos ha]
    exact dropWhile_of_head (by simp [List.head?_append, hc]) hcb
  have hend : (s ++ b).reverse.dropWhile isBlank = s.reverse := by
    rw [List.reverse_append, List.dropWhile_append_of_pos (by simpa using hb)]
    exact dropWhile_of_head (by simpa [List.head?_reverse] using hd) hdb
  rw [trim, hstart, trimEnd, hend, List.reverse_reverse]

theorem trim_of_tight {cs : List Char} (h : Tight cs) : trim cs = cs := by
  simpa using trim_frame (a := []) (b := []) (by simp) (by simp) h

theorem isBlank_of_mem_ending {line : String} {c : Char} (h : c ∈ (ending line).toList) :
    isBlank c = true := by
  unfold ending at h
  split at h
  · have : c = '\r' := by simpa using h
    exact this ▸ rfl
  · simp at h

theorem Tight.ne_nil {cs : List Char} (h : Tight cs) : cs ≠ [] := by
  obtain ⟨c, hc, -⟩ := h.head
  rintro rfl
  simp at hc

theorem Tight.append_ne_empty {statement : String} (h : Tight statement.toList) (ending : String) :
    statement ++ ending ≠ "" := fun heq =>
  (List.append_ne_nil_of_left_ne_nil h.ne_nil ending.toList) (by
    rw [← String.toList_append, heq, String.toList_empty])

theorem Tight.restate_ne_empty {statement : String} (h : Tight statement.toList) (line : String) :
    restate line statement ≠ "" := fun heq => by
  have hframe := toList_restate line statement
  rw [heq, String.toList_empty, List.append_assoc] at hframe
  exact h.ne_nil (List.append_eq_nil_iff.mp (List.append_eq_nil_iff.mp hframe.symm).2).1

theorem trim_restate {statement : String} (line : String) (h : Tight statement.toList) :
    trim (restate line statement).toList = statement.toList := by
  rw [toList_restate]
  exact trim_frame (fun _ => isBlank_of_mem_blanks) (fun _ => isBlank_of_mem_ending) h

/-! ### The frame of a line -/

theorem Tight.blanks_append {cs : List Char} (h : Tight cs) (tail : List Char) :
    blanks (cs ++ tail) = [] := by
  obtain ⟨c, hc, hblank⟩ := h.head
  cases cs with
  | nil => simp at hc
  | cons d cs =>
    simp only [List.head?_cons, Option.some.injEq] at hc
    simp [blanks, hc, hblank]

theorem Tight.endsWithReturn {line : String} (h : Tight line.toList) :
    endsWithReturn line = false := by
  obtain ⟨c, hc, hblank⟩ := h.last
  have hne : c ≠ '\r' := by
    rintro rfl
    simp [isBlank] at hblank
  simp [Text.endsWithReturn, hc, hne]

/-- A line has one frame: its indentation, and a carriage return or nothing at its end. -/
theorem frame_unique {line : String} {a s e : List Char} (ha : ∀ c ∈ a, isBlank c = true)
    (hs : Tight s) (he : e = [] ∨ e = ['\r']) (h : line.toList = a ++ s ++ e) :
    blanks line.toList = a ∧ (ending line).toList = e := by
  refine ⟨?_, ?_⟩
  · have hrest : (s ++ e).takeWhile isBlank = [] := hs.blanks_append ..
    rw [h, blanks, List.append_assoc, List.takeWhile_append_of_pos ha, hrest, List.append_nil]
  · obtain ⟨d, hd, hblank⟩ := hs.last
    unfold ending endsWithReturn
    rcases he with rfl | rfl
    · have hreturn : d ≠ '\r' := by
        rintro rfl
        simp [isBlank] at hblank
      have hlast : line.toList.getLast? = some d := by simp [h, List.getLast?_append, hd]
      simp [hlast, hreturn]
    · simp [h]

theorem ending_eq (line : String) :
    (ending line).toList = [] ∨ (ending line).toList = ['\r'] := by
  unfold ending
  split <;> simp

theorem restate_of_frame {line statement : String} {a e : List Char}
    (ha : ∀ c ∈ a, isBlank c = true) (hs : Tight statement.toList) (he : e = [] ∨ e = ['\r'])
    (h : line.toList = a ++ statement.toList ++ e) : restate line statement = line := by
  obtain ⟨hblanks, hending⟩ := frame_unique ha hs he h
  exact String.toList_inj.mp (by rw [toList_restate, hblanks, hending, h])

theorem frame_restate {statement : String} (line : String) (h : Tight statement.toList) :
    blanks (restate line statement).toList = blanks line.toList
      ∧ (ending (restate line statement)).toList = (ending line).toList :=
  frame_unique (fun _ => isBlank_of_mem_blanks) h (ending_eq line) (toList_restate line statement)

/-- Only the last restatement of a line counts. -/
theorem restate_restate {statement : String} (line : String) (h : Tight statement.toList)
    (other : String) : restate (restate line statement) other = restate line other := by
  obtain ⟨hblanks, hending⟩ := frame_restate line h
  exact String.toList_inj.mp (by rw [toList_restate, hblanks, hending, toList_restate])

theorem endsWithReturn_restate {statement : String} (line : String)
    (h : Tight statement.toList) :
    endsWithReturn (restate line statement) = endsWithReturn line := by
  have hending := (frame_restate line h).2
  unfold ending at hending
  cases hnew : endsWithReturn (restate line statement) <;>
    cases hold : endsWithReturn line <;> simp_all

/-! ### Pieces between separators -/

theorem not_mem_of_mem_splitOn {sep : Char} {cs piece : List Char} (h : piece ∈ cs.splitOn sep) :
    sep ∉ piece := by
  induction cs generalizing piece with
  | nil =>
    have : piece = [] := by simpa using h
    simp [this]
  | cons c cs ih =>
    rw [List.splitOn_cons_eq_if_modifyHead] at h
    split at h
    next =>
      rcases List.mem_cons.mp h with rfl | h
      · simp
      · exact ih h
    next hne =>
      obtain ⟨first, rest, hsplit⟩ := List.exists_cons_of_ne_nil (List.splitOn_ne_nil sep cs)
      rw [hsplit, List.modifyHead_cons, List.mem_cons] at h
      rw [hsplit] at ih
      rcases h with rfl | h
      · have hfirst := ih (List.mem_cons_self ..)
        have hsep : ¬sep = c := fun heq => hne (by simp [heq])
        simp [hsep, hfirst]
      · exact ih (List.mem_cons_of_mem _ h)

theorem lineFeed_not_mem_of_mem_splitLines {text line : String} (h : line ∈ splitLines text) :
    '\n' ∉ line.toList := by
  obtain ⟨cs, hcs, rfl⟩ := List.mem_map.mp h
  rw [String.toList_ofList]
  exact not_mem_of_mem_splitOn hcs

/-- A text has one line more than line feeds. -/
theorem length_splitLines (text : String) :
    (splitLines text).length = text.toList.count '\n' + 1 := by
  rw [splitLines, List.length_map]
  induction text.toList with
  | nil => rfl
  | cons c cs ih =>
    rw [List.splitOn_cons_eq_if_modifyHead, List.count_cons]
    split
    next hfeed => rw [List.length_cons, ih]
    next hfeed => rw [List.length_modifyHead, ih]

/-- A line of a text is there when the text is read. -/
theorem mem_splitLines_joinLines {lines : List String} {line : String} (hline : line ∈ lines)
    (h : '\n' ∉ line.toList) : line ∈ splitLines (joinLines lines) := by
  have hself : line.toList ∈ line.toList.splitOn '\n' := by
    rw [List.splitOn_eq_singleton h]
    exact List.mem_singleton_self _
  have hchars : line.toList ∈ (joinLines lines).toList.splitOn '\n' := by
    rw [joinLines, String.toList_intercalate]
    induction lines with
    | nil => cases hline
    | cons first lines ih =>
      cases lines with
      | nil =>
        obtain rfl := List.mem_singleton.mp hline
        simpa [List.intercalate] using hself
      | cons second lines =>
        have htext : "\n".toList.intercalate ((first :: second :: lines).map String.toList)
            = first.toList ++ '\n' :: "\n".toList.intercalate ((second :: lines).map String.toList) := by
          simp [List.intercalate_cons_cons]
        rw [htext, List.splitOn_append_cons_self, List.mem_append]
        rcases List.mem_cons.mp hline with rfl | hline
        · exact .inl hself
        · exact .inr (ih hline)
  exact List.mem_map.mpr ⟨line.toList, hchars, String.ofList_toList⟩

theorem mem_of_mem_blanks {cs : List Char} {c : Char} (h : c ∈ blanks cs) : c ∈ cs :=
  (List.takeWhile_sublist isBlank).mem h

theorem lineFeed_not_mem_restate {line statement : String} (hline : '\n' ∉ line.toList)
    (h : '\n' ∉ statement.toList) : '\n' ∉ (restate line statement).toList := by
  rw [toList_restate]
  simp only [List.mem_append, not_or]
  refine ⟨⟨fun hmem => hline (mem_of_mem_blanks hmem), h⟩, ?_⟩
  unfold ending
  split <;> decide

end Inclusion.Text
