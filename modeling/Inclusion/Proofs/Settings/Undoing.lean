import Inclusion.Proofs.Settings.Arrival
import Inclusion.Proofs.Settings.Saving

/-!
# A project that is registered and dropped again

A project that a settings file does not mention is registered by two lines at its end, before a final
empty line, and dropping it takes just these two lines out again. So a file that is in line with what
it says comes back as it was. The same holds if declarations among its lines are restated in between,
as restating declarations and editing registrations do not get in each other's way.

* `reconcile_addExternal`, `reconcile_appendLines`: a project comes and goes.
* `reconcile_map`: editing commutes with restating declarations.
-/
namespace Inclusion.Settings

open Text

/-! ### Snapshots -/

theorem filter_ne_of_not_mem {names : List String} {name : String} (h : name ∉ names) :
    names.filter (· != name) = names :=
  List.filter_eq_self.mpr fun n hn => by
    have : n ≠ name := fun heq => h (heq ▸ hn)
    simpa using this

/-- Dropping a project that was added leaves a snapshot that did not mention it as it was. -/
theorem Snapshot.remove_addExternal {s : Snapshot} {name : String} (h : s.mentions name = false)
    (path : String) : (s.addExternal name path).remove name = s := by
  obtain ⟨all, internal, external⟩ := s
  simp only [mentions, Bool.or_eq_false_iff, decide_eq_false_iff_not] at h
  obtain ⟨⟨hall, hinternal⟩, hexternal⟩ := h
  have hbindings : external.filter (·.1 != name) = external :=
    List.filter_eq_self.mpr fun b hb => by
      have : b.1 ≠ name := fun heq => hexternal (heq ▸ List.mem_map_of_mem hb)
      simpa using this
  simp only [addExternal, remove, addNew, bindTo, if_neg hall, if_neg hexternal,
    List.filter_append, filter_ne_of_not_mem hall, filter_ne_of_not_mem hinternal, hbindings]
  simp

theorem mentions_ofLines {lines : List String} {name : String}
    (h : name ∉ (Snapshot.ofLines lines).all) : (Snapshot.ofLines lines).mentions name = false :=
  ((isUnion_of_edits (lines.flatMap pieces) []).mentions_eq name).trans (decide_eq_false h)

/-! ### Lines at the end -/

theorem any_appendLines (lines added : List String) (p : String → Bool) :
    (appendLines lines added).any p = (lines.any p || added.any p) := by
  unfold appendLines
  split
  next hlast =>
    obtain ⟨before, rfl⟩ := List.getLast?_eq_some_iff.mp hlast
    simp only [List.dropLast_concat, List.any_append]
    rw [Bool.or_right_comm]
  next => rw [List.any_append]

/-- Lines that are not empty may be put at the end one after the other. -/
theorem appendLines_append (lines more : List String) {added : List String}
    (h : ∀ line ∈ added, line ≠ "") :
    appendLines lines (added ++ more) = appendLines (appendLines lines added) more := by
  unfold appendLines
  by_cases hlast : lines.getLast? = some ""
  · obtain ⟨before, rfl⟩ := List.getLast?_eq_some_iff.mp hlast
    simp
  · have hadded : (lines ++ added).getLast? ≠ some "" := by
      rw [List.getLast?_append]
      cases hend : added.getLast? with
      | none => simpa using hlast
      | some line => simpa using h line (List.mem_of_getLast? hend)
    rw [if_neg hlast, if_neg hlast, if_neg hadded, List.append_assoc]

theorem map_appendLines {r : String → String} {lines : List String} (added : List String)
    (hempty : r "" = "") (h : ∀ line ∈ lines, r line = "" → line = "") :
    appendLines (lines.map r) (added.map r) = (appendLines lines added).map r := by
  have hlast : (lines.map r).getLast? = some "" ↔ lines.getLast? = some "" := by
    rw [List.getLast?_map, Option.map_eq_some_iff]
    constructor
    · rintro ⟨line, hline, hr⟩
      rw [hline, h line (List.mem_of_getLast? hline) hr]
    · exact fun hline => ⟨"", hline, hempty⟩
  unfold appendLines
  simp only [hlast]
  split <;> simp [hempty, List.map_dropLast]

/-! ### Blocks below each other -/

namespace Block

/-- Whether a statement above would take a block up. -/
def isLoose : Block → Bool
  | loose _ _ => true
  | _ => false

theorem absorb_append (first : String) (more names : List String) (bs : List Block)
    {below : List Block} (h : ∀ b ∈ below.head?, b.isLoose = false) :
    absorb first more names (bs ++ below) = absorb first more names bs ++ below := by
  induction bs generalizing more names with
  | nil =>
    cases below with
    | nil => rfl
    | cons b below =>
      cases b with
      | loose line names => simp [isLoose] at h
      | statement | binding | plain => rfl
  | cons b bs ih =>
    cases b with
    | loose line added => exact ih _ _
    | statement | binding | plain => rfl

end Block

theorem blocks_cons (line : String) (lines : List String) :
    blocks (line :: lines) = Block.cons line (blocks lines) := rfl

theorem blocks_append (lines : List String) {below : List String}
    (h : ∀ b ∈ (blocks below).head?, b.isLoose = false) :
    blocks (lines ++ below) = blocks lines ++ blocks below := by
  induction lines with
  | nil => rfl
  | cons line lines ih =>
    rw [List.cons_append, blocks_cons, blocks_cons, ih, Block.cons, Block.cons]
    split
    next => exact Block.absorb_append _ _ _ _ h
    next => rfl

/-! ### The lines of a project -/

/-- The lines that register a project bound to a directory. -/
def registration (name path ending : String) : List String :=
  [includeStatement [name] ++ ending, directoryStatement name path ++ ending]

theorem mapM_bareName?_map (names : List String) :
    (names.map .bareName).mapM Piece.bareName? = some names := by
  induction names with
  | nil => rfl
  | cons name names ih => simp [Piece.bareName?, ih]

theorem openingNames?_of_linePieces {line : String} {names : List String} (hne : names ≠ [])
    (h : linePieces line = includePieces names) : openingNames? line = some names := by
  obtain ⟨name, names, rfl⟩ := List.exists_cons_of_ne_nil hne
  rw [openingNames?, h]
  simp only [includePieces, mapM_bareName?_map, Option.map_some]

section

variable {name path : String} (hname : IsProject name) (hpath : IsDirectory path)

include hname hpath

/-- A line that says a binding, between blanks, is one and nothing else. -/
theorem bindingOf?_of_directoryStatement {line : String} {a b : List Char}
    (ha : ∀ c ∈ a, isBlank c = true) (hb : ∀ c ∈ b, isBlank c = true)
    (hline : line.toList = a ++ (directoryStatement name path).toList ++ b) :
    openingNames? line = none ∧ continuationNames? line = none
      ∧ bindingOf? line = some (name, path) := by
  have hpieces := linePieces_directoryStatement hname hpath.isUnbroken.1 ha hb hline
  have hpiece : Piece.ofText line = .binding name path := by
    rw [Piece.ofText, hline, ofChars_frame ha hb (tight_directoryStatement name path),
      ofChars_directoryStatement hname, directoryPiece, if_pos hpath]
  rw [directoryPiece, if_pos hpath] at hpieces
  refine ⟨by rw [openingNames?, hpieces], ?_, by rw [bindingOf?, hpiece]⟩
  rw [continuationNames?, hpieces]
  rfl

end

section

variable {name path ending : String} (hname : IsProject name) (hpath : IsDirectory path)
  (hending : ∀ c ∈ ending.toList, isBlank c = true)

include hname hending

theorem openingNames?_registration :
    openingNames? (includeStatement [name] ++ ending) = some [name] :=
  openingNames?_of_linePieces (by simp) (linePieces_includeStatement (a := []) [name]
    (by simpa using hname) (by simp) hending (by simp) (by simp))

include hpath

theorem ofLine_registration :
    openingNames? (directoryStatement name path ++ ending) = none
      ∧ Block.ofLine (directoryStatement name path ++ ending)
        = .binding (directoryStatement name path ++ ending) name path := by
  have hline : (directoryStatement name path ++ ending).toList
      = [] ++ (directoryStatement name path).toList ++ ending.toList := by simp
  obtain ⟨hopening, hcontinues, hbinding⟩ :=
    bindingOf?_of_directoryStatement hname hpath (by simp) hending hline
  refine ⟨hopening, ?_⟩
  rw [Block.ofLine, hcontinues, hbinding]

theorem blocks_registration (below : List String) :
    blocks (registration name path ending ++ below)
      = .statement (includeStatement [name] ++ ending) [] [name]
        :: .binding (directoryStatement name path ++ ending) name path :: blocks below := by
  obtain ⟨hnone, hline⟩ := ofLine_registration hname hpath hending
  rw [registration, List.cons_append, List.cons_append, List.nil_append, blocks_cons, blocks_cons,
    Block.cons, openingNames?_registration hname hending, Block.cons, hnone, hline]
  rfl

end

theorem ne_empty_of_mem_additions {s : Snapshot} {bs : List Block} {ending line : String}
    (h : line ∈ additions s bs ending) : line ≠ "" := by
  obtain ⟨statement, hstatement, rfl⟩ := writes_of_mem_additions h
  exact hstatement.tight.append_ne_empty ending

/-! ### A project that no line mentions -/

/-- Whether a block names or binds a project. -/
def Block.Concerns (name : String) : Block → Prop
  | .statement _ _ names => name ∈ names
  | .binding _ bound _ => name = bound
  | .loose _ _ | .plain _ => False

theorem flatMap_linePieces_blocks (lines : List String) :
    lines.flatMap linePieces = (blocks lines).flatMap fun b => b.lines.flatMap linePieces := by
  conv_lhs => rw [← flatMap_lines_blocks lines]
  exact List.flatMap_assoc

/-- What a block concerns is registered. -/
theorem mem_all_of_concerns {lines : List String} {b : Block} (hb : b ∈ blocks lines)
    {name : String} (h : b.Concerns name) : name ∈ (Snapshot.ofLines lines).all := by
  have hread := Block.isRead_of_mem_blocks b hb
  rw [mem_all_ofLines, flatMap_linePieces_blocks]
  obtain ⟨above, below, hbs⟩ := List.append_of_mem hb
  rw [hbs]
  cases b with
  | statement first more names =>
    refine .inl ?_
    have hpieces : (Block.statement first more names).lines.flatMap linePieces
        = includePieces names := hread.2
    rw [List.flatMap_append, List.flatMap_cons, hpieces, named_append, named_includePieces]
    exact List.mem_append_right _ (List.mem_append_left _ h)
  | binding line bound' path =>
    refine .inr ?_
    have hpieces : (Block.binding line bound' path).lines.flatMap linePieces
        = [.binding bound' path] := by
      rw [Block.lines, List.flatMap_singleton]
      exact hread
    rw [List.flatMap_append, List.flatMap_cons, hpieces, bound_append, bound_append, List.map_append,
      List.map_append, show name = bound' from h]
    simp [bound, Piece.bindings]
  | loose => cases h
  | plain => cases h

section

variable {s : Snapshot} {name : String} (path : String) {b : Block} (h : ¬b.Concerns name)

include h

/-- Adding a project changes nothing about blocks that do not concern it. -/
theorem Block.edited_addExternal :
    b.edited (s.addExternal name path) = b.edited s
      ∧ b.keptNames (s.addExternal name path) = b.keptNames s
      ∧ b.boundNames (s.addExternal name path) = b.boundNames s := by
  cases b with
  | statement first more names =>
    have hkept : names.filter (s.addExternal name path).contains = names.filter s.contains :=
      List.filter_congr fun n hn => by
        have hne : n ≠ name := fun heq => h (heq ▸ hn)
        simp [Snapshot.contains, Snapshot.addExternal, mem_addNew, hne]
    refine ⟨?_, hkept, rfl⟩
    simp only [edited, hkept]
  | binding line bound' path' =>
    have hne : bound' ≠ name := fun heq => h heq.symm
    have hdirectory : (s.addExternal name path).directory? bound' = s.directory? bound' := by
      rw [Snapshot.directory?_addExternal, if_neg hne]
    exact ⟨by simp only [edited, hdirectory], rfl, by simp only [boundNames, hdirectory]⟩
  | loose | plain => exact ⟨rfl, rfl, rfl⟩

end

/-- Adding a project that nothing mentions adds the lines that register it. -/
theorem reconcile_addExternal {lines : List String} {s : Snapshot} {name : String}
    (hs : s.mentions name = false) (h : ∀ b ∈ blocks lines, ¬b.Concerns name) (path : String) :
    reconcile lines (s.addExternal name path)
      = appendLines (reconcile lines s) (registration name path (fileEnding lines)) := by
  simp only [Snapshot.mentions, Bool.or_eq_false_iff, decide_eq_false_iff_not] at hs
  have hedit := fun b hb => Block.edited_addExternal (s := s) path (h b hb)
  have hkept : (blocks lines).flatMap (Block.keptNames (s.addExternal name path))
      = (blocks lines).flatMap (Block.keptNames s) :=
    List.flatMap_congr fun b hb => (hedit b hb).2.1
  have hbound : (blocks lines).flatMap (Block.boundNames (s.addExternal name path))
      = (blocks lines).flatMap (Block.boundNames s) :=
    List.flatMap_congr fun b hb => (hedit b hb).2.2
  have hnew : name ∉ (blocks lines).flatMap (Block.keptNames s)
      ∧ name ∉ (blocks lines).flatMap (Block.boundNames s) := by
    simp only [List.mem_flatMap, not_exists, not_and]
    refine ⟨fun b hb hmem => h b hb ?_, fun b hb hmem => h b hb ?_⟩ <;> cases b <;>
      simp_all [Block.keptNames, Block.boundNames, Block.Concerns]
  have hadditions : additions (s.addExternal name path) (blocks lines) (fileEnding lines)
      = additions s (blocks lines) (fileEnding lines)
        ++ registration name path (fileEnding lines) := by
    have hall : (s.addExternal name path).all = s.all ++ [name] := if_neg hs.1.1
    rw [additions, hall, List.flatMap_append, List.flatMap_singleton, hkept, hbound, if_neg hnew.1,
      Snapshot.directory?_addExternal, if_pos rfl]
    refine congrArg₂ (· ++ ·) (List.flatMap_congr fun n hn => ?_) ?_
    · have hne : n ≠ name := fun heq => hs.1.1 (heq ▸ hn)
      rw [Snapshot.directory?_addExternal, if_neg hne]
    · simp only [if_neg hnew.2, registration, List.cons_append, List.nil_append]
  rw [reconcile, hadditions, List.flatMap_congr fun b hb => (hedit b hb).1,
    appendLines_append _ _ fun _ => ne_empty_of_mem_additions]
  rfl

theorem endsWithReturn_registration {name path line : String}
    (h : line ∈ registration name path "") : endsWithReturn line = false := by
  have hinclude : Tight (includeStatement [name] ++ "").toList := by
    rw [String.append_empty]
    exact tight_includeStatement (by simp)
  have hdirectory : Tight (directoryStatement name path ++ "").toList := by
    rw [String.append_empty]
    exact tight_directoryStatement name path
  simp only [registration, List.mem_cons, List.not_mem_nil, or_false] at h
  rcases h with rfl | rfl
  · exact hinclude.endsWithReturn
  · exact hdirectory.endsWithReturn

theorem fileEnding_appendLines (lines : List String) (name path : String) :
    fileEnding (appendLines lines (registration name path (fileEnding lines)))
      = fileEnding lines := by
  cases hreturn : lines.any endsWithReturn with
  | true => simp [fileEnding, any_appendLines, hreturn]
  | false =>
    have hending : fileEnding lines = "" := by simp [fileEnding, hreturn]
    have hadded : (registration name path "").any endsWithReturn = false :=
      List.any_eq_false.mpr fun line hline => by simp [endsWithReturn_registration hline]
    rw [hending, fileEnding, any_appendLines, hreturn, hadded]
    rfl

/-- Where lines are put: at the end, or before an empty last line. -/
theorem exists_appendLines (lines : List String) :
    ∃ above below, lines = above ++ below ∧ (below = [] ∨ below = [""])
      ∧ ∀ added, appendLines lines added = above ++ (added ++ below) := by
  by_cases hlast : lines.getLast? = some ""
  · obtain ⟨above, rfl⟩ := List.getLast?_eq_some_iff.mp hlast
    exact ⟨above, [""], rfl, .inr rfl, fun added => by simp [appendLines]⟩
  · exact ⟨lines, [], by simp, .inl rfl, fun added => by simp [appendLines, hlast]⟩

/-- Dropping a project takes out just the lines that register it. -/
theorem reconcile_appendLines (lines : List String) {s : Snapshot} {name path : String}
    (hname : IsProject name) (hpath : IsDirectory path) (hs : s.mentions name = false) :
    reconcile (appendLines lines (registration name path (fileEnding lines))) s
      = reconcile lines s := by
  simp only [Snapshot.mentions, Bool.or_eq_false_iff, decide_eq_false_iff_not] at hs
  have hdirectory : s.directory? name = none :=
    Option.not_isSome_iff_eq_none.mp fun hsome => hs.2 (NameMap.isSome_lookup_iff.mp hsome)
  have hcontains : s.contains name = false := by simpa [Snapshot.contains] using hs.1.1
  have hending := fileEnding_appendLines lines name path
  obtain ⟨above, below, hlines, hbelow, happend⟩ := exists_appendLines lines
  have hblank : ∀ c ∈ (fileEnding lines).toList, isBlank c = true :=
    fun _ => isBlank_of_mem_fileEnding
  have hregistration := blocks_registration hname hpath hblank below
  -- no statement above the new lines, or above an empty last line, takes up what is below
  have hnew : blocks (above ++ (registration name path (fileEnding lines) ++ below))
      = blocks above ++ blocks (registration name path (fileEnding lines) ++ below) :=
    blocks_append above (by simp [hregistration, Block.isLoose])
  have hold : blocks (above ++ below) = blocks above ++ blocks below := by
    refine blocks_append above ?_
    rcases hbelow with rfl | rfl
    · simp [blocks]
    · decide
  rw [hregistration] at hnew
  rw [reconcile, hending, reconcile, happend, hnew]
  conv_rhs => rw [hlines, hold, ← hlines]
  simp [additions, Block.edited, Block.keptNames, Block.boundNames, hdirectory, hcontains]

section

variable {lines : List String} {name path : String} (hnot : name ∉ (Snapshot.ofLines lines).all)
  (hlines : reconcile lines (.ofLines lines) = lines)

include hnot hlines

theorem reconcile_ofLines_addExternal :
    reconcile lines ((Snapshot.ofLines lines).addExternal name path)
      = appendLines lines (registration name path (fileEnding lines)) := by
  rw [reconcile_addExternal (mentions_ofLines hnot)
    (fun b hb hmem => hnot (mem_all_of_concerns hb hmem)), hlines]

theorem reconcile_ofLines_addExternal_ne_nil :
    reconcile lines ((Snapshot.ofLines lines).addExternal name path) ≠ [] := by
  obtain ⟨above, below, -, -, happend⟩ := exists_appendLines lines
  rw [reconcile_ofLines_addExternal hnot hlines, happend]
  simp [registration]

/-- A project that no line mentions comes and goes without a trace. -/
theorem reconcile_reconcile_addExternal (hname : IsProject name) (hpath : IsDirectory path) :
    reconcile (reconcile lines ((Snapshot.ofLines lines).addExternal name path)) (.ofLines lines)
      = lines := by
  rw [reconcile_ofLines_addExternal hnot hlines,
    reconcile_appendLines lines hname hpath (mentions_ofLines hnot), hlines]

end

/-! ### Declarations that are restated in between -/

/-- A block of which every line is changed. -/
def Block.map (r : String → String) : Block → Block
  | statement first more names => statement (r first) (more.map r) names
  | loose line names => loose (r line) names
  | binding line name path => binding (r line) name path
  | plain line => plain (r line)

/-- Whether a change of lines restates declarations only, so that these stay declarations and keep
their carriage returns. -/
structure Restates (r : String → String) (lines : List String) : Prop where
  other : ∀ line, Dependency.ofLine? line = none → r line = line
  pieces : ∀ line ∈ lines, Dependency.ofLine? line ≠ none → linePieces (r line) = [.other]
  ending : ∀ line ∈ lines, endsWithReturn (r line) = endsWithReturn line

namespace Block

theorem absorb_map (r : String → String) (first : String) (more names : List String)
    (bs : List Block) :
    absorb (r first) (more.map r) names (bs.map (Block.map r))
      = (absorb first more names bs).map (Block.map r) := by
  induction bs generalizing more names with
  | nil => rfl
  | cons b bs ih =>
    cases b with
    | loose line added =>
      have hmore : more.map r ++ [r line] = (more ++ [line]).map r := by simp
      rw [List.map_cons, Block.map, absorb, absorb, hmore, ih]
    | statement | binding | plain => rfl

theorem ofLine_of_linePieces {line : String} (h : linePieces line = [.other]) :
    openingNames? line = none ∧ ofLine line = plain line := by
  have hbinding : bindingOf? line = none := by
    cases hbound : bindingOf? line with
    | none => rfl
    | some b => simp [linePieces_of_bindingOf? hbound] at h
  refine ⟨by rw [openingNames?, h], ?_⟩
  rw [ofLine, hbinding, continuationNames?, h]
  rfl

theorem cons_map {r : String → String} {lines : List String} (h : Restates r lines) {line : String}
    (hline : line ∈ lines) (bs : List Block) :
    Block.cons (r line) (bs.map (Block.map r)) = (Block.cons line bs).map (Block.map r) := by
  cases hread : Dependency.ofLine? line with
  | none =>
    have hkept := h.other line hread
    have hcons : (ofLine line).map r = ofLine line := by
      unfold ofLine
      split
      · simp only [Block.map, hkept]
      · split <;> simp only [Block.map, hkept]
    rw [hkept, Block.cons, Block.cons]
    split
    next names _ =>
      have habsorb := absorb_map r line [] names bs
      rwa [hkept] at habsorb
    next => rw [List.map_cons, hcons]
  | some d =>
    obtain ⟨hopening, hplain⟩ := ofLine_of_linePieces (linePieces_of_ofLine? hread)
    obtain ⟨hopening', hplain'⟩ :=
      ofLine_of_linePieces (h.pieces line hline (by simp [hread]))
    rw [Block.cons, hopening', Block.cons, hopening, hplain', hplain]
    rfl

theorem keptNames_map (r : String → String) (s : Snapshot) (b : Block) :
    (b.map r).keptNames s = b.keptNames s := by cases b <;> rfl

theorem boundNames_map (r : String → String) (s : Snapshot) (b : Block) :
    (b.map r).boundNames s = b.boundNames s := by cases b <;> rfl

/-- Only a plain line may be a declaration. -/
theorem ofLine?_eq_none_of_mem_lines {b : Block} (hb : b.IsRead) (hplain : ∀ l, b ≠ plain l)
    {line : String} (hline : line ∈ b.lines) : Dependency.ofLine? line = none := by
  refine ofLine?_eq_none_of_linePieces fun hother => ?_
  have hmem : .other ∈ b.lines.flatMap linePieces := List.mem_flatMap.mpr ⟨line, hline, hother⟩
  cases b with
  | statement first more names =>
    rw [lines, List.flatMap_cons, hb.2] at hmem
    exact other_not_mem_includePieces names hmem
  | loose line names =>
    rw [lines, List.flatMap_singleton, show linePieces line = _ from hb] at hmem
    simp at hmem
  | binding line name path =>
    rw [lines, List.flatMap_singleton, show linePieces line = _ from hb] at hmem
    simp at hmem
  | plain line => exact hplain line rfl

theorem map_eq_self {r : String → String} {b : Block} (h : ∀ line ∈ b.lines, r line = line) :
    b.map r = b := by
  cases b with
  | statement first more names =>
    obtain ⟨hfirst, hmore⟩ := List.forall_mem_cons.mp h
    have hmap : more.map r = more := (List.map_congr_left hmore).trans (List.map_id more)
    rw [Block.map, hfirst, hmap]
  | loose line | binding line | plain line =>
    rw [Block.map, h line (List.mem_singleton_self _)]

/-- No line of an edited block is a declaration, unless the block is that line. -/
theorem ofLine?_eq_none_of_mem_edited {s : Snapshot} (hs : s.Writable IsUnbroken) {b : Block}
    (hb : b.IsRead) (hplain : ∀ l, b ≠ plain l) {line : String} (hline : line ∈ b.edited s) :
    Dependency.ofLine? line = none := by
  have hnone : (b.edited s).filterMap Dependency.ofLine? = [] := by
    rw [filterMap_ofLine?_edited hs.oneLine hb, List.filterMap_eq_nil_iff]
    exact fun line => ofLine?_eq_none_of_mem_lines hb hplain
  exact List.filterMap_eq_nil_iff.mp hnone line hline

theorem edited_map {r : String → String} {lines : List String} (h : Restates r lines) {s : Snapshot}
    (hs : s.Writable IsUnbroken) {b : Block} (hb : b.IsRead) :
    (b.map r).edited s = (b.edited s).map r := by
  by_cases hplain : ∃ l, b = plain l
  · obtain ⟨l, rfl⟩ := hplain
    rfl
  · have hplain := not_exists.mp hplain
    have hlines := map_eq_self fun line hline =>
      h.other line (ofLine?_eq_none_of_mem_lines hb hplain hline)
    rw [hlines, List.map_congr_left fun line hline =>
      h.other line (ofLine?_eq_none_of_mem_edited hs hb hplain hline), List.map_id']

end Block

theorem blocks_map {r : String → String} {lines : List String} (h : Restates r lines) :
    blocks (lines.map r) = (blocks lines).map (Block.map r) := by
  induction lines with
  | nil => rfl
  | cons line lines ih =>
    have hrest : Restates r lines :=
      ⟨h.other, fun l hl => h.pieces l (List.mem_cons_of_mem _ hl),
        fun l hl => h.ending l (List.mem_cons_of_mem _ hl)⟩
    rw [List.map_cons, blocks_cons, blocks_cons, ih hrest,
      Block.cons_map h (List.mem_cons_self ..)]

theorem fileEnding_map {r : String → String} {lines : List String} (h : Restates r lines) :
    fileEnding (lines.map r) = fileEnding lines := by
  have hany : (lines.map r).any endsWithReturn = lines.any endsWithReturn := by
    rw [Bool.eq_iff_iff, List.any_map, List.any_eq_true, List.any_eq_true]
    exact exists_congr fun line => and_congr_right fun hline => by
      rw [Function.comp_apply, h.ending line hline]
  rw [fileEnding, hany, fileEnding]

/-- Restating declarations and editing registrations do not get in each other's way. -/
theorem reconcile_map {r : String → String} {lines : List String} (h : Restates r lines)
    {s : Snapshot} (hs : s.Writable IsUnbroken) :
    reconcile (lines.map r) s = (reconcile lines s).map r := by
  have hblocks : (blocks (lines.map r)).flatMap (Block.edited s)
      = ((blocks lines).flatMap (Block.edited s)).map r := by
    rw [blocks_map h, List.flatMap_map, List.map_flatMap]
    exact List.flatMap_congr fun b hb => Block.edited_map h hs (Block.isRead_of_mem_blocks b hb)
  have hadditions : additions s (blocks (lines.map r)) (fileEnding (lines.map r))
      = (additions s (blocks lines) (fileEnding lines)).map r := by
    have hnone : ∀ line ∈ additions s (blocks lines) (fileEnding lines),
        Dependency.ofLine? line = none :=
      List.filterMap_eq_nil_iff.mp (filterMap_ofLine?_additions hs.oneLine (blocks lines) _
        fun _ => isBlank_of_mem_fileEnding)
    rw [List.map_congr_left fun line hline => h.other line (hnone line hline), List.map_id',
      fileEnding_map h, blocks_map h]
    simp only [additions, List.flatMap_map, Block.keptNames_map, Block.boundNames_map]
  have hempty : ∀ line ∈ (blocks lines).flatMap (Block.edited s), r line = "" → line = "" := by
    intro line hline hr
    cases hread : Dependency.ofLine? line with
    | none => rw [← h.other line hread, hr]
    | some d =>
      -- a declaration among the edited lines was there before, and stays one
      obtain ⟨b, hb, hline⟩ := List.mem_flatMap.mp hline
      have hplain : ∃ l, b = .plain l := by
        by_contra hnot
        simp [Block.ofLine?_eq_none_of_mem_edited hs (Block.isRead_of_mem_blocks b hb)
          (not_exists.mp hnot) hline] at hread
      obtain ⟨l, rfl⟩ := hplain
      obtain rfl : line = l := List.mem_singleton.mp hline
      have hmem : line ∈ (blocks lines).flatMap Block.lines :=
        List.mem_flatMap.mpr ⟨_, hb, List.mem_singleton_self _⟩
      have hpieces := h.pieces line (flatMap_lines_blocks lines ▸ hmem) (by simp [hread])
      rw [hr, linePieces_empty] at hpieces
      cases hpieces
  rw [reconcile, hblocks, hadditions, map_appendLines _ (h.other "" (by decide)) hempty, reconcile]

theorem Restates.ofLines_map {r : String → String} {lines : List String} (h : Restates r lines) :
    Snapshot.ofLines (lines.map r) = Snapshot.ofLines lines := by
  refine ofLines_congr ?_
  rw [List.flatMap_map]
  refine List.flatMap_congr fun line hline => ?_
  cases hread : Dependency.ofLine? line with
  | none => rw [h.other line hread]
  | some d => rw [h.pieces line hline (by simp [hread]), linePieces_of_ofLine? hread]

/-- A project comes and goes without a trace also if declarations are restated in between. -/
theorem reconcile_map_reconcile {r : String → String} {lines : List String} {name path : String}
    (h : Restates r lines) (hname : IsProject name) (hpath : IsDirectory path)
    (hnot : name ∉ (Snapshot.ofLines lines).all)
    (hlines : reconcile lines (.ofLines lines) = lines) :
    reconcile ((reconcile lines ((Snapshot.ofLines lines).addExternal name path)).map r)
        (.ofLines lines) = lines.map r := by
  have hs := (writable_ofLines lines).unbroken
  have hmap := reconcile_map h hs
  rw [hlines, ← h.ofLines_map] at hmap
  rw [← reconcile_map h (hs.addExternal hname hpath.isUnbroken), ← h.ofLines_map]
  exact reconcile_reconcile_addExternal (h.ofLines_map ▸ hnot) hmap hname hpath

end Inclusion.Settings
