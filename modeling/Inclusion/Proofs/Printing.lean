import Inclusion.Manifest.File
import Inclusion.Store.Shelf

/-!
# A written manifest reads back

A reader takes a written value off the front of a text, whatever white space stands before it and
whatever follows it. From strings this goes up to the lists and the records that are laid out of
them: an item is read where it stands, between the comma before it and the margin behind it. So a
manifest reads back whatever its strings hold, also from the lines of its text.

* `ReadsBack`: a written value and its reader.
* `readsBack_quote`, `readsBack_layoutList`, `readsBack_layoutRecord`: strings, lists and records.
* `Manifest.load_pretty`: manifests.
-/
namespace Inclusion

namespace Json

/-- Whether a reader takes a written value off the front of a text. -/
structure ReadsBack {α : Type} (read : Reader α) (text : String) (value : α) : Prop where
  /-- What is written starts neither with white space nor as the end of a list. -/
  head : ∃ c cs, text.toList = c :: cs ∧ isSpace c = false ∧ c ≠ ']'
  /-- White space may stand in front, and anything behind. -/
  reads : ∀ gap rest, gap.all isSpace = true →
    read (gap ++ (text.toList ++ rest)) = .ok (value, rest)

/-- What stands between two lines of a layout. -/
def margin (indent : Nat) : List Char := '\n' :: List.replicate indent ' '

/-- The characters of a layout between its brackets. -/
def spread (indent : Nat) : List String → List Char
  | [] => []
  | item :: items =>
    margin (indent + 2) ++ (item.toList
      ++ (items.flatMap fun i => ',' :: (margin (indent + 2) ++ i.toList))) ++ margin indent

theorem all_isSpace_margin (indent : Nat) : (margin indent).all isSpace = true := by
  simp [margin, isSpace]

theorem skipSpace_cons {c : Char} (hc : isSpace c = false) (cs : List Char) :
    skipSpace (c :: cs) = c :: cs := by
  simp [skipSpace, hc]

theorem skipSpace_append {gap : List Char} (hgap : gap.all isSpace = true) {c : Char}
    (hc : isSpace c = false) (cs : List Char) : skipSpace (gap ++ c :: cs) = c :: cs := by
  rw [skipSpace, List.dropWhile_append_of_pos (List.all_eq_true.mp hgap)]
  exact skipSpace_cons hc cs

theorem toList_layout (opening closing : String) (indent : Nat) (items : List String) :
    (layout opening closing indent items).toList
      = opening.toList ++ (spread indent items ++ closing.toList) := by
  cases items with
  | nil => simp [layout, spread]
  | cons item items =>
    simp [layout, spread, margin, String.toList_intercalate, Text.intercalate_cons,
      List.flatMap_map, Function.comp_def]

/-- Every item takes a character at least. -/
theorem length_le_length_spread (indent : Nat) (items : List String) :
    items.length ≤ (spread indent items).length := by
  cases items with
  | nil => exact Nat.zero_le _
  | cons item items =>
    have hitems : items.length
        ≤ (items.flatMap fun i => ',' :: (margin (indent + 2) ++ i.toList)).length := by
      induction items with
      | nil => exact Nat.zero_le _
      | cons i items ih => simp at ih ⊢; omega
    have hmargin : (margin indent).length = indent + 1 := by simp [margin]
    simp only [spread, List.length_append, List.length_cons, hmargin]
    omega

/-! ### Strings -/

theorem readsBack_quote (s : String) : ReadsBack readString (quote s) s where
  head := ⟨'"', _, by simp only [quote, String.toList_append]; rfl, by decide, by decide⟩
  reads gap rest hgap := by
    have hquote : (quote s).toList ++ rest = '"' :: (s.toList.flatMap escapeChar ++ '"' :: rest) := by
      simp [quote]
    rw [readString, hquote, skipSpace_append hgap (by decide)]
    simpa using readBody_append s.toList [] rest

/-! ### Lists -/

section

variable {α : Type} {item : Reader α} {gap close : List Char}

/-- An item is read where it stands: at once if it is the first one, else behind a comma. -/
theorem readItems_cons {text : String} {value : α} (h : ReadsBack item text value)
    (hgap : gap.all isSpace = true) (first : Bool) (step : Char) (steps tail : List Char) :
    readItems item (step :: steps) first
        ((if first then gap else ',' :: gap) ++ (text.toList ++ tail))
      = (readItems item steps false tail).map fun r => (value :: r.1, r.2) := by
  obtain ⟨c, cs, htext, hspace, hend⟩ := h.head
  have hread := h.reads [] tail rfl
  have hstart := skipSpace_append hgap hspace (cs ++ tail)
  rw [List.nil_append, htext, List.cons_append] at hread
  rw [htext, List.cons_append]
  cases first with
  | true => simp only [readItems, ↓reduceIte, hstart, hend, hread]
  | false =>
    have hcomma := skipSpace_cons (show isSpace ',' = false by decide) (gap ++ c :: (cs ++ tail))
    simp [readItems, hcomma, hstart, hend, hread]

theorem readItems_nil (hclose : close.all isSpace = true) (first : Bool) (step : Char)
    (steps rest : List Char) :
    readItems item (step :: steps) first (close ++ ']' :: rest) = .ok ([], rest) := by
  simp [readItems, skipSpace_append hclose (show isSpace ']' = false by decide)]

variable {print : α → String} {values : List α}

theorem readItems_append (hgap : gap.all isSpace = true) (hclose : close.all isSpace = true)
    (hvalues : ∀ v ∈ values, ReadsBack item (print v) v) {steps : List Char}
    (hsteps : values.length < steps.length) (rest : List Char) :
    readItems item steps false
        ((values.flatMap fun v => ',' :: (gap ++ (print v).toList)) ++ (close ++ ']' :: rest))
      = .ok (values, rest) := by
  induction values generalizing steps with
  | nil =>
    obtain ⟨step, steps, rfl⟩ := List.exists_cons_of_length_pos hsteps
    exact readItems_nil hclose false step steps rest
  | cons v values ih =>
    obtain ⟨step, steps, rfl⟩ := List.exists_cons_of_length_pos (Nat.zero_lt_of_lt hsteps)
    have hrest := ih (fun w hw => hvalues w (List.mem_cons_of_mem _ hw))
      (Nat.lt_of_succ_lt_succ hsteps)
    have hv := readItems_cons (hvalues v (List.mem_cons_self ..)) hgap false step steps
      ((values.flatMap fun v => ',' :: (gap ++ (print v).toList)) ++ (close ++ ']' :: rest))
    rw [hrest] at hv
    simpa [Except.map] using hv

theorem readItems_spread (indent : Nat) (hvalues : ∀ v ∈ values, ReadsBack item (print v) v)
    {steps : List Char} (hsteps : values.length < steps.length) (rest : List Char) :
    readItems item steps true (spread indent (values.map print) ++ ']' :: rest)
      = .ok (values, rest) := by
  obtain ⟨step, steps, rfl⟩ := List.exists_cons_of_length_pos (Nat.zero_lt_of_lt hsteps)
  cases values with
  | nil => exact readItems_nil List.all_nil true step steps rest
  | cons v values =>
    have hmargin := all_isSpace_margin
    have hrest := readItems_append (hmargin (indent + 2)) (hmargin indent)
      (fun w hw => hvalues w (List.mem_cons_of_mem _ hw)) (Nat.lt_of_succ_lt_succ hsteps) rest
    have hv := readItems_cons (hvalues v (List.mem_cons_self ..)) (hmargin (indent + 2)) true step
      steps ((values.flatMap fun v => ',' :: (margin (indent + 2) ++ (print v).toList))
        ++ (margin indent ++ ']' :: rest))
    rw [hrest] at hv
    simpa [spread, List.flatMap_map, Except.map] using hv

/-- A list reads back if its items do. -/
theorem readsBack_layoutList (indent : Nat) (hvalues : ∀ v ∈ values, ReadsBack item (print v) v) :
    ReadsBack (readList item) (layoutList indent (values.map print)) values where
  head := ⟨'[', _, by rw [layoutList, toList_layout]; rfl, by decide, by decide⟩
  reads gap rest hgap := by
    have htext : (layoutList indent (values.map print)).toList ++ rest
        = '[' :: (spread indent (values.map print) ++ ']' :: rest) := by
      simp [layoutList, toList_layout]
    have hlength := length_le_length_spread indent (values.map print)
    rw [htext, readList, skipSpace_append hgap (by decide)]
    exact readItems_spread indent hvalues (by simp at hlength ⊢; omega) rest

end

/-! ### Records -/

section

variable {δ : Type} {fields : List (RecordField δ)} {draft next last : δ} {gap close : List Char}

/-- Whether the members of a record, read in their order, lead from one draft to another. -/
inductive Fills (fields : List (RecordField δ)) : δ → List (String × String) → δ → Prop
  | nil {draft : δ} : Fills fields draft [] draft
  | cons {field : RecordField δ} {draft next last : δ} {key text : String}
    {members : List (String × String)} (hfield : fields.find? (fun f => f.key == key) = some field)
    (hfilled : field.filled draft = false) (hread : ReadsBack (field.read draft) text next)
    (h : Fills fields next members last) : Fills fields draft ((key, text) :: members) last

/-- A member whose value is put into the draft. -/
theorem Fills.into {α : Type} {key name text : String} {filled : δ → Bool} {read : Reader α}
    {set : δ → α → δ} {value : α} {members : List (String × String)}
    (hfield : fields.find? (fun f => f.key == key) = some ⟨name, filled, Json.into read set⟩)
    (hfilled : filled draft = false) (hread : ReadsBack read text value)
    (h : Fills fields (set draft value) members last) :
    Fills fields draft ((key, text) :: members) last := by
  have hdraft : ReadsBack (Json.into read set draft) text (set draft value) :=
    { head := hread.head
      reads := fun gap rest hgap => by rw [Json.into, hread.reads gap rest hgap]; rfl }
  exact .cons hfield hfilled hdraft h

/-- The characters of a member behind the first quote of its key. -/
def member (f : String × String) : List Char :=
  f.1.toList.flatMap escapeChar ++ '"' :: ':' :: ' ' :: f.2.toList

theorem toList_member (key text : String) :
    (quote key ++ ": " ++ text).toList = '"' :: member (key, text) := by
  simp [quote, member]

theorem readMember_member {field : RecordField δ} {key text : String}
    (hfield : fields.find? (fun f => f.key == key) = some field)
    (hfilled : field.filled draft = false) (hread : ReadsBack (field.read draft) text next)
    (rest : List Char) :
    readMember fields draft (member (key, text) ++ rest) = .ok (next, rest) := by
  have hkey := readBody_append key.toList [] (':' :: ' ' :: (text.toList ++ rest))
  have hcolon : readColon (':' :: ' ' :: (text.toList ++ rest)) = .ok (' ' :: (text.toList ++ rest)) :=
    rfl
  have hvalue := hread.reads [' '] rest rfl
  simp only [List.reverse_nil, List.nil_append, String.ofList_toList] at hkey
  simp only [readMember, member, List.append_assoc, List.cons_append, hkey, hfield, hfilled,
    hcolon]
  exact hvalue

/-- A member is read where it stands: at once if it is the first one, else behind a comma. -/
theorem readMembers_cons {field : RecordField δ} {key text : String}
    (hfield : fields.find? (fun f => f.key == key) = some field)
    (hfilled : field.filled draft = false) (hread : ReadsBack (field.read draft) text next)
    (hgap : gap.all isSpace = true) (first : Bool) (step : Char) (steps tail : List Char) :
    readMembers fields (step :: steps) first draft
        ((if first then gap else ',' :: gap) ++ ('"' :: (member (key, text) ++ tail)))
      = readMembers fields steps false next tail := by
  have hmember := readMember_member hfield hfilled hread tail
  have hstart := skipSpace_append hgap (show isSpace '"' = false by decide) (member (key, text) ++ tail)
  cases first with
  | true => simp [readMembers, hstart, hmember]
  | false =>
    have hcomma := skipSpace_cons (show isSpace ',' = false by decide)
      (gap ++ '"' :: (member (key, text) ++ tail))
    simp [readMembers, hcomma, hstart, hmember]

theorem readMembers_nil (hclose : close.all isSpace = true) (first : Bool) (step : Char)
    (steps rest : List Char) :
    readMembers fields (step :: steps) first draft (close ++ '\x7d' :: rest) = .ok (draft, rest) := by
  simp [readMembers, skipSpace_append hclose (show isSpace '\x7d' = false by decide)]

theorem readMembers_append {members : List (String × String)} (h : Fills fields draft members last)
    (hgap : gap.all isSpace = true) (hclose : close.all isSpace = true) {steps : List Char}
    (hsteps : members.length < steps.length) (rest : List Char) :
    readMembers fields steps false draft
        ((members.flatMap fun f => ',' :: (gap ++ '"' :: member f)) ++ (close ++ '\x7d' :: rest))
      = .ok (last, rest) := by
  induction h generalizing steps with
  | nil =>
    obtain ⟨step, steps, rfl⟩ := List.exists_cons_of_length_pos hsteps
    exact readMembers_nil hclose false step steps rest
  | cons hfield hfilled hread _ ih =>
    obtain ⟨step, steps, rfl⟩ := List.exists_cons_of_length_pos (Nat.zero_lt_of_lt hsteps)
    have hfirst := readMembers_cons hfield hfilled hread hgap false step steps
    rw [← ih (Nat.lt_of_succ_lt_succ hsteps), ← hfirst]
    simp

theorem readMembers_spread (indent : Nat) {members : List (String × String)}
    (h : Fills fields draft members last) {steps : List Char}
    (hsteps : members.length < steps.length) (rest : List Char) :
    readMembers fields steps true draft
        (spread indent (members.map fun f => quote f.1 ++ ": " ++ f.2) ++ '\x7d' :: rest)
      = .ok (last, rest) := by
  obtain ⟨step, steps, rfl⟩ := List.exists_cons_of_length_pos (Nat.zero_lt_of_lt hsteps)
  have hmargin := all_isSpace_margin
  cases h with
  | nil => exact readMembers_nil List.all_nil true step steps rest
  | cons hfield hfilled hread h =>
    have hfirst := readMembers_cons hfield hfilled hread (hmargin (indent + 2)) true step steps
    rw [← readMembers_append h (hmargin (indent + 2)) (hmargin indent)
      (Nat.lt_of_succ_lt_succ hsteps) rest, ← hfirst]
    simp only [spread, List.map_cons, List.flatMap_map, toList_member,
      List.append_assoc, List.cons_append, ↓reduceIte]

/-- A record reads back if its members fill it. -/
theorem readsBack_layoutRecord {α : Type} {start : δ} {finish : δ → Option α} {value : α}
    {members : List (String × String)} (indent : Nat) (h : Fills fields start members last)
    (hfinish : finish last = some value) :
    ReadsBack (readRecord fields start finish) (layoutRecord indent members) value where
  head := ⟨'\x7b', _, by rw [layoutRecord, toList_layout]; rfl, by decide, by decide⟩
  reads gap rest hgap := by
    have htext : (layoutRecord indent members).toList ++ rest
        = '\x7b' :: (spread indent (members.map fun f => quote f.1 ++ ": " ++ f.2)
          ++ '\x7d' :: rest) := by
      simp [layoutRecord, toList_layout]
    have hlength := length_le_length_spread indent (members.map fun f => quote f.1 ++ ": " ++ f.2)
    have hsteps : members.length
        < (spread indent (members.map fun f => quote f.1 ++ ": " ++ f.2) ++ '\x7d' :: rest).length := by
      simp at hlength ⊢
      omega
    have hmembers := readMembers_spread indent h hsteps rest
    simp only [htext, readRecord, skipSpace_append hgap (show isSpace '\x7b' = false by decide),
      ↓reduceIte, hmembers, hfinish]

end

/-- A document may end with a line feed. -/
theorem readDocument_append {α : Type} {read : Reader α} {text : String} {value : α}
    (h : ReadsBack read text value) : readDocument read (text ++ "\n") = .ok value := by
  have hread := h.reads [] ['\n'] rfl
  rw [List.nil_append] at hread
  rw [readDocument, String.toList_append, show "\n".toList = ['\n'] from rfl, hread]
  rfl

end Json

namespace Manifest

open Json

theorem readsBack_prettyModule (indent : Nat) (u : Module) :
    ReadsBack readModule (prettyModule indent u) u := by
  have hfills : Fills moduleFields {}
      [("name", quote u.name), ("path", quote u.path), ("group", quote u.group)]
      ⟨some u.name, some u.path, some u.group⟩ := by
    refine .into rfl rfl (readsBack_quote u.name) ?_
    refine .into rfl rfl (readsBack_quote u.path) ?_
    refine .into rfl rfl (readsBack_quote u.group) ?_
    exact .nil
  exact readsBack_layoutRecord indent hfills rfl

theorem readsBack_pretty (m : Manifest) :
    ReadsBack (readRecord fields {} Draft.finish?) m.pretty m := by
  have hmodules := readsBack_layoutList 2 fun u (_ : u ∈ m.modules) => readsBack_prettyModule 4 u
  have hfills : Fills fields {}
      [ ("name", quote m.name), ("settingsPath", quote m.settingsPath),
        ("modules", layoutList 2 (m.modules.map (prettyModule 4))) ]
      ⟨some m.name, some m.settingsPath, some m.modules⟩ := by
    refine .into rfl rfl (readsBack_quote m.name) ?_
    refine .into rfl rfl (readsBack_quote m.settingsPath) ?_
    refine .into rfl rfl hmodules ?_
    exact .nil
  exact readsBack_layoutRecord 0 hfills rfl

/-- A manifest that was written reads back with all its modules in their order, whatever its strings
hold; and it is loaded from a file with its text, through the lines of that file. -/
theorem load_pretty (m : Manifest) (path : Path) :
    ofText (m.pretty ++ "\n") path = .ok m
      ∧ ∀ s : Shelf, load (s.put path (m.pretty ++ "\n")) path = .ok m := by
  have htext : ofText (m.pretty ++ "\n") path = .ok m := by
    rw [ofText, Manifest.read, readDocument_append (readsBack_pretty m)]
    rfl
  refine ⟨htext, fun s => ?_⟩
  have htext? : (s.put path (m.pretty ++ "\n")).text? path = some (m.pretty ++ "\n") :=
    (s.text?_put path _ path).trans (if_pos rfl)
  have hread := Shelf.read_of_text? htext?
  rw [load, hread]
  change ofText (Text.joinLines (Text.splitLines (m.pretty ++ "\n"))) path = _
  rw [Text.joinLines_splitLines, htext]

end Manifest

end Inclusion
