import Inclusion.Dependency.Reading
import Inclusion.Proofs.Settings.Reading
import Mathlib.Data.Option.Basic

/-!
# Written statements of a settings file read back

The statements that the writer makes are read for what they are, wherever they are put between
blanks; and what is read from a file can be written again.

* `linePieces_includeStatement`, `linePieces_directoryStatement`: written statements read back.
* `isWritable_ofChars`: what is read can be written.
-/
namespace Inclusion.Settings

open Text

/-- A name that a settings file can give to a project. -/
def IsProject (name : String) : Prop := name ≠ "" ∧ name.toList.all isProjectChar = true

/-- A directory that a settings file can bind a project to. -/
def IsDirectory (path : String) : Prop := path ≠ "" ∧ path.toList.all isDirectoryChar = true

instance (name : String) : Decidable (IsProject name) := inferInstanceAs (Decidable (_ ∧ _))

instance (path : String) : Decidable (IsDirectory path) := inferInstanceAs (Decidable (_ ∧ _))

/-- Whether a directory leaves its statement in one piece and on one line. -/
def IsUnbroken (path : String) : Prop := ',' ∉ path.toList ∧ '\n' ∉ path.toList

instance (path : String) : Decidable (IsUnbroken path) := inferInstanceAs (Decidable (_ ∧ _))

/-- Whether a directory leaves its statement on one line. -/
def IsOneLine (path : String) : Prop := '\n' ∉ path.toList

theorem IsDirectory.isUnbroken {path : String} (h : IsDirectory path) : IsUnbroken path :=
  ⟨fun hmem => absurd (List.all_eq_true.mp h.2 _ hmem) (by decide),
    fun hmem => absurd (List.all_eq_true.mp h.2 _ hmem) (by decide)⟩

theorem IsProject.toList_ne_nil {name : String} (h : IsProject name) : name.toList ≠ [] := by
  simpa using h.1

/-- A project name as it is written. -/
def quoted (name : String) : List Char := '\'' :: ((':' :: name.toList) ++ ['\''])

theorem ofChars_frame {a cs b : List Char} (ha : ∀ c ∈ a, isBlank c = true)
    (hb : ∀ c ∈ b, isBlank c = true) (hcs : Tight cs) :
    Piece.ofChars (a ++ cs ++ b) = Piece.ofChars cs := by
  have hself : trim cs = cs := by
    have := trim_frame (a := []) (b := []) (by simp) (by simp) hcs
    simpa using this
  simp only [Piece.ofChars, trim_frame ha hb hcs, hself]

theorem ofChars_of_tight {cs : List Char} (hcs : Tight cs) :
    Piece.ofChars cs = (((bareName? cs).or (opening? cs)).or (binding? cs)).getD .other := by
  have hself : trim cs = cs := by
    have := trim_frame (a := []) (b := []) (by simp) (by simp) hcs
    simpa using this
  obtain ⟨c, hc, -⟩ := hcs.head
  have hne : cs.isEmpty = false := by cases cs <;> simp_all
  simp only [Piece.ofChars, hself, hne]
  rfl

theorem tight_quoted (name : String) : Tight (quoted name) :=
  tight_append (s := ['\'']) (t := ':' :: name.toList) rfl rfl rfl

theorem readProjectName?_quoted {name : String} (h : IsProject name) (rest : List Char) :
    readProjectName? ((':' :: name.toList) ++ '\'' :: rest) = some (name, '\'' :: rest) := by
  rw [readProjectName?_colon h.toList_ne_nil h.2 (by decide), String.ofList_toList]

theorem ofChars_quoted {name : String} (h : IsProject name) :
    Piece.ofChars (quoted name) = .bareName name := by
  have hbare : bareName? (quoted name) = some (.bareName name) := by
    have hread := readProjectName?_quoted h []
    simp only [bareName?, quoted, readOne?, isQuote, beq_self_eq_true, Bool.true_or, ↓reduceIte,
      Option.bind_eq_bind, Option.bind_some, hread]
    rfl
  rw [ofChars_of_tight (tight_quoted name), hbare]
  rfl

theorem tight_opening (name : String) : Tight ("include ".toList ++ quoted name) :=
  tight_append (s := "include ".toList ++ ['\'']) (t := ':' :: name.toList) (c := 'i') rfl rfl rfl

theorem ofChars_opening {name : String} (h : IsProject name) :
    Piece.ofChars ("include ".toList ++ quoted name) = .opening name := by
  have hopening : opening? ("include ".toList ++ quoted name) = some (.opening name) := by
    have hread := readProjectName?_quoted h []
    change ((readProjectName? ((':' :: name.toList) ++ '\'' :: [])).bind fun p => do
      guard (isClosed (skipOne isQuote p.2))
      return Piece.opening p.1) = _
    rw [hread]
    rfl
  rw [ofChars_of_tight (tight_opening name),
    show bareName? ("include ".toList ++ quoted name) = none from rfl,
    hopening]
  rfl

theorem toList_directoryStatement (name path : String) :
    (directoryStatement name path).toList
      = "project('".toList ++ ((':' :: name.toList) ++ '\''
          :: (").projectDir = new File('".toList ++ (path.toList ++ ['\'', ')']))) := by
  simp [directoryStatement]

theorem tight_directoryStatement (name path : String) :
    Tight (directoryStatement name path).toList := by
  have htext : (directoryStatement name path).toList
      = "project('".toList ++ ((':' :: name.toList) ++ '\''
          :: (").projectDir = new File('".toList ++ (path.toList ++ ['\'']))) ++ [')'] := by
    simp [directoryStatement]
  rw [htext]
  exact tight_append (c := 'p') rfl rfl rfl

/-- What a binding is read as. A directory of other characters makes it nothing. -/
def directoryPiece (name path : String) : Piece :=
  if IsDirectory path then .binding name path else .other

theorem binding?_directoryStatement {name : String} (hname : IsProject name) (path : String) :
    (binding? (directoryStatement name path).toList).getD .other = directoryPiece name path := by
  have hread := readProjectName?_quoted hname
    (").projectDir = new File('".toList ++ (path.toList ++ ['\'', ')']))
  have hbinding : binding? (directoryStatement name path).toList
      = (readProjectName? ((':' :: name.toList) ++ '\''
          :: (").projectDir = new File('".toList ++ (path.toList ++ ['\'', ')'])))).bind fun p => do
        let cs ← after? ").projectDir" (skipOne isQuote p.2)
        let cs ← after? "=" (trimStart cs)
        let cs ← afterMaker? (trimStart cs)
        let cs ← after? "(" (trimStart cs)
        let cs := skipOne isQuote cs
        let path := cs.takeWhile isDirectoryChar
        guard (!path.isEmpty)
        guard (skipOne isQuote (cs.dropWhile isDirectoryChar) == [')'])
        return .binding p.1 (String.ofList path) := by
    rw [toList_directoryStatement]
    rfl
  rw [hbinding, hread, Option.bind_some]
  change ((do
    guard (!((path.toList ++ ['\'', ')']).takeWhile isDirectoryChar).isEmpty)
    guard (skipOne isQuote ((path.toList ++ ['\'', ')']).dropWhile isDirectoryChar) == [')'])
    return Piece.binding name (String.ofList
      ((path.toList ++ ['\'', ')']).takeWhile isDirectoryChar))) : Option Piece).getD .other = _
  by_cases hall : path.toList.all isDirectoryChar = true
  · have hcut := Coordinates.takeWhile_append_cons hall (d := '\'') (by decide) [')']
    rw [hcut.1, hcut.2, String.ofList_toList, directoryPiece]
    by_cases hne : path = ""
    · subst hne; rfl
    · have hempty : path.toList.isEmpty = false := by simpa using hne
      rw [hempty, if_pos ⟨hne, hall⟩]
      rfl
  · -- the first other character leaves too much behind it
    obtain ⟨c, rest, hdrop⟩ := List.exists_cons_of_ne_nil
      (mt List.dropWhile_eq_nil_iff.mp (mt List.all_eq_true.mpr hall))
    have hend : (skipOne isQuote ((path.toList ++ ['\'', ')']).dropWhile isDirectoryChar)
        == [')']) = false := by
      rw [List.dropWhile_append, hdrop]
      simp only [List.isEmpty_cons, Bool.false_eq_true, ↓reduceIte, List.cons_append, skipOne]
      split <;> cases rest <;> simp
    rw [hend, directoryPiece, if_neg fun h => hall h.2]
    cases hempty : ((path.toList ++ ['\'', ')']).takeWhile isDirectoryChar).isEmpty <;> rfl

theorem ofChars_directoryStatement {name : String} (hname : IsProject name) (path : String) :
    Piece.ofChars (directoryStatement name path).toList = directoryPiece name path := by
  have hbare : bareName? (directoryStatement name path).toList = none := by
    rw [toList_directoryStatement]; rfl
  have hopening : opening? (directoryStatement name path).toList = none := by
    rw [toList_directoryStatement]; rfl
  rw [ofChars_of_tight (tight_directoryStatement name path), hbare, hopening,
    ← binding?_directoryStatement hname path]
  rfl

/-! ### Lines of statements -/

/-- What the pieces of an include statement are. -/
def includePieces : List String → List Piece
  | [] => []
  | name :: names => .opening name :: names.map .bareName

theorem toList_includeStatement (name : String) (names : List String) :
    (includeStatement (name :: names)).toList
      = "include ".toList ++ quoted name ++ names.flatMap fun n => ',' :: ' ' :: quoted n := by
  have hquoted : ∀ n, ("':" ++ n ++ "'").toList = quoted n := fun n => by simp [quoted]
  rw [includeStatement, String.toList_append, String.toList_intercalate, List.map_map,
    List.append_assoc, List.map_cons, intercalate_cons, List.flatMap_map]
  simp [hquoted]

theorem tight_includeStatement {names : List String} (hne : names ≠ []) :
    Tight (includeStatement names).toList := by
  obtain ⟨name, names, rfl⟩ := List.exists_cons_of_ne_nil hne
  have hlast : ∀ (cs : List Char) (n : String), (cs ++ quoted n).getLast? = some '\'' :=
    fun cs n => by
      have hquoted : cs ++ quoted n = cs ++ ('\'' :: ':' :: n.toList) ++ ['\''] := by simp [quoted]
      rw [hquoted, List.getLast?_concat]
  rw [toList_includeStatement]
  refine ⟨⟨'i', by simp, by decide⟩, ⟨'\'', ?_, by decide⟩⟩
  rcases List.eq_nil_or_concat names with rfl | ⟨names, last, rfl⟩
  · rw [List.flatMap_nil, List.append_nil, hlast]
  · have hend : ((names.concat last).flatMap fun n => ',' :: ' ' :: quoted n)
        = (names.flatMap fun n => ',' :: ' ' :: quoted n) ++ [',', ' '] ++ quoted last := by
      simp
    rw [hend, ← List.append_assoc, hlast]

theorem Snapshot.Writes.tight {s : Snapshot} {statement : String} (h : s.Writes statement) :
    Tight statement.toList := by
  cases h with
  | names hne => exact tight_includeStatement hne
  | directory => exact tight_directoryStatement ..

theorem comma_not_mem_quoted {name : String} (h : IsProject name) : ',' ∉ quoted name := by
  have hname : ',' ∉ name.toList := fun hmem =>
    absurd (List.all_eq_true.mp h.2 _ hmem) (by decide)
  simp [quoted, hname]

theorem comma_not_mem_of_blank {cs : List Char} (h : ∀ c ∈ cs, isBlank c = true) : ',' ∉ cs :=
  fun hmem => absurd (h _ hmem) (by decide)

/-- The pieces of names that continue a statement, behind text that is read as some piece. -/
theorem map_ofChars_splitOn_names {names : List String} (hnames : ∀ n ∈ names, IsProject n)
    {x b : List Char} {p : Piece} (hx : ',' ∉ x) (hb : ∀ c ∈ b, isBlank c = true)
    (hp : ∀ b, (∀ c ∈ b, isBlank c = true) → Piece.ofChars (x ++ b) = p) :
    ((x ++ (names.flatMap fun n => ',' :: ' ' :: quoted n) ++ b).splitOn ',').map Piece.ofChars
      = p :: names.map .bareName := by
  induction names generalizing x p with
  | nil =>
    have hnot : ',' ∉ x ++ b := by simp [hx, comma_not_mem_of_blank hb]
    rw [List.flatMap_nil, List.append_nil, List.splitOn_eq_singleton hnot]
    simp [hp b hb]
  | cons n names ih =>
    have hn := hnames n (List.mem_cons_self ..)
    have htext : x ++ ((n :: names).flatMap fun n => ',' :: ' ' :: quoted n) ++ b
        = x ++ ',' :: ((' ' :: quoted n) ++ (names.flatMap fun n => ',' :: ' ' :: quoted n)
          ++ b) := by
      simp
    have hread : ∀ b, (∀ c ∈ b, isBlank c = true) →
        Piece.ofChars ((' ' :: quoted n) ++ b) = .bareName n := fun b hb => by
      have := ofChars_frame (a := [' ']) (b := b) (by simp; decide) hb (tight_quoted n)
      rw [ofChars_quoted hn] at this
      exact this
    have hcomma : ',' ∉ ' ' :: quoted n := by simp [comma_not_mem_quoted hn]
    rw [htext, List.splitOn_append_cons_self_of_not_mem hx, List.map_cons, List.map_cons,
      ih (fun m hm => hnames m (List.mem_cons_of_mem _ hm)) hcomma hread]
    have := hp [] (by simp)
    rw [List.append_nil] at this
    rw [this]

theorem map_ofText_pieces (line : String) :
    (pieces line).map Piece.ofText = (line.toList.splitOn ',').map Piece.ofChars := by
  simp [pieces, Piece.ofText, Function.comp_def]

theorem pieces_includeStatement {line : String} {a b : List Char} (names : List String)
    (hnames : ∀ n ∈ names, IsProject n) (ha : ∀ c ∈ a, isBlank c = true)
    (hb : ∀ c ∈ b, isBlank c = true) (hne : names ≠ [])
    (hline : line.toList = a ++ (includeStatement names).toList ++ b) :
    (pieces line).map Piece.ofText = includePieces names := by
  obtain ⟨name, names, rfl⟩ := List.exists_cons_of_ne_nil hne
  have hname := hnames name (List.mem_cons_self ..)
  have hcomma : ',' ∉ a ++ ("include ".toList ++ quoted name) := by
    simp only [List.mem_append, not_or]
    exact ⟨comma_not_mem_of_blank ha, by decide, comma_not_mem_quoted hname⟩
  have hread : ∀ b, (∀ c ∈ b, isBlank c = true) →
      Piece.ofChars (a ++ ("include ".toList ++ quoted name) ++ b) = .opening name := fun b hb => by
    rw [ofChars_frame ha hb (tight_opening name), ofChars_opening hname]
  have htext : line.toList = a ++ ("include ".toList ++ quoted name)
      ++ (names.flatMap fun n => ',' :: ' ' :: quoted n) ++ b := by
    rw [hline, toList_includeStatement]
    simp
  have hpieces := map_ofChars_splitOn_names (fun n hn => hnames n (List.mem_cons_of_mem _ hn))
    hcomma hb hread
  rw [map_ofText_pieces, htext, hpieces, includePieces]

theorem linePieces_includeStatement {line : String} {a b : List Char} (names : List String)
    (hnames : ∀ n ∈ names, IsProject n) (ha : ∀ c ∈ a, isBlank c = true)
    (hb : ∀ c ∈ b, isBlank c = true) (hne : names ≠ [])
    (hline : line.toList = a ++ (includeStatement names).toList ++ b) :
    linePieces line = includePieces names := by
  rw [linePieces_eq, pieces_includeStatement names hnames ha hb hne hline]
  cases names <;> simp [includePieces]

theorem linePieces_of_piece {line : String} {p : Piece} (hcomma : ',' ∉ line.toList)
    (h : Piece.ofText line = p) (hp : p ≠ .blank) : linePieces line = [p] := by
  rw [Piece.ofText] at h
  rw [linePieces, List.splitOn_eq_singleton hcomma, List.map_singleton, h]
  simp [hp]

theorem pieces_directoryStatement {line name path : String} {a b : List Char}
    (hname : IsProject name) (hpath : ',' ∉ path.toList) (ha : ∀ c ∈ a, isBlank c = true)
    (hb : ∀ c ∈ b, isBlank c = true)
    (hline : line.toList = a ++ (directoryStatement name path).toList ++ b) :
    (pieces line).map Piece.ofText = [directoryPiece name path] := by
  have hcomma : ',' ∉ line.toList := by
    have h₁ : ',' ∉ name.toList := fun hmem =>
      absurd (List.all_eq_true.mp hname.2 _ hmem) (by decide)
    rw [hline, toList_directoryStatement]
    simp [h₁, hpath, comma_not_mem_of_blank ha, comma_not_mem_of_blank hb]
  rw [map_ofText_pieces, List.splitOn_eq_singleton hcomma, List.map_singleton, hline,
    ofChars_frame ha hb (tight_directoryStatement name path), ofChars_directoryStatement hname]

theorem linePieces_directoryStatement {line name path : String} {a b : List Char}
    (hname : IsProject name) (hpath : ',' ∉ path.toList) (ha : ∀ c ∈ a, isBlank c = true)
    (hb : ∀ c ∈ b, isBlank c = true)
    (hline : line.toList = a ++ (directoryStatement name path).toList ++ b) :
    linePieces line = [directoryPiece name path] := by
  rw [linePieces_eq, pieces_directoryStatement hname hpath ha hb hline, directoryPiece]
  split <;> rfl

theorem linePieces_restate_includeStatement {names : List String} (line : String)
    (hnames : ∀ n ∈ names, IsProject n) (hne : names ≠ []) :
    linePieces (restate line (includeStatement names)) = includePieces names :=
  linePieces_includeStatement names hnames (fun _ => isBlank_of_mem_blanks)
    (fun _ => isBlank_of_mem_ending) hne (toList_restate line _)

theorem linePieces_restate_directoryStatement {name path : String} (line : String)
    (hname : IsProject name) (hpath : ',' ∉ path.toList) :
    linePieces (restate line (directoryStatement name path)) = [directoryPiece name path] :=
  linePieces_directoryStatement hname hpath (fun _ => isBlank_of_mem_blanks)
    (fun _ => isBlank_of_mem_ending) (toList_restate line _)

/-! ### What is read can be written -/

theorem isProject_of_readProjectName? {cs rest : List Char} {name : String}
    (h : readProjectName? cs = some (name, rest)) : IsProject name := by
  have hall : ∀ c ∈ cs.takeWhile isProjectChar, isProjectChar c = true := fun c hc =>
    List.mem_takeWhile_imp hc
  unfold readProjectName? at h
  split at h
  · cases h
  next _ _ c htake =>
    cases h
    exact ⟨by simp, by simpa using hall c (by simp [htake])⟩
  next _ _ c name hne htake =>
    cases h
    have htail : ∀ d ∈ c :: name, isProjectChar d = true := fun d hd => hall d (htake ▸ hd)
    have hnil : name ≠ [] := hne
    split
    · exact ⟨by simpa using hnil, by simpa using fun d hd => htail d (List.mem_cons_of_mem _ hd)⟩
    · exact ⟨by simp, by simpa using htail⟩

theorem dropWhile_of_readProjectName? {cs rest : List Char} {name : String}
    (h : readProjectName? cs = some (name, rest)) : rest = cs.dropWhile isProjectChar := by
  unfold readProjectName? at h
  split at h <;> simp_all

theorem isProject_of_bareName? {cs : List Char} {p : Piece} (h : bareName? cs = some p) :
    ∃ name, p = .bareName name ∧ IsProject name := by
  simp only [bareName?, Option.bind_eq_bind, Option.bind_eq_some_iff, Option.pure_def,
    Option.some.injEq] at h
  obtain ⟨_, _, ⟨name, _⟩, hname, _, _, _, _, rfl⟩ := h
  exact ⟨name, rfl, isProject_of_readProjectName? hname⟩

theorem isProject_of_opening? {cs : List Char} {p : Piece} (h : opening? cs = some p) :
    ∃ name, p = .opening name ∧ IsProject name := by
  simp only [opening?, Option.bind_eq_bind, Option.bind_eq_some_iff, Option.pure_def,
    Option.some.injEq] at h
  obtain ⟨_, _, _, _, ⟨name, _⟩, hname, _, _, rfl⟩ := h
  exact ⟨name, rfl, isProject_of_readProjectName? hname⟩

/-! A comma in what is read shows in what is left to read. -/

theorem comma_of_after? {word : String} {cs rest : List Char} (h : after? word cs = some rest)
    (hword : ',' ∉ word.toList) (hrest : ',' ∉ rest) : ',' ∉ cs := by
  rw [after?_eq_some_iff.mp h]
  simp [hword, hrest]

theorem comma_of_dropWhile {p : Char → Bool} (hp : p ',' = false) {cs : List Char}
    (h : ',' ∉ cs.dropWhile p) : ',' ∉ cs := by
  intro hmem
  rw [← List.takeWhile_append_dropWhile (p := p) (l := cs)] at hmem
  rcases List.mem_append.mp hmem with hmem | hmem
  · simp [List.mem_takeWhile_imp hmem] at hp
  · exact h hmem

theorem comma_of_trimStart {cs : List Char} (h : ',' ∉ trimStart cs) : ',' ∉ cs :=
  comma_of_dropWhile (by decide) h

theorem comma_of_skipOne {p : Char → Bool} (hp : p ',' = false) {cs : List Char}
    (h : ',' ∉ skipOne p cs) : ',' ∉ cs := by
  cases cs with
  | nil => simp
  | cons c cs =>
    rw [skipOne] at h
    split at h
    next hc =>
      have hne : ',' ≠ c := by
        rintro rfl
        simp [hp] at hc
      simp [hne, h]
    next => exact h

theorem comma_of_trim {cs : List Char} (h : ',' ∉ trim cs) : ',' ∉ cs := by
  have hstart : ',' ∉ (trimStart cs).reverse :=
    comma_of_dropWhile (p := isBlank) (by decide) (by simpa [trim, trimEnd] using h)
  exact comma_of_trimStart (by simpa using hstart)

theorem comma_of_afterMaker? {cs rest : List Char} (h : afterMaker? cs = some rest)
    (hrest : ',' ∉ rest) : ',' ∉ cs := by
  unfold afterMaker? at h
  split at h
  next hnew =>
    exact comma_of_after? hnew (by decide)
      (comma_of_trimStart (comma_of_after? h (by decide) hrest))
  next => exact comma_of_after? h (by decide) hrest

/-- A binding has a name and a directory that can be written, and no comma. -/
theorem of_binding? {cs : List Char} {p : Piece} (h : binding? cs = some p) :
    ∃ name path, p = .binding name path ∧ IsProject name ∧ IsDirectory path ∧ ',' ∉ cs := by
  simp only [binding?, Option.bind_eq_bind, Option.bind_eq_some_iff, Option.pure_def,
    Option.some.injEq] at h
  obtain ⟨c₁, h₁, c₂, h₂, ⟨name, c₃⟩, hname, c₄, h₄, c₅, h₅, c₆, h₆, c₇, h₇, _, hpath, _, hend,
    rfl⟩ := h
  rw [Option.guard_eq_some'] at hpath hend
  have hne : (skipOne isQuote c₇).takeWhile isDirectoryChar ≠ [] := fun hnil => by
    simp [hnil] at hpath
  have hend : skipOne isQuote ((skipOne isQuote c₇).dropWhile isDirectoryChar) = [')'] :=
    beq_iff_eq.mp hend
  refine ⟨name, _, rfl, isProject_of_readProjectName? hname, ⟨?_, ?_⟩, ?_⟩
  · simpa using hne
  · rw [String.toList_ofList, List.all_eq_true]
    exact fun c hc => List.mem_takeWhile_imp hc
  · have hquote : isQuote ',' = false := by decide
    have h₈ : ',' ∉ c₇ := comma_of_skipOne hquote (comma_of_dropWhile (p := isDirectoryChar)
      (by decide) (comma_of_skipOne hquote (by rw [hend]; decide)))
    have h₉ : ',' ∉ c₄ := comma_of_trimStart (comma_of_after? h₅ (by decide) (comma_of_trimStart
      (comma_of_afterMaker? h₆ (comma_of_trimStart (comma_of_after? h₇ (by decide) h₈)))))
    have h₁₀ : ',' ∉ c₃ := comma_of_skipOne hquote (comma_of_after? h₄ (by decide) h₉)
    rw [dropWhile_of_readProjectName? hname] at h₁₀
    exact comma_of_after? h₁ (by decide) (comma_of_trimStart (comma_of_after? h₂ (by decide)
      (comma_of_skipOne hquote (comma_of_dropWhile (by decide) h₁₀))))

/-- Whether a piece names and binds only what can be written. -/
def Piece.IsWritable : Piece → Prop
  | .bareName name | .opening name => IsProject name
  | .binding name path => IsProject name ∧ IsDirectory path
  | .blank | .other => True

theorem isWritable_ofChars (cs : List Char) : (Piece.ofChars cs).IsWritable := by
  unfold Piece.ofChars
  dsimp only
  split
  · trivial
  · cases hbare : bareName? (trim cs) with
    | some p =>
      obtain ⟨name, rfl, hname⟩ := isProject_of_bareName? hbare
      exact hname
    | none =>
      cases hopening : opening? (trim cs) with
      | some p =>
        obtain ⟨name, rfl, hname⟩ := isProject_of_opening? hopening
        exact hname
      | none =>
        cases hbinding : binding? (trim cs) with
        | some p =>
          obtain ⟨name, path, rfl, hname, hpath, -⟩ := of_binding? hbinding
          exact ⟨hname, hpath⟩
        | none => trivial

theorem comma_not_mem_of_binding {cs : List Char} {name path : String}
    (h : Piece.ofChars cs = .binding name path) : ',' ∉ cs := by
  have htrim : ',' ∉ trim cs := by
    unfold Piece.ofChars at h
    dsimp only at h
    split at h
    · cases h
    · cases hbare : bareName? (trim cs) with
      | some p =>
        obtain ⟨_, rfl, -⟩ := isProject_of_bareName? hbare
        simp [hbare] at h
      | none =>
        cases hopening : opening? (trim cs) with
        | some p =>
          obtain ⟨_, rfl, -⟩ := isProject_of_opening? hopening
          simp [hbare, hopening] at h
        | none =>
          cases hbinding : binding? (trim cs) with
          | some p =>
            obtain ⟨_, _, -, -, -, hcomma⟩ := of_binding? hbinding
            exact hcomma
          | none => simp [hbare, hopening, hbinding] at h
  exact comma_of_trim htrim

end Inclusion.Settings
