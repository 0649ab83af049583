import Inclusion.Proofs.Lookahead
import Inclusion.Proofs.Settings.Scanning
import Inclusion.Proofs.Settings.Undoing

/-!
# Written statements decode

What a settings file says is described by three patterns, for bare names, the openings of include
statements and bindings. A text may match in several ways: quotes and brackets are optional, and so
is a colon in front of a name whose characters include the colon. The preferred match is what the
reader of pieces finds. What the writer encodes is decoded by it: a name that starts with a colon, or
is one, keeps it, since the colon that is written in front of it is the one that is dropped.

* `match?_bareNamePattern`, `match?_openingPattern`, `match?_bindingPattern`: what the preferred
  matches keep.
* `matchedPiece_eq`: the patterns, tried in turn, tell the pieces apart as the reader does.
* `reads_written`: written statements, read line by line and piece by piece.
-/
namespace Inclusion.Settings

open Text Text.Pattern

/-! ### The patterns of the pieces -/

/-- What the match of a piece keeps. -/
inductive Key
  | name
  | path
deriving DecidableEq

def bareNamePattern : Pattern Key :=
  chain [one isQuote, optional (one (· == ':')), keepRun .name isProjectChar, one isQuote,
    optional (one (· == ')')), finish]

def openingPattern : Pattern Key :=
  chain [word "include", edge, run isBlank, optional (one (· == '(')), optional (one isQuote),
    optional (one (· == ':')), keepRun .name isProjectChar, optional (one isQuote),
    optional (one (· == ')')), finish]

def bindingPattern : Pattern Key :=
  chain [word "project", run isBlank, word "(", optional (one isQuote), optional (one (· == ':')),
    keepRun .name isProjectChar, optional (one isQuote), word ").projectDir", run isBlank, word "=",
    run isBlank, either (chain [word "new", run isBlank, word "File"]) (word "file"), run isBlank,
    word "(", optional (one isQuote), keepRun .path isDirectoryChar, optional (one isQuote),
    word ")", finish]

/-- A test for the characters of words that is settled for ASCII and takes no blank for one. -/
structure IsWordClass (isWord : Char → Bool) : Prop where
  ascii : ∀ c : Char, c.toNat < 128 → isWord c = isWordChar c
  blank : ∀ c : Char, isBlank c = true → isWord c = false

/-- What is kept of a piece. -/
def Piece.kept : Piece → Key → Option (List Char)
  | .bareName name | .opening name => only .name name.toList
  | .binding name path => fun key => (only .path path.toList key).or (only .name name.toList key)
  | .blank | .other => fun _ => none

/-! ### Characters that tell parts apart -/

section

variable {c : Char}

theorem ne_of_apply {p : Char → Bool} {d : Char} (hc : p c = true) (hd : p d = false) : ¬c = d := by
  rintro rfl
  simp [hc] at hd

theorem toNat_of_isAlphanum (h : c.isAlphanum = true) : 33 ≤ c.toNat ∧ c.toNat < 128 := by
  have hbounds : ∀ first last : Char, first.val ≤ c.val → c.val ≤ last.val →
      33 ≤ first.toNat → last.toNat < 128 → 33 ≤ c.toNat ∧ c.toNat < 128 :=
    fun first last hfirst hlast hlow hhigh =>
      ⟨hlow.trans (UInt32.le_iff_toNat_le.mp hfirst),
        (UInt32.le_iff_toNat_le.mp hlast).trans_lt hhigh⟩
  rcases Bool.or_eq_true_iff.mp h with halpha | hdigit
  · rcases Bool.or_eq_true_iff.mp halpha with hupper | hlower
    · obtain ⟨hfirst, hlast⟩ := of_decide_eq_true hupper
      exact hbounds 'A' 'Z' hfirst hlast (by decide) (by decide)
    · obtain ⟨hfirst, hlast⟩ := Bool.and_eq_true_iff.mp hlower
      exact hbounds 'a' 'z' (of_decide_eq_true hfirst) (of_decide_eq_true hlast) (by decide)
        (by decide)
  · obtain ⟨hfirst, hlast⟩ := Bool.and_eq_true_iff.mp hdigit
    exact hbounds '0' '9' (of_decide_eq_true hfirst) (of_decide_eq_true hlast) (by decide)
      (by decide)

theorem toNat_of_isDirectoryChar (h : isDirectoryChar c = true) :
    33 ≤ c.toNat ∧ c.toNat < 128 := by
  simp only [isDirectoryChar, isNameChar, Bool.or_eq_true, beq_iff_eq] at h
  rcases h with (((((h | rfl) | rfl) | rfl) | rfl) | rfl) | rfl
  · exact toNat_of_isAlphanum h
  all_goals decide

theorem isDirectoryChar_of_isProjectChar (h : isProjectChar c = true) :
    isDirectoryChar c = true := by
  simp only [isProjectChar, isDirectoryChar, Bool.or_eq_true] at h ⊢
  exact .inl (.inl (.inl h))

theorem isQuote_of_isDirectoryChar (h : isDirectoryChar c = true) : isQuote c = false := by
  refine Bool.eq_false_iff.mpr fun hquote => ?_
  simp only [isQuote, Bool.or_eq_true, beq_iff_eq] at hquote
  rcases hquote with rfl | rfl <;> exact absurd h (by decide)

theorem isBlank_of_isDirectoryChar (h : isDirectoryChar c = true) : isBlank c = false := by
  obtain ⟨hlow, hhigh⟩ := toNat_of_isDirectoryChar h
  simp only [isBlank]
  grind

theorem isQuote_of_isProjectChar (h : isProjectChar c = true) : isQuote c = false :=
  isQuote_of_isDirectoryChar (isDirectoryChar_of_isProjectChar h)

theorem of_isQuote (h : isQuote c = true) : isProjectChar c = false ∧ isDirectoryChar c = false :=
  ⟨Bool.eq_false_iff.mpr fun hc => by simp [isQuote_of_isProjectChar hc] at h,
    Bool.eq_false_iff.mpr fun hc => by simp [isQuote_of_isDirectoryChar hc] at h⟩

theorem of_isBlank (h : isBlank c = true) :
    isQuote c = false ∧ isProjectChar c = false ∧ isDirectoryChar c = false := by
  have hdirectory : isDirectoryChar c = false := Bool.eq_false_iff.mpr fun hc => by
    simp [isBlank_of_isDirectoryChar hc] at h
  refine ⟨Bool.eq_false_iff.mpr fun hquote => ?_, Bool.eq_false_iff.mpr fun hproject => ?_,
    hdirectory⟩
  · simp only [isQuote, Bool.or_eq_true, beq_iff_eq] at hquote
    rcases hquote with rfl | rfl <;> exact absurd h (by decide)
  · simp [isDirectoryChar_of_isProjectChar hproject] at hdirectory

end

/-! ### The patterns as readers -/

section

variable {isWord : Char → Bool} {ps : List (Pattern Key)}
  {read : List Char → Option (Key → Option (List Char))}

theorem reads_one (h : Reads isWord ps read) (test : Char → Bool) :
    Reads isWord (one test :: ps) fun cs => (readOne? test cs).bind read := by
  intro s
  rw [h.one test s]
  cases s.rest with
  | nil => rfl
  | cons c cs => by_cases hc : test c = true <;> simp [readOne?, hc]

/-- A name with or without a colon in front. -/
theorem reads_name (h : Reads isWord ps read)
    (htest : ∀ c, isProjectChar c = true → opens c (chain ps) = false) :
    Reads isWord (optional (one (· == ':')) :: keepRun .name isProjectChar :: ps) fun cs =>
      (readProjectName? cs).bind fun r =>
        (read r.2).map fun kept k => (kept k).or (only .name r.1.toList k) := by
  have hname := h.keepRun .name isProjectChar htest
  intro s
  refine ((hname.one (· == ':')).optional hname s).trans (congrArg _ ?_)
  have hcolon : isProjectChar ':' = true := by decide
  rcases s.rest with _ | ⟨c, cs⟩
  · rfl
  · by_cases hc : isProjectChar c = true
    · by_cases hcc : c = ':'
      · subst hcc
        cases htake : cs.takeWhile isProjectChar with
        | nil => simp [readProjectName?, hcolon, htake]
        | cons d name =>
          -- with the name kept the other way, the same text is left
          cases hrest : read (cs.dropWhile isProjectChar) <;>
            simp [readProjectName?, hcolon, htake, hrest]
      · cases htake : cs.takeWhile isProjectChar <;>
          simp [readProjectName?, hc, htake, hcc]
    · have hcc : ¬c = ':' := by
        rintro rfl
        exact hc hcolon
      simp [readProjectName?, hc, hcc]

variable (isWord) in
theorem reads_closed :
    Reads isWord ([optional (one (· == ')')), finish] : List (Pattern Key)) fun cs =>
      if isClosed cs then some fun _ => none else none := by
  intro s
  rw [Reads.finish.skip (· == ')') (by simp) s]
  congr 1
  rcases s.rest with _ | ⟨c, _ | ⟨d, cs⟩⟩
  · rfl
  · by_cases hc : c = ')' <;> simp [skipOne, isClosed, hc]
  · by_cases hc : c = ')' <;> simp [skipOne, isClosed, hc]

theorem match?_bareNamePattern (cs : List Char) :
    bareNamePattern.match? isWord cs = (bareName? cs).map Piece.kept := by
  have hname := reads_name (reads_one (reads_closed isWord) isQuote)
    fun c hc => by simp [isQuote_of_isProjectChar hc]
  refine ((reads_one hname isQuote).match?_eq cs).trans ?_
  simp only [bareName?, Option.bind_eq_bind, Option.map_bind, Function.comp_def]
  refine Option.bind_congr fun _ _ => Option.bind_congr fun r _ => Option.bind_congr fun cs _ => ?_
  cases isClosed cs <;> rfl

/-- Behind the keyword the pattern may take a character for one of a word where the reader does not;
but no name follows then. -/
theorem bind_readProjectName?_of_isWordClass (hword : IsWordClass isWord) {α : Type}
    (cs : List Char) (next : String × List Char → Option α) :
    (if cs.head?.any isWord then none
      else (readProjectName? (skipOne isQuote (skipOne (· == '(') (trimStart cs)))).bind next)
      = if atWordEnd cs then
          (readProjectName? (skipOne isQuote (skipOne (· == '(') (trimStart cs)))).bind next
        else none := by
  cases cs with
  | nil => rfl
  | cons c cs =>
    by_cases hlt : c.toNat < 128
    · simp only [atWordEnd, List.head?_cons, Option.any_some, hword.ascii c hlt]
      by_cases hc : isWordChar c = true <;> simp [hc]
    · have hname : ¬isProjectChar c = true := fun hc =>
        hlt (toNat_of_isDirectoryChar (isDirectoryChar_of_isProjectChar hc)).2
      have hend : atWordEnd (c :: cs) = true := by
        have hc : isWordChar c = false := Bool.eq_false_iff.mpr fun hc => hname (by
          simp only [isWordChar, Bool.or_eq_true] at hc
          simp only [isProjectChar, isNameChar, Bool.or_eq_true]
          exact .inl (.inl hc))
        simp [atWordEnd, hc]
      by_cases hc : isWord c = true
      · have hblank : ¬isBlank c = true := fun hblank => by simp [hword.blank c hblank] at hc
        have hne : ∀ d : Char, d.toNat < 128 → ¬c = d := by
          rintro d hd rfl
          exact hlt hd
        simp [hc, trimStart, hblank, skipOne, hne '(' (by decide), isQuote, hne '\'' (by decide),
          hne '"' (by decide), readProjectName?, hname]
      · simp [hc, hend]

theorem match?_openingPattern (hword : IsWordClass isWord) (cs : List Char) :
    openingPattern.match? isWord cs = (opening? cs).map Piece.kept := by
  have hclosed := (reads_closed isWord).skip isQuote
    fun c hc => by simp (disch := decide) [ne_of_apply hc]
  have hname := reads_name hclosed fun c hc => by
    simp (disch := decide) [isQuote_of_isProjectChar hc, ne_of_apply hc]
  have hquote := hname.skip isQuote
    fun c hc => by simp (disch := decide) [of_isQuote hc, ne_of_apply hc]
  have hbracket := hquote.skip (· == '(')
    fun c hc => by rw [beq_iff_eq.mp hc]; decide
  have hblanks := hbracket.run isBlank
    fun c hc => by simp (disch := decide) [of_isBlank hc, ne_of_apply hc]
  have hlast : "include".toList.getLast?.any isWord = true := hword.ascii 'e' (by decide)
  refine ((hblanks.wordEdge hlast).match?_eq cs).trans ?_
  simp only [opening?, Option.bind_eq_bind, Option.map_bind, Function.comp_def]
  refine Option.bind_congr fun cs _ => ?_
  refine (bind_readProjectName?_of_isWordClass hword cs _).trans ?_
  by_cases hend : atWordEnd cs = true
  case neg => simp [hend]
  simp only [hend, ↓reduceIte, guard_true, Option.pure_def, Option.bind_some]
  refine Option.bind_congr fun r _ => ?_
  cases isClosed (skipOne isQuote r.2) <;> rfl

theorem reads_maker (h : Reads isWord ps read) : Reads isWord
    (either (chain [word "new", run isBlank, word "File"]) (word "file") :: ps) fun cs =>
      (afterMaker? cs).bind read := by
  have hblanks := (h.word "File").run isBlank
    fun _ hc => opens_word_eq_false hc (by decide)
  have hnew := Reads.inner [word "new", run isBlank, word "File"] (hblanks.word "new")
  intro s
  refine (hnew.either (h.word "file") s).trans (congrArg _ ?_)
  simp only [afterMaker?]
  cases hcs : after? "new" s.rest with
  | none => rfl
  | some cs =>
    have hfile : after? "file" s.rest = none := by
      rw [after?_eq_some_iff.mp hcs]
      rfl
    rw [hfile, Option.bind_none, Option.or_none]
    rfl

variable (isWord) in
theorem reads_end :
    Reads isWord ([optional (one isQuote), word ")", finish] : List (Pattern Key)) fun cs =>
      if skipOne isQuote cs = [')'] then some fun _ => none else none := by
  intro s
  have hfinish : Reads isWord [(finish : Pattern Key)] _ := Reads.finish
  have hend := (hfinish.word ")").skip isQuote
    fun _ hc => opens_word_eq_false hc (by decide)
  refine (hend s).trans (congrArg _ ?_)
  dsimp only
  by_cases hcs : skipOne isQuote s.rest = [')']
  · rw [if_pos hcs, hcs]
    rfl
  · rw [if_neg hcs]
    refine Option.bind_eq_none_iff.mpr fun rest hrest => if_neg fun hnil => hcs ?_
    rw [after?_eq_some_iff.mp hrest, hnil]
    rfl

theorem match?_bindingPattern (cs : List Char) :
    bindingPattern.match? isWord cs = (binding? cs).map Piece.kept := by
  have hpath := (reads_end isWord).keepRun .path isDirectoryChar
    fun c hc => by simp (disch := decide) [isQuote_of_isDirectoryChar hc, ne_of_apply hc]
  have hopen := (hpath.skip isQuote fun c hc => by simp [of_isQuote hc]).word "("
  have hmaker := reads_maker (hopen.run isBlank
    fun _ hc => opens_word_eq_false hc (by decide))
  have hequals := (hmaker.run isBlank
    fun c hc => by simp (disch := decide) [ne_of_apply hc]).word "="
  have hdirectory := (hequals.run isBlank
    fun _ hc => opens_word_eq_false hc (by decide)).word ").projectDir"
  have hname := reads_name (hdirectory.skip isQuote
    fun _ hc => opens_word_eq_false hc (by decide))
    fun c hc => by simp (disch := decide) [isQuote_of_isProjectChar hc, ne_of_apply hc]
  have hbracket := (hname.skip isQuote
    fun c hc => by simp (disch := decide) [of_isQuote hc, ne_of_apply hc]).word "("
  have hproject := (hbracket.run isBlank
    fun _ hc => opens_word_eq_false hc (by decide)).word "project"
  refine (hproject.match?_eq cs).trans ?_
  simp only [binding?, Option.bind_eq_bind, Option.map_bind, Function.comp_def, trimStart]
  refine Option.bind_congr fun _ _ => Option.bind_congr fun _ _ => Option.bind_congr fun r _ =>
    Option.bind_congr fun _ _ => Option.bind_congr fun _ _ => Option.bind_congr fun _ _ =>
    Option.bind_congr fun cs _ => ?_
  by_cases hnil : (skipOne isQuote cs).takeWhile isDirectoryChar = []
  · simp [hnil]
  by_cases hlast : skipOne isQuote ((skipOne isQuote cs).dropWhile isDirectoryChar) = [')']
  · simp [hnil, hlast, Piece.kept]
  · simp [hlast]

end

/-! ### What a piece is -/

/-- What the preferred match of a text keeps under a key. -/
def keptText? (isWord : Char → Bool) (pattern : Pattern Key) (key : Key) (cs : List Char) :
    Option String :=
  ((pattern.match? isWord cs).bind (· key)).map String.ofList

/-- What a piece is by the patterns, which are tried in turn. -/
def matchedPiece (isWord : Char → Bool) (text : String) : Piece :=
  let cs := trim text.toList
  let bareName := (keptText? isWord bareNamePattern .name cs).map .bareName
  let opening := (keptText? isWord openingPattern .name cs).map .opening
  let binding := do
    return .binding (← keptText? isWord bindingPattern .name cs)
      (← keptText? isWord bindingPattern .path cs)
  if cs.isEmpty then .blank else ((bareName.or opening).or binding).getD .other

/-- The patterns and the reader agree on every text. -/
theorem matchedPiece_eq {isWord : Char → Bool} (hword : IsWordClass isWord) (text : String) :
    matchedPiece isWord text = Piece.ofText text := by
  simp only [matchedPiece, Piece.ofText, Piece.ofChars, keptText?, match?_bareNamePattern,
    match?_openingPattern hword, match?_bindingPattern]
  split
  · rfl
  · cases hbare : bareName? (trim text.toList) with
    | some p =>
      obtain ⟨name, rfl, -⟩ := isProject_of_bareName? hbare
      simp [Piece.kept, only]
    | none =>
      cases hopening : opening? (trim text.toList) with
      | some p =>
        obtain ⟨name, rfl, -⟩ := isProject_of_opening? hopening
        simp [Piece.kept, only]
      | none =>
        cases hbinding : binding? (trim text.toList) with
        | some p =>
          obtain ⟨name, path, rfl, -⟩ := of_binding? hbinding
          simp [Piece.kept, only]
        | none => simp

/-! ### Scans of written statements -/

theorem foldl_step_bareNames {texts names : List String}
    (h : texts.map Piece.ofText = names.map .bareName) {s : Scan} (hs : s.continuing = true) :
    texts.foldl Scan.step s = { s with snapshot := names.foldl Snapshot.addInternal s.snapshot } := by
  induction texts generalizing names s with
  | nil => cases names with
    | nil => rfl
    | cons => cases h
  | cons text texts ih => cases names with
    | nil => cases h
    | cons name names =>
      obtain ⟨htext, hrest⟩ := List.cons.inj h
      have hstep : s.step text = { s with snapshot := s.snapshot.addInternal name } := by
        rw [Scan.step, htext, Scan.take, if_pos hs]
      rw [List.foldl_cons, hstep]
      exact ih hrest hs

theorem foldl_addInternal (names : List String) (s : Snapshot) :
    names.foldl Snapshot.addInternal s
      = { s with all := names.foldl addNew s.all, internal := names.foldl addNew s.internal } := by
  induction names generalizing s with
  | nil => rfl
  | cons name names ih => rw [List.foldl_cons, ih]; rfl

theorem scan_includePieces {texts names : List String}
    (h : texts.map Piece.ofText = includePieces names) (hne : names ≠ []) :
    scan texts = { snapshot := { all := names.eraseDups, internal := names.eraseDups },
                   continuing := true } := by
  obtain ⟨name, names, rfl⟩ := List.exists_cons_of_ne_nil hne
  obtain ⟨text, texts, rfl, htext, hrest⟩ := List.map_eq_cons_iff.mp h
  have hfirst : Scan.step {} text
      = { snapshot := { all := [name], internal := [name] }, continuing := true } := by
    rw [Scan.step, htext]
    rfl
  have hnames : (name :: names).eraseDups = names.foldl addNew [name] :=
    eraseDups_append_eq_foldl [name] names
  rw [scan, List.foldl_cons, hfirst, foldl_step_bareNames hrest rfl, foldl_addInternal, hnames]

/-- What is written is what is read, with blanks around it or not. An include statement opens with its
first name, and its other pieces are bare names; so it registers its names in the order of their
first occurrences. The statement of a directory binds its project to it. Nothing else is registered
and nothing reported. -/
theorem reads_written {isWord : Char → Bool} (hword : IsWordClass isWord) {before after : String}
    (hbefore : ∀ c ∈ before.toList, isBlank c = true)
    (hafter : ∀ c ∈ after.toList, isBlank c = true) :
    (∀ names : List String, names ≠ [] → (∀ n ∈ names, IsProject n) →
      let line := before ++ includeStatement names ++ after
      openingNames? line = some names
        ∧ (pieces line).map (matchedPiece isWord) = includePieces names
        ∧ scan (pieces line)
          = { snapshot := { all := names.eraseDups, internal := names.eraseDups, external := [] }
              continuing := true, strays := [] })
    ∧ ∀ name path : String, IsProject name → IsDirectory path →
      let line := before ++ directoryStatement name path ++ after
      bindingOf? line = some (name, path)
        ∧ (pieces line).map (matchedPiece isWord) = [.binding name path]
        ∧ scan (pieces line)
          = { snapshot := { all := [name], internal := [], external := [(name, path)] }
              continuing := false, strays := [] } := by
  have hmatched : matchedPiece isWord = Piece.ofText := funext (matchedPiece_eq hword)
  rw [hmatched]
  refine ⟨fun names hne hnames => ?_, fun name path hname hpath => ?_⟩
  · have hline : (before ++ includeStatement names ++ after).toList
        = before.toList ++ (includeStatement names).toList ++ after.toList := by simp
    have hpieces := pieces_includeStatement names hnames hbefore hafter hne hline
    exact ⟨openingNames?_of_linePieces hne
        (linePieces_includeStatement names hnames hbefore hafter hne hline),
      hpieces, scan_includePieces hpieces hne⟩
  · have hline : (before ++ directoryStatement name path ++ after).toList
        = before.toList ++ (directoryStatement name path).toList ++ after.toList := by simp
    have hpieces := pieces_directoryStatement hname hpath.isUnbroken.1 hbefore hafter hline
    rw [directoryPiece, if_pos hpath] at hpieces
    obtain ⟨text, htexts, htext⟩ := List.map_eq_singleton_iff.mp hpieces
    refine ⟨(bindingOf?_of_directoryStatement hname hpath hbefore hafter hline).2.2, hpieces, ?_⟩
    rw [htexts, scan, List.foldl_cons, Scan.step, htext]
    rfl

/-- Names that are a colon or start with one, a name that comes back, and blanks beyond ASCII. -/
theorem reads_written_colons :
    let isWord := fun c : Char => isWordChar c || (decide (128 ≤ c.toNat) && !isBlank c)
    let line := "\u3000" ++ includeStatement [":a", ":", "a", ":"] ++ "\u00a0"
    let binding := "\u3000" ++ directoryStatement ":" "..\\a:b" ++ "\u00a0"
    line = "\u3000include '::a', '::', ':a', '::'\u00a0"
      ∧ openingNames? line = some [":a", ":", "a", ":"]
      ∧ (pieces line).map (matchedPiece isWord)
        = [.opening ":a", .bareName ":", .bareName "a", .bareName ":"]
      ∧ (scan (pieces line)).snapshot.all = [":a", ":", "a"]
      ∧ binding = "\u3000project('::').projectDir = new File('..\\a:b')\u00a0"
      ∧ bindingOf? binding = some (":", "..\\a:b")
      ∧ (scan (pieces binding)).snapshot.external = [(":", "..\\a:b")] := by
  intro isWord line binding
  have hword : IsWordClass isWord :=
    { ascii := fun c hc => by simp [isWord, Nat.not_le.mpr hc]
      blank := fun c hc => by
        have hproject := (of_isBlank hc).2.1
        simp only [isProjectChar, isNameChar, Bool.or_eq_false_iff] at hproject
        simp [isWord, isWordChar, hc, hproject.1.1] }
  have hbefore : ∀ c ∈ "\u3000".toList, isBlank c = true := by simp [isBlank]
  have hafter : ∀ c ∈ "\u00a0".toList, isBlank c = true := by simp [isBlank]
  obtain ⟨hnames, hbinding⟩ := reads_written hword hbefore hafter
  obtain ⟨hopening, hpieces, hscan⟩ := hnames [":a", ":", "a", ":"] (by decide) (by decide)
  obtain ⟨hbound, -, hscan'⟩ := hbinding ":" "..\\a:b" (by decide) (by decide)
  refine ⟨by decide, hopening, hpieces, ?_, by decide, hbound, ?_⟩
  · rw [hscan]
    decide
  · rw [hscan']

end Inclusion.Settings
