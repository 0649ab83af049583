import Inclusion.Settings.Registration
import Inclusion.Text.Lines

/-!
# Bringing a settings file in line with a snapshot

The lines of a settings file are seen as blocks: include statements with the lines that continue
them, bindings of a project to a directory, and lines that register nothing. A statement is kept
while all its projects are wanted, restated on one line while some are, and dropped when none is; a
binding likewise by its directory. What is wanted and not yet registered is added at the end, before
a final empty line.

* `flatMap_lines_blocks`: the blocks of a file hold its lines, in order.
* `Block.edited_plain`: a line that registers nothing is kept as it is.
* `Block.edited_of_isKept`, `Block.edited_of_not_isKept`: what becomes of the others.
* `writes_of_mem_additions`: what is added are statements.
-/
namespace Inclusion.Settings

open Text

/-- What the pieces of a line are, without the blank ones. -/
def linePieces (line : String) : List Piece :=
  ((line.toList.splitOn ',').map Piece.ofChars).filter (· != .blank)

def Piece.bareName? : Piece → Option String
  | .bareName name => some name
  | _ => none

/-- The projects that a line registers by opening an include statement. -/
def openingNames? (line : String) : Option (List String) :=
  match linePieces line with
  | .opening name :: more => (more.mapM Piece.bareName?).map (name :: ·)
  | _ => none

/-- The projects that a line adds to an include statement that is open. -/
def continuationNames? (line : String) : Option (List String) :=
  match linePieces line with
  | [] => none
  | more => more.mapM Piece.bareName?

/-- The project and the directory that a line binds. -/
def bindingOf? (line : String) : Option (String × String) :=
  match Piece.ofText line with
  | .binding name path => some (name, path)
  | _ => none

/-! ### Blocks -/

inductive Block
  /-- An include statement: its first line, the lines that continue it, all its projects. -/
  | statement (first : String) (more names : List String)
  /-- A line of bare names that no statement is open for. -/
  | loose (line : String) (names : List String)
  /-- A line that binds a project to a directory. -/
  | binding (line name path : String)
  /-- A line that registers nothing. -/
  | plain (line : String)
deriving DecidableEq, Repr

namespace Block

/-- The lines that a block was made of. -/
def lines : Block → List String
  | statement first more _ => first :: more
  | loose line _ => [line]
  | binding line _ _ => [line]
  | plain line => [line]

/-- The first line of a block. -/
def first : Block → String
  | statement first _ _ => first
  | loose line _ => line
  | binding line _ _ => line
  | plain line => line

/-- A line on its own. -/
def ofLine (line : String) : Block :=
  match continuationNames? line with
  | some names => loose line names
  | none =>
    match bindingOf? line with
    | some (name, path) => binding line name path
    | none => plain line

/-- A statement takes up the lines of bare names that directly follow it. -/
def absorb (first : String) (more names : List String) : List Block → List Block
  | loose line added :: blocks => absorb first (more ++ [line]) (names ++ added) blocks
  | blocks => statement first more names :: blocks

/-- Puts a line in front of the blocks of the lines below it. -/
def cons (line : String) (blocks : List Block) : List Block :=
  match openingNames? line with
  | some names => absorb line [] names blocks
  | none => ofLine line :: blocks

/-- The projects of a statement that a snapshot wants. -/
def keptNames (s : Snapshot) : Block → List String
  | statement _ _ names => names.filter s.contains
  | _ => []

/-- The project of a binding that a snapshot wants bound. -/
def boundNames (s : Snapshot) : Block → List String
  | binding _ name _ => if (s.directory? name).isSome then [name] else []
  | _ => []

/-- The lines that a block becomes. -/
def edited (s : Snapshot) : Block → List String
  | statement first more names =>
    let kept := names.filter s.contains
    if kept.length = names.length then first :: more
    else if kept = [] then []
    else [restate first (includeStatement kept)]
  | binding line name path =>
    match s.directory? name with
    | none => []
    | some wanted =>
      if wanted = path then [line] else [restate line (directoryStatement name wanted)]
  | loose line _ => [line]
  | plain line => [line]

end Block

/-- The blocks of a settings file. -/
def blocks (lines : List String) : List Block := lines.foldr Block.cons []

/-! ### Reconciling -/

/-- What ends the lines of a file: a carriage return if any line has one. -/
def fileEnding (lines : List String) : String := if lines.any endsWithReturn then "\r" else ""

/-- The statements for what a snapshot wants and the blocks do not register. -/
def additions (s : Snapshot) (bs : List Block) (ending : String) : List String :=
  let included := bs.flatMap (Block.keptNames s)
  let bound := bs.flatMap (Block.boundNames s)
  s.all.flatMap fun name =>
    (if name ∈ included then [] else [includeStatement [name] ++ ending])
      ++ match s.directory? name with
        | none => []
        | some path => if name ∈ bound then [] else [directoryStatement name path ++ ending]

/-- Puts lines at the end, but before a final empty line. -/
def appendLines (lines added : List String) : List String :=
  if lines.getLast? = some "" then lines.dropLast ++ added ++ [""] else lines ++ added

/-- Edits the lines of a settings file so that they register the projects of a snapshot. -/
def reconcile (lines : List String) (s : Snapshot) : List String :=
  let bs := blocks lines
  appendLines (bs.flatMap (Block.edited s)) (additions s bs (fileEnding lines))

theorem Block.flatMap_lines_absorb (first : String) (more names : List String)
    (bs : List Block) :
    (absorb first more names bs).flatMap Block.lines
      = first :: more ++ bs.flatMap Block.lines := by
  induction bs generalizing more names with
  | nil => simp [absorb, lines]
  | cons b bs ih =>
    cases b with
    | loose line added => simp [absorb, ih, lines]
    | statement _ _ _ => simp [absorb, lines]
    | binding _ _ _ => simp [absorb, lines]
    | plain _ => simp [absorb, lines]

theorem Block.first_mem_lines (b : Block) : b.first ∈ b.lines := by
  cases b <;> exact List.mem_cons_self ..

theorem Block.lines_ofLine (line : String) : (ofLine line).lines = [line] := by
  unfold ofLine
  split
  · rfl
  · split <;> rfl

theorem flatMap_lines_blocks (lines : List String) :
    (blocks lines).flatMap Block.lines = lines := by
  induction lines with
  | nil => rfl
  | cons line lines ih =>
    rw [blocks, List.foldr_cons, ← blocks, Block.cons]
    split
    · rw [Block.flatMap_lines_absorb, ih]; rfl
    · rw [List.flatMap_cons, Block.lines_ofLine, ih]; rfl

/-! ### What an edit writes -/

/-- The statements that an edit writes: those that name wanted projects, and those that bind a project
to the wanted directory. -/
inductive Snapshot.Writes (s : Snapshot) : String → Prop
  | names {names : List String} (hne : names ≠ []) (h : ∀ n ∈ names, n ∈ s.all) :
    Writes s (includeStatement names)
  | directory {name path : String} (h : s.directory? name = some path) :
    Writes s (directoryStatement name path)

/-- Whether a snapshot wants all that a block registers. -/
def Block.IsKept (s : Snapshot) : Block → Prop
  | statement _ _ names => ∀ n ∈ names, n ∈ s.all
  | binding _ name path => s.directory? name = some path
  | loose _ _ => True
  | plain _ => True

theorem mem_all_of_mem_filter {s : Snapshot} {names : List String} {n : String}
    (h : n ∈ names.filter s.contains) : n ∈ s.all := by
  simpa [Snapshot.contains] using (List.mem_filter.mp h).2

theorem filter_contains_eq_self_iff {s : Snapshot} {names : List String} :
    names.filter s.contains = names ↔ ∀ n ∈ names, n ∈ s.all := by
  simp [List.filter_eq_self, Snapshot.contains]

section

variable {s : Snapshot} {b : Block}

theorem Block.edited_of_isKept (h : b.IsKept s) : b.edited s = b.lines := by
  cases b with
  | statement first more names =>
    have hall : names.filter s.contains = names := filter_contains_eq_self_iff.mpr h
    simp [edited, lines, hall]
  | binding line name path =>
    simp only [edited, lines, show s.directory? name = some path from h, ↓reduceIte]
  | loose | plain => rfl

/-- What is not kept as it is becomes one line or none. -/
theorem Block.edited_of_not_isKept (h : ¬b.IsKept s) : b.edited s = []
    ∨ ∃ statement, s.Writes statement ∧ b.edited s = [restate b.first statement] := by
  cases b with
  | statement first more names =>
    have hlength : (names.filter s.contains).length ≠ names.length := fun heq =>
      h (filter_contains_eq_self_iff.mp (List.filter_sublist.eq_of_length heq))
    simp only [edited, if_neg hlength]
    split
    next => exact .inl rfl
    next hne => exact .inr ⟨_, .names hne fun _ => mem_all_of_mem_filter, rfl⟩
  | binding line name path =>
    simp only [edited]
    cases hwanted : s.directory? name with
    | none => exact .inl rfl
    | some wanted =>
      have hne : wanted ≠ path := fun heq => h (heq ▸ hwanted)
      simp only [if_neg hne]
      exact .inr ⟨_, .directory hwanted, rfl⟩
  | loose | plain => exact absurd trivial h

theorem of_mem_additions {bs : List Block} {ending line : String}
    (h : line ∈ additions s bs ending) :
    ∃ n ∈ s.all, line = includeStatement [n] ++ ending
      ∨ ∃ path, s.directory? n = some path ∧ line = directoryStatement n path ++ ending := by
  obtain ⟨n, hn, hline⟩ := List.mem_flatMap.mp h
  refine ⟨n, hn, ?_⟩
  rcases List.mem_append.mp hline with hline | hline
  · split at hline
    next => cases hline
    next => exact .inl (List.mem_singleton.mp hline)
  · split at hline
    next => cases hline
    next path hpath =>
      split at hline
      next => cases hline
      next => exact .inr ⟨path, hpath, List.mem_singleton.mp hline⟩

theorem writes_of_mem_additions {bs : List Block} {ending line : String}
    (h : line ∈ additions s bs ending) : ∃ statement, s.Writes statement ∧ line = statement ++ ending := by
  obtain ⟨n, hn, rfl | ⟨path, hpath, rfl⟩⟩ := of_mem_additions h
  · exact ⟨_, .names (List.cons_ne_nil n []) (by simpa using hn), rfl⟩
  · exact ⟨_, .directory hpath, rfl⟩

end

theorem Block.edited_plain (s : Snapshot) (line : String) : (plain line).edited s = [line] := rfl

end Inclusion.Settings
