import Inclusion.Proofs.Settings.Undoing
import Mathlib.Data.List.Chain
import Mathlib.Data.List.Induction

/-!
# The division of a settings file

There is just one way to divide the lines of a settings file into include statements with the lines
that directly continue them, bindings, and lines of other kinds: it is the one that the editor sees.
Where a block is in line with a snapshot the edit leaves its lines alone, all others become one line
or none, and what the snapshot wants beyond that is put between two blocks: behind the last one, or
before an empty last line.

* `isDivision_iff`: the blocks of a file are its only division.
* `exists_edit_between`: where the added lines go.
* `keeps_rest`: what an edit leaves alone.
-/
namespace Inclusion.Settings

open Text

namespace Block

/-- Whether the lines of a block are what the block says, each line taken by itself. -/
def IsCut : Block → Prop
  | statement first more names =>
    ∃ (opened : List String) (added : List (List String)), openingNames? first = some opened
      ∧ more.map continuationNames? = added.map some ∧ names = opened ++ added.flatten
  | loose line names => openingNames? line = none ∧ continuationNames? line = some names
  | binding line name path =>
    openingNames? line = none ∧ continuationNames? line = none
      ∧ bindingOf? line = some (name, path)
  | plain line =>
    openingNames? line = none ∧ continuationNames? line = none ∧ bindingOf? line = none

def isStatement : Block → Bool
  | statement _ _ _ => true
  | _ => false

/-- Whether two blocks stay apart when one stands directly below the other. -/
def Apart (b below : Block) : Prop := b.isStatement = true → below.isLoose = false

/-- Puts a block in front of others: a statement takes up the lines that directly continue it. -/
def join : Block → List Block → List Block
  | statement first more names, bs => absorb first more names bs
  | b, bs => b :: bs

end Block

/-- A division of lines into blocks, in which no statement leaves a line below it that would
continue it. -/
structure IsDivision (lines : List String) (bs : List Block) : Prop where
  lines_eq : bs.flatMap Block.lines = lines
  cut : ∀ b ∈ bs, b.IsCut
  apart : bs.IsChain Block.Apart

namespace Block

/-! ### Single lines -/

theorem openingNames?_eq_none {line : String} {names : List String}
    (h : continuationNames? line = some names) : openingNames? line = none := by
  have hpieces := linePieces_of_continuationNames? h
  unfold openingNames?
  cases names with
  | nil => simp [hpieces]
  | cons name names => simp [hpieces]

theorem continuationNames?_empty : continuationNames? "" = none := by decide

theorem isCut_ofLine {line : String} (h : openingNames? line = none) : (ofLine line).IsCut := by
  unfold ofLine
  split
  next hnames => exact ⟨h, hnames⟩
  next hnone =>
    split
    next hbinding => exact ⟨h, hnone, hbinding⟩
    next hother => exact ⟨h, hnone, hother⟩

theorem ofLine_of_isCut {b : Block} (hb : b.IsCut) (h : b.isStatement = false) :
    openingNames? b.first = none ∧ ofLine b.first = b := by
  unfold ofLine
  cases b with
  | statement => cases h
  | loose line names => simp [first, hb.1, hb.2]
  | binding line name path => simp [first, hb.1, hb.2.1, hb.2.2]
  | plain line => simp [first, hb.1, hb.2.1, hb.2.2]

/-! ### Blocks below a statement -/

section

variable (first : String) (more names : List String)

theorem absorb_of_not_loose {bs : List Block} (h : ∀ b ∈ bs.head?, b.isLoose = false) :
    absorb first more names bs = statement first more names :: bs :=
  absorb_append first more names [] h

theorem isLoose_head?_absorb (bs : List Block) :
    ∀ b ∈ (absorb first more names bs).head?, b.isLoose = false := by
  induction bs generalizing more names with
  | nil => simp [absorb, isLoose]
  | cons b bs ih =>
    cases b with
    | loose line added => exact ih _ _
    | statement | binding | plain => simp [absorb, isLoose]

theorem isCut_absorb {bs : List Block} (hcut : (statement first more names).IsCut)
    (hbs : ∀ b ∈ bs, b.IsCut) : ∀ b ∈ absorb first more names bs, b.IsCut := by
  induction bs generalizing more names with
  | nil => simpa [absorb] using hcut
  | cons b bs ih =>
    obtain ⟨hb, hrest⟩ := List.forall_mem_cons.mp hbs
    by_cases hloose : b.isLoose = true
    · cases b with
      | loose line added =>
        obtain ⟨opened, taken, hopened, htaken, rfl⟩ := hcut
        refine ih _ _ ⟨opened, taken ++ [added], hopened, ?_, by simp⟩ hrest
        simp [htaken, hb.2]
      | statement | binding | plain => cases hloose
    · rw [absorb_of_not_loose first more names (by simpa using hloose)]
      exact List.forall_mem_cons.mpr ⟨hcut, hbs⟩

theorem isChain_absorb {bs : List Block} (h : bs.IsChain Apart) :
    (absorb first more names bs).IsChain Apart := by
  induction bs generalizing more names with
  | nil => simp [absorb]
  | cons b bs ih =>
    by_cases hloose : b.isLoose = true
    · cases b with
      | loose line added => exact ih _ _ h.tail
      | statement | binding | plain => cases hloose
    · have hhead : ∀ c ∈ (b :: bs).head?, c.isLoose = false := by simpa using hloose
      rw [absorb_of_not_loose first more names hhead, List.isChain_cons]
      exact ⟨fun c hc _ => hhead c hc, h⟩

/-- A statement takes up all lines that directly continue it. -/
theorem absorb_blocks_append {added : List (List String)}
    {taken : List String} (h : taken.map continuationNames? = added.map some) (rest : List String) :
    absorb first more names (blocks (taken ++ rest))
      = absorb first (more ++ taken) (names ++ added.flatten) (blocks rest) := by
  induction taken generalizing more names added with
  | nil =>
    have hnil : added = [] := by simpa using h.symm
    simp [hnil]
  | cons line taken ih =>
    cases added with
    | nil => simp at h
    | cons ns added =>
      simp only [List.map_cons, List.cons.injEq] at h
      have hline : ofLine line = loose line ns := by simp [ofLine, h.1]
      rw [List.cons_append, blocks_cons, Block.cons, openingNames?_eq_none h.1, hline]
      change absorb first (more ++ [line]) (names ++ ns) (blocks (taken ++ rest)) = _
      rw [ih _ _ h.2]
      simp

end

theorem join_of_not_statement {b : Block} (h : b.isStatement = false) (bs : List Block) :
    b.join bs = b :: bs := by
  cases b with
  | statement => cases h
  | loose | binding | plain => rfl

/-- The lines of a block make that block again, whatever is below. -/
theorem blocks_lines_append {b : Block} (hb : b.IsCut) (rest : List String) :
    blocks (b.lines ++ rest) = b.join (blocks rest) := by
  by_cases hstatement : b.isStatement = true
  · cases b with
    | statement first more names =>
      obtain ⟨opened, added, hopened, hadded, rfl⟩ := hb
      rw [lines, List.cons_append, blocks_cons, Block.cons, hopened]
      exact absorb_blocks_append first [] opened hadded rest
    | loose | binding | plain => cases hstatement
  · have hnot : b.isStatement = false := by simpa using hstatement
    obtain ⟨hopening, hline⟩ := ofLine_of_isCut hb hnot
    have hlines : b.lines = [b.first] := by
      cases b with
      | statement => cases hstatement rfl
      | loose | binding | plain => rfl
    rw [hlines, join_of_not_statement hnot, List.singleton_append, blocks_cons, Block.cons, hopening,
      hline]

end Block

theorem blocks_flatMap_lines {bs : List Block} (h : ∀ b ∈ bs, b.IsCut) :
    blocks (bs.flatMap Block.lines) = bs.foldr Block.join [] := by
  induction bs with
  | nil => rfl
  | cons b bs ih =>
    obtain ⟨hb, hrest⟩ := List.forall_mem_cons.mp h
    rw [List.flatMap_cons, Block.blocks_lines_append hb, ih hrest, List.foldr_cons]

theorem foldr_join_of_isChain {bs : List Block} (h : bs.IsChain Block.Apart) :
    bs.foldr Block.join [] = bs := by
  induction bs with
  | nil => rfl
  | cons b bs ih =>
    obtain ⟨hbelow, hrest⟩ := List.isChain_cons.mp h
    rw [List.foldr_cons, ih hrest]
    cases b with
    | statement first more names =>
      exact Block.absorb_of_not_loose first more names fun c hc => hbelow c hc rfl
    | loose | binding | plain => rfl

theorem isDivision_blocks (lines : List String) : IsDivision lines (blocks lines) where
  lines_eq := flatMap_lines_blocks lines
  cut := by
    induction lines with
    | nil => simp [blocks]
    | cons line lines ih =>
      rw [blocks_cons, Block.cons]
      split
      next names hnames =>
        exact Block.isCut_absorb line [] names ⟨names, [], hnames, rfl, by simp⟩ ih
      next hnone => exact List.forall_mem_cons.mpr ⟨Block.isCut_ofLine hnone, ih⟩
  apart := by
    induction lines with
    | nil => simp [blocks]
    | cons line lines ih =>
      rw [blocks_cons, Block.cons]
      split
      next names _ => exact Block.isChain_absorb line [] names ih
      next =>
        have hline : (Block.ofLine line).isStatement = false := by
          unfold Block.ofLine
          split
          · rfl
          · split <;> rfl
        refine List.isChain_cons.mpr ⟨fun _ _ hstatement => ?_, ih⟩
        simp [hline] at hstatement

/-- The blocks of a file are its only division. -/
theorem isDivision_iff {lines : List String} {bs : List Block} :
    IsDivision lines bs ↔ bs = blocks lines := by
  constructor
  · intro h
    rw [← h.lines_eq, blocks_flatMap_lines h.cut, foldr_join_of_isChain h.apart]
  · rintro rfl
    exact isDivision_blocks lines

/-! ### What an edit makes of a block -/

namespace Block

variable {s : Snapshot} {b : Block}

/-- An edited block ends with an empty line only if it is such a line. -/
theorem edited_of_getLast?_eq_empty (hb : b.IsCut) (h : (b.edited s).getLast? = some "") :
    b.edited s = [""] := by
  by_cases hkept : b.IsKept s
  · rw [edited_of_isKept hkept] at h ⊢
    cases b with
    | statement first more names =>
      obtain ⟨opened, added, hopened, hadded, rfl⟩ := hb
      rcases List.eq_nil_or_concat more with rfl | ⟨before, last, rfl⟩
      · simpa [lines] using h
      · -- a line that continues a statement is not empty
        have hlast : last = "" := by
          rw [lines, List.concat_eq_append, ← List.cons_append, List.getLast?_concat] at h
          exact Option.some.inj h
        have hnone : none ∈ added.map some := hadded ▸
          List.mem_map.mpr ⟨last, by simp, hlast ▸ continuationNames?_empty⟩
        simp at hnone
    | loose | binding | plain => simpa [lines] using h
  · rcases edited_of_not_isKept hkept with hnil | ⟨statement, -, hone⟩
    · simp [hnil] at h
    · simpa [hone] using h

end Block

theorem exists_edit_between_of_isCut (s : Snapshot) {bs : List Block} (h : ∀ b ∈ bs, b.IsCut) :
    ∃ above below, bs = above ++ below
      ∧ (below.flatMap (Block.edited s) = [] ∨ below.flatMap (Block.edited s) = [""])
      ∧ ∀ added, appendLines (bs.flatMap (Block.edited s)) added
        = above.flatMap (Block.edited s) ++ added ++ below.flatMap (Block.edited s) := by
  induction bs using List.reverseRecOn with
  | nil => exact ⟨[], [], rfl, .inl rfl, fun added => by simp [appendLines]⟩
  | append_singleton bs b ih =>
    by_cases hnil : b.edited s = []
    · obtain ⟨above, below, rfl, hbelow, happend⟩ :=
        ih fun c hc => h c (List.mem_append_left _ hc)
      exact ⟨above, below ++ [b], by simp, by simpa [hnil] using hbelow,
        fun added => by simpa [hnil] using happend added⟩
    · by_cases hlast : (b.edited s).getLast? = some ""
      · have hempty := Block.edited_of_getLast?_eq_empty (h b (by simp)) hlast
        exact ⟨bs, [b], rfl, .inr (by simp [hempty]), fun added => by
          simp [appendLines, hempty]⟩
      · refine ⟨bs ++ [b], [], by simp, .inl rfl, fun added => ?_⟩
        have hend : ((bs ++ [b]).flatMap (Block.edited s)).getLast? ≠ some "" := by
          simpa [List.getLast?_append, hnil] using hlast
        simp only [appendLines, if_neg hend, List.flatMap_nil, List.append_nil]

/-- Lines are added between two blocks: behind all that is left, or before an empty last line. -/
theorem exists_edit_between (lines : List String) (s : Snapshot) :
    ∃ above below, blocks lines = above ++ below
      ∧ (below.flatMap (Block.edited s) = [] ∨ below.flatMap (Block.edited s) = [""])
      ∧ reconcile lines s = above.flatMap (Block.edited s)
        ++ additions s (blocks lines) (fileEnding lines) ++ below.flatMap (Block.edited s) := by
  obtain ⟨above, below, hblocks, hbelow, happend⟩ :=
    exists_edit_between_of_isCut s (isDivision_blocks lines).cut
  exact ⟨above, below, hblocks, hbelow, happend _⟩

/-- A last empty line is a block of its own. -/
theorem blocks_concat_empty (lines : List String) :
    blocks (lines ++ [""]) = blocks lines ++ [.plain ""] := by
  rw [blocks_append lines (by decide)]
  rfl

theorem getLast?_appendLines_of_empty {lines : List String} (h : lines.getLast? = some "")
    (added : List String) : (appendLines lines added).getLast? = some "" := by
  simp [appendLines, h]

theorem getLast?_reconcile {lines : List String} (h : lines.getLast? = some "") (s : Snapshot) :
    (reconcile lines s).getLast? = some "" := by
  obtain ⟨init, rfl⟩ := List.getLast?_eq_some_iff.mp h
  refine getLast?_appendLines_of_empty ?_ _
  simp [blocks_concat_empty, Block.edited]

/-- An edit keeps what a snapshot does not speak about and what it wants as it is. The lines of a
file fall into include statements with the lines that directly continue them, bindings and others.
Others, statements that name wanted projects only and bindings to the wanted directory keep all their
lines, in their places; what is not kept becomes one line or none; what is added stands in one piece
between the blocks, behind all lines or before an empty last one; and a last empty line stays. -/
theorem keeps_rest (lines : List String) (s : Snapshot) :
    ∃ above added below, IsDivision lines (above ++ below)
      ∧ reconcile lines s
        = above.flatMap (Block.edited s) ++ added ++ below.flatMap (Block.edited s)
      ∧ (below.flatMap (Block.edited s) = [] ∨ below.flatMap (Block.edited s) = [""])
      ∧ (∀ b ∈ above ++ below, (b.IsKept s → b.edited s = b.lines)
        ∧ (¬b.IsKept s → b.edited s = []
          ∨ ∃ statement, s.Writes statement ∧ b.edited s = [restate b.first statement]))
      ∧ (∀ line ∈ added, ∃ n ∈ s.all, line = includeStatement [n] ++ fileEnding lines
        ∨ ∃ path, s.directory? n = some path
          ∧ line = directoryStatement n path ++ fileEnding lines)
      ∧ (lines.getLast? = some "" → (reconcile lines s).getLast? = some "") := by
  obtain ⟨above, below, hblocks, hbelow, hreconcile⟩ := exists_edit_between lines s
  exact ⟨above, _, below, hblocks ▸ isDivision_blocks lines, hreconcile, hbelow,
    fun b _ => ⟨Block.edited_of_isKept, Block.edited_of_not_isKept⟩,
    fun line hline => of_mem_additions hline, fun h => getLast?_reconcile h s⟩

end Inclusion.Settings
