import Inclusion.Proofs.Settings.Standing

/-!
# Editing again what was edited

An edit makes of each block one that is in line with the snapshot, or none, and adds what is missing.
But a block that is dropped may have kept an include statement above it and a line of bare names below
it apart. The edited file then holds a statement that goes on, with names that the snapshot may not
want; the next edit takes these out again. So a second edit changes nothing if and only if no statement
took up such a name, and a third edit never does.

* `exists_inLine`: what an edit writes, block by block.
* `forall_isKept_join_iff`: what becomes of blocks that come together.
* `reconcile_reconcile_iff`: when a second edit changes nothing.
-/
namespace Inclusion.Settings

open Text

/-! ### What a block becomes -/

namespace Block

/-- The block that an edit makes of a block, if it leaves one. -/
def revised? (s : Snapshot) : Block → Option Block
  | statement first more names =>
    let kept := names.filter s.contains
    if kept.length = names.length then some (statement first more names)
    else if kept = [] then none
    else some (statement (restate first (includeStatement kept)) [] kept)
  | binding line name path =>
    (s.directory? name).map fun wanted =>
      if wanted = path then binding line name path
      else binding (restate line (directoryStatement name wanted)) name wanted
  | loose line names => some (loose line names)
  | plain line => some (plain line)

theorem edited_eq (s : Snapshot) (b : Block) :
    b.edited s = ((b.revised? s).map lines).getD [] := by
  cases b with
  | statement first more names =>
    simp only [edited, revised?]
    split
    next => rfl
    next => split <;> rfl
  | binding line name path =>
    simp only [edited, revised?]
    cases s.directory? name with
    | none => rfl
    | some wanted =>
      dsimp only [Option.map_some, Option.getD_some]
      split <;> rfl
  | loose | plain => rfl

variable {s : Snapshot} {b c : Block}

/-- What is left of a block is of the same kind and in line with the snapshot. -/
theorem of_revised? (h : b.revised? s = some c) :
    c.isStatement = b.isStatement ∧ c.isLoose = b.isLoose ∧ c.IsKept s := by
  cases b with
  | statement first more names =>
    simp only [revised?] at h
    split at h
    next hlength =>
      cases h
      refine ⟨rfl, rfl, filter_contains_eq_self_iff.mp ?_⟩
      exact List.filter_sublist.eq_of_length hlength
    next =>
      split at h
      next => cases h
      next =>
        cases h
        exact ⟨rfl, rfl, fun _ => mem_all_of_mem_filter⟩
  | binding line name path =>
    obtain ⟨wanted, hwanted, rfl⟩ := Option.map_eq_some_iff.mp h
    split
    next heq => exact ⟨rfl, rfl, heq ▸ hwanted⟩
    next => exact ⟨rfl, rfl, hwanted⟩
  | loose | plain =>
    cases h
    exact ⟨rfl, rfl, trivial⟩

theorem isCut_revised? (hs : s.Writable IsDirectory) (hb : b.IsCut)
    (h : b.revised? s = some c) : c.IsCut := by
  cases b with
  | statement first more names =>
    simp only [revised?] at h
    split at h
    next => cases h; exact hb
    next =>
      split at h
      next => cases h
      next hne =>
        cases h
        have hproject : ∀ n ∈ names.filter s.contains, IsProject n := fun n hn =>
          hs.name n (mem_all_of_mem_filter hn)
        refine ⟨_, [], openingNames?_of_linePieces hne ?_, rfl, by simp⟩
        exact linePieces_restate_includeStatement first hproject hne
  | binding line name path =>
    obtain ⟨wanted, hwanted, rfl⟩ := Option.map_eq_some_iff.mp h
    split
    next => exact hb
    next =>
      exact bindingOf?_of_directoryStatement (hs.name name (hs.directory name wanted hwanted).1)
        (hs.directory name wanted hwanted).2 (fun _ => isBlank_of_mem_blanks)
        (fun _ => isBlank_of_mem_ending) (toList_restate line _)
  | loose | plain => cases h; exact hb

theorem exists_revised?_of_mem_names {n : String} (hn : n ∈ b.names) (hall : n ∈ s.all) :
    ∃ c, b.revised? s = some c ∧ n ∈ c.names := by
  cases b with
  | statement first more names =>
    have hkept : n ∈ names.filter s.contains :=
      List.mem_filter.mpr ⟨hn, by simpa [Snapshot.contains] using hall⟩
    simp only [revised?]
    split
    next => exact ⟨_, rfl, hn⟩
    next => rw [if_neg (List.ne_nil_of_mem hkept)]; exact ⟨_, rfl, hkept⟩
  | binding | loose | plain => cases hn

theorem exists_revised?_of_mem_binds {n : String} (hn : n ∈ b.binds.map Prod.fst)
    (hsome : (s.directory? n).isSome = true) :
    ∃ c, b.revised? s = some c ∧ n ∈ c.binds.map Prod.fst := by
  cases b with
  | binding line name path =>
    obtain rfl : n = name := by simpa [binds] using hn
    obtain ⟨wanted, hwanted⟩ := Option.isSome_iff_exists.mp hsome
    refine ⟨_, by rw [revised?, hwanted, Option.map_some], ?_⟩
    split <;> simp [binds]
  | statement | loose | plain => cases hn

end Block

/-! ### What is added -/

section

variable (bs : List Block) (ending n : String) (directory : Option String)

/-- The blocks of the lines to be added for a project. -/
def missingBlocks : List Block :=
  (if n ∈ bs.flatMap Block.names then []
    else [.statement (includeStatement [n] ++ ending) [] [n]])
    ++ match directory with
      | none => []
      | some path =>
        if n ∈ (bs.flatMap Block.binds).map Prod.fst then []
        else [.binding (directoryStatement n path ++ ending) n path]

theorem flatMap_lines_missingBlocks :
    (missingBlocks bs ending n directory).flatMap Block.lines = missing bs ending n directory := by
  unfold missingBlocks missing
  rw [List.flatMap_append]
  refine congrArg₂ (· ++ ·) (by split <;> rfl) ?_
  cases directory with
  | none => rfl
  | some path => dsimp only; split <;> rfl

theorem of_mem_missingBlocks {b : Block} (h : b ∈ missingBlocks bs ending n directory) :
    b = .statement (includeStatement [n] ++ ending) [] [n]
      ∨ ∃ path, directory = some path ∧ b = .binding (directoryStatement n path ++ ending) n path := by
  rcases List.mem_append.mp h with h | h
  · split at h
    next => cases h
    next => exact .inl (List.mem_singleton.mp h)
  · cases directory with
    | none => cases h
    | some path =>
      dsimp only at h
      split at h
      next => cases h
      next => exact .inr ⟨path, rfl, List.mem_singleton.mp h⟩

end

/-- The blocks of the lines to be added. -/
def addedBlocks (s : Snapshot) (bs : List Block) (ending : String) : List Block :=
  s.all.flatMap fun n => missingBlocks bs ending n (s.directory? n)

theorem flatMap_lines_addedBlocks (s : Snapshot) (bs : List Block) (ending : String) :
    (addedBlocks s bs ending).flatMap Block.lines = additions s bs ending := by
  rw [additions_eq, addedBlocks, List.flatMap_assoc]
  exact List.flatMap_congr fun n _ => flatMap_lines_missingBlocks ..

section

variable {s : Snapshot} {bs : List Block} {n : String} (hn : n ∈ s.all) (ending : String)

include hn

theorem exists_addedBlocks_of_names (h : n ∉ bs.flatMap Block.names) :
    ∃ b ∈ addedBlocks s bs ending, n ∈ b.names :=
  ⟨.statement (includeStatement [n] ++ ending) [] [n],
    List.mem_flatMap.mpr ⟨n, hn, List.mem_append_left _ (by simp [h])⟩, List.mem_singleton_self n⟩

theorem exists_addedBlocks_of_binds (hsome : (s.directory? n).isSome = true)
    (h : n ∉ (bs.flatMap Block.binds).map Prod.fst) :
    ∃ b ∈ addedBlocks s bs ending, n ∈ b.binds.map Prod.fst := by
  obtain ⟨path, hpath⟩ := Option.isSome_iff_exists.mp hsome
  refine ⟨.binding (directoryStatement n path ++ ending) n path, ?_, List.mem_singleton_self n⟩
  refine List.mem_flatMap.mpr ⟨n, hn, List.mem_append_right _ ?_⟩
  simp only [hpath, if_neg h, List.mem_singleton]

end

/-! ### Blocks that are all in line -/

/-- The projects that statements take up from lines directly below them, given whether a statement
stands directly above. -/
def takenUp : Bool → List Block → List String
  | _, [] => []
  | _, .statement _ _ _ :: bs => takenUp true bs
  | below, .loose _ names :: bs => (if below then names else []) ++ takenUp below bs
  | _, .binding _ _ _ :: bs => takenUp false bs
  | _, .plain _ :: bs => takenUp false bs

/-- Blocks that are in line with a snapshot, and all that it wants is among them. -/
structure InLine (s : Snapshot) (bs : List Block) : Prop where
  cut : ∀ b ∈ bs, b.IsCut
  kept : ∀ b ∈ bs, b.IsKept s
  named : ∀ n ∈ s.all, n ∈ bs.flatMap Block.names
  bound : ∀ n, (s.directory? n).isSome = true → n ∈ (bs.flatMap Block.binds).map Prod.fst

theorem takenUp_cons {b : Block} (h : b.isLoose = false) (below : Bool) (bs : List Block) :
    takenUp below (b :: bs) = takenUp b.isStatement bs := by
  cases b with
  | loose line names => cases h
  | statement | binding | plain => rfl

theorem takenUp_of_not_loose {bs : List Block} (h : ∀ b ∈ bs, b.isLoose = false) (below : Bool) :
    takenUp below bs = [] := by
  induction bs generalizing below with
  | nil => rfl
  | cons b bs ih =>
    obtain ⟨hb, hrest⟩ := List.forall_mem_cons.mp h
    rw [takenUp_cons hb, ih hrest]

theorem takenUp_append {cs : List Block} (h : ∀ c ∈ cs, c.isLoose = false) (below : Bool)
    (bs : List Block) : takenUp below (bs ++ cs) = takenUp below bs := by
  induction bs generalizing below with
  | nil => exact takenUp_of_not_loose h below
  | cons b bs ih =>
    cases b with
    | loose line names => exact congrArg (_ ++ ·) (ih _)
    | statement | binding | plain => exact ih _

theorem takenUp_eq_nil {bs : List Block} (h : bs.IsChain Block.Apart) : takenUp false bs = [] := by
  induction bs with
  | nil => rfl
  | cons b bs ih =>
    obtain ⟨hbelow, hrest⟩ := List.isChain_cons.mp h
    have hnone := ih hrest
    cases b with
    | statement first more names =>
      cases bs with
      | nil => rfl
      | cons c bs =>
        have hc : c.isLoose = false := hbelow c rfl rfl
        rw [takenUp_cons hc] at hnone
        exact (takenUp_cons hc true bs).trans hnone
    | loose | binding | plain => exact hnone

section

variable {s : Snapshot} {bs : List Block}

/-- Blocks that are in line with a snapshot stay so when they come together if and only if it wants
what statements take up. -/
theorem forall_isKept_join_iff (h : ∀ b ∈ bs, b.IsKept s) :
    ((∀ b ∈ bs.foldr Block.join [], b.IsKept s) ↔ ∀ n ∈ takenUp false bs, n ∈ s.all)
      ∧ ∀ first more names, (∀ b ∈ Block.absorb first more names (bs.foldr Block.join []),
        b.IsKept s) ↔ (∀ n ∈ names, n ∈ s.all) ∧ ∀ n ∈ takenUp true bs, n ∈ s.all := by
  -- a statement on top makes the second of the first, a block of another kind the first of the second
  induction bs with
  | nil => simp [takenUp, Block.absorb, Block.IsKept]
  | cons b bs ih =>
    obtain ⟨hb, hrest⟩ := List.forall_mem_cons.mp h
    obtain ⟨hjoin, habsorb⟩ := ih hrest
    cases b with
    | statement first more names =>
      have hnames : (∀ b ∈ Block.absorb first more names (bs.foldr Block.join []), b.IsKept s)
          ↔ ∀ n ∈ takenUp true bs, n ∈ s.all :=
        (habsorb first more names).trans (and_iff_right hb)
      refine ⟨hnames, fun first' more' names' => ?_⟩
      rw [List.foldr_cons, Block.join, Block.absorb_of_not_loose first' more' names' ?_,
        List.forall_mem_cons]
      · exact and_congr_right fun _ => hnames
      · exact Block.isLoose_head?_absorb first more names _
    | loose line names =>
      refine ⟨by simpa [takenUp, Block.join, Block.IsKept] using hjoin, fun first' more' names' => ?_⟩
      refine (habsorb first' (more' ++ [line]) (names' ++ names)).trans ?_
      simp only [takenUp, if_pos, List.forall_mem_append, and_assoc]
    | binding | plain =>
      rw [List.foldr_cons, Block.join_of_not_statement rfl]
      refine ⟨List.forall_mem_cons.trans ((and_iff_right hb).trans hjoin), fun first' more' names' => ?_⟩
      rw [Block.absorb_of_not_loose first' more' names' (by simp [Block.isLoose]),
        List.forall_mem_cons, List.forall_mem_cons]
      exact and_congr_right fun _ => (and_iff_right hb).trans hjoin

/-! Blocks that come together register what each of them did. -/

theorem subset_names_absorb (first : String) (more names : List String) (bs : List Block) :
    names ++ bs.flatMap Block.names ⊆ (Block.absorb first more names bs).flatMap Block.names := by
  induction bs generalizing more names with
  | nil => simp [Block.absorb, Block.names]
  | cons b bs ih =>
    cases b with
    | loose line added =>
      refine List.Subset.trans ?_ (ih _ _)
      simp [Block.names]
    | statement | binding | plain => simp [Block.absorb, Block.names]

theorem binds_absorb (first : String) (more names : List String) (bs : List Block) :
    (Block.absorb first more names bs).flatMap Block.binds = bs.flatMap Block.binds := by
  induction bs generalizing more names with
  | nil => rfl
  | cons b bs ih =>
    cases b with
    | loose line added => exact ih _ _
    | statement | binding | plain => rfl

theorem subset_names_join (bs : List Block) :
    bs.flatMap Block.names ⊆ (bs.foldr Block.join []).flatMap Block.names := by
  induction bs with
  | nil => simp
  | cons b bs ih =>
    rw [List.flatMap_cons, List.foldr_cons]
    have happend : b.names ++ bs.flatMap Block.names
        ⊆ b.names ++ (bs.foldr Block.join []).flatMap Block.names :=
      fun n hn => List.mem_append.mpr ((List.mem_append.mp hn).imp_right (ih ·))
    cases b with
    | statement first more names => exact List.Subset.trans happend (subset_names_absorb ..)
    | loose | binding | plain => exact happend

theorem binds_join (bs : List Block) :
    (bs.foldr Block.join []).flatMap Block.binds = bs.flatMap Block.binds := by
  induction bs with
  | nil => rfl
  | cons b bs ih =>
    rw [List.flatMap_cons, List.foldr_cons]
    cases b with
    | statement first more names => exact (binds_absorb ..).trans ih
    | loose | binding | plain => exact congrArg (_ ++ ·) ih

theorem InLine.additions_eq_nil (h : InLine s bs) (ending : String) :
    additions s (bs.foldr Block.join []) ending = [] := by
  rw [additions_eq, List.flatMap_eq_nil_iff]
  refine fun n hn => missing_eq_nil_iff.mpr ⟨subset_names_join bs (h.named n hn), fun hsome => ?_⟩
  rw [binds_join]
  exact h.bound n hsome

/-- An edit of lines that are in line block by block changes them only where a statement took up a
name that is not wanted. -/
theorem InLine.reconcile_eq_self_iff (h : InLine s bs) (hs : s.Writable IsUnbroken) :
    reconcile (bs.flatMap Block.lines) s = bs.flatMap Block.lines
      ↔ ∀ n ∈ takenUp false bs, n ∈ s.all := by
  have hblocks := blocks_flatMap_lines h.cut
  rw [Settings.reconcile_eq_self_iff hs (by rw [hblocks, h.additions_eq_nil]), hblocks]
  exact (forall_isKept_join_iff h.kept).1

/-! Nothing that the snapshot wants is dropped. -/

theorem Block.revised?_of_isKept {b : Block} (h : b.IsKept s) : b.revised? s = some b := by
  cases b with
  | statement first more names =>
    rw [revised?, filter_contains_eq_self_iff.mpr h]
    exact if_pos rfl
  | binding line name path =>
    rw [revised?, show s.directory? name = some path from h, Option.map_some, if_pos rfl]
  | loose | plain => rfl

theorem isSome_revised?_absorb {n : String} {names : List String} (hn : n ∈ names)
    (hall : n ∈ s.all) (first : String) (more : List String)
    (hbs : ∀ b ∈ bs, (b.revised? s).isSome = true) :
    ∀ b ∈ Block.absorb first more names bs, (b.revised? s).isSome = true := by
  induction bs generalizing more names with
  | nil =>
    obtain ⟨c, hc, -⟩ :=
      Block.exists_revised?_of_mem_names (b := .statement first more names) hn hall
    simp [Block.absorb, hc]
  | cons b bs ih =>
    cases b with
    | loose line added => exact ih (List.mem_append_left _ hn) _ (List.forall_mem_cons.mp hbs).2
    | statement | binding | plain =>
      obtain ⟨c, hc, -⟩ :=
        Block.exists_revised?_of_mem_names (b := .statement first more names) hn hall
      exact List.forall_mem_cons.mpr ⟨by simp [hc], hbs⟩

theorem isSome_revised?_join (hcut : ∀ b ∈ bs, b.IsCut) (hkept : ∀ b ∈ bs, b.IsKept s) :
    ∀ b ∈ bs.foldr Block.join [], (b.revised? s).isSome = true := by
  induction bs with
  | nil => simp
  | cons b bs ih =>
    obtain ⟨hb, hcut⟩ := List.forall_mem_cons.mp hcut
    obtain ⟨hwanted, hkept⟩ := List.forall_mem_cons.mp hkept
    have hrest := ih hcut hkept
    rw [List.foldr_cons]
    by_cases hstatement : b.isStatement = true
    · cases b with
      | statement first more names =>
        obtain ⟨opened, added, hopened, -, rfl⟩ := hb
        obtain ⟨n, hn⟩ := List.exists_mem_of_ne_nil _ (Block.linePieces_of_openingNames? hopened).1
        have hmem : n ∈ opened ++ added.flatten := List.mem_append_left _ hn
        exact isSome_revised?_absorb hmem (hwanted n hmem) first more hrest
      | loose | binding | plain => cases hstatement
    · rw [Block.join_of_not_statement (by simpa using hstatement)]
      exact List.forall_mem_cons.mpr ⟨by simp [Block.revised?_of_isKept hwanted], hrest⟩

theorem takenUp_filterMap_revised? (h : ∀ b ∈ bs, (b.revised? s).isSome = true) (below : Bool) :
    takenUp below (bs.filterMap (Block.revised? s)) = takenUp below bs := by
  induction bs generalizing below with
  | nil => rfl
  | cons b bs ih =>
    obtain ⟨hb, hrest⟩ := List.forall_mem_cons.mp h
    obtain ⟨c, hc⟩ := Option.isSome_iff_exists.mp hb
    obtain ⟨hstatement, hloose, -⟩ := Block.of_revised? hc
    rw [List.filterMap_cons_some hc]
    cases b with
    | loose line names => cases hc; exact congrArg (_ ++ ·) (ih hrest below)
    | statement | binding | plain =>
      rw [takenUp_cons hloose, takenUp_cons rfl, hstatement]
      exact ih hrest _

end

/-! ### Edits one after the other -/

theorem flatMap_lines_filterMap_revised? (s : Snapshot) (bs : List Block) :
    (bs.filterMap (Block.revised? s)).flatMap Block.lines = bs.flatMap (Block.edited s) := by
  induction bs with
  | nil => rfl
  | cons b bs ih =>
    rw [List.filterMap_cons, List.flatMap_cons, Block.edited_eq, ← ih]
    cases b.revised? s <;> rfl

/-- A block of empty lines is not one that a statement takes up. -/
theorem Block.isLoose_of_lines {b : Block} (hb : b.IsCut) (h : ∀ line ∈ b.lines, line = "") :
    b.isLoose = false := by
  cases b with
  | loose line names =>
    obtain rfl := h line (List.mem_singleton_self _)
    exact absurd (hb.2.symm.trans continuationNames?_empty) (by simp)
  | statement | binding | plain => rfl

section

variable {start : List String} {s : Snapshot} (h : Edited start s) (lines : List String)

include h

theorem of_mem_addedBlocks {bs : List Block} {ending : String}
    (hending : ∀ c ∈ ending.toList, isBlank c = true) :
    ∀ b ∈ addedBlocks s bs ending, b.IsCut ∧ b.IsKept s ∧ b.isLoose = false := by
  intro b hb
  obtain ⟨n, hn, hb⟩ := List.mem_flatMap.mp hb
  have hname := h.writable.name n hn
  rcases of_mem_missingBlocks bs ending n _ hb with rfl | ⟨path, hpath, rfl⟩
  · refine ⟨⟨[n], [], openingNames?_registration hname hending, rfl, rfl⟩, ?_, rfl⟩
    exact fun m hm => List.mem_singleton.mp hm ▸ hn
  · refine ⟨?_, hpath, rfl⟩
    exact bindingOf?_of_directoryStatement (a := []) hname (h.writable.directory n path hpath).2
      (by simp) hending (by simp)

theorem of_mem_revised : ∀ c ∈ (blocks lines).filterMap (Block.revised? s),
    c.IsCut ∧ c.IsKept s := by
  intro c hc
  obtain ⟨b, hb, hc⟩ := List.mem_filterMap.mp hc
  exact ⟨Block.isCut_revised? h.writable ((isDivision_blocks lines).cut b hb) hc,
    (Block.of_revised? hc).2.2⟩

/-- What is left of the blocks of a file and what is added are in line, in any order. -/
theorem inLine_of_mem_iff {bs : List Block}
    (hbs : ∀ b, b ∈ bs ↔ b ∈ (blocks lines).filterMap (Block.revised? s)
      ∨ b ∈ addedBlocks s (blocks lines) (fileEnding lines)) : InLine s bs where
  cut b hb := ((hbs b).mp hb).elim (fun hb => (of_mem_revised h lines b hb).1)
    fun hb => (of_mem_addedBlocks h (fun _ => isBlank_of_mem_fileEnding) b hb).1
  kept b hb := ((hbs b).mp hb).elim (fun hb => (of_mem_revised h lines b hb).2)
    fun hb => (of_mem_addedBlocks h (fun _ => isBlank_of_mem_fileEnding) b hb).2.1
  named n hn := by
    rw [List.mem_flatMap]
    by_cases hnamed : n ∈ (blocks lines).flatMap Block.names
    · obtain ⟨b, hb, hmem⟩ := List.mem_flatMap.mp hnamed
      obtain ⟨c, hc, hmem⟩ := Block.exists_revised?_of_mem_names hmem hn
      exact ⟨c, (hbs c).mpr (.inl (List.mem_filterMap.mpr ⟨b, hb, hc⟩)), hmem⟩
    · obtain ⟨b, hb, hmem⟩ := exists_addedBlocks_of_names hn (fileEnding lines) hnamed
      exact ⟨b, (hbs b).mpr (.inr hb), hmem⟩
  bound n hsome := by
    rw [List.map_flatMap, List.mem_flatMap]
    by_cases hbound : n ∈ ((blocks lines).flatMap Block.binds).map Prod.fst
    · rw [List.map_flatMap] at hbound
      obtain ⟨b, hb, hmem⟩ := List.mem_flatMap.mp hbound
      obtain ⟨c, hc, hmem⟩ := Block.exists_revised?_of_mem_binds hmem hsome
      exact ⟨c, (hbs c).mpr (.inl (List.mem_filterMap.mpr ⟨b, hb, hc⟩)), hmem⟩
    · obtain ⟨path, hpath⟩ := Option.isSome_iff_exists.mp hsome
      have hn := (h.writable.directory n path hpath).1
      obtain ⟨b, hb, hmem⟩ := exists_addedBlocks_of_binds hn (fileEnding lines) hsome hbound
      exact ⟨b, (hbs b).mpr (.inr hb), hmem⟩

/-- What an edit writes is in line, block by block. -/
theorem exists_inLine : ∃ bs, InLine s bs ∧ reconcile lines s = bs.flatMap Block.lines
    ∧ takenUp false bs = takenUp false ((blocks lines).filterMap (Block.revised? s)) := by
  obtain ⟨above, below, hblocks, hbelow, hreconcile⟩ := exists_edit_between lines s
  have hrevised : (blocks lines).filterMap (Block.revised? s)
      = above.filterMap (Block.revised? s) ++ below.filterMap (Block.revised? s) := by
    rw [hblocks, List.filterMap_append]
  have hbetween : ∀ c ∈ below.filterMap (Block.revised? s), c.isLoose = false := fun c hc => by
    refine Block.isLoose_of_lines (of_mem_revised h lines c ?_).1 fun line hline => ?_
    · exact hrevised ▸ List.mem_append_right _ hc
    · have hmem : line ∈ below.flatMap (Block.edited s) := by
        rw [← flatMap_lines_filterMap_revised?]
        exact List.mem_flatMap.mpr ⟨c, hc, hline⟩
      rcases hbelow with hnil | hempty
      · rw [hnil] at hmem; cases hmem
      · rw [hempty] at hmem; exact List.mem_singleton.mp hmem
  refine ⟨above.filterMap (Block.revised? s) ++ (addedBlocks s (blocks lines) (fileEnding lines)
    ++ below.filterMap (Block.revised? s)), inLine_of_mem_iff h lines fun b => ?_, ?_, ?_⟩
  · rw [hrevised, List.mem_append, List.mem_append, List.mem_append, or_assoc]
    exact or_congr_right or_comm
  · rw [hreconcile, ← flatMap_lines_addedBlocks]
    simp only [List.flatMap_append, flatMap_lines_filterMap_revised?, List.append_assoc]
  · rw [hrevised, takenUp_append hbetween, takenUp_append]
    refine List.forall_mem_append.mpr ⟨fun b hb => ?_, hbetween⟩
    exact (of_mem_addedBlocks h (fun _ => isBlank_of_mem_fileEnding) b hb).2.2

end

/-- To edit again what an edit wrote changes nothing if and only if the snapshot wants every project
that a statement takes up from a line that came to stand directly below it, because what stood
between them was dropped. To edit a third time never changes anything. -/
theorem reconcile_reconcile_iff {start lines : List String} {s : Snapshot} (h : Edited start s) :
    (reconcile (reconcile lines s) s = reconcile lines s
        ↔ ∀ n ∈ takenUp false ((blocks lines).filterMap (Block.revised? s)), n ∈ s.all)
      ∧ reconcile (reconcile (reconcile lines s) s) s = reconcile (reconcile lines s) s := by
  obtain ⟨bs, hbs, hlines, htaken⟩ := exists_inLine h lines
  constructor
  · rw [hlines, hbs.reconcile_eq_self_iff h.writable.unbroken, htaken]
  · obtain ⟨cs, hcs, hagain, hnone⟩ := exists_inLine h (reconcile lines s)
    have hblocks : blocks (reconcile lines s) = bs.foldr Block.join [] := by
      rw [hlines, blocks_flatMap_lines hbs.cut]
    have hnil : takenUp false cs = [] := by
      rw [hnone, hblocks, takenUp_filterMap_revised? (isSome_revised?_join hbs.cut hbs.kept),
        ← hblocks]
      exact takenUp_eq_nil (isDivision_blocks _).apart
    rw [hagain, hcs.reconcile_eq_self_iff h.writable.unbroken, hnil]
    simp

/-- A stray name that is wanted may join the statement above it. -/
theorem reconcile_reconcile_wanted :
    let lines := ["include ':a'", "project(':gone').projectDir = new File('../gone')", "':b'"]
    let s := (({} : Snapshot).addInternal "a").addInternal "b"
    reconcile lines s = ["include ':a'", "':b'", "include ':b'"]
      ∧ reconcile (reconcile lines s) s = reconcile lines s := by
  intro lines s
  have hs : Edited [] s := .addInternal (.addInternal .read (by decide)) (by decide)
  exact ⟨by decide, (reconcile_reconcile_iff hs).1.mpr (by decide)⟩

/-- To drop what stands between a statement and a stray name registers the name, and the next edit
takes it out again. -/
theorem reconcile_reconcile_ne :
    let lines := ["include ':a'", "project(':gone').projectDir = new File('../gone')", "':b'"]
    let s := ({} : Snapshot).addInternal "a"
    reconcile lines s = ["include ':a'", "':b'"]
      ∧ (Snapshot.ofLines (reconcile lines s)).all = ["a", "b"]
      ∧ reconcile (reconcile lines s) s = ["include ':a'"] := by
  decide

end Inclusion.Settings
