import Inclusion.Proofs.Settings.Writing
import Mathlib.Data.List.Basic

/-!
# What an edited settings file says

The editor sees blocks where the reader sees pieces. A file that is brought in line with a snapshot
registers every project of the snapshot, but the reader may find more in the lines that the editor
leaves alone: names after a comma that a statement left open still continues, and bindings that
stand among other pieces of a line. The file says just what the snapshot says if and only if no such
name is new and no such binding wins.

* `flatMap_linePieces_reconcile`: the pieces of an edited file.
* `mem_internal_reconcile`, `mem_all_reconcile`, `directory?_reconcile`: what they register.
* `reads_back_iff`: when an edited file reads back as the snapshot.
-/
namespace Inclusion.Settings

open Text

/-! ### Snapshots that can be written -/

/-- Whether the names of a snapshot can be written, all bound names are listed, and every directory
passes a test. -/
structure Snapshot.Writable (s : Snapshot) (fits : String → Prop) : Prop where
  name : ∀ n ∈ s.all, IsProject n
  directory : ∀ n p, s.directory? n = some p → n ∈ s.all ∧ fits p

section

variable {s : Snapshot} {fits : String → Prop}

theorem Snapshot.Writable.mono {fits' : String → Prop} (h : s.Writable fits)
    (hfits : ∀ p, fits p → fits' p) : s.Writable fits' where
  name := h.name
  directory n p hp := (h.directory n p hp).imp_right (hfits p)

theorem Snapshot.Writable.unbroken (h : s.Writable IsDirectory) : s.Writable IsUnbroken :=
  h.mono fun _ => IsDirectory.isUnbroken

theorem Snapshot.Writable.oneLine (h : s.Writable IsUnbroken) : s.Writable IsOneLine :=
  h.mono fun _ => And.right

end

/-- The snapshots that edits make of what lines say. -/
inductive Edited (lines : List String) : Snapshot → Prop
  | read : Edited lines (.ofLines lines)
  | addInternal {s : Snapshot} (h : Edited lines s) {name : String} (hname : IsProject name) :
    Edited lines (s.addInternal name)
  | addExternal {s : Snapshot} (h : Edited lines s) {name path : String} (hname : IsProject name)
    (hpath : IsDirectory path) : Edited lines (s.addExternal name path)
  | remove {s : Snapshot} (h : Edited lines s) (name : String) : Edited lines (s.remove name)

theorem isProject_of_named {continuing : Bool} {ps : List Piece} (hps : ∀ p ∈ ps, p.IsWritable)
    {n : String} (h : n ∈ named continuing ps) : IsProject n := by
  induction ps generalizing continuing with
  | nil => simp [named] at h
  | cons p ps ih =>
    have hrest : ∀ {continuing}, n ∈ named continuing ps → IsProject n :=
      ih fun q hq => hps q (List.mem_cons_of_mem _ hq)
    have hp := hps p (List.mem_cons_self ..)
    cases p with
    | bareName name =>
      cases continuing with
      | true => exact (List.mem_cons.mp h).elim (· ▸ hp) hrest
      | false => exact hrest h
    | opening name =>
      simp only [named, List.mem_cons] at h
      exact h.elim (· ▸ hp) hrest
    | blank => exact hrest (by simpa [named] using h)
    | binding => exact hrest (by simpa [named] using h)
    | other => exact hrest (by simpa [named] using h)

theorem binding_mem_of_bound {ps : List Piece} {n path : String} (h : (n, path) ∈ bound ps) :
    .binding n path ∈ ps := by
  obtain ⟨p, hp, hmem⟩ := List.mem_flatMap.mp h
  cases p <;> simp_all [Piece.bindings]

theorem isWritable_of_mem_linePieces {line : String} {p : Piece} (h : p ∈ linePieces line) :
    p.IsWritable := by
  obtain ⟨cs, -, rfl⟩ := List.mem_map.mp (List.mem_filter.mp h).1
  exact isWritable_ofChars cs

/-- Projects are registered by being named or by being bound. -/
theorem mem_all_ofLines_iff {lines : List String} {n : String} :
    n ∈ (Snapshot.ofLines lines).all ↔ n ∈ (Snapshot.ofLines lines).internal
      ∨ ((Snapshot.ofLines lines).directory? n).isSome = true := by
  rw [mem_all_ofLines, mem_internal_ofLines, directory?_ofLines, NameMap.isSome_lookup_iff,
    List.map_reverse, List.mem_reverse]

theorem writable_ofLines (lines : List String) : (Snapshot.ofLines lines).Writable IsDirectory := by
  have hps : ∀ p ∈ lines.flatMap linePieces, p.IsWritable := fun p hp => by
    obtain ⟨line, -, hp⟩ := List.mem_flatMap.mp hp
    exact isWritable_of_mem_linePieces hp
  have hbound : ∀ n p, (Snapshot.ofLines lines).directory? n = some p →
      .binding n p ∈ lines.flatMap linePieces := fun n p h => by
    rw [directory?_ofLines, List.lookup_eq_some_iff] at h
    obtain ⟨before, after, heq, -⟩ := h
    exact binding_mem_of_bound (List.mem_reverse.mp (heq ▸ by simp))
  refine ⟨fun n hn => ?_, fun n p hp => ⟨?_, (hps _ (hbound n p hp)).2⟩⟩
  · rcases mem_all_ofLines_iff.mp hn with hn | hn
    · exact isProject_of_named hps ((mem_internal_ofLines lines n).mp hn)
    · obtain ⟨p, hp⟩ := Option.isSome_iff_exists.mp hn
      exact (hps _ (hbound n p hp)).1
  · exact mem_all_ofLines_iff.mpr (.inr (by simp [hp]))

theorem lookup_filter_ne (l : List (String × String)) (name n : String) :
    (l.filter (·.1 != name)).lookup n = if n = name then none else l.lookup n := by
  induction l with
  | nil => simp
  | cons b l ih =>
    rw [List.filter_cons, NameMap.lookup_cons]
    by_cases hb : b.1 = name
    · rw [if_neg (by simp [hb]), ih, hb]
      split <;> rfl
    · rw [if_pos (by simp [hb]), NameMap.lookup_cons, ih]
      by_cases hn : n = b.1
      · simp [hn, hb]
      · simp [hn]

theorem Snapshot.directory?_remove (s : Snapshot) (name n : String) :
    (s.remove name).directory? n = if n = name then none else s.directory? n :=
  lookup_filter_ne s.external name n

theorem Snapshot.directory?_addExternal (s : Snapshot) (name path n : String) :
    (s.addExternal name path).directory? n = if n = name then some path else s.directory? n :=
  lookup_bindTo s.external name path n

section

variable {s : Snapshot} {name path n p : String}

theorem Snapshot.of_directory?_addExternal (h : (s.addExternal name path).directory? n = some p) :
    n = name ∧ p = path ∨ s.directory? n = some p := by
  rw [directory?_addExternal] at h
  split at h
  next hn => exact .inl ⟨hn, (Option.some.inj h).symm⟩
  next => exact .inr h

theorem Snapshot.of_directory?_remove (h : (s.remove name).directory? n = some p) :
    n ≠ name ∧ s.directory? n = some p := by
  rw [directory?_remove] at h
  split at h
  next => cases h
  next hn => exact ⟨hn, h⟩

theorem Snapshot.mem_all_addExternal : n ∈ (s.addExternal name path).all ↔ n ∈ s.all ∨ n = name :=
  mem_addNew

theorem Snapshot.mem_all_remove : n ∈ (s.remove name).all ↔ n ∈ s.all ∧ n ≠ name := by
  simp [Snapshot.remove]

namespace Snapshot.Writable

variable {fits : String → Prop}

theorem addInternal (h : s.Writable fits) (hname : IsProject name) :
    (s.addInternal name).Writable fits where
  name n hn := (mem_addNew.mp hn).elim (h.name n) (· ▸ hname)
  directory n p hp := (h.directory n p hp).imp_left fun hmem => mem_addNew.mpr (.inl hmem)

theorem addExternal (h : s.Writable fits) (hname : IsProject name) (hpath : fits path) :
    (s.addExternal name path).Writable fits where
  name n hn := (mem_all_addExternal.mp hn).elim (h.name n) (· ▸ hname)
  directory n p hp := by
    rw [mem_all_addExternal]
    rcases of_directory?_addExternal hp with ⟨hn, rfl⟩ | hp
    · exact ⟨.inr hn, hpath⟩
    · exact (h.directory n p hp).imp_left .inl

theorem remove (h : s.Writable fits) (name : String) : (s.remove name).Writable fits where
  name n hn := h.name n (mem_all_remove.mp hn).1
  directory n p hp := by
    obtain ⟨hn, hp⟩ := of_directory?_remove hp
    exact (h.directory n p hp).imp_left fun hmem => mem_all_remove.mpr ⟨hmem, hn⟩

end Snapshot.Writable

end

theorem Edited.writable {lines : List String} {s : Snapshot} (h : Edited lines s) :
    s.Writable IsDirectory := by
  induction h with
  | read => exact writable_ofLines lines
  | addInternal _ hname ih => exact ih.addInternal hname
  | addExternal _ hname hpath ih => exact ih.addExternal hname hpath
  | remove _ name ih => exact ih.remove name

/-! ### Blocks -/

namespace Block

/-- Whether the pieces of a block are what the block says they are. -/
def IsRead : Block → Prop
  | statement first more names =>
    names ≠ [] ∧ linePieces first ++ more.flatMap linePieces = includePieces names
  | loose line names => linePieces line = names.map .bareName
  | binding line name path => linePieces line = [.binding name path]
  | plain _ => True

theorem eq_map_of_mapM_bareName? {ps : List Piece} {names : List String}
    (h : ps.mapM Piece.bareName? = some names) : ps = names.map .bareName := by
  induction ps generalizing names with
  | nil => simp_all
  | cons p ps ih =>
    rw [List.mapM_cons] at h
    simp only [Option.bind_eq_bind, Option.bind_eq_some_iff, Option.pure_def,
      Option.some.injEq] at h
    obtain ⟨name, hname, rest, hrest, rfl⟩ := h
    cases p <;> simp_all [Piece.bareName?]

theorem linePieces_of_openingNames? {line : String} {names : List String}
    (h : openingNames? line = some names) :
    names ≠ [] ∧ linePieces line = includePieces names := by
  unfold openingNames? at h
  split at h
  next name more hpieces =>
    obtain ⟨rest, hrest, rfl⟩ := Option.map_eq_some_iff.mp h
    exact ⟨by simp, by rw [hpieces, eq_map_of_mapM_bareName? hrest]; rfl⟩
  next => cases h

theorem linePieces_of_continuationNames? {line : String} {names : List String}
    (h : continuationNames? line = some names) : linePieces line = names.map .bareName := by
  unfold continuationNames? at h
  split at h
  next => cases h
  next => exact eq_map_of_mapM_bareName? h

theorem linePieces_of_bindingOf? {line name path : String}
    (h : bindingOf? line = some (name, path)) : linePieces line = [.binding name path] := by
  unfold bindingOf? at h
  split at h
  next hpiece =>
    cases h
    exact linePieces_of_piece (comma_not_mem_of_binding hpiece) hpiece nofun
  next => cases h

theorem isRead_ofLine (line : String) : (ofLine line).IsRead := by
  unfold ofLine
  split
  next hnames => exact linePieces_of_continuationNames? hnames
  next =>
    split
    next hbinding => exact linePieces_of_bindingOf? hbinding
    next => trivial

theorem isRead_absorb {first : String} {more names : List String} {bs : List Block}
    (hne : names ≠ [])
    (hnames : linePieces first ++ more.flatMap linePieces = includePieces names)
    (hbs : ∀ b ∈ bs, b.IsRead) : ∀ b ∈ absorb first more names bs, b.IsRead := by
  induction bs generalizing more names with
  | nil => simpa [absorb] using ⟨hne, hnames⟩
  | cons b bs ih =>
    have hb := hbs b (List.mem_cons_self ..)
    have hrest : ∀ b ∈ bs, b.IsRead := fun b hb => hbs b (List.mem_cons_of_mem _ hb)
    have hstatement : (statement first more names).IsRead := ⟨hne, hnames⟩
    cases b with
    | loose line added =>
      refine ih (by simp [hne]) ?_ hrest
      obtain ⟨name, names, rfl⟩ := List.exists_cons_of_ne_nil hne
      rw [List.flatMap_append, ← List.append_assoc, hnames, List.flatMap_singleton,
        show linePieces line = added.map .bareName from hb]
      simp [includePieces]
    | statement => exact List.forall_mem_cons.mpr ⟨hstatement, hbs⟩
    | binding => exact List.forall_mem_cons.mpr ⟨hstatement, hbs⟩
    | plain => exact List.forall_mem_cons.mpr ⟨hstatement, hbs⟩

theorem isRead_of_mem_blocks {lines : List String} : ∀ b ∈ blocks lines, b.IsRead := by
  induction lines with
  | nil => simp [blocks]
  | cons line lines ih =>
    rw [blocks, List.foldr_cons, ← blocks, Block.cons]
    split
    next names hnames =>
      obtain ⟨hne, hpieces⟩ := linePieces_of_openingNames? hnames
      exact isRead_absorb hne (by simpa using hpieces) ih
    next => exact List.forall_mem_cons.mpr ⟨isRead_ofLine line, ih⟩

/-! ### The pieces of an edited file -/

/-- What the edited lines of a block say. -/
def editedPieces (s : Snapshot) : Block → List Piece
  | statement _ _ names => includePieces (names.filter s.contains)
  | loose line _ => linePieces line
  | binding _ name _ =>
    match s.directory? name with
    | none => []
    | some wanted => [directoryPiece name wanted]
  | plain line => linePieces line

theorem flatMap_linePieces_edited {s : Snapshot} (hs : s.Writable IsUnbroken) {b : Block}
    (hb : b.IsRead) :
    (b.edited s).flatMap linePieces = b.editedPieces s := by
  cases b with
  | statement first more names =>
    obtain ⟨hne, hnames⟩ := hb
    simp only [edited, editedPieces]
    split
    next hlength =>
      have hall : names.filter s.contains = names :=
        (List.filter_sublist).eq_of_length hlength
      rw [hall, List.flatMap_cons, hnames]
    next =>
      split
      next hnil => rw [hnil]; rfl
      next hkept =>
        have hproject : ∀ n ∈ names.filter s.contains, IsProject n := fun n hn =>
          hs.name n (mem_all_of_mem_filter hn)
        rw [List.flatMap_singleton, linePieces_restate_includeStatement first hproject hkept]
  | loose line names => simp [edited, editedPieces]
  | binding line name path =>
    simp only [edited, editedPieces]
    cases hwanted : s.directory? name with
    | none => rfl
    | some wanted =>
      obtain ⟨hmem, hcomma, -⟩ := hs.directory name wanted hwanted
      dsimp only
      split
      next heq =>
        have hread : linePieces line = [.binding name path] := hb
        have hpiece : .binding name path ∈ linePieces line := hread ▸ List.mem_singleton_self _
        have hpath : IsDirectory path := (isWritable_of_mem_linePieces hpiece).2
        rw [List.flatMap_singleton, heq, hread, directoryPiece, if_pos hpath]
      next =>
        rw [List.flatMap_singleton]
        exact linePieces_restate_directoryStatement line (hs.name name hmem) hcomma
  | plain line => simp [edited, editedPieces]

end Block

/-- What the lines that are added for a project say. -/
def addedPieces (s : Snapshot) (bs : List Block) (name : String) : List Piece :=
  (if name ∈ bs.flatMap (Block.keptNames s) then [] else [.opening name])
    ++ match s.directory? name with
      | none => []
      | some path =>
        if name ∈ bs.flatMap (Block.boundNames s) then [] else [directoryPiece name path]

theorem isBlank_of_mem_fileEnding {lines : List String} {c : Char}
    (h : c ∈ (fileEnding lines).toList) : isBlank c = true := by
  unfold fileEnding at h
  split at h
  · have : c = '\r' := by simpa using h
    exact this ▸ rfl
  · simp at h

theorem flatMap_linePieces_additions {s : Snapshot} (hs : s.Writable IsUnbroken) (bs : List Block)
    {ending : String} (hending : ∀ c ∈ ending.toList, isBlank c = true) :
    (additions s bs ending).flatMap linePieces = s.all.flatMap (addedPieces s bs) := by
  rw [additions, List.flatMap_assoc]
  refine List.flatMap_congr fun name hname => ?_
  have hproject := hs.name name hname
  rw [List.flatMap_append, addedPieces]
  congr 1
  · split
    · rfl
    · rw [List.flatMap_singleton, linePieces_includeStatement (a := []) [name]
        (by simpa using hproject) (by simp) hending (by simp) (by simp)]
      rfl
  · cases hpath : s.directory? name with
    | none => rfl
    | some path =>
      dsimp only
      split
      · rfl
      · rw [List.flatMap_singleton, linePieces_directoryStatement (a := []) hproject
          (hs.directory name path hpath).2.1 (by simp) hending (by simp)]

theorem linePieces_empty : linePieces "" = [] := by decide

theorem flatMap_linePieces_appendLines (lines added : List String) :
    (appendLines lines added).flatMap linePieces
      = lines.flatMap linePieces ++ added.flatMap linePieces := by
  unfold appendLines
  split
  next hlast =>
    obtain ⟨before, rfl⟩ := List.getLast?_eq_some_iff.mp hlast
    simp [linePieces_empty]
  next => exact List.flatMap_append

/-- The pieces of an edited file are those of the edited blocks and of what is added to them. -/
theorem flatMap_linePieces_reconcile {s : Snapshot} (hs : s.Writable IsUnbroken)
    (lines : List String) :
    (reconcile lines s).flatMap linePieces
      = (blocks lines).flatMap (Block.editedPieces s)
        ++ s.all.flatMap (addedPieces s (blocks lines)) := by
  rw [reconcile, flatMap_linePieces_appendLines, List.flatMap_assoc,
    flatMap_linePieces_additions hs _ fun _ => isBlank_of_mem_fileEnding]
  congr 1
  exact List.flatMap_congr fun b hb =>
    Block.flatMap_linePieces_edited hs (Block.isRead_of_mem_blocks b hb)

/-! ### What the lines left alone say -/

/-- The names that are found in the lines that the editor leaves alone, given whether a statement is
open in the edited file. -/
def leftNames (s : Snapshot) : Bool → List Block → List String
  | _, [] => []
  | continuing, .statement _ _ names :: bs => leftNames s (continuing || names.any s.contains) bs
  | continuing, .binding _ name _ :: bs => leftNames s (continuing && (s.directory? name).isNone) bs
  | continuing, .loose line _ :: bs =>
    named continuing (linePieces line) ++ leftNames s (openAfter continuing (linePieces line)) bs
  | continuing, .plain line :: bs =>
    named continuing (linePieces line) ++ leftNames s (openAfter continuing (linePieces line)) bs

/-- The bindings in the edited lines of a block. -/
def Block.bindings (s : Snapshot) : Block → List (String × String)
  | statement _ _ _ => []
  | loose line _ => bound (linePieces line)
  | binding _ name _ =>
    match s.directory? name with
    | none => []
    | some wanted => (directoryPiece name wanted).bindings
  | plain line => bound (linePieces line)

/-- The directory that the last binding of a name in the edited lines gives. -/
def lastBinding? (s : Snapshot) (bs : List Block) (n : String) : Option String :=
  (bs.flatMap (Block.bindings s)).reverse.lookup n

theorem named_bareNames (names : List String) (ps : List Piece) :
    named true (names.map .bareName ++ ps) = names ++ named true ps := by
  induction names with
  | nil => rfl
  | cons name names ih => simp [named, ih]

theorem named_includePieces (continuing : Bool) (names : List String) (ps : List Piece) :
    named continuing (includePieces names ++ ps)
      = names ++ named (continuing || !names.isEmpty) ps := by
  cases names with
  | nil => simp [includePieces]
  | cons name names => simp [includePieces, named, named_bareNames]

theorem named_directoryPiece (continuing : Bool) (name path : String) (ps : List Piece) :
    named continuing (directoryPiece name path :: ps) = named false ps := by
  unfold directoryPiece
  split <;> simp [named]

theorem bound_singleton (p : Piece) : bound [p] = p.bindings := by
  simp [bound]

theorem bindings_directoryPiece {path : String} (h : IsDirectory path) (name : String) :
    (directoryPiece name path).bindings = [(name, path)] := by
  rw [directoryPiece, if_pos h]
  rfl

theorem bound_includePieces (names : List String) : bound (includePieces names) = [] := by
  cases names with
  | nil => rfl
  | cons name names => simp [includePieces, bound, Piece.bindings]

/-- The names in the edited blocks are those that were kept and those that were left. -/
theorem mem_named_blocks (s : Snapshot) (continuing : Bool) (bs : List Block) (n : String) :
    n ∈ named continuing (bs.flatMap (Block.editedPieces s))
      ↔ n ∈ bs.flatMap (Block.keptNames s) ∨ n ∈ leftNames s continuing bs := by
  induction bs generalizing continuing with
  | nil => simp [named, leftNames]
  | cons b bs ih =>
    rw [List.flatMap_cons, List.flatMap_cons]
    cases b with
    | statement first more names =>
      have hany : (!(names.filter s.contains).isEmpty) = names.any s.contains := by
        rw [Bool.eq_iff_iff]
        simp
      rw [Block.editedPieces, named_includePieces, hany, List.mem_append, ih, leftNames,
        Block.keptNames, List.mem_append, or_assoc]
    | loose line names =>
      have hkept : (Block.loose line names).keptNames s = [] := rfl
      rw [Block.editedPieces, named_append, List.mem_append, ih, leftNames, hkept,
        List.nil_append, List.mem_append, or_left_comm]
    | binding line name path =>
      have hkept : (Block.binding line name path).keptNames s = [] := rfl
      rw [leftNames, hkept, List.nil_append, Block.editedPieces]
      cases s.directory? name with
      | none => simpa using ih continuing
      | some wanted => simpa [named_directoryPiece] using ih false
    | plain line =>
      have hkept : (Block.plain line).keptNames s = [] := rfl
      rw [Block.editedPieces, named_append, List.mem_append, ih, leftNames, hkept,
        List.nil_append, List.mem_append, or_left_comm]

theorem bound_blocks (s : Snapshot) (bs : List Block) :
    bound (bs.flatMap (Block.editedPieces s)) = bs.flatMap (Block.bindings s) := by
  rw [bound_flatMap]
  refine congrArg (bs.flatMap ·) (funext fun b => ?_)
  cases b with
  | statement first more names => exact bound_includePieces _
  | loose line names => rfl
  | binding line name path =>
    simp only [Block.editedPieces, Block.bindings]
    cases s.directory? name with
    | none => rfl
    | some wanted => exact bound_singleton _
  | plain line => rfl

theorem named_addedPieces (s : Snapshot) (bs : List Block) (continuing : Bool) (name : String)
    (ps : List Piece) :
    ∃ continuing', named continuing (addedPieces s bs name ++ ps)
      = (if name ∈ bs.flatMap (Block.keptNames s) then [] else [name]) ++ named continuing' ps := by
  unfold addedPieces
  split
  · cases s.directory? name with
    | none => exact ⟨continuing, rfl⟩
    | some path =>
      dsimp only
      split
      · exact ⟨continuing, rfl⟩
      · exact ⟨false, named_directoryPiece ..⟩
  · cases s.directory? name with
    | none => exact ⟨true, rfl⟩
    | some path =>
      dsimp only
      split
      · exact ⟨true, rfl⟩
      · exact ⟨false, congrArg (name :: ·) (named_directoryPiece ..)⟩

theorem mem_named_addedPieces (s : Snapshot) (bs : List Block) (continuing : Bool)
    (names : List String) (n : String) :
    n ∈ named continuing (names.flatMap (addedPieces s bs))
      ↔ n ∈ names ∧ n ∉ bs.flatMap (Block.keptNames s) := by
  induction names generalizing continuing with
  | nil => simp [named]
  | cons name names ih =>
    obtain ⟨continuing', hnamed⟩ := named_addedPieces s bs continuing name
      (names.flatMap (addedPieces s bs))
    rw [List.flatMap_cons, hnamed, List.mem_append, ih continuing', List.mem_cons]
    by_cases hn : n = name
    · subst hn
      by_cases hkept : n ∈ bs.flatMap (Block.keptNames s) <;> simp [hkept]
    · simp [hn]

theorem bound_addedPieces (s : Snapshot) (bs : List Block) (name : String) :
    bound (addedPieces s bs name)
      = if name ∈ bs.flatMap (Block.boundNames s) then []
        else (s.directory? name).toList.flatMap fun path =>
          (directoryPiece name path).bindings := by
  have hopening : bound (if name ∈ bs.flatMap (Block.keptNames s) then [] else [.opening name])
      = [] := by
    split <;> rfl
  rw [addedPieces, bound_append, hopening, List.nil_append]
  by_cases hbound : name ∈ bs.flatMap (Block.boundNames s)
  · cases s.directory? name <;> simp [hbound, bound]
  · cases s.directory? name <;> simp [hbound, bound]

theorem lookup_bound_addedPieces {s : Snapshot} (hs : s.Writable IsDirectory)
    (bs : List Block) (n : String) :
    (bound (s.all.flatMap (addedPieces s bs))).reverse.lookup n
      = if n ∈ bs.flatMap (Block.boundNames s) then none else s.directory? n := by
  have hmem : ∀ p, (n, p) ∈ (bound (s.all.flatMap (addedPieces s bs))).reverse
      ↔ (if n ∈ bs.flatMap (Block.boundNames s) then none else s.directory? n) = some p := by
    intro p
    rw [List.mem_reverse, bound_flatMap, List.mem_flatMap]
    simp only [bound_addedPieces]
    constructor
    · rintro ⟨name, -, hname⟩
      split at hname
      next => simp at hname
      next hbound =>
        obtain ⟨path, hpath, hmem⟩ := List.mem_flatMap.mp hname
        have hpath : s.directory? name = some path := by simpa using hpath
        rw [bindings_directoryPiece ((hs.directory name path hpath).2)] at hmem
        cases List.mem_singleton.mp hmem
        rw [if_neg hbound, hpath]
    · intro h
      split at h
      next => cases h
      next hbound =>
        refine ⟨n, (hs.directory n p h).1, ?_⟩
        rw [if_neg hbound, h]
        simp [bindings_directoryPiece ((hs.directory n p h).2)]
  cases hlookup : (bound (s.all.flatMap (addedPieces s bs))).reverse.lookup n with
  | some p =>
    rw [List.lookup_eq_some_iff] at hlookup
    obtain ⟨before, after, heq, -⟩ := hlookup
    exact ((hmem p).mp (heq ▸ by simp)).symm
  | none =>
    refine (Option.eq_none_iff_forall_ne_some.mpr fun p hp => ?_).symm
    have hbound := List.mem_map_of_mem (f := Prod.fst) ((hmem p).mpr hp)
    have hkey := NameMap.isSome_lookup_iff.mpr hbound
    simp [hlookup] at hkey

theorem mem_keptNames {s : Snapshot} {bs : List Block} {n : String}
    (h : n ∈ bs.flatMap (Block.keptNames s)) : n ∈ s.all := by
  obtain ⟨b, -, hn⟩ := List.mem_flatMap.mp h
  cases b <;> simp_all [Block.keptNames, Snapshot.contains]

/-- An edited file names the projects of the snapshot and those that were left. -/
theorem mem_internal_reconcile {s : Snapshot} (hs : s.Writable IsUnbroken) (lines : List String)
    (n : String) :
    n ∈ (Snapshot.ofLines (reconcile lines s)).internal
      ↔ n ∈ s.all ∨ n ∈ leftNames s false (blocks lines) := by
  rw [mem_internal_ofLines, flatMap_linePieces_reconcile hs, named_append, List.mem_append,
    mem_named_blocks, mem_named_addedPieces]
  have hkept : n ∈ (blocks lines).flatMap (Block.keptNames s) → n ∈ s.all := mem_keptNames
  grind

theorem isSome_lastBinding?_iff {s : Snapshot} {bs : List Block} {n : String} :
    (lastBinding? s bs n).isSome = true ↔ n ∈ (bs.flatMap (Block.bindings s)).map Prod.fst := by
  rw [lastBinding?, NameMap.isSome_lookup_iff, List.map_reverse, List.mem_reverse]

theorem mem_all_of_bound_addedPieces {s : Snapshot} {bs : List Block} {n : String}
    (h : n ∈ (bound (s.all.flatMap (addedPieces s bs))).map Prod.fst) : n ∈ s.all := by
  obtain ⟨b, hb, rfl⟩ := List.mem_map.mp h
  rw [bound_flatMap] at hb
  obtain ⟨name, hname, hb⟩ := List.mem_flatMap.mp hb
  rw [bound_addedPieces] at hb
  split at hb
  next => cases hb
  next =>
    obtain ⟨path, -, hb⟩ := List.mem_flatMap.mp hb
    rw [directoryPiece] at hb
    split at hb
    next => cases List.mem_singleton.mp hb; exact hname
    next => cases hb

/-- An edited file registers the projects of the snapshot, those that were left and those that the
edited lines bind. -/
theorem mem_all_reconcile {s : Snapshot} (hs : s.Writable IsUnbroken) (lines : List String)
    (n : String) :
    n ∈ (Snapshot.ofLines (reconcile lines s)).all
      ↔ n ∈ s.all ∨ n ∈ leftNames s false (blocks lines)
        ∨ (lastBinding? s (blocks lines) n).isSome = true := by
  rw [mem_all_ofLines, ← mem_internal_ofLines, mem_internal_reconcile hs,
    flatMap_linePieces_reconcile hs, bound_append, List.map_append, List.mem_append, bound_blocks,
    ← isSome_lastBinding?_iff]
  have hadded : n ∈ (bound (s.all.flatMap (addedPieces s (blocks lines)))).map Prod.fst →
      n ∈ s.all :=
    mem_all_of_bound_addedPieces
  grind

/-- An edited file binds the projects of the snapshot that no line bound before; otherwise the last
binding among the edited lines counts. -/
theorem directory?_reconcile {s : Snapshot} (hs : s.Writable IsDirectory)
    (lines : List String) (n : String) :
    (Snapshot.ofLines (reconcile lines s)).directory? n
      = (if n ∈ (blocks lines).flatMap (Block.boundNames s) then none else s.directory? n).or
          (lastBinding? s (blocks lines) n) := by
  rw [directory?_ofLines, flatMap_linePieces_reconcile hs.unbroken, bound_append,
    List.reverse_append, List.lookup_append, lookup_bound_addedPieces hs, bound_blocks,
    lastBinding?]

/-- A binding that the editor keeps or restates is among the edited lines. -/
theorem lastBinding?_of_boundNames {s : Snapshot} (hs : s.Writable IsDirectory) {bs : List Block}
    {n : String} (h : n ∈ bs.flatMap (Block.boundNames s)) :
    (s.directory? n).isSome = true ∧ (lastBinding? s bs n).isSome = true := by
  obtain ⟨b, hb, hn⟩ := List.mem_flatMap.mp h
  cases b with
  | binding line name path =>
    simp only [Block.boundNames] at hn
    split at hn
    next hsome =>
      obtain rfl := List.mem_singleton.mp hn
      obtain ⟨wanted, hwanted⟩ := Option.isSome_iff_exists.mp hsome
      refine ⟨hsome, NameMap.isSome_lookup_iff.mpr (List.mem_map.mpr ⟨(n, wanted), ?_, rfl⟩)⟩
      refine List.mem_reverse.mpr (List.mem_flatMap.mpr ⟨_, hb, ?_⟩)
      simp [Block.bindings, hwanted, bindings_directoryPiece ((hs.directory n wanted hwanted).2)]
    next => cases hn
  | statement => cases hn
  | loose => cases hn
  | plain => cases hn

theorem directory?_reconcile_eq_iff {s : Snapshot} (hs : s.Writable IsDirectory)
    (lines : List String) (n : String) :
    (Snapshot.ofLines (reconcile lines s)).directory? n = s.directory? n
      ↔ ∀ p, lastBinding? s (blocks lines) n = some p → s.directory? n = some p
        ∨ (s.directory? n).isSome = true ∧ n ∉ (blocks lines).flatMap (Block.boundNames s) := by
  rw [directory?_reconcile hs]
  by_cases hbound : n ∈ (blocks lines).flatMap (Block.boundNames s)
  · obtain ⟨-, hlast⟩ := lastBinding?_of_boundNames hs hbound
    obtain ⟨p, hp⟩ := Option.isSome_iff_exists.mp hlast
    rw [if_pos hbound, Option.none_or, hp]
    refine ⟨fun heq q hq => .inl (heq.symm.trans hq), fun hall => ?_⟩
    exact ((hall p rfl).resolve_right fun hnot => hnot.2 hbound).symm
  · cases hwanted : s.directory? n with
    | none => simp [hbound, Option.eq_none_iff_forall_ne_some]
    | some wanted => simp [hbound]

/-- An edited file reads back as the snapshot if and only if the lines that the editor leaves alone
name nothing new, and the last binding of a project among the edited lines is the wanted one unless
the wanted one is added behind it. -/
theorem reads_back_iff {lines : List String} {s : Snapshot} (h : Edited lines s) :
    ((∀ n, n ∈ (Snapshot.ofLines (reconcile lines s)).all ↔ n ∈ s.all)
        ∧ ∀ n, (Snapshot.ofLines (reconcile lines s)).directory? n = s.directory? n)
      ↔ (∀ n ∈ leftNames s false (blocks lines), n ∈ s.all)
        ∧ ∀ n p, lastBinding? s (blocks lines) n = some p → s.directory? n = some p
          ∨ (s.directory? n).isSome = true ∧ n ∉ (blocks lines).flatMap (Block.boundNames s) := by
  have hs := h.writable
  simp only [← directory?_reconcile_eq_iff hs]
  refine and_congr_left fun hdirectory => forall_congr' fun n => ?_
  rw [mem_all_ofLines_iff, mem_internal_reconcile hs.unbroken, hdirectory n]
  have hbound : (s.directory? n).isSome = true → n ∈ s.all := fun hsome => by
    obtain ⟨p, hp⟩ := Option.isSome_iff_exists.mp hsome
    exact (hs.directory n p hp).1
  grind

/-- A statement whose second line follows directly is edited as a whole. -/
theorem reads_back_adjacent :
    let lines := ["include ':app',", "        ':login'"]
    let s := (Snapshot.ofLines lines).remove "login"
    (∀ n, n ∈ (Snapshot.ofLines (reconcile lines s)).all ↔ n ∈ s.all)
      ∧ ∀ n, (Snapshot.ofLines (reconcile lines s)).directory? n = s.directory? n := by
  intro lines s
  refine (reads_back_iff (.remove .read "login")).mpr ⟨by decide, fun n p hlast => ?_⟩
  have hbindings : (blocks lines).flatMap (Block.bindings s) = [] := by decide
  rw [lastBinding?] at hlast
  change ((blocks lines).flatMap (Block.bindings s)).reverse.lookup n = some p at hlast
  rw [hbindings] at hlast
  cases hlast

/-- A blank line keeps a statement open for the reader but ends it for the editor: what was removed
is still registered. -/
theorem not_reads_back_blank :
    let lines := ["include ':app',", "", "        ':login'"]
    let s := (Snapshot.ofLines lines).remove "login"
    Edited lines s ∧ s.all = ["app"] ∧ reconcile lines s = lines
      ∧ (Snapshot.ofLines (reconcile lines s)).all = ["app", "login"] :=
  ⟨.remove .read "login", by decide, by decide, by decide⟩

end Inclusion.Settings
