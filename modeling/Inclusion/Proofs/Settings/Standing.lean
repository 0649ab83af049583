import Inclusion.Proofs.Settings.Division

/-!
# Writing back what was read

The editor knows the projects of a file by its blocks, the reader by its pieces. A project stands in
the file if both agree on it: some statement names it, and the bindings of it in the file are the one
that counts. An edit leaves a project that stands alone and writes about any other. So a snapshot that
was just read is written back without a change if and only if all its projects stand, and to register
or to drop one project changes no more than the lines about that project if and only if all others do.

* `additions_eq`: the added lines, project by project.
* `reconcile_eq_iff`: when an edit is a given one.
* `writes_back_iff`: when an edit changes no more than it has to.
-/
namespace Inclusion.Settings

open Text

/-! ### What the editor knows of a project -/

namespace Block

/-- The projects that a statement names. -/
def names : Block → List String
  | statement _ _ names => names
  | _ => []

/-- The project and the directory of a binding. -/
def binds : Block → List (String × String)
  | binding _ name path => [(name, path)]
  | _ => []

theorem concerns_iff {b : Block} {n : String} :
    b.Concerns n ↔ n ∈ b.names ∨ n ∈ b.binds.map Prod.fst := by
  cases b <;> simp [Concerns, names, binds]

variable {s : Snapshot} {b : Block}

theorem keptNames_eq : b.keptNames s = b.names.filter s.contains := by
  cases b <;> rfl

theorem mem_boundNames_iff {n : String} :
    n ∈ b.boundNames s ↔ n ∈ b.binds.map Prod.fst ∧ (s.directory? n).isSome = true := by
  cases b with
  | binding line name path =>
    simp only [boundNames, binds, List.map_singleton, List.mem_singleton]
    split
    next hsome => exact ⟨fun h => by simp_all, fun h => by simp [h.1]⟩
    next hnone => exact ⟨fun h => (List.not_mem_nil h).elim, fun h => absurd (h.1 ▸ h.2) hnone⟩
  | statement | loose | plain => simp [boundNames, binds]

end Block

/-- The lines to be added for a project with the given directory, if it has one. -/
def missing (bs : List Block) (ending n : String) (directory : Option String) : List String :=
  (if n ∈ bs.flatMap Block.names then [] else [includeStatement [n] ++ ending])
    ++ match directory with
      | none => []
      | some path =>
        if n ∈ (bs.flatMap Block.binds).map Prod.fst then []
        else [directoryStatement n path ++ ending]

/-- What is added, project by project. -/
theorem additions_eq (s : Snapshot) (bs : List Block) (ending : String) :
    additions s bs ending = s.all.flatMap fun n => missing bs ending n (s.directory? n) := by
  refine List.flatMap_congr fun n hn => ?_
  have hkept : n ∈ bs.flatMap (Block.keptNames s) ↔ n ∈ bs.flatMap Block.names := by
    simp only [List.mem_flatMap, Block.keptNames_eq, List.mem_filter]
    simp [Snapshot.contains, hn]
  have hbound : (s.directory? n).isSome = true →
      (n ∈ bs.flatMap (Block.boundNames s) ↔ n ∈ (bs.flatMap Block.binds).map Prod.fst) := by
    intro hsome
    rw [List.map_flatMap]
    simp [List.mem_flatMap, Block.mem_boundNames_iff, hsome]
  unfold missing
  cases hdirectory : s.directory? n with
  | none => simp only [hkept]
  | some path => simp only [hkept, hbound (by simp [hdirectory])]

theorem missing_eq_nil_iff {bs : List Block} {ending n : String} {directory : Option String} :
    missing bs ending n directory = [] ↔ n ∈ bs.flatMap Block.names
      ∧ (directory.isSome = true → n ∈ (bs.flatMap Block.binds).map Prod.fst) := by
  unfold missing
  rw [List.append_eq_nil_iff]
  refine and_congr (by simp) ?_
  cases directory with
  | none => simp
  | some path => simp

/-! ### Edits of the same length -/

theorem length_flatMap_le {α β : Type} {l : List α} {f g : α → List β}
    (h : ∀ a ∈ l, (f a).length ≤ (g a).length) : (l.flatMap f).length ≤ (l.flatMap g).length := by
  induction l with
  | nil => simp
  | cons a l ih =>
    obtain ⟨ha, hl⟩ := List.forall_mem_cons.mp h
    have := ih hl
    simp only [List.flatMap_cons, List.length_append]
    omega

/-- Where no part is longer than its counterpart, equal wholes have equal parts. -/
theorem flatMap_eq_flatMap_iff {α β : Type} {l : List α} {f g : α → List β}
    (h : ∀ a ∈ l, (f a).length ≤ (g a).length) :
    l.flatMap f = l.flatMap g ↔ ∀ a ∈ l, f a = g a := by
  refine ⟨fun heq => ?_, List.flatMap_congr⟩
  induction l with
  | nil => simp
  | cons a l ih =>
    obtain ⟨ha, hl⟩ := List.forall_mem_cons.mp h
    rw [List.flatMap_cons, List.flatMap_cons] at heq
    have hrest := length_flatMap_le hl
    have hlength := congrArg List.length heq
    simp only [List.length_append] at hlength
    obtain ⟨hhead, htail⟩ := List.append_inj heq (by omega)
    exact List.forall_mem_cons.mpr ⟨hhead, ih hl htail⟩

theorem length_appendLines (lines added : List String) :
    (appendLines lines added).length = lines.length + added.length := by
  obtain ⟨above, below, hlines, -, happend⟩ := exists_appendLines lines
  rw [happend, hlines]
  simp only [List.length_append]
  omega

theorem appendLines_nil (lines : List String) : appendLines lines [] = lines := by
  obtain ⟨above, below, hlines, -, happend⟩ := exists_appendLines lines
  rw [happend, hlines, List.nil_append]

theorem getLast?_append_ne_empty {added : List String} (hne : added ≠ []) (h : "" ∉ added)
    (above : List String) : (above ++ added).getLast? ≠ some "" := by
  intro hlast
  rw [List.getLast?_append_of_ne_nil _ hne] at hlast
  exact h (List.mem_of_getLast? hlast)

/-- Where lines that are not empty were put can be told from the length of what was there. -/
theorem appendLines_eq_iff {lines lines' added added' : List String}
    (hlength : lines.length = lines'.length) (h : "" ∉ added) (h' : "" ∉ added') :
    appendLines lines added = appendLines lines' added' ↔ lines = lines' ∧ added = added' := by
  refine ⟨fun heq => ?_, fun ⟨hlines, hadded⟩ => by rw [hlines, hadded]⟩
  have hcount : added.length = added'.length := by
    have := congrArg List.length heq
    rw [length_appendLines, length_appendLines] at this
    omega
  by_cases hnil : added = []
  · have hnil' : added' = [] := List.length_eq_zero_iff.mp (by simpa [hnil] using hcount.symm)
    rw [hnil, hnil', appendLines_nil, appendLines_nil] at heq
    exact ⟨heq, hnil.trans hnil'.symm⟩
  · have hnil' : added' ≠ [] := fun heq => hnil (List.length_eq_zero_iff.mp (by simp [hcount, heq]))
    obtain ⟨above, below, rfl, hbelow, happend⟩ := exists_appendLines lines
    obtain ⟨above', below', rfl, hbelow', happend'⟩ := exists_appendLines lines'
    rw [happend, happend'] at heq
    have hsame : below = below' := by
      rcases hbelow with rfl | rfl <;> rcases hbelow' with rfl | rfl
      · rfl
      · refine absurd ?_ (getLast?_append_ne_empty hnil h above)
        simpa using congrArg List.getLast? heq
      · refine absurd ?_ (getLast?_append_ne_empty hnil' h' above')
        simpa using congrArg List.getLast? heq.symm
      · rfl
    subst hsame
    have habove : above.length = above'.length := by simpa using hlength
    obtain ⟨hlines, hadded⟩ := List.append_inj heq habove
    exact ⟨by rw [hlines], List.append_cancel_right hadded⟩

/-! ### Blocks that an edit leaves alone -/

theorem includePieces_inj {names names' : List String}
    (h : includePieces names = includePieces names') : names = names' := by
  cases names with
  | nil => cases names' <;> simp_all [includePieces]
  | cons n names =>
    cases names' with
    | nil => simp [includePieces] at h
    | cons n' names' =>
      simp only [includePieces, List.cons.injEq, Piece.opening.injEq] at h
      have htail : names = names' := List.map_injective_iff.mpr (fun _ _ hp => by simpa using hp) h.2
      rw [h.1, htail]

/-- An edit leaves just those blocks alone that are in line with the snapshot. -/
theorem Block.edited_eq_lines_iff {s : Snapshot} (hs : s.Writable IsUnbroken) {b : Block}
    (hb : b.IsRead) :
    b.edited s = b.lines ↔ b.IsKept s := by
  refine ⟨fun heq => ?_, edited_of_isKept⟩
  have hpieces := flatMap_linePieces_edited hs hb
  rw [heq] at hpieces
  cases b with
  | statement first more names =>
    refine filter_contains_eq_self_iff.mp (includePieces_inj (hpieces.symm.trans ?_))
    exact hb.2
  | binding line name path =>
    rw [lines, List.flatMap_singleton, show linePieces line = _ from hb, editedPieces] at hpieces
    cases hwanted : s.directory? name with
    | none => simp [hwanted] at hpieces
    | some wanted =>
      simp only [hwanted, directoryPiece, List.cons.injEq, and_true] at hpieces
      split at hpieces
      next => cases hpieces; exact hwanted
      next => cases hpieces
  | loose | plain => trivial

theorem Block.length_edited_le (s : Snapshot) (b : Block) :
    (b.edited s).length ≤ b.lines.length := by
  by_cases hkept : b.IsKept s
  · rw [edited_of_isKept hkept]
  · have hlines : 1 ≤ b.lines.length := by cases b <;> simp [lines]
    rcases edited_of_not_isKept hkept with hnil | ⟨statement, -, hone⟩
    · simp [hnil]
    · simpa [hone] using hlines

/-- If nothing is to be added, an edit changes nothing exactly when it keeps all blocks. -/
theorem reconcile_eq_self_iff {lines : List String} {s : Snapshot} (hs : s.Writable IsUnbroken)
    (h : additions s (blocks lines) (fileEnding lines) = []) :
    reconcile lines s = lines ↔ ∀ b ∈ blocks lines, b.IsKept s := by
  rw [reconcile, h, appendLines_nil]
  conv_lhs => rhs; rw [← flatMap_lines_blocks lines]
  rw [flatMap_eq_flatMap_iff fun b _ => Block.length_edited_le s b]
  exact forall₂_congr fun b hb =>
    Block.edited_eq_lines_iff hs (Block.isRead_of_mem_blocks b hb)

section

variable {lines : List String} {b : Block} (hb : b ∈ blocks lines)

include hb

theorem Block.directory?_isSome_of_mem_binds {n path : String} (h : (n, path) ∈ b.binds) :
    ((Snapshot.ofLines lines).directory? n).isSome = true := by
  cases b with
  | binding line name path' =>
    cases List.mem_singleton.mp h
    have hread : linePieces line = [.binding n path] := Block.isRead_of_mem_blocks _ hb
    rw [directory?_ofLines, NameMap.isSome_lookup_iff, List.map_reverse, List.mem_reverse,
      flatMap_linePieces_blocks]
    refine List.mem_map_of_mem (f := Prod.fst) (a := (n, path)) (List.mem_flatMap.mpr ?_)
    exact ⟨.binding n path, List.mem_flatMap.mpr ⟨_, hb, by simp [Block.lines, hread]⟩, by
      simp [Piece.bindings]⟩
  | statement | loose | plain => cases h

/-- What was read wants all statements as they are. -/
theorem Block.isKept_ofLines_iff : b.IsKept (.ofLines lines)
    ↔ ∀ n path, (n, path) ∈ b.binds → (Snapshot.ofLines lines).directory? n = some path := by
  cases b with
  | statement first more names =>
    exact ⟨fun _ _ _ h => (List.not_mem_nil h).elim,
      fun _ n hn => mem_all_of_concerns hb (show Concerns n (statement first more names) from hn)⟩
  | binding line name path =>
    refine ⟨fun h n path hmem => ?_, fun h => h name path (List.mem_singleton_self _)⟩
    cases List.mem_singleton.mp hmem
    exact h
  | loose | plain => exact ⟨fun _ _ _ h => (List.not_mem_nil h).elim, fun _ => trivial⟩

theorem Block.length_edited_ofLines : (b.edited (.ofLines lines)).length = b.lines.length := by
  cases b with
  | binding line name path =>
    have hsome := directory?_isSome_of_mem_binds hb (List.mem_singleton_self (name, path))
    obtain ⟨wanted, hwanted⟩ := Option.isSome_iff_exists.mp hsome
    simp only [edited, hwanted]
    split <;> rfl
  | statement first more names =>
    rw [edited_of_isKept ((isKept_ofLines_iff hb).mpr fun _ _ h => (List.not_mem_nil h).elim)]
  | loose | plain => rfl

end

/-! ### Edits that concern one project -/

/-- Whether a project stands in a file: where a statement is needed the editor sees one that names
the project, and the bindings that the editor sees are the one that counts. -/
structure Stands (lines : List String) (n : String) : Prop where
  named : n ∈ (Snapshot.ofLines lines).all → n ∈ (blocks lines).flatMap Block.names
  bound : ∀ path, (Snapshot.ofLines lines).directory? n = some path
    ↔ (n, path) ∈ (blocks lines).flatMap Block.binds

theorem stands_iff {lines : List String} (ending : String) {n : String} :
    Stands lines n ↔ (∀ path, (n, path) ∈ (blocks lines).flatMap Block.binds →
        (Snapshot.ofLines lines).directory? n = some path)
      ∧ (n ∈ (Snapshot.ofLines lines).all →
        missing (blocks lines) ending n ((Snapshot.ofLines lines).directory? n) = []) := by
  constructor
  · intro h
    refine ⟨fun path => (h.bound path).mpr, fun hn => missing_eq_nil_iff.mpr ⟨h.named hn, ?_⟩⟩
    intro hsome
    obtain ⟨path, hpath⟩ := Option.isSome_iff_exists.mp hsome
    exact List.mem_map_of_mem (f := Prod.fst) ((h.bound path).mp hpath)
  · rintro ⟨hagree, hadded⟩
    refine ⟨fun hn => (missing_eq_nil_iff.mp (hadded hn)).1, fun path => ⟨fun hpath => ?_, hagree path⟩⟩
    have hall : n ∈ (Snapshot.ofLines lines).all := mem_all_ofLines_iff.mpr (.inr (by simp [hpath]))
    obtain ⟨⟨n', path'⟩, hmem, rfl⟩ :=
      List.mem_map.mp ((missing_eq_nil_iff.mp (hadded hall)).2 (by simp [hpath]))
    obtain rfl : path' = path := Option.some.inj ((hagree path' hmem).symm.trans hpath)
    exact hmem

section

variable {lines : List String} {s : Snapshot} {p : String → Prop} {became : Block → List String}
  (hother : ∀ b ∈ blocks lines, (∀ n, b.Concerns n → p n) →
    b.edited s = b.edited (.ofLines lines) ∧ became b = b.lines)
  (hown : ∀ b ∈ blocks lines, ¬(∀ n, b.Concerns n → p n) → b.edited s = became b)

include hother hown

theorem length_edited_eq {b : Block} (hb : b ∈ blocks lines) :
    (b.edited s).length = (became b).length := by
  by_cases hp : ∀ n, b.Concerns n → p n
  · obtain ⟨hedited, hbecame⟩ := hother b hb hp
    rw [hedited, hbecame, Block.length_edited_ofLines hb]
  · rw [hown b hb hp]

theorem forall_edited_eq_iff : (∀ b ∈ blocks lines, b.edited s = became b)
    ↔ ∀ n, p n → ∀ path, (n, path) ∈ (blocks lines).flatMap Block.binds →
      (Snapshot.ofLines lines).directory? n = some path := by
  have hkept : ∀ b ∈ blocks lines, (∀ n, b.Concerns n → p n) →
      (b.edited s = became b ↔ b.IsKept (.ofLines lines)) := by
    intro b hb hp
    obtain ⟨hedited, hbecame⟩ := hother b hb hp
    rw [hedited, hbecame,
      Block.edited_eq_lines_iff (writable_ofLines lines).unbroken (Block.isRead_of_mem_blocks b hb)]
  constructor
  · intro h n hn path hmem
    obtain ⟨b, hb, hmem⟩ := List.mem_flatMap.mp hmem
    have hconcerns : ∀ m, b.Concerns m → p m := by
      intro m hm
      cases b with
      | binding line name path' =>
        cases List.mem_singleton.mp hmem
        exact (show m = n from hm) ▸ hn
      | statement | loose | plain => cases hmem
    exact (Block.isKept_ofLines_iff hb).mp ((hkept b hb hconcerns).mp (h b hb)) n path hmem
  · intro h b hb
    by_cases hp : ∀ n, b.Concerns n → p n
    · refine (hkept b hb hp).mpr ((Block.isKept_ofLines_iff hb).mpr fun n path hmem => ?_)
      have hn : b.Concerns n := Block.concerns_iff.mpr (.inr (List.mem_map_of_mem (f := Prod.fst) hmem))
      exact h n (hp n hn) path (List.mem_flatMap.mpr ⟨b, hb, hmem⟩)
    · exact hown b hb hp

/-- An edit that leaves other projects alone comes out as such if and only if these stand. -/
theorem reconcile_eq_iff {added : List String} (hempty : "" ∉ added)
    (hadded : additions s (blocks lines) (fileEnding lines) = added ↔ ∀ n, p n →
      n ∈ (Snapshot.ofLines lines).all → missing (blocks lines) (fileEnding lines) n
        ((Snapshot.ofLines lines).directory? n) = []) :
    reconcile lines s = appendLines ((blocks lines).flatMap became) added
      ↔ ∀ n, p n → Stands lines n := by
  have hlength := fun b hb => length_edited_eq hother hown (b := b) hb
  have hadditions : "" ∉ additions s (blocks lines) (fileEnding lines) := fun hmem =>
    ne_empty_of_mem_additions hmem rfl
  have hsum : ((blocks lines).flatMap (Block.edited s)).length
      = ((blocks lines).flatMap became).length := by
    simp only [List.length_flatMap]
    rw [List.map_congr_left hlength]
  rw [reconcile, appendLines_eq_iff hsum hadditions hempty,
    flatMap_eq_flatMap_iff fun b hb => (hlength b hb).le,
    forall_edited_eq_iff hother hown, hadded]
  simp only [stands_iff (fileEnding lines)]
  constructor
  · exact fun h n hn => ⟨h.1 n hn, h.2 n hn⟩
  · exact fun h => ⟨fun n hn => (h n hn).1, fun n hn => (h n hn).2⟩

end

/-! ### One project registered or dropped -/

namespace Block

/-- The lines of a block when a project is bound to a directory. -/
def pointed (m path : String) : Block → List String
  | binding line name old =>
    if name = m ∧ old ≠ path then [restate line (directoryStatement m path)] else [line]
  | b => b.lines

/-- The lines of a block without a project. -/
def without (m : String) : Block → List String
  | statement first more names =>
    if m ∉ names then first :: more
    else if names.filter (· != m) = [] then []
    else [restate first (includeStatement (names.filter (· != m)))]
  | binding line name _ => if name = m then [] else [line]
  | b => b.lines

end Block

/-- The lines of a file with the registration of one project, where others are left alone. -/
def withProject (lines : List String) (m path : String) : List String :=
  appendLines ((blocks lines).flatMap (Block.pointed m path))
    (missing (blocks lines) (fileEnding lines) m (some path))

/-- The lines of a file without the registrations of one project, where others are left alone. -/
def withoutProject (lines : List String) (m : String) : List String :=
  (blocks lines).flatMap (Block.without m)

theorem forall_concerns_iff {b : Block} {m : String} :
    (∀ n, b.Concerns n → n ≠ m) ↔ ¬b.Concerns m :=
  ⟨fun h hm => h m hm rfl, fun h _ hn heq => h (heq ▸ hn)⟩

section

variable {lines : List String} {b : Block} (hb : b ∈ blocks lines) {m : String}

include hb

theorem Block.mem_all_of_mem_names {n : String} (h : n ∈ b.names) :
    n ∈ (Snapshot.ofLines lines).all :=
  mem_all_of_concerns hb (concerns_iff.mpr (.inl h))

theorem Block.edited_addExternal_of_concerns (path : String) (hm : b.Concerns m) :
    b.edited ((Snapshot.ofLines lines).addExternal m path) = b.pointed m path := by
  cases b with
  | statement first more names =>
    refine edited_of_isKept fun n hn => Snapshot.mem_all_addExternal.mpr (.inl ?_)
    exact mem_all_of_mem_names hb hn
  | binding line name old =>
    obtain rfl : m = name := hm
    simp only [edited, Snapshot.directory?_addExternal, ↓reduceIte, pointed, true_and]
    by_cases hpath : path = old
    · simp [hpath]
    · simp [hpath, Ne.symm hpath]
  | loose | plain => cases hm

theorem Block.edited_remove (hm : ¬b.Concerns m) :
    b.edited ((Snapshot.ofLines lines).remove m) = b.edited (.ofLines lines) := by
  cases b with
  | statement first more names =>
    have hkept : names.filter ((Snapshot.ofLines lines).remove m).contains
        = names.filter (Snapshot.ofLines lines).contains :=
      List.filter_congr fun n hn => by
        have hne : n ≠ m := fun heq => hm (heq ▸ hn)
        simp [Snapshot.contains, Snapshot.remove, hne]
    simp only [edited, hkept]
  | binding line name path =>
    have hne : name ≠ m := fun heq => hm heq.symm
    simp only [edited, Snapshot.directory?_remove, if_neg hne]
  | loose | plain => rfl

theorem Block.edited_remove_of_concerns (hm : b.Concerns m) :
    b.edited ((Snapshot.ofLines lines).remove m) = b.without m := by
  cases b with
  | statement first more names =>
    have hkept : names.filter ((Snapshot.ofLines lines).remove m).contains
        = names.filter (· != m) :=
      List.filter_congr fun n hn => by
        have hall := mem_all_of_mem_names hb (n := n) hn
        by_cases hne : n = m <;> simp [Snapshot.contains, Snapshot.remove, hall, hne]
    have hlength : (names.filter (· != m)).length ≠ names.length := fun heq => by
      have hself := List.filter_eq_self.mp (List.filter_sublist.eq_of_length heq) m hm
      simp at hself
    have hm : m ∈ names := hm
    simp only [edited, without, hkept, if_neg hlength, not_not.mpr hm, ↓reduceIte]
  | binding line name path =>
    obtain rfl : m = name := hm
    simp [edited, without, Snapshot.directory?_remove]
  | loose | plain => cases hm

end

theorem Block.pointed_of_not_concerns {b : Block} {m : String} (path : String)
    (h : ¬b.Concerns m) : b.pointed m path = b.lines := by
  cases b with
  | binding line name old =>
    have hne : name ≠ m := fun heq => h heq.symm
    simp [pointed, lines, hne]
  | statement | loose | plain => rfl

theorem Block.without_of_not_concerns {b : Block} {m : String} (h : ¬b.Concerns m) :
    b.without m = b.lines := by
  cases b with
  | statement first more names => exact if_pos h
  | binding line name path => exact if_neg fun heq => h heq.symm
  | loose | plain => rfl

/-! What is read is listed once. -/

theorem nodup_all_ofLines (lines : List String) : (Snapshot.ofLines lines).all.Nodup :=
  (lists_of_edits (lines.flatMap pieces) [] .all).nodup

theorem flatMap_eq_of_nodup_iff {l : List String} {m : String} (hl : l.Nodup) (hm : m ∈ l)
    {f : String → List String} : l.flatMap f = f m ↔ ∀ n ∈ l, n ≠ m → f n = [] := by
  obtain ⟨above, below, rfl⟩ := List.append_of_mem hm
  have hnot : m ∉ above ∧ m ∉ below := by
    rw [List.nodup_append, List.nodup_cons] at hl
    exact ⟨fun hmem => hl.2.2 m hmem m (List.mem_cons_self ..) rfl, hl.2.1.1⟩
  rw [List.flatMap_append, List.flatMap_cons]
  constructor
  · intro heq n hn hne
    have hlength := congrArg List.length heq
    simp only [List.length_append] at hlength
    have habove : above.flatMap f = [] := List.length_eq_zero_iff.mp (by omega)
    have hbelow : below.flatMap f = [] := List.length_eq_zero_iff.mp (by omega)
    rcases List.mem_append.mp hn with hn | hn
    · exact List.flatMap_eq_nil_iff.mp habove n hn
    · exact List.flatMap_eq_nil_iff.mp hbelow n ((List.mem_cons.mp hn).resolve_left hne)
  · intro h
    have habove : above.flatMap f = [] := List.flatMap_eq_nil_iff.mpr fun n hn =>
      h n (by simp [hn]) fun heq => hnot.1 (heq ▸ hn)
    have hbelow : below.flatMap f = [] := List.flatMap_eq_nil_iff.mpr fun n hn =>
      h n (by simp [hn]) fun heq => hnot.2 (heq ▸ hn)
    rw [habove, hbelow, List.nil_append, List.append_nil]

theorem empty_not_mem_missing (bs : List Block) (ending n : String) (directory : Option String) :
    "" ∉ missing bs ending n directory := by
  intro hmem
  unfold missing at hmem
  rcases List.mem_append.mp hmem with hmem | hmem
  · split at hmem
    next => cases hmem
    next =>
      exact (tight_includeStatement (List.cons_ne_nil n [])).append_ne_empty ending
        (List.mem_singleton.mp hmem).symm
  · cases directory with
    | none => cases hmem
    | some path =>
      dsimp only at hmem
      split at hmem
      next => cases hmem
      next =>
        exact (tight_directoryStatement n path).append_ne_empty ending
          (List.mem_singleton.mp hmem).symm

section

variable {lines : List String} {ending m : String}

theorem additions_addExternal_eq_iff (path : String) :
    additions ((Snapshot.ofLines lines).addExternal m path) (blocks lines) ending
        = missing (blocks lines) ending m (some path)
      ↔ ∀ n, n ≠ m → n ∈ (Snapshot.ofLines lines).all →
        missing (blocks lines) ending n ((Snapshot.ofLines lines).directory? n) = [] := by
  have hself : ((Snapshot.ofLines lines).addExternal m path).directory? m = some path := by
    rw [Snapshot.directory?_addExternal, if_pos rfl]
  have hnodup : ((Snapshot.ofLines lines).addExternal m path).all.Nodup :=
    addNew_nodup (nodup_all_ofLines lines) m
  rw [additions_eq, ← hself,
    flatMap_eq_of_nodup_iff hnodup (Snapshot.mem_all_addExternal.mpr (.inr rfl))]
  refine forall_congr' fun n => ?_
  rw [Snapshot.mem_all_addExternal]
  constructor
  · intro h hne hn
    have hnil := h (.inl hn) hne
    rwa [Snapshot.directory?_addExternal, if_neg hne] at hnil
  · intro h hn hne
    rw [Snapshot.directory?_addExternal, if_neg hne]
    exact h hne (hn.resolve_right hne)

theorem additions_remove_eq_nil_iff :
    additions ((Snapshot.ofLines lines).remove m) (blocks lines) ending = []
      ↔ ∀ n, n ≠ m → n ∈ (Snapshot.ofLines lines).all →
        missing (blocks lines) ending n ((Snapshot.ofLines lines).directory? n) = [] := by
  rw [additions_eq, List.flatMap_eq_nil_iff]
  refine forall_congr' fun n => ?_
  rw [Snapshot.mem_all_remove]
  constructor
  · intro h hne hn
    have hnil := h ⟨hn, hne⟩
    rwa [Snapshot.directory?_remove, if_neg hne] at hnil
  · intro h hn
    rw [Snapshot.directory?_remove, if_neg hn.2]
    exact h hn.2 hn.1

end

/-- A snapshot that was just read is written back without a change if and only if all its projects
stand. To register a project as one that is bound to a directory changes no more than the lines about
it, and so does dropping a project, if and only if all others stand. -/
theorem writes_back_iff (lines : List String) :
    (reconcile lines (.ofLines lines) = lines ↔ ∀ n, Stands lines n)
      ∧ (∀ m path, reconcile lines ((Snapshot.ofLines lines).addExternal m path)
          = withProject lines m path ↔ ∀ n, n ≠ m → Stands lines n)
      ∧ ∀ m, reconcile lines ((Snapshot.ofLines lines).remove m) = withoutProject lines m
        ↔ ∀ n, n ≠ m → Stands lines n := by
  refine ⟨?_, fun m path => ?_, fun m => ?_⟩
  · have hiff := reconcile_eq_iff (s := .ofLines lines) (p := fun _ => True)
      (fun b (_ : b ∈ blocks lines) _ => ⟨rfl, rfl⟩) (fun _ _ h => absurd (fun _ _ => trivial) h)
      (List.not_mem_nil) (by simp [additions_eq, List.flatMap_eq_nil_iff])
    rw [appendLines_nil, flatMap_lines_blocks] at hiff
    simpa using hiff
  · refine reconcile_eq_iff (fun b _ h => ?_) (fun b hb h => ?_) (empty_not_mem_missing _ _ _ _)
      (additions_addExternal_eq_iff path)
    · rw [forall_concerns_iff] at h
      exact ⟨(Block.edited_addExternal path h).1, Block.pointed_of_not_concerns path h⟩
    · rw [forall_concerns_iff, not_not] at h
      exact Block.edited_addExternal_of_concerns hb path h
  · have hiff := reconcile_eq_iff (s := (Snapshot.ofLines lines).remove m) (p := (· ≠ m))
      (fun b hb h => ⟨Block.edited_remove hb (forall_concerns_iff.mp h),
        Block.without_of_not_concerns (forall_concerns_iff.mp h)⟩)
      (fun b hb h => Block.edited_remove_of_concerns hb (not_not.mp (mt forall_concerns_iff.mpr h)))
      (List.not_mem_nil) additions_remove_eq_nil_iff
    rwa [appendLines_nil] at hiff

/-- A project that is bound but that no statement names gets a statement when the file is written
back, and also when another project is registered or dropped. -/
theorem not_writes_back_bound :
    let lines := ["include ':app'", "project(':tools').projectDir = new File('../tools')"]
    let s := Snapshot.ofLines lines
    reconcile lines s = lines ++ ["include ':tools'"]
      ∧ reconcile lines (s.addExternal "core" "/ws/core") = lines ++ ["include ':tools'",
        "include ':core'", "project(':core').projectDir = new File('/ws/core')"]
      ∧ reconcile lines (s.remove "app")
        = ["project(':tools').projectDir = new File('../tools')", "include ':tools'"] := by
  decide

end Inclusion.Settings
