import Inclusion.Proofs.Settings.Scanning

/-!
# The order in which projects are registered

A snapshot comes of edits: those that the scan of a settings file makes, and those that follow. An
edit puts a name at the end of a list, unless the list has it already, or takes it out of all three.
So a list holds the names that were added to it since they were last removed, each one in the place
of its first such addition, and the list of all projects holds what the other two hold.

* `ofPieces_eq_foldl`: the edits that a scan makes.
* `Register.arrival?_concat`: where a name was added first since its last removal, one edit further.
* `Register.Lists.edit`, `Register.Lists.foldl_edit`: what one edit keeps, and what any edits keep.
* `Register.Lists.sublist_iff`: which of two names stands first.
* `lists_of_edits`, `isUnion_of_edits`: the lists that edits of a scanned snapshot leave.
* `registers_of_edits`: the lists of a snapshot, and what a removal does to them.
-/
namespace Inclusion.Settings

/-! ### Edits of a snapshot -/

/-- What can be done to a snapshot. -/
inductive Edit
  | addInternal (name : String)
  | addExternal (name path : String)
  | remove (name : String)
deriving DecidableEq, Repr

def Snapshot.edit (s : Snapshot) : Edit → Snapshot
  | .addInternal name => s.addInternal name
  | .addExternal name path => s.addExternal name path
  | .remove name => s.remove name

/-- The lists of a snapshot. -/
inductive Register
  | all
  | internal
  | external
deriving DecidableEq, Repr

/-- The projects that a snapshot has in a list, in order. -/
def Snapshot.names (s : Snapshot) : Register → List String
  | .all => s.all
  | .internal => s.internal
  | .external => s.external.map Prod.fst

/-- The project that an edit adds to a list, unless the list has it. -/
def Register.added? : Register → Edit → Option String
  | .all, .addInternal name => some name
  | .all, .addExternal name _ => some name
  | .internal, .addInternal name => some name
  | .external, .addExternal name _ => some name
  | _, _ => none

theorem names_remove (s : Snapshot) (name : String) (r : Register) :
    (s.remove name).names r = (s.names r).filter (· != name) := by
  cases r with
  | all | internal => rfl
  | external =>
    rw [Snapshot.names, Snapshot.names, List.filter_map]
    rfl

/-- What does not remove a project only adds one, if anything. -/
theorem names_edit {e : Edit} (h : ∀ name, e ≠ .remove name) (s : Snapshot) (r : Register) :
    (s.edit e).names r = (r.added? e).elim (s.names r) (addNew (s.names r)) := by
  cases e with
  | addInternal name => cases r <;> rfl
  | addExternal name path =>
    cases r with
    | all | internal => rfl
    | external => exact map_fst_bindTo s.external name path
  | remove name => exact absurd rfl (h name)

/-- All projects are those that are named and those that are bound. -/
def Snapshot.IsUnion (s : Snapshot) : Prop :=
  ∀ name, name ∈ s.all ↔ name ∈ s.internal ∨ name ∈ s.external.map Prod.fst

theorem Snapshot.IsUnion.edit {s : Snapshot} (h : s.IsUnion) (e : Edit) : (s.edit e).IsUnion := by
  intro name
  cases e with
  | addInternal added =>
    simp only [Snapshot.edit, addInternal, mem_addNew, h name]
    exact or_right_comm
  | addExternal added path =>
    simp only [Snapshot.edit, addExternal, map_fst_bindTo, mem_addNew, h name]
    exact or_assoc
  | remove removed =>
    have hmem : ∀ r, name ∈ (s.remove removed).names r ↔ name ∈ s.names r ∧ name ≠ removed :=
      fun r => by rw [names_remove, List.mem_filter, bne_iff_ne]
    exact (hmem .all).trans <| (and_congr_left' (h name)).trans <| or_and_right.trans
      (or_congr (hmem .internal) (hmem .external)).symm

theorem Snapshot.IsUnion.foldl_edit {s : Snapshot} (h : s.IsUnion) (edits : List Edit) :
    (edits.foldl Snapshot.edit s).IsUnion := by
  induction edits generalizing s with
  | nil => exact h
  | cons e edits ih => exact ih (h.edit e)

/-- A project is registered in some way if it is among all. -/
theorem Snapshot.IsUnion.mentions_eq {s : Snapshot} (h : s.IsUnion) (name : String) :
    s.mentions name = s.contains name := by
  rw [Bool.eq_iff_iff]
  simp only [mentions, contains, Bool.or_eq_true, decide_eq_true_eq, or_assoc, ← h name, or_self]

/-! ### The edits of a scan -/

/-- The edits that a piece asks for, given whether a statement is open before it. -/
def editsBy (isOpen : Bool) (text : String) : List Edit :=
  (namedBy isOpen text).map .addInternal ++ (boundBy text).map fun b => .addExternal b.1 b.2

/-- The edits that a scan makes from where it has come, in order. -/
def Scan.edits (s : Scan) : List String → List Edit
  | [] => []
  | text :: texts => editsBy s.continuing text ++ (s.step text).edits texts

theorem Scan.snapshot_step (s : Scan) (text : String) :
    (s.step text).snapshot = (editsBy s.continuing text).foldl Snapshot.edit s.snapshot := by
  unfold Scan.step editsBy namedBy boundBy
  obtain ⟨_, _ | _, _⟩ := s <;> cases Piece.ofText text <;> rfl

theorem Scan.snapshot_foldl (s : Scan) (texts : List String) :
    (texts.foldl Scan.step s).snapshot = (s.edits texts).foldl Snapshot.edit s.snapshot := by
  induction texts generalizing s with
  | nil => rfl
  | cons text texts ih =>
    rw [List.foldl_cons, ih, Scan.edits, List.foldl_append, Scan.snapshot_step]

theorem ofPieces_eq_foldl (texts : List String) :
    Snapshot.ofPieces texts = (Scan.edits {} texts).foldl Snapshot.edit {} :=
  Scan.snapshot_foldl {} texts

/-! ### Where a name was added -/

/-- How many edits there are up to the last removal of a name. -/
def lastRemoval (log : List Edit) (name : String) : Nat :=
  log.length - log.reverse.findIdx (· == .remove name)

/-- The place of the first edit that adds a name to a list since the name was last removed. -/
def Register.arrival? (r : Register) (log : List Edit) (name : String) : Option Nat :=
  ((log.drop (lastRemoval log name)).findIdx? fun e => r.added? e == some name).map
    (lastRemoval log name + ·)

/-- Whether a list got a name before another one, both counted from their last removals. -/
def Register.Before (r : Register) (log : List Edit) (m n : String) : Prop :=
  ∃ i j, r.arrival? log m = some i ∧ r.arrival? log n = some j ∧ i < j

theorem lastRemoval_concat (log : List Edit) (e : Edit) (name : String) :
    lastRemoval (log ++ [e]) name
      = if e = .remove name then log.length + 1 else lastRemoval log name := by
  rw [lastRemoval, List.reverse_append, List.reverse_singleton, List.singleton_append,
    List.findIdx_cons, List.length_append, List.length_singleton]
  by_cases h : e = .remove name
  · rw [if_pos h, beq_iff_eq.mpr h]
    rfl
  · rw [if_neg h, beq_eq_false_iff_ne.mpr h, cond_false, Nat.add_sub_add_right]
    rfl

namespace Register

variable {r : Register} {log : List Edit} {e : Edit} {m n name : String}

theorem arrival?_concat (r : Register) (log : List Edit) (e : Edit) (name : String) :
    r.arrival? (log ++ [e]) name = if e = .remove name then none
      else (r.arrival? log name).or (if r.added? e = some name then some log.length else none) := by
  unfold arrival?
  rw [lastRemoval_concat]
  by_cases h : e = .remove name
  · rw [if_pos h, if_pos h, List.drop_of_length_le (by simp)]
    rfl
  · have hle : lastRemoval log name ≤ log.length := Nat.sub_le ..
    rw [if_neg h, if_neg h, List.drop_append_of_le_length hle, List.findIdx?_append,
      List.findIdx?_singleton, Option.map_or]
    by_cases hadd : r.added? e = some name
    · simp [hadd, Nat.add_sub_cancel' hle]
    · simp [hadd]

theorem arrival?_concat_of_some {i : Nat} (h : r.arrival? log name = some i)
    (hkeep : e ≠ .remove name) : r.arrival? (log ++ [e]) name = some i := by
  rw [arrival?_concat, if_neg hkeep, h, Option.some_or]

theorem isSome_arrival?_concat (hkeep : e ≠ .remove name) :
    (r.arrival? (log ++ [e]) name).isSome = true
      ↔ (r.arrival? log name).isSome = true ∨ r.added? e = some name := by
  rw [arrival?_concat, if_neg hkeep, Option.isSome_or, Bool.or_eq_true]
  refine or_congr_right ?_
  split
  next hadded => exact iff_of_true rfl hadded
  next hadded => exact iff_of_false Bool.false_ne_true hadded

theorem arrival?_lt {i : Nat} (h : r.arrival? log name = some i) : i < log.length := by
  obtain ⟨k, hk, rfl⟩ := Option.map_eq_some_iff.mp h
  have hlt := (List.findIdx?_eq_some_iff_getElem.mp hk).1
  rw [List.length_drop] at hlt
  omega

theorem Before.asymm (h : r.Before log m n) : ¬r.Before log n m := by
  rintro ⟨i, j, hn, hm, hlt⟩
  obtain ⟨i', j', hm', hn', hlt'⟩ := h
  cases hm.symm.trans hm'
  cases hn.symm.trans hn'
  exact Nat.lt_asymm hlt hlt'

/-- An edit that is no removal of two names leaves it at which of them came first. -/
theorem Before.concat (h : r.Before log m n) (hm : e ≠ .remove m) (hn : e ≠ .remove n) :
    r.Before (log ++ [e]) m n := by
  obtain ⟨i, j, hi, hj, hlt⟩ := h
  exact ⟨i, j, arrival?_concat_of_some hi hm, arrival?_concat_of_some hj hn, hlt⟩

/-! ### What the lists of a snapshot hold -/

/-- Whether names are those that edits have left in a list, in the order in which they came. -/
structure Lists (r : Register) (log : List Edit) (names : List String) : Prop where
  mem : ∀ name, name ∈ names ↔ (r.arrival? log name).isSome = true
  order : names.Pairwise (r.Before log)

namespace Lists

variable {names : List String}

theorem nodup (h : r.Lists log names) : names.Nodup :=
  h.order.imp fun hbefore heq => (heq ▸ hbefore).asymm (heq ▸ hbefore)

/-- Of two names in the list the one that came first stands first. -/
theorem sublist_iff (h : r.Lists log names) : [m, n].Sublist names ↔ r.Before log m n := by
  refine ⟨fun hsub => List.pairwise_iff_forall_sublist.mp h.order hsub, fun hbefore => ?_⟩
  obtain ⟨i, j, hi, hj, -⟩ := id hbefore
  have hm : m ∈ names := (h.mem m).mpr (Option.isSome_of_eq_some hi)
  have hn : n ∈ names := (h.mem n).mpr (Option.isSome_of_eq_some hj)
  have hne : m ≠ n := fun heq => (heq ▸ hbefore).asymm (heq ▸ hbefore)
  refine (sublist_or_sublist hm hn hne).resolve_right fun hafter => ?_
  exact (List.pairwise_iff_forall_sublist.mp h.order hafter).asymm hbefore

theorem remove (h : r.Lists log names) (name : String) :
    r.Lists (log ++ [.remove name]) (names.filter (· != name)) where
  mem n := by
    have hadded : r.added? (.remove name) = none := by cases r <;> rfl
    rw [List.mem_filter, bne_iff_ne, h.mem, arrival?_concat, hadded]
    by_cases hn : name = n
    · simp [hn]
    · simp [hn, Ne.symm hn]
  order := by
    refine (h.order.filter _).imp_of_mem fun ha hb hbefore => ?_
    rw [List.mem_filter, bne_iff_ne] at ha hb
    exact hbefore.concat (by simpa using ha.2.symm) (by simpa using hb.2.symm)

/-- An edit that adds nothing new leaves a list as it is. -/
theorem pass (h : r.Lists log names) (hkeep : ∀ name, e ≠ .remove name)
    (hadded : ∀ name, r.added? e = some name → name ∈ names) : r.Lists (log ++ [e]) names where
  mem n := by
    rw [isSome_arrival?_concat (hkeep n), ← h.mem]
    exact ⟨.inl, fun hn => hn.elim id (hadded n)⟩
  order := h.order.imp fun hbefore => hbefore.concat (hkeep _) (hkeep _)

theorem add (h : r.Lists log names) (hkeep : ∀ name, e ≠ .remove name)
    (hadded : r.added? e = some name) : r.Lists (log ++ [e]) (addNew names name) := by
  unfold addNew
  split
  next hmem =>
    exact h.pass hkeep fun n hn => Option.some.inj (hadded.symm.trans hn) ▸ hmem
  next hnew =>
    have hnone : r.arrival? log name = none := by simpa using (h.mem name).not.mp hnew
    have hlast : r.arrival? (log ++ [e]) name = some log.length := by
      rw [arrival?_concat, if_neg (hkeep name), hnone, if_pos hadded, Option.none_or]
    refine ⟨fun n => ?_, List.pairwise_append.mpr
      ⟨h.order.imp fun hbefore => hbefore.concat (hkeep _) (hkeep _), List.pairwise_singleton .., ?_⟩⟩
    · rw [isSome_arrival?_concat (hkeep n), ← h.mem, hadded, List.mem_append, List.mem_singleton,
        Option.some.injEq, eq_comm]
    · intro a ha b hb
      cases List.mem_singleton.mp hb
      obtain ⟨i, hi⟩ := Option.isSome_iff_exists.mp ((h.mem a).mp ha)
      exact ⟨i, log.length, arrival?_concat_of_some hi (hkeep a), hlast, arrival?_lt hi⟩

end Lists

/-- One edit further, a list still holds what the edits have left in it. -/
theorem Lists.edit {s : Snapshot} (h : r.Lists log (s.names r)) (e : Edit) :
    r.Lists (log ++ [e]) ((s.edit e).names r) := by
  by_cases hkeep : ∀ name, e ≠ .remove name
  · rw [names_edit hkeep]
    cases hadded : r.added? e with
    | none => exact h.pass hkeep fun name hname => nomatch hadded.symm.trans hname
    | some name => exact h.add hkeep hadded
  · obtain ⟨name, rfl⟩ := not_forall_not.mp hkeep
    exact names_remove s name r ▸ h.remove name

theorem Lists.foldl_edit {s : Snapshot} (h : r.Lists log (s.names r)) (edits : List Edit) :
    r.Lists (log ++ edits) ((edits.foldl Snapshot.edit s).names r) := by
  induction edits generalizing s log with
  | nil => rwa [List.append_nil]
  | cons e edits ih =>
    rw [List.append_cons]
    exact ih (h.edit e)

theorem lists_nil (r : Register) : r.Lists [] (Snapshot.names {} r) := by
  cases r <;> exact ⟨fun _ => by simp [Snapshot.names, arrival?], .nil⟩

end Register

section

variable (texts : List String) (edits : List Edit)

theorem foldl_edit_ofPieces : edits.foldl Snapshot.edit (Snapshot.ofPieces texts)
    = (Scan.edits {} texts ++ edits).foldl Snapshot.edit {} := by
  rw [List.foldl_append, ← ofPieces_eq_foldl]

theorem lists_of_edits (r : Register) : r.Lists (Scan.edits {} texts ++ edits)
    ((edits.foldl Snapshot.edit (Snapshot.ofPieces texts)).names r) := by
  rw [foldl_edit_ofPieces]
  exact (Register.lists_nil r).foldl_edit (Scan.edits {} texts ++ edits)

theorem isUnion_of_edits : (edits.foldl Snapshot.edit (Snapshot.ofPieces texts)).IsUnion := by
  have hempty : Snapshot.IsUnion {} := fun name => by simp
  rw [foldl_edit_ofPieces]
  exact hempty.foldl_edit (Scan.edits {} texts ++ edits)

end

/-- Whatever pieces say and whatever is done to the snapshot that they make: no list holds a name
twice; all projects are those that are named and those that are bound; a list holds the names that
were added to it since they were last removed, and of two names the one that was added first since
then stands first; and a removal finds a registration just if the project is among all, and leaves
none behind. -/
theorem registers_of_edits (texts : List String) (edits : List Edit) :
    let s := edits.foldl Snapshot.edit (Snapshot.ofPieces texts)
    let log := Scan.edits {} texts ++ edits
    (∀ r, (s.names r).Nodup)
    ∧ (∀ name, name ∈ s.names .all ↔ name ∈ s.names .internal ∨ name ∈ s.names .external)
    ∧ (∀ r name, name ∈ s.names r ↔ (Register.arrival? r log name).isSome = true)
    ∧ (∀ r m n, [m, n].Sublist (s.names r) ↔
      ∃ i j, Register.arrival? r log m = some i ∧ Register.arrival? r log n = some j ∧ i < j)
    ∧ ∀ name, s.mentions name = s.contains name ∧ ∀ r, name ∉ (s.remove name).names r := by
  intro s log
  have hlists : ∀ r, Register.Lists r log (s.names r) := lists_of_edits texts edits
  have hunion : s.IsUnion := isUnion_of_edits texts edits
  refine ⟨fun r => (hlists r).nodup, hunion, fun r => (hlists r).mem,
    fun r m n => (hlists r).sublist_iff, fun name => ⟨hunion.mentions_eq name, fun r hmem => ?_⟩⟩
  rw [names_remove, List.mem_filter, bne_self_eq_false] at hmem
  exact Bool.false_ne_true hmem.2

/-- A project that is bound first and named last stands first among all and last among the named. -/
example : ([.addExternal "a" "../a", .addInternal "b", .remove "c", .addInternal "a"].foldl
    Snapshot.edit {}) = ⟨["a", "b"], ["b", "a"], [("a", "../a")]⟩ := by decide

end Inclusion.Settings
