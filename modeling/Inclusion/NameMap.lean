/-!
# Maps and sets of names

A finite map from names to values, kept in ascending order of the names, so that two maps with the
same look-ups are equal. A set of names is a map to the one-point type.

* `NameMap.get?_insert`, `get?_erase`, `get?_filter`, `get?_mapValues`: each operation by look-up.
* `NameMap.ext`: maps with the same look-ups are equal.
* `NameMap.mem_keys_iff`, `keys_ascending`: the names that a map lists.
* `sublist_or_sublist`: which of two listed names comes first.
-/
namespace Inclusion

universe u v

/-- A finite map from names to values, in ascending order of the names. -/
structure NameMap (α : Type u) where
  entries : List (String × α)
  ascending : entries.Pairwise (fun a b => a.1 < b.1)
deriving DecidableEq

namespace NameMap

variable {α : Type u} {β : Type v}

def empty : NameMap α := ⟨[], .nil⟩

instance : EmptyCollection (NameMap α) := ⟨empty⟩

instance : Inhabited (NameMap α) := ⟨empty⟩

def get? (m : NameMap α) (name : String) : Option α := m.entries.lookup name

def contains (m : NameMap α) (name : String) : Bool := (m.get? name).isSome

def keys (m : NameMap α) : List String := m.entries.map Prod.fst

def values (m : NameMap α) : List α := m.entries.map Prod.snd

/-- Puts an entry at its place, in place of one with the same name. -/
def insertEntry (name : String) (value : α) : List (String × α) → List (String × α)
  | [] => [(name, value)]
  | e :: rest =>
    if name < e.1 then (name, value) :: e :: rest
    else if name = e.1 then (name, value) :: rest
    else e :: insertEntry name value rest

theorem lt_of_not_lt_of_ne {a b : String} (h : ¬a < b) (hne : a ≠ b) : b < a := by
  rcases String.le_total a b with hab | hab
  · exact absurd (String.le_antisymm hab (String.not_lt.mp h)) hne
  · exact String.not_le.mp fun hba => hne (String.le_antisymm hba hab)

theorem mem_insertEntry {name : String} {value : α} {e : String × α} {l : List (String × α)} :
    e ∈ insertEntry name value l → e = (name, value) ∨ e ∈ l := by
  induction l with
  | nil => simp [insertEntry]
  | cons d l ih =>
    simp only [insertEntry]
    split
    · simp
    · split
      · simp only [List.mem_cons]; exact fun h => h.imp_right Or.inr
      · simp only [List.mem_cons]
        rintro (h | h)
        · exact .inr (.inl h)
        · exact (ih h).imp_right Or.inr

theorem insertEntry_ascending (name : String) (value : α) {l : List (String × α)}
    (h : l.Pairwise (fun a b => a.1 < b.1)) :
    (insertEntry name value l).Pairwise (fun a b => a.1 < b.1) := by
  induction l with
  | nil => simp [insertEntry]
  | cons e l ih =>
    have ⟨he, hl⟩ := List.pairwise_cons.mp h
    simp only [insertEntry]
    split
    next hlt =>
      refine List.pairwise_cons.mpr ⟨fun d hd => ?_, h⟩
      rcases List.mem_cons.mp hd with hd | hd
      · exact hd ▸ hlt
      · exact String.lt_trans hlt (he d hd)
    next hlt =>
      split
      next heq => exact List.pairwise_cons.mpr ⟨fun d hd => heq ▸ he d hd, hl⟩
      next hne =>
        refine List.pairwise_cons.mpr ⟨fun d hd => ?_, ih hl⟩
        rcases mem_insertEntry hd with hd | hd
        · exact hd ▸ lt_of_not_lt_of_ne hlt hne
        · exact he d hd

/-- Binds a name to a value, in place of what it was bound to. -/
def insert (m : NameMap α) (name : String) (value : α) : NameMap α :=
  ⟨insertEntry name value m.entries, insertEntry_ascending name value m.ascending⟩

/-- The entries that a test accepts. -/
def filter (keep : String → α → Bool) (m : NameMap α) : NameMap α :=
  ⟨m.entries.filter (fun e => keep e.1 e.2), m.ascending.filter _⟩

def erase (m : NameMap α) (name : String) : NameMap α := m.filter fun k _ => k != name

/-- Every value changed by a function of its name and itself. -/
def mapValues (f : String → α → β) (m : NameMap α) : NameMap β :=
  ⟨m.entries.map (fun e => (e.1, f e.1 e.2)), m.ascending.map _ (fun _ _ h => h)⟩

/-- The map of a list of bindings, where a later one replaces an earlier one of its name. -/
def ofList (bindings : List (String × α)) : NameMap α :=
  bindings.foldl (fun m b => m.insert b.1 b.2) empty

/-! ### Look-ups -/

theorem lookup_cons (e : String × α) (l : List (String × α)) (k : String) :
    (e :: l).lookup k = if k = e.1 then some e.2 else l.lookup k := by
  obtain ⟨name, value⟩ := e
  by_cases h : k = name
  · simp [h]
  · simp [List.lookup_cons, h, beq_false_of_ne h]

theorem isSome_lookup_iff {l : List (String × α)} {k : String} :
    (l.lookup k).isSome = true ↔ k ∈ l.map Prod.fst := by
  rw [List.lookup_isSome_iff, List.mem_map]
  constructor
  · rintro ⟨e, he, hk⟩
    exact ⟨e, he, (beq_iff_eq.mp hk).symm⟩
  · rintro ⟨e, he, hk⟩
    exact ⟨e, he, beq_iff_eq.mpr hk.symm⟩

theorem lookup_insertEntry (name : String) (value : α) (l : List (String × α)) (k : String) :
    (insertEntry name value l).lookup k = if k = name then some value else l.lookup k := by
  induction l with
  | nil => rw [insertEntry, lookup_cons]
  | cons e l ih =>
    simp only [insertEntry]
    split
    next => rw [lookup_cons]
    next =>
      split
      next heq =>
        rw [lookup_cons, lookup_cons, ← heq]
        by_cases h : k = name <;> simp [h]
      next hne =>
        rw [lookup_cons, lookup_cons, ih]
        by_cases hk : k = e.1
        · have : ¬e.1 = name := fun h => hne h.symm
          simp [hk, this]
        · simp [hk]

theorem lookup_eq_none_of_lt {l : List (String × α)} {k : String}
    (h : ∀ e ∈ l, k < e.1) : l.lookup k = none := by
  induction l with
  | nil => rfl
  | cons e l ih =>
    have hk : ¬k = e.1 := fun heq => String.lt_irrefl _ (heq ▸ h e (by simp))
    rw [lookup_cons, if_neg hk]
    exact ih fun d hd => h d (by simp [hd])

theorem lookup_filter {l : List (String × α)} (keep : String → α → Bool)
    (h : l.Pairwise (fun a b => a.1 < b.1)) (k : String) :
    (l.filter (fun e => keep e.1 e.2)).lookup k = (l.lookup k).filter (keep k) := by
  induction l with
  | nil => rfl
  | cons e l ih =>
    have ⟨he, hl⟩ := List.pairwise_cons.mp h
    rw [List.filter_cons, lookup_cons]
    by_cases hk : k = e.1
    · subst hk
      have hnone := lookup_eq_none_of_lt he
      by_cases hkeep : keep e.1 e.2 = true
      · simp [hkeep, lookup_cons, Option.filter]
      · simp [hkeep, Option.filter, ih hl, hnone]
    · by_cases hkeep : keep e.1 e.2 = true
      · simp [hkeep, lookup_cons, hk, ih hl]
      · simp [hkeep, hk, ih hl]

@[simp] theorem get?_empty (k : String) : (empty : NameMap α).get? k = none := rfl

theorem get?_insert (m : NameMap α) (name : String) (value : α) (k : String) :
    (m.insert name value).get? k = if k = name then some value else m.get? k :=
  lookup_insertEntry name value m.entries k

@[simp] theorem get?_insert_self (m : NameMap α) (name : String) (value : α) :
    (m.insert name value).get? name = some value := by simp [get?_insert]

theorem get?_filter (keep : String → α → Bool) (m : NameMap α) (k : String) :
    (m.filter keep).get? k = (m.get? k).filter (keep k) :=
  lookup_filter keep m.ascending k

theorem get?_erase (m : NameMap α) (name k : String) :
    (m.erase name).get? k = if k = name then none else m.get? k := by
  rw [erase, get?_filter]
  by_cases h : k = name
  · cases hk : m.get? k <;> simp [h, Option.filter]
  · cases hk : m.get? k <;> simp [h, Option.filter]

theorem get?_mapValues (f : String → α → β) (m : NameMap α) (k : String) :
    (m.mapValues f).get? k = (m.get? k).map (f k) := by
  obtain ⟨l, h⟩ := m
  simp only [mapValues, get?]
  clear h
  induction l with
  | nil => simp
  | cons e l ih =>
    simp only [List.map_cons, lookup_cons]
    by_cases hk : k = e.1
    · simp [hk]
    · simp [hk, ih]

/-! ### The listed names -/

theorem keys_ascending (m : NameMap α) : m.keys.Pairwise (· < ·) :=
  m.ascending.map _ (fun _ _ h => h)

theorem keys_nodup (m : NameMap α) : m.keys.Nodup :=
  m.keys_ascending.imp fun {a b} (h : a < b) (heq : a = b) => String.lt_irrefl b (heq ▸ h)

theorem mem_keys_iff {m : NameMap α} {k : String} : k ∈ m.keys ↔ m.contains k = true := by
  obtain ⟨l, h⟩ := m
  simp only [keys, contains, get?]
  clear h
  induction l with
  | nil => simp
  | cons e l ih =>
    rw [lookup_cons]
    by_cases hk : k = e.1
    · simp [hk]
    · simp [hk, ih]

theorem mem_entries_iff {m : NameMap α} {e : String × α} :
    e ∈ m.entries ↔ m.get? e.1 = some e.2 := by
  obtain ⟨l, h⟩ := m
  simp only [get?]
  induction l with
  | nil => simp
  | cons d l ih =>
    have ⟨hd, hl⟩ := List.pairwise_cons.mp h
    rw [lookup_cons]
    by_cases hk : e.1 = d.1
    · have hnot : e ∉ l := fun he => String.lt_irrefl _ (hk ▸ hd e he)
      simp only [List.mem_cons, hnot, or_false, hk, ↓reduceIte, Option.some.injEq]
      exact ⟨fun h => h ▸ rfl, fun h => Prod.ext hk h.symm⟩
    · have hne : e ≠ d := fun h => hk (h ▸ rfl)
      simp [hk, hne, ih hl]

/-- Two ascending lists with the same members are equal. -/
theorem eq_of_ascending {l₁ l₂ : List (String × α)} (h₁ : l₁.Pairwise (fun a b => a.1 < b.1))
    (h₂ : l₂.Pairwise (fun a b => a.1 < b.1)) (h : ∀ e, e ∈ l₁ ↔ e ∈ l₂) : l₁ = l₂ := by
  induction l₁ generalizing l₂ with
  | nil =>
    cases l₂ with
    | nil => rfl
    | cons e l₂ => exact absurd ((h e).mpr (by simp)) (by simp)
  | cons d l₁ ih =>
    cases l₂ with
    | nil => exact absurd ((h d).mp (by simp)) (by simp)
    | cons e l₂ =>
      have ⟨hd, hl₁⟩ := List.pairwise_cons.mp h₁
      have ⟨he, hl₂⟩ := List.pairwise_cons.mp h₂
      have hde : d = e := by
        rcases List.mem_cons.mp ((h d).mp (by simp)) with hde | hmem
        · exact hde
        · rcases List.mem_cons.mp ((h e).mpr (by simp)) with hed | hmem'
          · exact hed.symm
          · exact absurd (String.lt_trans (hd e hmem') (he d hmem)) (String.lt_irrefl _)
      subst hde
      refine congrArg (d :: ·) (ih hl₁ hl₂ fun x => ?_)
      have hx := h x
      simp only [List.mem_cons] at hx
      constructor
      · intro hmem
        rcases hx.mp (.inr hmem) with rfl | hmem'
        · exact absurd (hd x hmem) (String.lt_irrefl _)
        · exact hmem'
      · intro hmem
        rcases hx.mpr (.inr hmem) with rfl | hmem'
        · exact absurd (he x hmem) (String.lt_irrefl _)
        · exact hmem'

theorem ext {m₁ m₂ : NameMap α} (h : ∀ k, m₁.get? k = m₂.get? k) : m₁ = m₂ := by
  have hentries : m₁.entries = m₂.entries :=
    eq_of_ascending m₁.ascending m₂.ascending fun e => by
      rw [mem_entries_iff, mem_entries_iff, h]
  obtain ⟨l₁, h₁⟩ := m₁
  obtain ⟨l₂, h₂⟩ := m₂
  simp only at hentries
  subst hentries
  rfl

theorem contains_insert (m : NameMap α) (name : String) (value : α) (k : String) :
    (m.insert name value).contains k = (k == name || m.contains k) := by
  by_cases h : k = name <;> simp [contains, get?_insert, h]

theorem contains_erase (m : NameMap α) (name k : String) :
    (m.erase name).contains k = (k != name && m.contains k) := by
  by_cases h : k = name <;> simp [contains, get?_erase, h]

end NameMap

/-- A finite set of names, in ascending order. -/
abbrev NameSet := NameMap Unit

namespace NameSet

def add (s : NameSet) (name : String) : NameSet := s.insert name ()

def ofNames (names : List String) : NameSet := names.foldl add NameMap.empty

theorem contains_add (s : NameSet) (name k : String) :
    (add s name).contains k = (k == name || s.contains k) :=
  NameMap.contains_insert s name () k

theorem contains_foldl_add (names : List String) (s : NameSet) (k : String) :
    (names.foldl add s).contains k = (decide (k ∈ names) || s.contains k) := by
  induction names generalizing s with
  | nil => simp
  | cons n names ih =>
    rw [List.foldl_cons, ih, contains_add]
    by_cases h : k = n <;> simp [h, beq_false_of_ne]

theorem contains_ofNames (names : List String) (k : String) :
    (ofNames names).contains k = decide (k ∈ names) := by
  rw [ofNames, contains_foldl_add]
  simp [NameMap.contains]

end NameSet

/-- Of two names in a list, one comes before the other. -/
theorem sublist_or_sublist {names : List String} {name other : String} (hname : name ∈ names)
    (hother : other ∈ names) (hne : name ≠ other) :
    [name, other].Sublist names ∨ [other, name].Sublist names := by
  induction names with
  | nil => cases hname
  | cons first names ih =>
    rcases List.mem_cons.mp hname with rfl | hn <;> rcases List.mem_cons.mp hother with rfl | ho
    · exact absurd rfl hne
    · exact .inl ((List.singleton_sublist.mpr ho).cons_cons _)
    · exact .inr ((List.singleton_sublist.mpr hn).cons_cons _)
    · exact (ih hn ho).imp (.cons _) (.cons _)

end Inclusion
