import Inclusion.Text.Scan

/-!
# Patterns that are matched by trying

A pattern may match a text in several ways. They are tried in an order of preference: the first of
two alternatives before the second, an optional part before its absence, a longer run before a
shorter one. A choice is only taken back if nothing that comes later can go on from it.

* `Pattern.exists_spells_of_mem_ways`: every way takes a text that the pattern spells.
* `Pattern.first?_chain_cons`: if each part of a chain can go on from where the preferred way of the
  part before it ends, nothing is ever taken back.
-/
namespace Inclusion.Text

/-- A pattern. Texts that match its parts can be kept under keys. -/
inductive Pattern (κ : Type)
  | nothing
  | one (test : Char → Bool)
  | word (text : String)
  /-- A place with a word character on one side and none on the other. -/
  | edge
  /-- The end of the text. -/
  | finish
  | run (test : Char → Bool)
  | optional (p : Pattern κ)
  | either (p q : Pattern κ)
  | seq (p q : Pattern κ)
  | keep (key : κ) (p : Pattern κ)

/-- Where the matching of a text has come to, with what was kept so far. -/
structure Position (κ : Type) where
  before : List Char
  rest : List Char
  kept : κ → Option (List Char)

variable {κ : Type}

namespace Position

/-- The start of a text. -/
def start (cs : List Char) : Position κ := ⟨[], cs, fun _ => none⟩

/-- The place behind some text that lies ahead. -/
def past (s : Position κ) (taken rest : List Char) : Position κ := ⟨s.before ++ taken, rest, s.kept⟩

def isEdge (word : Char → Bool) (s : Position κ) : Bool :=
  s.before.getLast?.any word != s.rest.head?.any word

/-- The places that a run can end at, the farthest one first. -/
def runEnds (test : Char → Bool) (kept : κ → Option (List Char)) :
    List Char → List Char → List (Position κ)
  | before, [] => [⟨before, [], kept⟩]
  | before, c :: rest =>
    if test c then runEnds test kept (before ++ [c]) rest ++ [⟨before, c :: rest, kept⟩]
    else [⟨before, c :: rest, kept⟩]

theorem exists_of_mem_runEnds {test : Char → Bool} {kept : κ → Option (List Char)}
    {before rest : List Char} {t : Position κ} (h : t ∈ runEnds test kept before rest) :
    ∃ taken, taken.all test = true ∧ rest = taken ++ t.rest ∧ t.before = before ++ taken := by
  induction rest generalizing before with
  | nil =>
    obtain rfl := List.mem_singleton.mp h
    exact ⟨[], rfl, rfl, (List.append_nil before).symm⟩
  | cons c rest ih =>
    rw [runEnds] at h
    by_cases hc : test c = true
    · rw [if_pos hc, List.mem_append, List.mem_singleton] at h
      rcases h with h | rfl
      · obtain ⟨taken, htaken, hrest, hbefore⟩ := ih h
        exact ⟨c :: taken, by simp [hc, htaken], by simp [hrest], by simp [hbefore]⟩
      · exact ⟨[], rfl, rfl, (List.append_nil before).symm⟩
    · rw [if_neg hc, List.mem_singleton] at h
      exact ⟨[], rfl, h ▸ rfl, h ▸ (List.append_nil before).symm⟩

theorem head?_runEnds (test : Char → Bool) (kept : κ → Option (List Char))
    (before rest : List Char) :
    (runEnds test kept before rest).head?
      = some ⟨before ++ rest.takeWhile test, rest.dropWhile test, kept⟩ := by
  induction rest generalizing before with
  | nil => simp [runEnds]
  | cons c rest ih =>
    rw [runEnds]
    by_cases hc : test c = true
    · simp [hc, ih]
    · simp [hc]

theorem past_nil (s : Position κ) : s.past [] s.rest = s := by
  rw [past, List.append_nil]

variable [DecidableEq κ]

def keep (s : Position κ) (key : κ) (text : List Char) : Position κ :=
  { s with kept := fun k => if k = key then some text else s.kept k }

end Position

namespace Pattern

/-- Patterns one after the other. -/
def chain : List (Pattern κ) → Pattern κ
  | [] => nothing
  | p :: ps => seq p (chain ps)

/-- Whether a text is one that a pattern takes, wherever that stands. -/
def Spells : Pattern κ → List Char → Prop
  | nothing, cs => cs = []
  | one test, cs => ∃ c, cs = [c] ∧ test c = true
  | word text, cs => cs = text.toList
  | edge, cs => cs = []
  | finish, cs => cs = []
  | run test, cs => cs.all test = true
  | optional p, cs => p.Spells cs ∨ cs = []
  | either p q, cs => p.Spells cs ∨ q.Spells cs
  | seq p q, cs => ∃ front back, cs = front ++ back ∧ p.Spells front ∧ q.Spells back
  | keep _ p, cs => p.Spells cs

variable [DecidableEq κ] (isWord : Char → Bool)

/-- The ways to match a pattern from a place on, as the places where they end, the preferred one
first. -/
def ways : Pattern κ → Position κ → List (Position κ)
  | nothing, s => [s]
  | one test, s =>
    match s.rest with
    | [] => []
    | c :: rest => if test c then [s.past [c] rest] else []
  | word text, s =>
    match after? text s.rest with
    | some rest => [s.past text.toList rest]
    | none => []
  | edge, s => if s.isEdge isWord then [s] else []
  | finish, s => if s.rest = [] then [s] else []
  | run test, s => Position.runEnds test s.kept s.before s.rest
  | optional p, s => p.ways s ++ [s]
  | either p q, s => p.ways s ++ q.ways s
  | seq p q, s => (p.ways s).flatMap q.ways
  | keep key p, s => (p.ways s).map fun t => t.keep key (t.before.drop s.before.length)

/-- Where the preferred way to match a pattern ends. -/
def first? (p : Pattern κ) (s : Position κ) : Option (Position κ) := (p.ways isWord s).head?

/-- What the preferred match of a text keeps. -/
def match? (p : Pattern κ) (cs : List Char) : Option (κ → Option (List Char)) :=
  (p.first? isWord (.start cs)).map Position.kept

variable {isWord} {p q : Pattern κ} {s t u : Position κ}

/-! ### The ways of each pattern -/

theorem ways_one (test : Char → Bool) (s : Position κ) :
    (one test).ways isWord s = match s.rest with
      | [] => []
      | c :: rest => if test c then [s.past [c] rest] else [] := rfl

theorem ways_word (text : String) (s : Position κ) :
    (word text).ways isWord s = match after? text s.rest with
      | some rest => [s.past text.toList rest]
      | none => [] := rfl

theorem ways_edge (s : Position κ) :
    edge.ways isWord s = if s.isEdge isWord then [s] else [] := rfl

theorem ways_finish (s : Position κ) :
    finish.ways isWord s = if s.rest = [] then [s] else [] := rfl

theorem ways_optional (p : Pattern κ) (s : Position κ) :
    (optional p).ways isWord s = p.ways isWord s ++ [s] := rfl

theorem ways_either (p q : Pattern κ) (s : Position κ) :
    (either p q).ways isWord s = p.ways isWord s ++ q.ways isWord s := rfl

theorem ways_chain_cons (p : Pattern κ) (ps : List (Pattern κ)) (s : Position κ) :
    (chain (p :: ps)).ways isWord s
      = (p.ways isWord s).flatMap ((chain ps).ways isWord) := rfl

theorem ways_keep (key : κ) (p : Pattern κ) (s : Position κ) :
    (keep key p).ways isWord s
      = (p.ways isWord s).map fun t => t.keep key (t.before.drop s.before.length) := rfl

/-! ### All ways -/

/-- Every way takes a text that the pattern spells. -/
theorem exists_spells_of_mem_ways (h : t ∈ p.ways isWord s) :
    ∃ taken, p.Spells taken ∧ s.rest = taken ++ t.rest ∧ t.before = s.before ++ taken := by
  have hstay : ∀ {s t : Position κ}, t = s → s.rest = [] ++ t.rest ∧ t.before = s.before ++ [] := by
    rintro s t rfl
    exact ⟨rfl, (List.append_nil _).symm⟩
  induction p generalizing s t with
  | nothing => exact ⟨[], rfl, hstay (List.mem_singleton.mp h)⟩
  | one test =>
    rw [ways_one] at h
    split at h
    next => cases h
    next c rest hrest =>
      split at h
      next hc =>
        obtain rfl := List.mem_singleton.mp h
        exact ⟨[c], ⟨c, rfl, hc⟩, hrest, rfl⟩
      next => cases h
  | word text =>
    rw [ways_word] at h
    split at h
    next rest hrest =>
      obtain rfl := List.mem_singleton.mp h
      exact ⟨text.toList, rfl, after?_eq_some_iff.mp hrest, rfl⟩
    next => cases h
  | edge =>
    rw [ways_edge] at h
    split at h
    next => exact ⟨[], rfl, hstay (List.mem_singleton.mp h)⟩
    next => cases h
  | finish =>
    rw [ways_finish] at h
    split at h
    next => exact ⟨[], rfl, hstay (List.mem_singleton.mp h)⟩
    next => cases h
  | run test => exact Position.exists_of_mem_runEnds h
  | optional p ih =>
    rcases List.mem_append.mp h with h | h
    · obtain ⟨taken, hp, htaken⟩ := ih h
      exact ⟨taken, .inl hp, htaken⟩
    · exact ⟨[], .inr rfl, hstay (List.mem_singleton.mp h)⟩
  | either p q ihp ihq =>
    rcases List.mem_append.mp h with h | h
    · obtain ⟨taken, hp, htaken⟩ := ihp h
      exact ⟨taken, .inl hp, htaken⟩
    · obtain ⟨taken, hq, htaken⟩ := ihq h
      exact ⟨taken, .inr hq, htaken⟩
  | seq p q ihp ihq =>
    obtain ⟨u, hu, ht⟩ := List.mem_flatMap.mp h
    obtain ⟨front, hp, hs, hbefore⟩ := ihp hu
    obtain ⟨back, hq, hrest, hbefore'⟩ := ihq ht
    exact ⟨front ++ back, ⟨front, back, rfl, hp, hq⟩, by rw [hs, hrest, List.append_assoc],
      by rw [hbefore', hbefore, List.append_assoc]⟩
  | keep key p ih =>
    obtain ⟨u, hu, rfl⟩ := List.mem_map.mp h
    obtain ⟨taken, hp, htaken⟩ := ih hu
    exact ⟨taken, hp, htaken⟩

theorem mem_ways_chain_cons {ps : List (Pattern κ)} :
    t ∈ (chain (p :: ps)).ways isWord s
      ↔ ∃ u ∈ p.ways isWord s, t ∈ (chain ps).ways isWord u :=
  List.mem_flatMap

theorem mem_ways_edge : t ∈ edge.ways isWord s ↔ t = s ∧ s.isEdge isWord = true := by
  rw [ways_edge]
  split <;> simp [*]

theorem mem_ways_finish : t ∈ finish.ways isWord s ↔ t = s ∧ s.rest = [] := by
  rw [ways_finish]
  split <;> simp [*]

/-! ### The preferred way -/

theorem first?_chain_nil : (chain []).first? isWord s = some s := rfl

/-- The preferred way goes on from that of the first part. -/
theorem first?_chain_cons {ps : List (Pattern κ)} (hp : p.first? isWord s = some t)
    (hps : (chain ps).first? isWord t = some u) : (chain (p :: ps)).first? isWord s = some u := by
  obtain ⟨ts, hts⟩ := List.head?_eq_some_iff.mp hp
  obtain ⟨us, hus⟩ := List.head?_eq_some_iff.mp hps
  simp [first?, ways_chain_cons, hts, hus]

theorem first?_one {test : Char → Bool} {c : Char} {rest : List Char} (hc : test c = true)
    (hs : s.rest = c :: rest) : (one test).first? isWord s = some (s.past [c] rest) := by
  simp [first?, ways_one, hs, hc]

theorem first?_word {text : String} {rest : List Char} (hs : s.rest = text.toList ++ rest) :
    (word text).first? isWord s = some (s.past text.toList rest) := by
  simp [first?, ways_word, hs]

theorem first?_edge (hs : s.isEdge isWord = true) : edge.first? isWord s = some s := by
  simp [first?, ways_edge, hs]

theorem first?_finish (hs : s.rest = []) : finish.first? isWord s = some s := by
  simp [first?, ways_finish, hs]

/-- A run goes as far as it can. -/
theorem first?_run (test : Char → Bool) (s : Position κ) :
    (run test).first? isWord s = some (s.past (s.rest.takeWhile test) (s.rest.dropWhile test)) :=
  Position.head?_runEnds test s.kept s.before s.rest

theorem first?_optional (p : Pattern κ) (s : Position κ) :
    (optional p).first? isWord s = (p.first? isWord s).or (some s) := by
  simp [first?, ways_optional, List.head?_append]

theorem first?_either (p q : Pattern κ) (s : Position κ) :
    (either p q).first? isWord s = (p.first? isWord s).or (q.first? isWord s) := by
  simp [first?, ways_either, List.head?_append]

theorem first?_keep {key : κ} {taken rest : List Char}
    (hp : p.first? isWord s = some (s.past taken rest)) :
    (keep key p).first? isWord s = some ((s.past taken rest).keep key taken) := by
  obtain ⟨ts, hts⟩ := List.head?_eq_some_iff.mp hp
  simp [first?, ways_keep, hts, Position.past]

theorem first?_keep_eq_none {key : κ} (hp : p.first? isWord s = none) :
    (keep key p).first? isWord s = none := by
  rw [first?, ways_keep, List.head?_map]
  exact Option.map_eq_none_iff.mpr hp

theorem first?_word_eq_none {text : String} (hs : after? text s.rest = none) :
    (word text).first? isWord s = none := by
  simp [first?, ways_word, hs]

/-- An optional character is taken when it is there. -/
theorem exists_first?_optional_one (isWord : Char → Bool) (test : Char → Bool) (s : Position κ) :
    ∃ taken, s.rest = taken ++ skipOne test s.rest
      ∧ (optional (one test)).first? isWord s = some (s.past taken (skipOne test s.rest)) := by
  have hstay (hnone : (one test).first? isWord s = none) (hskip : skipOne test s.rest = s.rest) :
      s.rest = [] ++ skipOne test s.rest
        ∧ (optional (one test)).first? isWord s = some (s.past [] (skipOne test s.rest)) := by
    rw [first?_optional, hnone, Option.none_or, hskip, Position.past_nil]
    exact ⟨rfl, rfl⟩
  obtain hs | ⟨c, rest, hs⟩ : s.rest = [] ∨ ∃ c rest, s.rest = c :: rest := by
    cases s.rest <;> simp
  · exact ⟨[], hstay (by simp [first?, ways_one, hs]) (by rw [hs, skipOne])⟩
  · by_cases hc : test c = true
    · refine ⟨[c], ?_⟩
      rw [first?_optional, first?_one hc hs, Option.some_or, hs, skipOne_cons_pos hc]
      exact ⟨rfl, rfl⟩
    · exact ⟨[], hstay (by simp [first?, ways_one, hs, hc]) (by rw [hs, skipOne_cons_neg hc])⟩

end Pattern

end Inclusion.Text
