/-!
# Blank characters and trimming

Unicode white space as a table of code points, and the removal of blanks from the ends of a text.

* `isBlank_of_isWhitespace`: the ASCII white space of the core library is blank.
* `blanks_append_trimStart`: trimming the start drops the leading blanks and nothing else.
* `trim_eq_nil_iff`: a text trims to nothing exactly when all of it is blank.
-/
namespace Inclusion.Text

/-- Unicode white space. -/
def isBlank (c : Char) : Bool :=
  let n := c.toNat
  (0x9 ≤ n && n ≤ 0xD) || n == 0x20 || n == 0x85 || n == 0xA0 || n == 0x1680
    || (0x2000 ≤ n && n ≤ 0x200A) || n == 0x2028 || n == 0x2029 || n == 0x202F || n == 0x205F
    || n == 0x3000

/-- The blanks that a text starts with. -/
def blanks (cs : List Char) : List Char := cs.takeWhile isBlank

def trimStart (cs : List Char) : List Char := cs.dropWhile isBlank

def trimEnd (cs : List Char) : List Char := (cs.reverse.dropWhile isBlank).reverse

def trim (cs : List Char) : List Char := trimEnd (trimStart cs)

theorem isBlank_of_isWhitespace (c : Char) (h : c.isWhitespace = true) : isBlank c = true := by
  simp only [Char.isWhitespace, Bool.or_eq_true, decide_eq_true_eq] at h
  rcases h with ((h | h) | h) | h <;> subst h <;> decide

theorem blanks_append_trimStart (cs : List Char) : blanks cs ++ trimStart cs = cs :=
  List.takeWhile_append_dropWhile

theorem isBlank_of_mem_blanks {cs : List Char} {c : Char} (h : c ∈ blanks cs) :
    isBlank c = true := by
  induction cs with
  | nil => simp [blanks] at h
  | cons d cs ih =>
    by_cases hd : isBlank d = true
    · simp only [blanks, List.takeWhile_cons, hd, ↓reduceIte, List.mem_cons] at h ih
      rcases h with h | h
      · exact h ▸ hd
      · exact ih h
    · simp [blanks, hd] at h

theorem trimStart_eq_nil_iff {cs : List Char} :
    trimStart cs = [] ↔ ∀ c ∈ cs, isBlank c = true := by
  induction cs with
  | nil => simp [trimStart]
  | cons c cs ih =>
    by_cases h : isBlank c = true
    · rw [trimStart, List.dropWhile_cons, if_pos h, List.forall_mem_cons]
      exact ih.trans ⟨fun hcs => ⟨h, hcs⟩, And.right⟩
    · simp [trimStart, h]

theorem trimEnd_eq_nil_iff {cs : List Char} : trimEnd cs = [] ↔ ∀ c ∈ cs, isBlank c = true := by
  have h : trimStart cs.reverse = [] ↔ ∀ c ∈ cs.reverse, isBlank c = true := trimStart_eq_nil_iff
  rw [trimEnd, List.reverse_eq_nil_iff]
  exact h.trans (forall_congr' fun c => by rw [List.mem_reverse])

theorem trim_eq_nil_iff {cs : List Char} : trim cs = [] ↔ ∀ c ∈ cs, isBlank c = true := by
  rw [trim, trimEnd_eq_nil_iff]
  constructor
  · intro h c hc
    rw [← blanks_append_trimStart cs, List.mem_append] at hc
    exact hc.elim isBlank_of_mem_blanks (h c)
  · intro h c hc
    exact h c ((List.dropWhile_sublist isBlank).mem hc)

end Inclusion.Text
