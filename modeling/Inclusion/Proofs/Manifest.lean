import Inclusion.Dependency.Reading
import Inclusion.Manifest.File
import Inclusion.Proofs.Text

/-!
# A manifest declares nothing

Strings of JSON are not broken over lines, so a line of a JSON text starts with a bracket, a comma, a
colon, a quote, a number or a literal, and none of these starts as the verb of a declaration does.
What a reader takes off the front of a text is `Mute` then, as long as the rest is: this goes through
all readers, from the characters of a string up to a whole record.

* `mute_readBody`, `mute_skipValue`, `careful_readRecord`: what readers take is mute.
* `ofLine?_eq_none_of_mute`: no line of a mute text declares a dependency.
* `Manifest.ofLine?_eq_none_of_ofText`: no line of a manifest does.
-/
namespace Inclusion

open Text

/-- Whether a character is the first one of a verb. -/
def startsVerb (c : Char) : Bool := Verb.all.any fun v => v.text.toList.head? == some c

/-- Characters with which a line may start, but no declaration. -/
def isSolid (c : Char) : Bool := c != '\n' && !isBlank c && !startsVerb c

/-- Whether no line of a text starts with a verb, where blanks count as nothing. The first line may
have begun before the text: `fresh` says that nothing stands on it yet. -/
def Mute : (fresh : Bool) → List Char → Prop
  | _, [] => True
  | fresh, c :: cs =>
    if c = '\n' then Mute true cs
    else if fresh && isBlank c then Mute true cs
    else (fresh = true → startsVerb c = false) ∧ Mute false cs

namespace Mute

theorem relax {cs : List Char} (h : Mute true cs) : Mute false cs := by
  induction cs with
  | nil => trivial
  | cons c cs ih =>
    unfold Mute at h ⊢
    split
    next hc => rwa [if_pos hc] at h
    next hc =>
      rw [if_neg hc] at h
      rw [if_neg (by simp)]
      split at h
      next => exact ⟨nofun, ih h⟩
      next => exact ⟨nofun, h.2⟩

theorem cons_space {c : Char} (hc : Json.isSpace c = true) {cs : List Char} (h : Mute true cs) :
    Mute true (c :: cs) := by
  have hblank : isBlank c = true := by
    simp only [Json.isSpace, Bool.or_eq_true, beq_iff_eq] at hc
    rcases hc with ((rfl | rfl) | rfl) | rfl <;> decide
  simp only [Mute, hblank, Bool.and_self, ↓reduceIte]
  split <;> exact h

theorem cons_inside {c : Char} (hc : c ≠ '\n') {cs : List Char} (h : Mute false cs) :
    Mute false (c :: cs) := by
  rw [Mute, if_neg hc, if_neg (by simp)]
  exact ⟨nofun, h⟩

theorem cons {c : Char} (hc : isSolid c = true) {cs : List Char} (h : Mute false cs) :
    Mute true (c :: cs) := by
  simp only [isSolid, Bool.and_eq_true, bne_iff_ne, Bool.not_eq_true'] at hc
  rw [Mute, if_neg hc.1.1, if_neg (by simp [hc.1.2])]
  exact ⟨fun _ => hc.2, h⟩

theorem append {word cs : List Char} (hword : '\n' ∉ word) (h : Mute false cs) :
    Mute false (word ++ cs) := by
  induction word with
  | nil => exact h
  | cons c word ih =>
    rw [List.mem_cons, not_or] at hword
    exact cons_inside (Ne.symm hword.1) (ih hword.2)

end Mute

/-! ### The lines of a mute text -/

/-- Whether a line does not start with a verb. -/
def Speechless (cs : List Char) : Prop := ∀ c, (trimStart cs).head? = some c → startsVerb c = false

theorem Mute.lines {fresh : Bool} {cs : List Char} (h : Mute fresh cs) :
    ∃ first rest, cs.splitOn '\n' = first :: rest ∧ (fresh = true → Speechless first)
      ∧ ∀ line ∈ rest, Speechless line := by
  have hnil : Speechless [] := fun c hc => by simp [trimStart] at hc
  induction cs generalizing fresh with
  | nil => exact ⟨[], [], rfl, fun _ => hnil, fun _ hline => by simp at hline⟩
  | cons c cs ih =>
    rw [List.splitOn_cons_eq_if_modifyHead]
    simp only [Mute] at h
    by_cases hc : c = '\n'
    · subst hc
      have hnext : Mute true cs := by simpa using h
      obtain ⟨first, rest, hsplit, hfirst, hrest⟩ := ih hnext
      refine ⟨[], first :: rest, by simp [hsplit], fun _ => hnil, fun line hline => ?_⟩
      rcases List.mem_cons.mp hline with rfl | hline
      · exact hfirst rfl
      · exact hrest line hline
    · rw [if_neg hc] at h
      split at h
      next hblank =>
        obtain ⟨rfl, hleft⟩ : fresh = true ∧ isBlank c = true := by simpa using hblank
        obtain ⟨first, rest, hsplit, hfirst, hrest⟩ := ih h
        refine ⟨c :: first, rest, by simp [hsplit, hc], fun _ => ?_, hrest⟩
        have htrim : trimStart (c :: first) = trimStart first := by simp [trimStart, hleft]
        rw [Speechless, htrim]
        exact hfirst rfl
      next hsolid =>
        obtain ⟨first, rest, hsplit, -, hrest⟩ := ih h.2
        refine ⟨c :: first, rest, by simp [hsplit, hc], fun hfresh => ?_, hrest⟩
        subst hfresh
        have hsolid : isBlank c = false := by simpa using hsolid
        intro d hd
        simp only [trimStart, List.dropWhile_cons, hsolid, Bool.false_eq_true, ↓reduceIte,
          List.head?_cons, Option.some.injEq] at hd
        exact hd ▸ h.1 rfl

theorem Speechless.ofLine?_eq_none {line : String} (h : Speechless line.toList) :
    Dependency.ofLine? line = none := by
  refine Option.eq_none_iff_forall_ne_some.mpr fun d hd => ?_
  obtain ⟨declaration, hread, -⟩ := Option.bind_eq_some_iff.mp hd
  obtain ⟨⟨rest, hverb⟩, -⟩ := Declaration.of_read? hread
  obtain ⟨v', hv, hfound⟩ := List.exists_of_findSome?_eq_some hverb
  obtain ⟨rest', hafter, heq⟩ := Option.map_eq_some_iff.mp hfound
  obtain ⟨-, rfl⟩ := Prod.mk.inj heq
  rw [after?_eq_some_iff] at hafter
  have hprefix : trim line.toList <+: trimStart line.toList := by
    have hsuffix := List.dropWhile_suffix (l := (trimStart line.toList).reverse) isBlank
    have := List.reverse_prefix.mpr hsuffix
    rwa [List.reverse_reverse] at this
  rw [hafter] at hprefix
  obtain ⟨tail, htail⟩ := hprefix
  obtain ⟨c, word, hword⟩ : ∃ c word, v'.text.toList = c :: word := by
    cases v' <;> exact ⟨_, _, rfl⟩
  have hhead : (trimStart line.toList).head? = some c := by rw [← htail, hword]; rfl
  have hstarts : startsVerb c = true := List.any_eq_true.mpr ⟨v', hv, by simp [hword]⟩
  simp [h c hhead] at hstarts

theorem ofLine?_eq_none_of_mute {text : String} (h : Mute true text.toList) {line : String}
    (hline : line ∈ splitLines text) : Dependency.ofLine? line = none := by
  obtain ⟨first, rest, hsplit, hfirst, hrest⟩ := h.lines
  obtain ⟨cs, hcs, rfl⟩ := List.mem_map.mp hline
  refine Speechless.ofLine?_eq_none ?_
  rw [String.toList_ofList]
  rw [hsplit] at hcs
  rcases List.mem_cons.mp hcs with rfl | hcs
  · exact hfirst rfl
  · exact hrest cs hcs

namespace Json

theorem exists_of_map_eq_ok {ε α β : Type} {x : Except ε α} {f : α → β} {b : β}
    (h : x.map f = .ok b) : ∃ a, x = .ok a ∧ f a = b := by
  cases x with
  | error e => cases h
  | ok a => exact ⟨a, rfl, Except.ok.inj h⟩

/-! ### Strings -/

theorem mute_skipSpace {cs : List Char} (h : Mute true (skipSpace cs)) : Mute true cs := by
  induction cs with
  | nil => trivial
  | cons c cs ih =>
    by_cases hc : isSpace c = true
    · rw [skipSpace, List.dropWhile_cons, if_pos hc] at h
      exact (ih h).cons_space hc
    · rwa [skipSpace, List.dropWhile_cons, if_neg hc] at h

/-- What stands after the white space of a text. -/
theorem mute_of_skipSpace_eq {cs rest : List Char} {c : Char} (hskip : skipSpace cs = c :: rest)
    (h : Mute true (c :: rest)) : Mute true cs := mute_skipSpace (hskip ▸ h)

theorem lineFeed_not_mem_take_hex4 {cs : List Char} {n : Nat} (h : hex4 cs = .ok n) :
    '\n' ∉ cs.take 4 := by
  unfold hex4 at h
  split at h
  next a b c d rest =>
    split at h
    next digits hdigits =>
      intro hmem
      have hall : ∀ e ∈ [a, b, c, d], (hexValue? e).isSome = true := by
        simp only [List.mapM_cons, List.mapM_nil, Option.bind_eq_bind, Option.pure_def] at hdigits
        obtain ⟨va, ha, hdigits⟩ := Option.bind_eq_some_iff.mp hdigits
        obtain ⟨_, hdigits, -⟩ := Option.bind_eq_some_iff.mp hdigits
        obtain ⟨vb, hb, hdigits⟩ := Option.bind_eq_some_iff.mp hdigits
        obtain ⟨_, hdigits, -⟩ := Option.bind_eq_some_iff.mp hdigits
        obtain ⟨vc, hc, hdigits⟩ := Option.bind_eq_some_iff.mp hdigits
        obtain ⟨_, hdigits, -⟩ := Option.bind_eq_some_iff.mp hdigits
        obtain ⟨vd, hd, -⟩ := Option.bind_eq_some_iff.mp hdigits
        simp [ha, hb, hc, hd]
      have hfeed := hall '\n' (by simpa using hmem)
      exact absurd hfeed (by decide)
    next => cases h
  next => cases h

theorem lineFeed_not_mem_take_lowHalf {cs : List Char} {n : Nat} (h : lowHalf cs = .ok n) :
    '\n' ∉ cs.take 6 := by
  unfold lowHalf at h
  split at h
  next => cases h
  next b cs =>
    split at h
    next => cases h
    next hb =>
      split at h
      next => cases h
      next u cs =>
        split at h
        next => cases h
        next hu =>
          split at h
          next => cases h
          next m hhex =>
            have hdigits := lineFeed_not_mem_take_hex4 hhex
            simp only [ne_eq, Decidable.not_not] at hb hu
            simp [hb, hu, hdigits]

theorem lineFeed_not_mem_take_unicodeEscape {cs : List Char} {d : Char} {used : Nat}
    (h : unicodeEscape cs = .ok (d, used)) : '\n' ∉ cs.take used := by
  unfold unicodeEscape at h
  split at h
  next => cases h
  next n hhex =>
    have hfirst := lineFeed_not_mem_take_hex4 hhex
    split at h
    next => cases h
    next =>
      split at h
      next =>
        split at h
        next => cases h
        next m hlow =>
          have hsecond := lineFeed_not_mem_take_lowHalf hlow
          simp only [Except.ok.injEq, Prod.mk.injEq] at h
          rw [← h.2, show (10 : Nat) = 4 + 6 from rfl, List.take_add, List.mem_append, not_or]
          exact ⟨hfirst, hsecond⟩
      next => cases h; exact hfirst

/-- An escape takes no line feed. -/
theorem lineFeed_not_mem_take_escape {paired : Bool} {cs : List Char} {d : Char} {used : Nat}
    (h : escape paired cs = .ok (d, used)) : '\n' ∉ cs.take used := by
  unfold escape at h
  split at h
  next => cases h
  next e cs =>
    split at h
    next he =>
      subst he
      have hnumber : ∀ {taken}, '\n' ∉ cs.take taken → '\n' ∉ ('u' :: cs).take (taken + 1) := by
        intro taken htaken
        simp [htaken]
      split at h
      next =>
        obtain ⟨r, hunicode, heq⟩ := exists_of_map_eq_ok h
        cases heq
        exact hnumber (lineFeed_not_mem_take_unicodeEscape hunicode)
      next =>
        obtain ⟨n, hhex, heq⟩ := exists_of_map_eq_ok h
        cases heq
        exact hnumber (lineFeed_not_mem_take_hex4 hhex)
    next =>
      split at h
      next c hplain =>
        cases h
        have he : '\n' ≠ e := by
          rintro rfl
          simp [plainEscape?] at hplain
        simp [he]
      next => cases h

theorem mute_readBody {paired : Bool} {seen cs rest : List Char} {skip : Nat} {s : String}
    (h : readBody paired seen skip cs = .ok (s, rest)) (hskip : '\n' ∉ cs.take skip)
    (hrest : Mute false rest) : Mute false cs := by
  fun_induction readBody paired seen skip cs with
  | case1 => cases h
  | case2 seen skip c cs ih =>
    rw [List.take_succ_cons, List.mem_cons, not_or] at hskip
    exact (ih h hskip.2).cons_inside (Ne.symm hskip.1)
  | case3 seen cs =>
    cases h
    exact hrest.cons_inside (by decide)
  | case4 => cases h
  | case5 seen cs d used hescape _ ih =>
    exact (ih h (lineFeed_not_mem_take_escape hescape)).cons_inside (by decide)
  | case6 => cases h
  | case7 seen c cs hquote hslash hprintable ih =>
    refine (ih h (by simp)).cons_inside ?_
    rintro rfl
    exact hprintable (by decide)

/-! ### Numbers and literals -/

theorem isSolid_of_isDigit {c : Char} (h : c.isDigit = true) : isSolid c = true := by
  have hrange : 48 ≤ c.toNat ∧ c.toNat ≤ 57 := by
    simpa [Char.isDigit, UInt32.le_iff_toNat_le] using h
  have hfeed : c ≠ '\n' := by rintro rfl; exact absurd h (by decide)
  have hblank : isBlank c = false := by
    simp only [isBlank, Bool.or_eq_false_iff, Bool.and_eq_false_iff, decide_eq_false_iff_not,
      beq_eq_false_iff_ne]
    omega
  have hverb : startsVerb c = false := by
    refine Bool.eq_false_iff.mpr fun hstarts => ?_
    obtain ⟨v, -, hv⟩ := List.any_eq_true.mp hstarts
    cases v <;> obtain rfl := Option.some.inj (beq_iff_eq.mp hv) <;> exact absurd h (by decide)
  simp [isSolid, hfeed, hblank, hverb]

theorem mute_readDigits {early : Fault} {cs digits rest : List Char}
    (h : readDigits early cs = .ok (digits, rest)) (hrest : Mute false rest) : Mute true cs := by
  unfold readDigits at h
  split at h
  next => cases h
  next =>
    split at h
    next => cases h
    next hne =>
      cases h
      rw [← List.takeWhile_append_dropWhile (p := Char.isDigit) (l := cs)]
      have hdigits : ∀ c ∈ cs.takeWhile Char.isDigit, isSolid c = true := fun c hc =>
        isSolid_of_isDigit (List.all_eq_true.mp List.all_takeWhile c hc)
      obtain ⟨d, ds, hds⟩ := List.exists_cons_of_ne_nil hne
      rw [hds] at hdigits ⊢
      refine Mute.cons (hdigits d (List.mem_cons_self ..)) (Mute.append (fun hmem => ?_) hrest)
      exact absurd (hdigits _ (List.mem_cons_of_mem _ hmem)) (by decide)

theorem mute_readExponent {early : Fault} {d d' : Decimal} {cs rest : List Char}
    (h : readExponent early d cs = .ok (d', rest)) (hrest : Mute false rest) : Mute false cs := by
  unfold readExponent at h
  split at h
  next => trivial
  next e cs =>
    split at h
    next he =>
      dsimp only at h
      split at h
      next => cases h
      next digits rest' hdigits =>
        cases h
        refine Mute.cons_inside (by rcases he with rfl | rfl <;> decide) ?_
        have hunsigned := (mute_readDigits hdigits hrest).relax
        split at hunsigned
        next hsign =>
          cases cs with
          | nil => trivial
          | cons sign cs =>
            refine Mute.cons_inside ?_ hunsigned
            rintro rfl
            simp at hsign
        next => exact hunsigned
    next => cases h; exact hrest

theorem mute_readNumber {early : Fault} {d : Decimal} {cs rest : List Char}
    (h : readNumber early cs = .ok (d, rest)) (hrest : Mute false rest) : Mute true cs := by
  have hsigned : Mute true (if cs.head? = some '-' then cs.tail else cs) → Mute true cs := by
    intro hunsigned
    split at hunsigned
    next hsign =>
      cases cs with
      | nil => trivial
      | cons sign cs =>
        obtain rfl : sign = '-' := by simpa using hsign
        exact hunsigned.relax.cons (by decide)
    next => exact hunsigned
  refine hsigned ?_
  unfold readNumber at h
  dsimp only at h
  split at h
  next => cases h
  next digits rest' hdigits =>
    refine mute_readDigits hdigits ?_
    split at h
    next => cases h
    next =>
      split at h
      next rest'' =>
        split at h
        next => cases h
        next fraction rest₃ hfraction =>
          refine Mute.cons_inside (by decide) (mute_readDigits hfraction ?_).relax
          exact mute_readExponent h hrest
      next => exact mute_readExponent h hrest

theorem mute_readWord {word cs rest : List Char} (h : readWord word cs = .ok rest)
    (hword : '\n' ∉ word) (hrest : Mute false rest) : Mute false cs := by
  fun_induction readWord word cs with
  | case1 => cases h; exact hrest
  | case2 => cases h
  | case3 w word cs ih =>
    rw [List.mem_cons, not_or] at hword
    exact (ih h hword.2).cons_inside (Ne.symm hword.1)
  | case4 => cases h

theorem of_literalRest? {c : Char} {word : List Char} (h : literalRest? c = some word) :
    isSolid c = true ∧ '\n' ∉ word := by
  unfold literalRest? at h
  split at h
  next hc => cases h; subst hc; decide
  next =>
    split at h
    next hc => cases h; subst hc; decide
    next =>
      split at h
      next hc => cases h; subst hc; decide
      next => cases h

/-! ### Skipped values -/

def Skipped.rest : Skipped → List Char
  | done rest => rest
  | inside _ rest => rest

theorem mute_skipScalar {c : Char} {cs rest : List Char} (h : skipScalar c cs = .ok rest)
    (hrest : Mute true rest) : Mute true (c :: cs) := by
  unfold skipScalar at h
  split at h
  next hc =>
    subst hc
    obtain ⟨r, hbody, rfl⟩ := exists_of_map_eq_ok h
    exact Mute.cons (by decide) (mute_readBody hbody (by simp) hrest.relax)
  next =>
    split at h
    next =>
      obtain ⟨r, hnumber, rfl⟩ := exists_of_map_eq_ok h
      exact mute_readNumber hnumber hrest.relax
    next =>
      split at h
      next word hword =>
        obtain ⟨hc, hfeed⟩ := of_literalRest? hword
        exact Mute.cons hc (mute_readWord h hfeed hrest.relax)
      next => cases h

theorem mute_enterItem {b : Bracket} {outer : List Bracket} {cs : List Char} {r : Skipped}
    (h : enterItem b outer cs = .ok r) (hrest : Mute true r.rest) : Mute true cs := by
  unfold enterItem at h
  split at h
  next => cases h; exact hrest
  next =>
    split at h
    next => cases h
    next c cs hskip =>
      split at h
      next => cases h
      next hc =>
        obtain rfl : c = '"' := by simpa using hc
        split at h
        next => cases h
        next key cs hbody =>
          split at h
          next => cases h
          next d cs hskip' =>
            split at h
            next hd =>
              cases h
              subst hd
              have hcolon := mute_of_skipSpace_eq hskip' (Mute.cons (by decide) hrest.relax)
              exact mute_of_skipSpace_eq hskip
                (Mute.cons (by decide) (mute_readBody hbody (by simp) hcolon.relax))
            next => cases h

theorem Bracket.isSolid_closing (b : Bracket) : isSolid b.closing = true := by
  cases b <;> decide

theorem mute_leaveBrackets {brackets : List Bracket} {cs : List Char} {r : Skipped}
    (h : leaveBrackets brackets cs = .ok r) (hrest : Mute true r.rest) : Mute true cs := by
  induction brackets generalizing cs with
  | nil => cases h; exact hrest
  | cons b outer ih =>
    unfold leaveBrackets at h
    split at h
    next => cases h
    next c cs hskip =>
      refine mute_of_skipSpace_eq hskip ?_
      split at h
      next hc => exact Mute.cons (hc ▸ b.isSolid_closing) (ih h).relax
      next =>
        split at h
        next hc => exact Mute.cons (hc ▸ by decide) (mute_enterItem h hrest).relax
        next => cases h

theorem isSolid_of_opened? {c : Char} {b : Bracket} (h : Bracket.opened? c = some b) :
    isSolid c = true := by
  unfold Bracket.opened? at h
  split at h
  next hc => exact hc ▸ by decide
  next =>
    split at h
    next hc => exact hc ▸ by decide
    next => cases h

theorem mute_skipStep {brackets : List Bracket} {cs : List Char} {r : Skipped}
    (h : skipStep brackets cs = .ok r) (hrest : Mute true r.rest) : Mute true cs := by
  unfold skipStep at h
  split at h
  next => cases h
  next c cs hskip =>
    refine mute_of_skipSpace_eq hskip ?_
    split at h
    next =>
      split at h
      next => cases h
      next hscalar => exact mute_skipScalar hscalar (mute_leaveBrackets h hrest)
    next b hopened =>
      refine Mute.cons (isSolid_of_opened? hopened) (Mute.relax ?_)
      split at h
      next => cases h
      next d rest hskip' =>
        refine mute_of_skipSpace_eq hskip' ?_
        split at h
        next hd =>
          exact Mute.cons (hd ▸ b.isSolid_closing) (mute_leaveBrackets h hrest).relax
        next => exact mute_enterItem h hrest

theorem mute_skipValue {cs rest : List Char} (h : skipValue cs = .ok rest)
    (hrest : Mute true rest) : Mute true cs := by
  have hsteps : ∀ (steps : List Char) (brackets : List Bracket) (cs : List Char),
      skipSteps steps brackets cs = .ok rest → Mute true cs := by
    intro steps
    induction steps with
    | nil => exact fun _ _ h => by cases h
    | cons _ steps ih =>
      intro brackets cs h
      unfold skipSteps at h
      split at h
      next => cases h
      next hstep => cases h; exact mute_skipStep hstep hrest
      next hstep => exact mute_skipStep hstep (ih _ _ h)
  exact hsteps cs [] cs h

/-! ### Typed values -/

/-- Whether what a reader takes off a text is mute, as far as the rest is. -/
def Careful {α : Type} (read : Reader α) : Prop :=
  ∀ cs value rest, read cs = .ok (value, rest) → Mute true rest → Mute true cs

theorem careful_readString : Careful readString := by
  intro cs value rest h hrest
  unfold readString at h
  split at h
  next => cases h
  next c cs hskip =>
    refine mute_of_skipSpace_eq hskip ?_
    split at h
    next hc => exact Mute.cons (hc ▸ by decide) (mute_readBody h (by simp) hrest.relax)
    next => cases h

/-- Where an item starts: at once if it is the first one, else behind a comma. -/
theorem mute_of_itemStart {first : Bool} {c : Char} {cs start : List Char}
    (h : (if first then Except.ok (c :: cs)
      else if c ≠ ',' then .error Fault.malformed
      else
        match skipSpace cs with
        | [] => .error .truncated
        | d :: rest => if d = ']' then .error .malformed else .ok (d :: rest)) = .ok start)
    (hstart : Mute true start) : Mute true (c :: cs) := by
  split at h
  next => cases h; exact hstart
  next =>
    split at h
    next => cases h
    next hc =>
      obtain rfl : c = ',' := by simpa using hc
      refine Mute.cons (by decide) (Mute.relax ?_)
      split at h
      next => cases h
      next d rest hskip =>
        split at h
        next => cases h
        next => cases h; exact mute_of_skipSpace_eq hskip hstart

theorem careful_readItems {α : Type} {item : Reader α} (hitem : Careful item)
    (steps : List Char) (first : Bool) : Careful (readItems item steps first) := by
  induction steps generalizing first with
  | nil => exact fun _ _ _ h => by cases h
  | cons _ steps ih =>
    intro cs values rest h hrest
    unfold readItems at h
    split at h
    next => cases h
    next c tail hskip =>
      refine mute_of_skipSpace_eq hskip ?_
      split at h
      next hc => cases h; exact Mute.cons (hc ▸ by decide) hrest.relax
      next =>
        dsimp only at h
        split at h
        next => cases h
        next start hstart =>
          split at h
          next => cases h
          next value cs₂ hvalue =>
            obtain ⟨r, hitems, heq⟩ := exists_of_map_eq_ok h
            cases heq
            exact mute_of_itemStart hstart (hitem _ _ _ hvalue (ih false _ _ _ hitems hrest))

theorem careful_readList {α : Type} {item : Reader α} (hitem : Careful item) :
    Careful (readList item) := by
  intro cs values rest h hrest
  unfold readList at h
  split at h
  next => cases h
  next c cs hskip =>
    refine mute_of_skipSpace_eq hskip ?_
    split at h
    next hc =>
      exact Mute.cons (hc ▸ by decide) (careful_readItems hitem _ _ _ _ _ h hrest).relax
    next => cases h

theorem Careful.into {α δ : Type} {read : Reader α} (h : Careful read) (set : δ → α → δ)
    (draft : δ) : Careful (into read set draft) := by
  intro cs value rest hread hrest
  unfold Json.into at hread
  obtain ⟨r, hvalue, heq⟩ := exists_of_map_eq_ok hread
  cases heq
  exact h _ _ _ hvalue hrest

theorem mute_readColon {cs rest : List Char} (h : readColon cs = .ok rest)
    (hrest : Mute true rest) : Mute true cs := by
  unfold readColon at h
  split at h
  next => cases h
  next c cs hskip =>
    split at h
    next hc => cases h; exact mute_of_skipSpace_eq hskip (Mute.cons (hc ▸ by decide) hrest.relax)
    next => cases h

section

variable {δ : Type} {fields : List (RecordField δ)}
  (hfields : ∀ field ∈ fields, ∀ draft, Careful (field.read draft))

include hfields

theorem mute_readMember {draft draft' : δ} {cs rest : List Char}
    (h : readMember fields draft cs = .ok (draft', rest)) (hrest : Mute true rest) :
    Mute false cs := by
  unfold readMember at h
  split at h
  next => cases h
  next key cs₁ hkey =>
    refine mute_readBody hkey (by simp) (Mute.relax ?_)
    split at h
    next field hfield =>
      split at h
      next => cases h
      next =>
        split at h
        next => cases h
        next cs₂ hcolon =>
          refine mute_readColon hcolon ?_
          exact hfields field (List.mem_of_find?_eq_some hfield) draft _ _ _ h hrest
    next =>
      split at h
      next => cases h
      next cs₂ hcolon =>
        refine mute_readColon hcolon ?_
        obtain ⟨rest', hskip, heq⟩ := exists_of_map_eq_ok h
        cases heq
        exact mute_skipValue hskip hrest

theorem careful_readMembers (steps : List Char) (first : Bool) (draft : δ) :
    Careful (readMembers fields steps first draft) := by
  induction steps generalizing first draft with
  | nil => exact fun _ _ _ h => by cases h
  | cons _ steps ih =>
    intro cs draft' rest h hrest
    unfold readMembers at h
    split at h
    next => cases h
    next c tail hskip =>
      refine mute_of_skipSpace_eq hskip ?_
      split at h
      next hc => cases h; exact Mute.cons (hc ▸ by decide) hrest.relax
      next =>
        dsimp only at h
        split at h
        next => cases h
        next start hstart =>
          split at h
          next => cases h
          next draft₁ cs₂ hmember =>
            have hnext := mute_readMember hfields hmember (ih false _ _ _ _ h hrest)
            split at hstart
            next =>
              split at hstart
              next hc => cases hstart; exact Mute.cons (hc ▸ by decide) hnext
              next => cases hstart
            next =>
              split at hstart
              next => cases hstart
              next hc =>
                obtain rfl : c = ',' := by simpa using hc
                refine Mute.cons (by decide) (Mute.relax ?_)
                split at hstart
                next => cases hstart
                next d tail' hskip' =>
                  refine mute_of_skipSpace_eq hskip' ?_
                  split at hstart
                  next hd => cases hstart; exact Mute.cons (hd ▸ by decide) hnext
                  next => cases hstart

theorem careful_readValues (first : Bool) (draft : δ) :
    Careful (readValues fields first draft) := by
  induction fields generalizing first draft with
  | nil =>
    intro cs draft' rest h hrest
    unfold readValues at h
    split at h
    next => cases h
    next c tail hskip =>
      refine mute_of_skipSpace_eq hskip ?_
      split at h
      next hc => cases h; exact Mute.cons (hc ▸ by decide) hrest.relax
      next => cases h
  | cons field fields ih =>
    obtain ⟨hfield, hothers⟩ := List.forall_mem_cons.mp hfields
    intro cs draft' rest h hrest
    unfold readValues at h
    split at h
    next => cases h
    next c tail hskip =>
      refine mute_of_skipSpace_eq hskip ?_
      split at h
      next hc => cases h; exact Mute.cons (hc ▸ by decide) hrest.relax
      next =>
        dsimp only at h
        split at h
        next => cases h
        next start hstart =>
          split at h
          next => cases h
          next draft₁ cs₂ hvalue =>
            exact mute_of_itemStart hstart
              (hfield draft _ _ _ hvalue (ih hothers false _ _ _ _ h hrest))

theorem careful_readRecord {α : Type} (start : δ) (finish : δ → Option α) :
    Careful (readRecord fields start finish) := by
  intro cs value rest h hrest
  unfold readRecord at h
  dsimp only at h
  split at h
  next => cases h
  next draft rest' hdrafted =>
    split at h
    next => cases h
    next =>
      cases h
      split at hdrafted
      next => cases hdrafted
      next c tail hskip =>
        refine mute_of_skipSpace_eq hskip ?_
        split at hdrafted
        next hc =>
          exact Mute.cons (hc ▸ by decide)
            (careful_readMembers hfields _ _ _ _ _ _ hdrafted hrest).relax
        next =>
          split at hdrafted
          next hc =>
            exact Mute.cons (hc ▸ by decide)
              (careful_readValues hfields _ _ _ _ _ hdrafted hrest).relax
          next => cases hdrafted

end

/-- A whole text of JSON is mute. -/
theorem mute_readDocument {α : Type} {read : Reader α} (hread : Careful read) {text : String}
    {value : α} (h : readDocument read text = .ok value) : Mute true text.toList := by
  unfold readDocument at h
  split at h
  next => cases h
  next value' rest hvalue =>
    refine hread _ _ _ hvalue (mute_skipSpace ?_)
    split at h
    next hrest => rw [hrest]; trivial
    next => cases h

end Json

namespace Manifest

open Json

theorem careful_readModule : Careful readModule := by
  refine careful_readRecord (fun field hfield draft => ?_) _ _
  simp only [moduleFields, List.mem_cons, List.not_mem_nil, or_false] at hfield
  rcases hfield with rfl | rfl | rfl
  · exact careful_readString.into (fun d s => { d with name? := some s }) draft
  · exact careful_readString.into (fun d s => { d with path? := some s }) draft
  · exact careful_readString.into (fun d s => { d with group? := some s }) draft

/-- No line of a manifest declares a dependency. -/
theorem ofLine?_eq_none_of_ofText {text : String} {path : Path} {manifest : Manifest}
    (h : ofText text path = .ok manifest) {line : String} (hline : line ∈ splitLines text) :
    Dependency.ofLine? line = none := by
  have hfields : ∀ field ∈ fields, ∀ draft, Careful (field.read draft) := by
    intro field hfield draft
    simp only [fields, List.mem_cons, List.not_mem_nil, or_false] at hfield
    rcases hfield with rfl | rfl | rfl
    · exact careful_readString.into (fun d s => { d with name? := some s }) draft
    · exact careful_readString.into (fun d s => { d with settingsPath? := some s }) draft
    · exact (careful_readList careful_readModule).into
        (fun d us => { d with modules? := some us }) draft
  unfold ofText at h
  cases hread : Manifest.read text with
  | error =>
    rw [hread] at h
    cases h
  | ok m =>
    exact ofLine?_eq_none_of_mute (mute_readDocument (careful_readRecord hfields _ _) hread) hline

end Manifest

end Inclusion
