import Inclusion.Json
import Inclusion.Json.Magnitude

/-!
# Reading JSON in the order of the text

A reader takes the rest of a text and answers a value with what follows it, or the first fault.
Readers are typed: a string, a list or a record is asked for, and what stands there instead is read
just as far as is needed to name the fault. Unknown fields of a record are skipped whatever their
nesting; inside them neither the range of numbers nor the pairing of surrogates counts.

* `readBody_append`: a written string reads back, whatever follows.
-/
namespace Inclusion.Json

/-- Reads a value off the front of a text. -/
abbrev Reader (α : Type) := List Char → Except Fault (α × List Char)

def isSpace (c : Char) : Bool := c == ' ' || c == '\n' || c == '\t' || c == '\r'

def skipSpace (cs : List Char) : List Char := cs.dropWhile isSpace

/-! ### Strings -/

def hexValue? (c : Char) : Option Nat :=
  if c.isDigit then some (c.toNat - 0x30)
  else if 'a' ≤ c ∧ c ≤ 'f' then some (c.toNat - 0x57)
  else if 'A' ≤ c ∧ c ≤ 'F' then some (c.toNat - 0x37)
  else none

/-- The number of the four hexadecimal digits in front; fewer than four bytes are an early end. -/
def hex4 (cs : List Char) : Except Fault Nat :=
  match cs with
  | a :: b :: c :: d :: _ =>
    match [a, b, c, d].mapM hexValue? with
    | some digits => .ok (digits.foldl (fun n digit => n * 16 + digit) 0)
    | none => .error .malformed
  | _ => .error (if (String.ofList cs).utf8ByteSize < 4 then .truncated else .malformed)

def isHighHalf (n : Nat) : Bool := 0xD800 ≤ n && n ≤ 0xDBFF

def isLowHalf (n : Nat) : Bool := 0xDC00 ≤ n && n ≤ 0xDFFF

/-- The low half that has to follow a high one: `\u` and four digits. -/
def lowHalf (cs : List Char) : Except Fault Nat :=
  match cs with
  | [] => .error .truncated
  | b :: cs =>
    if b ≠ '\\' then .error .malformed
    else
      match cs with
      | [] => .error .truncated
      | u :: cs =>
        if u ≠ 'u' then .error .malformed
        else
          match hex4 cs with
          | .error fault => .error fault
          | .ok n => if isLowHalf n then .ok n else .error .malformed

/-- The character of an escape by number, after `\u`, and how many characters it takes. A half of a
surrogate pair needs the other half. -/
def unicodeEscape (cs : List Char) : Except Fault (Char × Nat) :=
  match hex4 cs with
  | .error fault => .error fault
  | .ok n =>
    if isLowHalf n then .error .malformed
    else if isHighHalf n then
      match lowHalf (cs.drop 4) with
      | .error fault => .error fault
      | .ok m => .ok (Char.ofNat (0x10000 + (n - 0xD800) * 0x400 + (m - 0xDC00)), 10)
    else .ok (Char.ofNat n, 4)

def plainEscape? (c : Char) : Option Char :=
  if c = '"' ∨ c = '\\' ∨ c = '/' then some c
  else if c = 'b' then some '\x08'
  else if c = 'f' then some '\x0c'
  else if c = 'n' then some '\n'
  else if c = 'r' then some '\r'
  else if c = 't' then some '\t'
  else none

/-- The character of an escape, after its backslash, and how many characters it takes. Where halves
need not be `paired`, an escape by number stands for some character. -/
def escape (paired : Bool) (cs : List Char) : Except Fault (Char × Nat) :=
  match cs with
  | [] => .error .truncated
  | e :: cs =>
    if e = 'u' then
      if paired then (unicodeEscape cs).map fun r => (r.1, r.2 + 1)
      else (hex4 cs).map fun _ => ('\x00', 5)
    else
      match plainEscape? e with
      | some c => .ok (c, 1)
      | none => .error .malformed

/-- Reads a string up to and with its closing quote. `seen` holds the characters so far, the last
one first, and `skip` counts characters that an escape has already taken. -/
def readBody (paired : Bool) : List Char → Nat → List Char → Except Fault (String × List Char)
  | _, _, [] => .error .truncated
  | seen, skip + 1, _ :: cs => readBody paired seen skip cs
  | seen, 0, c :: cs =>
    if c = '"' then .ok (String.ofList seen.reverse, cs)
    else if c = '\\' then
      match escape paired cs with
      | .error fault => .error fault
      | .ok (d, used) => readBody paired (d :: seen) used cs
    else if c.toNat < 0x20 then .error .malformed
    else readBody paired (c :: seen) 0 cs

/-! ### Numbers and literals -/

/-- One digit or more; `early` is the fault of a text that ends before. -/
def readDigits (early : Fault) : Reader (List Char) := fun cs =>
  if cs = [] then .error early
  else if cs.takeWhile Char.isDigit = [] then .error .malformed
  else .ok (cs.takeWhile Char.isDigit, cs.dropWhile Char.isDigit)

def digitValue (c : Char) : Nat := c.toNat - 0x30

/-- The exponent of a number, if one follows. -/
def readExponent (early : Fault) (d : Decimal) : Reader Decimal
  | [] => .ok (d, [])
  | e :: cs =>
    if e = 'e' ∨ e = 'E' then
      let negative := cs.head? = some '-'
      let unsigned := if negative ∨ cs.head? = some '+' then cs.tail else cs
      match readDigits early unsigned with
      | .error fault => .error fault
      | .ok (digits, rest) =>
        let power : Nat := digits.foldl (fun n c => n * 10 + digitValue c) 0
        .ok (d.scale (if negative then -power else power), rest)
    else .ok (d, e :: cs)

/-- A number without its sign. -/
def readNumber (early : Fault) : Reader Decimal := fun cs =>
  let unsigned := if cs.head? = some '-' then cs.tail else cs
  match readDigits early unsigned with
  | .error fault => .error fault
  | .ok (digits, rest) =>
    if digits.head? = some '0' ∧ digits.length ≠ 1 then .error .malformed
    else
      let whole := digits.foldl (fun d c => d.whole (digitValue c)) {}
      match rest with
      | '.' :: rest =>
        match readDigits early rest with
        | .error fault => .error fault
        | .ok (digits, rest) =>
          let point : Decimal := { whole with full := false }
          readExponent early (digits.foldl (fun d c => d.fraction (digitValue c)) point) rest
      | rest => readExponent early whole rest

/-- Reads a word letter by letter. -/
def readWord : List Char → List Char → Except Fault (List Char)
  | [], cs => .ok cs
  | _ :: _, [] => .error .truncated
  | w :: word, c :: cs => if c = w then readWord word cs else .error .malformed

/-- What follows the first letter of a literal. -/
def literalRest? (c : Char) : Option (List Char) :=
  if c = 'n' then some ['u', 'l', 'l']
  else if c = 't' then some ['r', 'u', 'e']
  else if c = 'f' then some ['a', 'l', 's', 'e']
  else none

def startsNumber (c : Char) : Bool := c == '-' || c.isDigit

/-! ### Skipping a value -/

inductive Bracket
  | square
  | curly
deriving DecidableEq

def Bracket.opened? (c : Char) : Option Bracket :=
  if c = '[' then some .square else if c = '\x7b' then some .curly else none

def Bracket.closing : Bracket → Char
  | .square => ']'
  | .curly => '\x7d'

/-- How far a skip has come: to the end of the value, or to a value inside open brackets. -/
inductive Skipped
  | done (rest : List Char)
  | inside (brackets : List Bracket) (rest : List Char)

/-- To the start of an item of the innermost bracket: in a record its key and colon come first. -/
def enterItem (bracket : Bracket) (outer : List Bracket) (cs : List Char) :
    Except Fault Skipped :=
  match bracket with
  | .square => .ok (.inside (.square :: outer) cs)
  | .curly =>
    match skipSpace cs with
    | [] => .error .truncated
    | c :: cs =>
      if c ≠ '"' then .error .malformed
      else
        match readBody false [] 0 cs with
        | .error fault => .error fault
        | .ok (_, cs) =>
          match skipSpace cs with
          | [] => .error .truncated
          | c :: cs =>
            if c = ':' then .ok (.inside (.curly :: outer) cs) else .error .malformed

/-- After a value: out of every bracket that closes, up to a comma or the end. -/
def leaveBrackets : List Bracket → List Char → Except Fault Skipped
  | [], cs => .ok (.done cs)
  | b :: outer, cs =>
    match skipSpace cs with
    | [] => .error .truncated
    | c :: cs =>
      if c = b.closing then leaveBrackets outer cs
      else if c = ',' then enterItem b outer cs
      else .error .malformed

/-- Skips a value that holds no other one, from its first character. -/
def skipScalar (c : Char) (cs : List Char) : Except Fault (List Char) :=
  if c = '"' then (readBody false [] 0 cs).map Prod.snd
  else if startsNumber c then (readNumber .malformed (c :: cs)).map Prod.snd
  else
    match literalRest? c with
    | some word => readWord word cs
    | none => .error .malformed

/-- Skips a scalar or an opening bracket, and what closes after it. -/
def skipStep (brackets : List Bracket) (cs : List Char) : Except Fault Skipped :=
  match skipSpace cs with
  | [] => .error .truncated
  | c :: cs =>
    match Bracket.opened? c with
    | none =>
      match skipScalar c cs with
      | .error fault => .error fault
      | .ok rest => leaveBrackets brackets rest
    | some b =>
      match skipSpace cs with
      | [] => .error .truncated
      | d :: rest =>
        if d = b.closing then leaveBrackets brackets rest else enterItem b brackets (d :: rest)

/-- Skips on from inside open brackets, at most as many steps as `steps` is long. -/
def skipSteps : (steps : List Char) → List Bracket → List Char → Except Fault (List Char)
  | [], _, _ => .error .truncated
  | _ :: steps, brackets, cs =>
    match skipStep brackets cs with
    | .error fault => .error fault
    | .ok (.done rest) => .ok rest
    | .ok (.inside brackets rest) => skipSteps steps brackets rest

/-- Skips a value of any kind and depth. Every step takes a character, so the text itself is long
enough to count the steps. -/
def skipValue (cs : List Char) : Except Fault (List Char) := skipSteps cs [] cs

/-! ### Typed values -/

/-- The fault of a value of another type than wanted, from its first character. A bracket is refused
at once, anything else after it was read. -/
def strayFault (c : Char) (cs : List Char) : Fault :=
  if (Bracket.opened? c).isSome then .mismatched
  else if c = '"' then
    match readBody true [] 0 cs with
    | .error fault => fault
    | .ok _ => .mismatched
  else if startsNumber c then
    match readNumber .truncated (c :: cs) with
    | .error fault => fault
    | .ok (d, _) => if d.fits then .mismatched else .malformed
  else
    match literalRest? c with
    | none => .malformed
    | some word =>
      match readWord word cs with
      | .error fault => fault
      | .ok _ => .mismatched

def readString : Reader String := fun cs =>
  match skipSpace cs with
  | [] => .error .truncated
  | c :: cs => if c = '"' then readBody true [] 0 cs else .error (strayFault c cs)

/-- Reads the items of a list up to its closing bracket; `first` says that none was read. Every item
takes a character, so a text is long enough to count its items. -/
def readItems {α : Type} (item : Reader α) : (steps : List Char) → Bool → Reader (List α)
  | [], _, _ => .error .truncated
  | _ :: steps, first, cs =>
    match skipSpace cs with
    | [] => .error .truncated
    | c :: rest =>
      if c = ']' then .ok ([], rest)
      else
        let start : Except Fault (List Char) :=
          if first then .ok (c :: rest)
          else if c ≠ ',' then .error .malformed
          else
            match skipSpace rest with
            | [] => .error .truncated
            | d :: rest => if d = ']' then .error .malformed else .ok (d :: rest)
        match start with
        | .error fault => .error fault
        | .ok cs =>
          match item cs with
          | .error fault => .error fault
          | .ok (value, cs) =>
            (readItems item steps false cs).map fun r => (value :: r.1, r.2)

def readList {α : Type} (item : Reader α) : Reader (List α) := fun cs =>
  match skipSpace cs with
  | [] => .error .truncated
  | c :: cs =>
    if c = '[' then readItems item cs true cs else .error (strayFault c cs)

/-- A field of a record under construction: its key, whether it was read, and how it is read. -/
structure RecordField (δ : Type) where
  key : String
  filled : δ → Bool
  read : δ → Reader δ

/-- Reads a value into a record under construction. -/
def into {α δ : Type} (read : Reader α) (set : δ → α → δ) : δ → Reader δ := fun draft cs =>
  (read cs).map fun r => (set draft r.1, r.2)

/-- The colon between a key and its value. -/
def readColon (cs : List Char) : Except Fault (List Char) :=
  match skipSpace cs with
  | [] => .error .truncated
  | c :: cs => if c = ':' then .ok cs else .error .malformed

/-- Reads one member of a record from behind the quote of its key. A known key may come once. -/
def readMember {δ : Type} (fields : List (RecordField δ)) (draft : δ) : Reader δ := fun cs =>
  match readBody true [] 0 cs with
  | .error fault => .error fault
  | .ok (key, cs) =>
    match fields.find? (fun f => f.key == key) with
    | some field =>
      if field.filled draft then .error .mismatched
      else
        match readColon cs with
        | .error fault => .error fault
        | .ok cs => field.read draft cs
    | none =>
      match readColon cs with
      | .error fault => .error fault
      | .ok cs => (skipValue cs).map fun rest => (draft, rest)

/-- Reads the members of a record up to its closing bracket. Every member takes a character, so a
text is long enough to count its members. -/
def readMembers {δ : Type} (fields : List (RecordField δ)) :
    (steps : List Char) → Bool → δ → Reader δ
  | [], _, _, _ => .error .truncated
  | _ :: steps, first, draft, cs =>
    match skipSpace cs with
    | [] => .error .truncated
    | c :: rest =>
      if c = '\x7d' then .ok (draft, rest)
      else
        let start : Except Fault (List Char) :=
          if first then if c = '"' then .ok rest else .error .malformed
          else if c ≠ ',' then .error .malformed
          else
            match skipSpace rest with
            | [] => .error .truncated
            | d :: rest => if d = '"' then .ok rest else .error .malformed
        match start with
        | .error fault => .error fault
        | .ok cs =>
          match readMember fields draft cs with
          | .error fault => .error fault
          | .ok (draft, cs) => readMembers fields steps false draft cs

/-- Reads a record written as the list of its values in the order of the fields; values may be
missing at the end. -/
def readValues {δ : Type} : List (RecordField δ) → Bool → δ → Reader δ
  | [], _, draft, cs =>
    match skipSpace cs with
    | [] => .error .truncated
    | c :: rest => if c = ']' then .ok (draft, rest) else .error .malformed
  | field :: fields, first, draft, cs =>
    match skipSpace cs with
    | [] => .error .truncated
    | c :: rest =>
      if c = ']' then .ok (draft, rest)
      else
        let start : Except Fault (List Char) :=
          if first then .ok (c :: rest)
          else if c ≠ ',' then .error .malformed
          else
            match skipSpace rest with
            | [] => .error .truncated
            | d :: rest => if d = ']' then .error .malformed else .ok (d :: rest)
        match start with
        | .error fault => .error fault
        | .ok cs =>
          match field.read draft cs with
          | .error fault => .error fault
          | .ok (draft, cs) => readValues fields false draft cs

/-- Reads a record with the given fields; `finish` completes it and refuses one that lacks a field,
which is noticed at its closing bracket. -/
def readRecord {α δ : Type} (fields : List (RecordField δ)) (start : δ) (finish : δ → Option α) :
    Reader α := fun cs =>
  let drafted : Except Fault (δ × List Char) :=
    match skipSpace cs with
    | [] => .error .truncated
    | c :: cs =>
      if c = '\x7b' then readMembers fields cs true start cs
      else if c = '[' then readValues fields true start cs
      else .error (strayFault c cs)
  match drafted with
  | .error fault => .error fault
  | .ok (draft, rest) =>
    match finish draft with
    | none => .error .mismatched
    | some value => .ok (value, rest)

/-- The value of a whole text: nothing but white space may follow it. -/
def readDocument {α : Type} (read : Reader α) (text : String) : Except Fault α :=
  match read text.toList with
  | .error fault => .error fault
  | .ok (value, rest) => if skipSpace rest = [] then .ok value else .error .malformed

/-! ### What was written reads back -/

theorem hexValue?_hexDigit {n : Nat} (h : n < 16) : hexValue? (hexDigit n) = some n := by
  have hall : ∀ k ∈ List.range 16, hexValue? (hexDigit k) = some k := by decide
  exact hall n (List.mem_range.mpr h)

theorem hex4_hexDigits {m n : Nat} (hm : m < 16) (hn : n < 16) (rest : List Char) :
    hex4 ('0' :: '0' :: hexDigit m :: hexDigit n :: rest) = .ok (m * 16 + n) := by
  have h0 : hexValue? '0' = some 0 := by decide
  simp [hex4, h0, hexValue?_hexDigit hm, hexValue?_hexDigit hn]

theorem readBody_control {c : Char} (h : c.toNat < 0x20) (seen rest : List Char) :
    readBody true seen 0
        ('\\' :: 'u' :: '0' :: '0' :: hexDigit (c.toNat / 16) :: hexDigit (c.toNat % 16) :: rest)
      = readBody true (c :: seen) 0 rest := by
  have hhex := hex4_hexDigits (m := c.toNat / 16) (n := c.toNat % 16) (by omega) (by omega) rest
  have hval : c.toNat / 16 * 16 + c.toNat % 16 = c.toNat := by omega
  have hlow : isLowHalf c.toNat = false := by simp [isLowHalf]; omega
  have hhigh : isHighHalf c.toNat = false := by simp [isHighHalf]; omega
  have hesc : escape true
      ('u' :: '0' :: '0' :: hexDigit (c.toNat / 16) :: hexDigit (c.toNat % 16) :: rest)
        = .ok (c, 5) := by
    simp [escape, unicodeEscape, hhex, hval, hlow, hhigh, Except.map, Char.ofNat_toNat]
  rw [readBody, if_neg (by decide), if_pos rfl, hesc]
  simp [readBody]

theorem readBody_plain {e c : Char} (hu : e ≠ 'u') (h : plainEscape? e = some c)
    (seen rest : List Char) :
    readBody true seen 0 ('\\' :: e :: rest) = readBody true (c :: seen) 0 rest := by
  simp [readBody, escape, hu, h]

/-- A written character reads back. -/
theorem readBody_escapeChar (c : Char) (seen rest : List Char) :
    readBody true seen 0 (escapeChar c ++ rest) = readBody true (c :: seen) 0 rest := by
  unfold escapeChar
  split
  next h => subst h; exact readBody_plain (by decide) (by decide) seen rest
  split
  next h => subst h; exact readBody_plain (by decide) (by decide) seen rest
  split
  next h => subst h; exact readBody_plain (by decide) (by decide) seen rest
  split
  next h => subst h; exact readBody_plain (by decide) (by decide) seen rest
  split
  next h => subst h; exact readBody_plain (by decide) (by decide) seen rest
  split
  next h => subst h; exact readBody_plain (by decide) (by decide) seen rest
  split
  next h => subst h; exact readBody_plain (by decide) (by decide) seen rest
  split
  next h => exact readBody_control h seen rest
  next hq hb _ _ _ _ _ h => simp [readBody, hq, hb, h]

theorem readBody_append (s seen rest : List Char) :
    readBody true seen 0 (s.flatMap escapeChar ++ '"' :: rest)
      = .ok (String.ofList (seen.reverse ++ s), rest) := by
  induction s generalizing seen with
  | nil => simp [readBody]
  | cons c s ih =>
    rw [List.flatMap_cons, List.append_assoc, readBody_escapeChar, ih]
    simp

end Inclusion.Json
