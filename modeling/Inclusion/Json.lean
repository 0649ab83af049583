/-!
# JSON: faults, strings and layout

The three ways in which a text can fail to be the wanted document, how a string is written, and how
lists and records are laid out over lines. Reading is in `Inclusion.Json.Reading`.
-/
namespace Inclusion.Json

/-- Why a text is not the wanted document: it ends early, it is no JSON, or it is JSON of another
shape. The first problem in the order of the text decides. -/
inductive Fault
  | truncated
  | malformed
  | mismatched
deriving DecidableEq, Repr

/-- A fault in words. -/
def Fault.message : Fault → String
  | .truncated => "the text ends early"
  | .malformed => "the text is not JSON"
  | .mismatched => "a value is missing, repeated or of the wrong type"

/-- The lower-case hexadecimal digit of a number below sixteen. -/
def hexDigit (n : Nat) : Char := Char.ofNat (if n < 10 then n + 0x30 else n + 0x57)

/-- A character inside a string: quotes, backslashes and control characters are escaped. -/
def escapeChar (c : Char) : List Char :=
  if c = '"' then ['\\', '"']
  else if c = '\\' then ['\\', '\\']
  else if c = '\x08' then ['\\', 'b']
  else if c = '\x09' then ['\\', 't']
  else if c = '\x0a' then ['\\', 'n']
  else if c = '\x0c' then ['\\', 'f']
  else if c = '\x0d' then ['\\', 'r']
  else if c.toNat < 0x20 then
    ['\\', 'u', '0', '0', hexDigit (c.toNat / 16), hexDigit (c.toNat % 16)]
  else [c]

/-- A string between quotes. -/
def quote (s : String) : String :=
  "\"" ++ String.ofList (s.toList.flatMap escapeChar) ++ "\""

/-- Items between brackets, one to a line and two columns further in than the brackets, or the bare
brackets if there is no item. -/
def layout (opening closing : String) (indent : Nat) (items : List String) : String :=
  if items = [] then opening ++ closing
  else
    let pad := String.ofList (List.replicate (indent + 2) ' ')
    opening ++ "\n" ++ ",\n".intercalate (items.map (pad ++ ·)) ++ "\n"
      ++ String.ofList (List.replicate indent ' ') ++ closing

def layoutList (indent : Nat) (items : List String) : String := layout "[" "]" indent items

/-- A record over several lines, from the texts of its values. -/
def layoutRecord (indent : Nat) (fields : List (String × String)) : String :=
  layout "\x7b" "\x7d" indent (fields.map fun f => quote f.1 ++ ": " ++ f.2)

/-- A record on one line. -/
def compactRecord (fields : List (String × String)) : String :=
  "\x7b" ++ ",".intercalate (fields.map fun f => quote f.1 ++ ":" ++ f.2) ++ "\x7d"

end Inclusion.Json
