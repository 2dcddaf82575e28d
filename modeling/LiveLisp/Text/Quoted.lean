/-
  Quoted text: between double quotes, with escapes for the quote, the backslash, controls,
  characters that attach to their neighbour and characters that show nothing.
-/
import LiveLisp.Text.Extending
import LiveLisp.Text.Unprintable

namespace LiveLisp.Text

/-- Lower-case hexadecimal digits, without padding. -/
def hex (n : Nat) : String :=
  String.ofList (Nat.toDigits 16 n)

/-- The halfwidth sound marks extend the letter before them, and yet show well on their own. -/
def isHalfwidthMark (c : Char) : Bool :=
  c == '\uff9e' || c == '\uff9f'

/-- Whether quoted text gives a character by its number. -/
def needsNumber (c : Char) : Bool :=
  unprintable.contains c || (extending.contains c && !isHalfwidthMark c)

def escape (c : Char) : String :=
  if c == '\x00' then "\\0"
  else if c == '\t' then "\\t"
  else if c == '\r' then "\\r"
  else if c == '\n' then "\\n"
  else if c == '\\' then "\\\\"
  else if c == '"' then "\\\""
  else if 0x20 ≤ c.toNat && c.toNat < 0x7f then c.toString
  else if needsNumber c then "\\u\x7b" ++ hex c.toNat ++ "\x7d"
  else c.toString

def quote (s : String) : String :=
  "\"" ++ String.join (s.toList.map escape) ++ "\""

/-- Texts, each quoted, between square brackets. -/
def quoteAll (texts : List String) : String :=
  "[" ++ String.intercalate ", " (texts.map quote) ++ "]"

end LiveLisp.Text
