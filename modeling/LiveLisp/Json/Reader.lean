/-
  Reading JSON text: the whole text is one value with blanks around it. Strings may hold no raw
  control characters; a number without point and exponent is an integer.

  The names in an outermost object hold no half of a surrogate pair. Further in, a half stands for
  U+FFFD: there nothing is looked up by name.

  Every value takes at least one character, so the length of the text bounds the depth of the
  recursion.
-/
import LiveLisp.Decimal.Reader
import LiveLisp.Json.Basic

namespace LiveLisp.Json

def isSpace (c : Char) : Bool :=
  c == ' ' || c == '\n' || c == '\t' || c == '\r'

def skipSpace (cs : List Char) : List Char :=
  cs.dropWhile isSpace

def hexDigit? (c : Char) : Option Nat :=
  if '0' ≤ c && c ≤ '9' then some (c.toNat - '0'.toNat)
  else if 'a' ≤ c && c ≤ 'f' then some (c.toNat - 'a'.toNat + 10)
  else if 'A' ≤ c && c ≤ 'F' then some (c.toNat - 'A'.toNat + 10)
  else none

/-- Four hexadecimal digits, and what follows them. -/
def hex4? : List Char → Option (Nat × List Char)
  | a :: b :: c :: d :: rest => do
    let a ← hexDigit? a
    let b ← hexDigit? b
    let c ← hexDigit? c
    let d ← hexDigit? d
    return (((a * 16 + b) * 16 + c) * 16 + d, rest)
  | _ => none

/-- Whether half of a surrogate pair may stand alone. -/
inductive Halves where
  | refused
  | replaced
deriving DecidableEq

/-- What half of a surrogate pair stands for. -/
def Halves.char? : Halves → Option Char
  | .refused => none
  | .replaced => some '\ufffd'

/-- The character that the two halves of a surrogate pair make. -/
def pair? (high low : Nat) : Option Char :=
  if 0xd800 ≤ high && high < 0xdc00 && 0xdc00 ≤ low && low < 0xe000 then
    some (Char.ofNat (0x10000 + (high - 0xd800) * 0x400 + (low - 0xdc00)))
  else none

/-- The second half of a pair, if one follows its first half. -/
def lowHalf? (high : Nat) : List Char → Option (Char × List Char)
  | '\\' :: 'u' :: more => do
    let (low, rest) ← hex4? more
    return (← pair? high low, rest)
  | _ => none

/-- The character after `\u`; the two halves of a pair make one. -/
def unicode? (halves : Halves) (cs : List Char) : Option (Char × List Char) := do
  let (code, rest) ← hex4? cs
  if 0xd800 ≤ code && code < 0xe000 then
    match lowHalf? code rest with
    | some found => return found
    | none => return (← halves.char?, rest)
  else return (Char.ofNat code, rest)

/-- The character that a letter after a backslash stands for. -/
def escaped? (c : Char) : Option Char :=
  match c with
  | '"' => some '"'
  | '\\' => some '\\'
  | '/' => some '/'
  | 'b' => some '\x08'
  | 'f' => some '\x0c'
  | 'n' => some '\n'
  | 'r' => some '\r'
  | 't' => some '\t'
  | _ => none

/-- The rest of a string whose opening quote has been read; `done` is its text so far, reversed. -/
def string? (halves : Halves) : Nat → List Char → List Char → Option (String × List Char)
  | 0, _, _ => none
  | _, _, [] => none
  | fuel + 1, done, c :: rest =>
    if c == '"' then some (String.ofList done.reverse, rest)
    else if c == '\\' then
      match rest with
      | 'u' :: more => do
        let (c, more) ← unicode? halves more
        string? halves fuel (c :: done) more
      | letter :: more => do
        let c ← escaped? letter
        string? halves fuel (c :: done) more
      | [] => none
    else if c.toNat < 0x20 then none
    else string? halves fuel (c :: done) rest

/-- A number: no leading zeros, and digits on both sides of a point. -/
def number? (cs : List Char) : Option (Json × List Char) := do
  let (negative, unsigned) := match cs with
    | '-' :: rest => (true, rest)
    | _ => (false, cs)
  let whole := unsigned.takeWhile Decimal.isDigit
  let rest := unsigned.dropWhile Decimal.isDigit
  if whole.isEmpty || (whole.head? == some '0' && whole.length != 1) then none
  let (fraction?, rest) := match rest with
    | '.' :: after => (some (after.takeWhile Decimal.isDigit), after.dropWhile Decimal.isDigit)
    | _ => (none, rest)
  if fraction? == some [] then none
  let (exponent?, rest) := match rest with
    | mark :: after =>
      if mark == 'e' || mark == 'E' then
        let (sign, after) := match after with
          | '-' :: ds => (['-'], ds)
          | '+' :: ds => ([], ds)
          | ds => ([], ds)
        (some (mark :: sign ++ after.takeWhile Decimal.isDigit), after.dropWhile Decimal.isDigit)
      else (none, rest)
    | [] => (none, rest)
  match fraction?, exponent? with
  | none, none =>
    let magnitude := Decimal.natOfDigits whole
    if negative then
      return (if magnitude = 0 then decimal (-0.0) else integer (-magnitude), rest)
    else return (integer magnitude, rest)
  | _, _ => do
    let exponent ← Decimal.exponent? (exponent?.getD [])
    return (decimal (Decimal.ofParts negative whole (fraction?.getD []) exponent), rest)

/-- The rest after a fixed word. -/
def word? (word : String) (value : Json) (cs : List Char) : Option (Json × List Char) :=
  if cs.take word.length == word.toList then some (value, cs.drop word.length) else none

mutual

/-- A value, in which names of members may hold halves of pairs as given; values inside it may
always. -/
def value? (names : Halves) : Nat → List Char → Option (Json × List Char)
  | 0, _ => none
  | fuel + 1, cs =>
    match skipSpace cs with
    | [] => none
    | 'n' :: rest => word? "null" null ('n' :: rest)
    | 't' :: rest => word? "true" (bool true) ('t' :: rest)
    | 'f' :: rest => word? "false" (bool false) ('f' :: rest)
    | '"' :: rest => do
      let (content, rest) ← string? .replaced (rest.length + 1) [] rest
      return (text content, rest)
    | '[' :: rest =>
      match skipSpace rest with
      | ']' :: rest => some (array [], rest)
      | rest => do
        let (items, rest) ← items? fuel rest
        return (array items, rest)
    | '\x7b' :: rest =>
      match skipSpace rest with
      | '\x7d' :: rest => some (object [], rest)
      | rest => do
        let (members, rest) ← members? names fuel rest
        return (object members, rest)
    | rest => number? rest

/-- Items up to the closing bracket; there is at least one. -/
def items? : Nat → List Char → Option (List Json × List Char)
  | 0, _ => none
  | fuel + 1, cs => do
    let (item, rest) ← value? .replaced fuel cs
    match skipSpace rest with
    | ',' :: rest =>
      let (items, rest) ← items? fuel rest
      return (item :: items, rest)
    | ']' :: rest => return ([item], rest)
    | _ => none

/-- Members up to the closing brace; there is at least one. -/
def members? (names : Halves) : Nat → List Char → Option (List (String × Json) × List Char)
  | 0, _ => none
  | fuel + 1, cs => do
    match skipSpace cs with
    | '"' :: rest =>
      let (key, rest) ← string? names (rest.length + 1) [] rest
      match skipSpace rest with
      | ':' :: rest =>
        let (value, rest) ← value? .replaced fuel rest
        match skipSpace rest with
        | ',' :: rest =>
          let (members, rest) ← members? names fuel rest
          return ((key, value) :: members, rest)
        | '\x7d' :: rest => return ([(key, value)], rest)
        | _ => none
      | _ => none
    | _ => none

end

/-- The value that a whole text is. -/
def parse? (source : String) : Option Json := do
  let cs := source.toList
  let (value, rest) ← value? .refused (cs.length + 1) cs
  if (skipSpace rest).isEmpty then return value else none

end LiveLisp.Json
