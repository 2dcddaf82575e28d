/-
  Settings files in TOML, read into the same values as JSON: a table becomes an object. Dates and
  times become their text.

  `parse?` reads line by line. A key may be defined once, and a table may be opened once. Keys have
  fewer than `depthLimit` parts, and arrays and inline tables stand inside fewer than that many
  others.
-/
import LiveLisp.Decimal.Reader
import LiveLisp.Json.Reader

namespace LiveLisp.Toml

/-- How a table came about: by a header of its own, as a step on the way of a longer header, or as a
step of a dotted key. -/
inductive Origin where
  | header
  | passage
  | dotted
deriving DecidableEq

/-- Where a key path leads: a value, which may be a table written inline; a table; or an array of
tables. -/
inductive Entry where
  | value (json : Json)
  | table (origin : Origin) (members : List (String × Entry))
  | tables (items : List (List (String × Entry)))
deriving Inhabited

abbrev Table := List (String × Entry)

/-- Keys with so many parts, and values in so many brackets, are refused. -/
def depthLimit : Nat := 80

def isBareKey (c : Char) : Bool :=
  c.isAlphanum || c == '_' || c == '-'

def isGap (c : Char) : Bool :=
  c == ' ' || c == '\t'

def skipGap (cs : List Char) : List Char :=
  cs.dropWhile isGap

/-- Controls other than a tab stand in no string and no comment. -/
def isControl (c : Char) : Bool :=
  (c.toNat < 0x20 && c != '\t') || c.toNat == 0x7f

/-- What is left of a line after its content: blanks and a comment. -/
def restOfLine? (cs : List Char) : Option (List Char) :=
  let cs := skipGap cs
  let cs := match cs with
    | '#' :: rest => rest.dropWhile fun c => !isControl c
    | _ => cs
  match cs with
  | [] => some []
  | '\n' :: rest => some rest
  | '\r' :: '\n' :: rest => some rest
  | _ => none

/-- Blanks, line ends and comments, as they may stand inside an array. -/
def skipLines : Nat → List Char → List Char
  | 0, cs => cs
  | fuel + 1, cs =>
    match skipGap cs with
    | '\n' :: rest => skipLines fuel rest
    | '\r' :: '\n' :: rest => skipLines fuel rest
    | '#' :: rest => skipLines fuel (rest.dropWhile fun c => !isControl c)
    | cs => cs

def hexNumber? (digits : Nat) (cs : List Char) : Option (Nat × List Char) := do
  let taken := cs.take digits
  if taken.length < digits then none
  else
    let values ← taken.mapM Json.hexDigit?
    return (values.foldl (fun n d => n * 16 + d) 0, cs.drop digits)

def scalar? (n : Nat) : Option Char :=
  if n < 0xd800 || (0xe000 ≤ n && n < 0x110000) then some (Char.ofNat n) else none

/-- The character that an escape stands for. -/
def escape? : List Char → Option (Char × List Char)
  | 'b' :: rest => some ('\x08', rest)
  | 't' :: rest => some ('\t', rest)
  | 'n' :: rest => some ('\n', rest)
  | 'f' :: rest => some ('\x0c', rest)
  | 'r' :: rest => some ('\r', rest)
  | '"' :: rest => some ('"', rest)
  | '\\' :: rest => some ('\\', rest)
  | 'u' :: rest => do
    let (n, rest) ← hexNumber? 4 rest
    return (← scalar? n, rest)
  | 'U' :: rest => do
    let (n, rest) ← hexNumber? 8 rest
    return (← scalar? n, rest)
  | _ => none

/-- The rest of a string on one line, after its opening quote. -/
def basic? : Nat → List Char → List Char → Option (String × List Char)
  | 0, _, _ => none
  | _, _, [] => none
  | fuel + 1, done, c :: rest =>
    if c == '"' then some (String.ofList done.reverse, rest)
    else if c == '\\' then do
      let (c, rest) ← escape? rest
      basic? fuel (c :: done) rest
    else if isControl c then none
    else basic? fuel (c :: done) rest

/-- The rest of a string without escapes, after its opening quote. -/
def literal? (cs : List Char) : Option (String × List Char) :=
  let content := cs.takeWhile fun c => c != '\'' && !isControl c
  match cs.drop content.length with
  | '\'' :: rest => some (String.ofList content, rest)
  | _ => none

/-- A line end directly after three opening quotes does not count. -/
def dropFirstLineEnd : List Char → List Char
  | '\n' :: rest => rest
  | '\r' :: '\n' :: rest => rest
  | cs => cs

/-- Up to two quotes may stand directly before the three that close a string over several lines. -/
def closeLong? (quote : Char) (cs : List Char) : Option (List Char × List Char) :=
  let run := cs.takeWhile (· == quote)
  if run.length < 3 || 5 < run.length then none
  else some (run.drop 3, cs.drop run.length)

/-- Blanks and line ends, which a backslash at the end of a line joins away. -/
def skipJoined : List Char → List Char
  | '\n' :: rest => skipJoined rest
  | '\r' :: '\n' :: rest => skipJoined rest
  | ' ' :: rest => skipJoined rest
  | '\t' :: rest => skipJoined rest
  | cs => cs

/-- The rest of a string over several lines, after its opening quotes. -/
def longBasic? : Nat → List Char → List Char → Option (String × List Char)
  | 0, _, _ => none
  | _, _, [] => none
  | fuel + 1, done, c :: rest =>
    if c == '"' then
      match closeLong? '"' (c :: rest) with
      | some (quotes, rest) => some (String.ofList (quotes ++ done).reverse, rest)
      | none => if ((c :: rest).takeWhile (· == '"')).length < 3 then longBasic? fuel (c ::
          done) rest else none
    else if c == '\\' then
      match restOfLine? rest with
      | some after =>
        if (skipGap rest).head? == some '#' || (skipGap rest).isEmpty then none
        else longBasic? fuel done (skipJoined after)
      | none => do
        let (c, rest) ← escape? rest
        longBasic? fuel (c :: done) rest
    else if isControl c && c != '\n' && !(c == '\r' && rest.head? == some '\n') then none
    else longBasic? fuel (c :: done) rest

/-- The rest of a string over several lines without escapes. -/
def longLiteral? : Nat → List Char → List Char → Option (String × List Char)
  | 0, _, _ => none
  | _, _, [] => none
  | fuel + 1, done, c :: rest =>
    if c == '\'' then
      match closeLong? '\'' (c :: rest) with
      | some (quotes, rest) => some (String.ofList (quotes ++ done).reverse, rest)
      | none =>
        if ((c :: rest).takeWhile (· == '\'')).length < 3
          then longLiteral? fuel (c :: done) rest else none
    else if isControl c && c != '\n' && !(c == '\r' && rest.head? == some '\n') then none
    else longLiteral? fuel (c :: done) rest

/-- One part of a key. -/
def keyPart? (cs : List Char) : Option (String × List Char) :=
  match cs with
  | '"' :: rest => basic? (rest.length + 1) [] rest
  | '\'' :: rest => literal? rest
  | _ =>
    let part := cs.takeWhile isBareKey
    if part.isEmpty then none else some (String.ofList part, cs.drop part.length)

/-- A key of at most so many parts, with dots between them. -/
def keyParts? : Nat → List Char → Option (List String × List Char)
  | 0, _ => none
  | most + 1, cs => do
    let (part, rest) ← keyPart? (skipGap cs)
    match skipGap rest with
    | '.' :: rest =>
      let (parts, rest) ← keyParts? most rest
      return (part :: parts, rest)
    | rest => return ([part], rest)

/-- A key: parts with dots between them. -/
def key? (cs : List Char) : Option (List String × List Char) :=
  keyParts? (depthLimit - 1) cs

/-- Digits of a base with single underscores between them. -/
def digits? (isDigit : Char → Bool) (cs : List Char) : Option (List Char) :=
  if cs.isEmpty || cs.head? == some '_' || cs.getLast? == some '_' then none
  else if !(cs.all fun c => c == '_' || isDigit c) then none
  else if (cs.zip (cs.drop 1)).any fun (a, b) => a == '_' && b == '_' then none
  else some (cs.filter (· != '_'))

/-- Integers are 64-bit words with a sign. -/
def inRange? (n : Int) : Option Json :=
  if Int64.minValue.toInt ≤ n && n ≤ Int64.maxValue.toInt then some (.integer n) else none

def radix? (base : Nat) (cs : List Char) : Option Json := do
  let digits ← digits? (fun c => ((Json.hexDigit? c).getD base) < base) cs
  inRange? (digits.foldl (fun n c => n * base + (Json.hexDigit? c).getD 0) 0)

def noLeadingZero (cs : List Char) : Bool :=
  cs.length ≤ 1 || cs.head? != some '0'

/-- A number with a point or an exponent that does not round up to infinity. -/
def bounded? (x : Float) : Option Json :=
  if x == 1.0 / 0.0 then none else some (.decimal x)

/-- A decimal integer or a number with a point or an exponent. -/
def decimal? (negative : Bool) (cs : List Char) : Option Json := do
  let whole := cs.takeWhile fun c => Decimal.isDigit c || c == '_'
  let digits ← digits? Decimal.isDigit whole
  if !noLeadingZero digits then none
  else
    let rest := cs.drop whole.length
    if rest.isEmpty then
      let n := Decimal.natOfDigits digits
      inRange? (if negative then -n else n)
    else
      let (fraction, rest) ← match rest with
        | '.' :: after => do
          let taken := after.takeWhile fun c => Decimal.isDigit c || c == '_'
          some (← digits? Decimal.isDigit taken, after.drop taken.length)
        | _ => some ([], rest)
      let exponent ← match rest with
        | [] => some 0
        | mark :: after => do
          if mark != 'e' && mark != 'E' then none
          else
            let (sign, after) := match after with
              | '-' :: ds => (true, ds)
              | '+' :: ds => (false, ds)
              | ds => (false, ds)
            let n := Decimal.natOfDigits (← digits? Decimal.isDigit after)
            some (if sign then -(n : Int) else n)
      bounded? (Decimal.ofParts negative digits fraction exponent)

/-- The shape of digits and signs: every digit is a `0`. -/
def shape (cs : List Char) : String :=
  String.ofList (cs.map fun c => if Decimal.isDigit c then '0' else c)

/-- The number that two digits make, `skip` characters on. -/
def twoDigits (skip : Nat) (cs : List Char) : Nat :=
  Decimal.natOfDigits ((cs.drop skip).take 2)

def daysInMonth (year month : Nat) : Nat :=
  if month == 2 then
    if year % 4 == 0 && (year % 100 != 0 || year % 400 == 0) then 29 else 28
  else if [4, 6, 9, 11].contains month then 30
  else 31

def isDate (cs : List Char) : Bool :=
  let month := twoDigits 5 cs
  let day := twoDigits 8 cs
  shape cs == "0000-00-00" && 1 ≤ month && month ≤ 12 && 1 ≤ day
    && day ≤ daysInMonth (Decimal.natOfDigits (cs.take 4)) month

/-- A time of day with an optional fraction of a second; there may be a leap second. -/
def isTime (cs : List Char) : Bool :=
  shape (cs.take 8) == "00:00:00" && twoDigits 0 cs ≤ 23 && twoDigits 3 cs ≤
    59 && twoDigits 6 cs ≤ 60
    && match cs.drop 8 with
      | [] => true
      | '.' :: fraction => !fraction.isEmpty && fraction.all Decimal.isDigit
      | _ => false

def isZone (cs : List Char) : Bool :=
  cs == ['Z'] || cs == ['z']
    || ((shape cs == "+00:00" || shape cs == "-00:00") && twoDigits 1 cs ≤ 23 &&
      twoDigits 4 cs ≤ 59)

/-- A date, a time, or both with or without a zone. -/
def isMoment (cs : List Char) : Bool :=
  isTime cs || isDate cs
    || (isDate (cs.take 10)
      && match cs.drop 10 with
        | mark :: rest =>
          let time := rest.takeWhile fun c => Decimal.isDigit c || c == ':' || c == '.'
          let zone := rest.drop time.length
          (mark == 'T' || mark == 't' || mark == ' ') && isTime time &&
            (zone.isEmpty || isZone zone)
        | [] => false)

/-- A value that is one word. -/
def word? (cs : List Char) : Option Json :=
  match String.ofList cs with
  | "true" => some (.bool true)
  | "false" => some (.bool false)
  | "inf" => some (.decimal (1.0 / 0.0))
  | "+inf" => some (.decimal (1.0 / 0.0))
  | "-inf" => some (.decimal (-(1.0 / 0.0)))
  | "nan" => some (.decimal (0.0 / 0.0))
  | "+nan" => some (.decimal (0.0 / 0.0))
  | "-nan" => some (.decimal (0.0 / 0.0))
  | _ =>
    if isMoment cs then some (.text (String.ofList cs))
    else
      match cs with
      | '0' :: 'x' :: digits => radix? 16 digits
      | '0' :: 'o' :: digits => radix? 8 digits
      | '0' :: 'b' :: digits => radix? 2 digits
      | '-' :: rest => decimal? true rest
      | '+' :: rest => decimal? false rest
      | _ => decimal? false cs

def isWordChar (c : Char) : Bool :=
  c.isAlphanum || c == '_' || c == '-' || c == '+' || c == '.' || c == ':'

/-- A word, and what follows it; a date may have a blank before its time. -/
def takeWord (cs : List Char) : List Char × List Char :=
  let word := cs.takeWhile isWordChar
  let rest := cs.drop word.length
  match rest with
  | ' ' :: c :: _ =>
    if isDate word && Decimal.isDigit c then
      let time := (rest.drop 1).takeWhile isWordChar
      (word ++ ' ' :: time, rest.drop (time.length + 1))
    else (word, rest)
  | _ => (word, rest)

/-- Puts a value at a key path. A key before the last leads through a table without a header of its
own, and the table that takes the value, if it is not the one that is open, has been made by dotted
keys alone. -/
def insert? (entry : Entry) : List String → Table → Option Table
  | [], _ => none
  | [name], table => if table.any (·.1 == name) then none else some (table ++ [(name, entry)])
  | name :: path, [] => do
    let inner ← insert? entry path []
    return [(name, .table .dotted inner)]
  | name :: path, (other, existing) :: rest =>
    if other == name then
      match existing with
      | .table origin members => do
        if origin == .header || (origin == .passage && path.length == 1) then none
        else return (other, .table origin (← insert? entry path members)) :: rest
      | .tables items =>
        match items.reverse with
        | last :: before => do
          if path.length == 1 then none
          else return (other, .tables ((← insert? entry path last) :: before).reverse) :: rest
        | [] => none
      | .value _ => none
    else do
      return (other, existing) :: (← insert? entry (name :: path) rest)

mutual
def Entry.json : Entry → Json
  | .value json => json
  | .table _ members => .object (membersJson members)
  | .tables items => .array (itemsJson items)
def membersJson : List (String × Entry) → List (String × Json)
  | [] => []
  | (name, entry) :: rest => (name, entry.json) :: membersJson rest
def itemsJson : List (List (String × Entry)) → List Json
  | [] => []
  | item :: rest => .object (membersJson item) :: itemsJson rest
end

mutual

/-- A value that stands in brackets `depth` deep. -/
def value? : Nat → Nat → List Char → Option (Json × List Char)
  | 0, _, _ => none
  | fuel + 1, depth, cs =>
    match cs with
    | '"' :: '"' :: '"' :: rest => do
      let (content, rest) ← longBasic? (rest.length + 1) [] (dropFirstLineEnd rest)
      return (.text content, rest)
    | '"' :: rest => do
      let (content, rest) ← basic? (rest.length + 1) [] rest
      return (.text content, rest)
    | '\'' :: '\'' :: '\'' :: rest => do
      let (content, rest) ← longLiteral? (rest.length + 1) [] (dropFirstLineEnd rest)
      return (.text content, rest)
    | '\'' :: rest => do
      let (content, rest) ← literal? rest
      return (.text content, rest)
    | '[' :: rest => do
      if depthLimit ≤ depth + 1 then none
      else
        let (items, rest) ← items? fuel (depth + 1) rest
        return (.array items, rest)
    | '\x7b' :: rest =>
      if depthLimit ≤ depth + 1 then none
      else
        match skipGap rest with
        | '\x7d' :: rest => some (.object [], rest)
        | rest => do
          let (table, rest) ← inline? fuel (depth + 1) [] rest
          return (.object (membersJson table), rest)
    | _ => do
      let (word, rest) := takeWord cs
      if word.isEmpty then none else return (← word? word, rest)

/-- Items of an array, which may end in a comma. -/
def items? : Nat → Nat → List Char → Option (List Json × List Char)
  | 0, _, _ => none
  | fuel + 1, depth, cs =>
    match skipLines (cs.length + 1) cs with
    | ']' :: rest => some ([], rest)
    | cs => do
      let (item, rest) ← value? fuel depth cs
      match skipLines (rest.length + 1) rest with
      | ',' :: rest =>
        let (items, rest) ← items? fuel depth rest
        return (item :: items, rest)
      | ']' :: rest => return ([item], rest)
      | _ => none

/-- Members of a table written on one line. -/
def inline? : Nat → Nat → Table → List Char → Option (Table × List Char)
  | 0, _, _, _ => none
  | fuel + 1, depth, table, cs => do
    let (path, rest) ← key? cs
    match skipGap rest with
    | '=' :: rest =>
      let (json, rest) ← value? fuel depth (skipGap rest)
      let table ← insert? (.value json) path table
      match skipGap rest with
      | ',' :: rest => inline? fuel depth table rest
      | '\x7d' :: rest => return (table, rest)
      | _ => none
    | _ => none

end

/-- Changes the table that a path of keys leads to, in an array of tables the last one. A table on
the way that is missing is made. -/
def within? (change : Table → Option Table) : List String → Table → Option Table
  | [], table => change table
  | name :: path, [] => do
    return [(name, .table .passage (← within? change path []))]
  | name :: path, (other, existing) :: rest =>
    if other == name then
      match existing with
      | .table origin members => do
        return (other, .table origin (← within? change path members)) :: rest
      | .tables items =>
        match items.reverse with
        | last :: before => do
          return (other, .tables ((← within? change path last) :: before).reverse) :: rest
        | [] => none
      | .value _ => none
    else do return (other, existing) :: (← within? change (name :: path) rest)

/-- Opens a table, for the first time. -/
def openTable? (name : String) : Table → Option Table
  | [] => some [(name, .table .header [])]
  | (other, existing) :: rest =>
    if other == name then
      match existing with
      | .table .passage members => some ((other, .table .header members) :: rest)
      | _ => none
    else (openTable? name rest).map ((other, existing) :: ·)

/-- Adds one more table to an array of tables. -/
def openItem? (name : String) : Table → Option Table
  | [] => some [(name, .tables [[]])]
  | (other, existing) :: rest =>
    if other == name then
      match existing with
      | .tables items => some ((other, .tables (items ++ [[]])) :: rest)
      | _ => none
    else (openItem? name rest).map ((other, existing) :: ·)

/-- Follows a header: all keys but the last lead to where the last one is opened. -/
def header? (opening : String → Table → Option Table) (path : List String)
    (table : Table) : Option Table := do
  within? (opening (← path.getLast?)) path.dropLast table

/-- The lines of a document; `current` is the path of the table that is open. -/
def lines? : Nat → List String → Table → List Char → Option Table
  | 0, _, _, _ => none
  | fuel + 1, current, table, cs =>
    match skipGap cs with
    | [] => some table
    | '[' :: '[' :: rest => do
      let (path, rest) ← key? rest
      match rest with
      | ']' :: ']' :: rest =>
        let rest ← restOfLine? rest
        lines? fuel path (← header? openItem? path table) rest
      | _ => none
    | '[' :: rest => do
      let (path, rest) ← key? rest
      match rest with
      | ']' :: rest =>
        let rest ← restOfLine? rest
        lines? fuel path (← header? openTable? path table) rest
      | _ => none
    | cs =>
      match restOfLine? cs with
      | some rest => lines? fuel current table rest
      | none => do
        let (path, rest) ← key? cs
        match rest with
        | '=' :: rest =>
          let rest := skipGap rest
          let (json, rest) ← value? (rest.length + 1) 0 rest
          let rest ← restOfLine? rest
          lines? fuel current (← within? (insert? (.value json) path) current table) rest
        | _ => none

/-- A whole document, as an object. A byte order mark in front does not count. -/
def parse? (source : String) : Option Json := do
  let cs := match source.toList with
    | '\ufeff' :: rest => rest
    | cs => cs
  let table ← lines? (cs.length + 1) [] [] cs
  return .object (membersJson table)

end LiveLisp.Toml
