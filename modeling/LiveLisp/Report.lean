/-
  Error reports: the message, and the source lines it is about with the place marked under or beside
  them.

  A report shows whole lines. Text that prints as a single line takes, for each character, as many
  cells as the terminal gives it, and the marks follow those cells.
-/
import LiveLisp.Error
import LiveLisp.Text.Blank
import LiveLisp.Text.Width

namespace LiveLisp.Report

/-- Characters that end a line of a report. -/
def isLineEnd (c : Char) : Bool :=
  let n := c.toNat
  (0x0a ≤ n && n ≤ 0x0d) || n == 0x85 || n == 0x2028 || n == 0x2029

/-- Splits after every line end; `line` is the current line so far, reversed. -/
def splitFrom (line : List Char) : List Char → List (List Char)
  | [] => if line.isEmpty then [] else [line.reverse]
  | '\r' :: '\n' :: rest => ('\n' :: '\r' :: line).reverse :: splitFrom [] rest
  | c :: rest =>
    if isLineEnd c then (c :: line).reverse :: splitFrom [] rest else splitFrom (c :: line) rest

/-- A line with its end, its number from 1, and how many bytes and characters stand before it. -/
structure Line where
  number : Nat
  firstByte : Nat
  firstChar : Nat
  chars : List Char
deriving Inhabited

def byteLength (cs : List Char) : Nat :=
  cs.foldl (fun bytes c => bytes + c.utf8Size) 0

def numberLines (number firstByte firstChar : Nat) : List (List Char) → List Line
  | [] => []
  | cs :: rest =>
    ⟨number, firstByte, firstChar, cs⟩
      :: numberLines (number + 1) (firstByte + byteLength cs) (firstChar + cs.length) rest

/-- The lines of a text. A line end at the end of the text begins no further line; empty text is one
empty line. -/
def linesOf (source : String) : List Line :=
  match splitFrom [] source.toList with
  | [] => [⟨1, 0, 0, []⟩]
  | lines => numberLines 1 0 0 lines

/-- The line that holds a byte; the end of the text is in the last line. -/
def lineAt (lines : List Line) (offset : Nat) : Line :=
  match lines.find? fun l => offset < l.firstByte + byteLength l.chars with
  | some line => line
  | none => lines.getLast?.getD default

/-- How many of these characters begin before a byte offset. -/
def charsBefore (offset : Nat) : Nat → List Char → Nat
  | _, [] => 0
  | byte, c :: rest => if byte < offset then charsBefore offset (byte + c.utf8Size) rest + 1 else 0

/-- The text of a line that shows: without the blanks at its end. -/
def Line.shown (line : Line) : List Char :=
  (line.chars.reverse.dropWhile Text.isBlank).reverse

def tabWidth : Nat := 4

/-- The cells of a character at a column: a tab goes to the next tab stop, other blanks take one. -/
def cellsAt (column : Nat) (c : Char) : Nat :=
  if c == '\t' then tabWidth - column % tabWidth
  else if Text.isBlank c then 1
  else Text.cells c

/-- The cells of a column of a line; beyond the text that shows every column has one. -/
def Line.cells (line : Line) (column : Nat) : Nat :=
  match line.shown[column]? with
  | some c => cellsAt column c
  | none => 1

def spaces (n : Nat) : String :=
  String.ofList (List.replicate n ' ')

def bars (n : Nat) : String :=
  String.ofList (List.replicate n '─')

/-- The text of a line with its blanks spread out. -/
def Line.render (line : Line) : String :=
  String.join (line.shown.zipIdx.map fun (c, column) =>
    if Text.isBlank c then spaces (cellsAt column c) else c.toString)

/-- One mark, repeated to the cells of its column by a filler. -/
def cell (width : Nat) (mark filler : Char) : String :=
  match width with
  | 0 => ""
  | extra + 1 => String.ofList (mark :: List.replicate extra filler)

/-- The row under a line: the range `first .. last` is underlined and `middle` is where the message
hangs. -/
def underline (line : Line) (first last middle : Nat) : String :=
  String.join ((List.range (last + 2)).map fun column =>
    let inside := first ≤ column && column < last
    let mark := if column == middle then (if inside then '┬' else '│')
      else if inside then '─' else ' '
    cell (line.cells column) mark (if inside then '─' else ' '))

/-- The row that leads from `middle` to the message. -/
def lead (line : Line) (last middle : Nat) : String :=
  String.join ((List.range (last + 2)).map fun column =>
    let mark := if column < middle then ' ' else if column == middle then '╰' else '─'
    cell (line.cells column) mark (if column < middle then ' ' else '─'))

def rightAlign (width : Nat) (s : String) : String :=
  spaces (width - s.length) ++ s

/-- The rows for a range within one line. -/
def singleRows (margin : String) (number : String) (line : Line) (first last middle : Nat)
    (message : String) :
    List String :=
  [number ++ " │ " ++ line.render,
   margin ++ "│ " ++ underline line first last middle,
   margin ++ "│ " ++ lead line last middle ++ " " ++ message]

/-- The rows for a range over several lines. -/
def multiRows (margin : String) (number : Nat → String) (first last : Line) (message : String) :
    List String :=
  let width := (List.range (last.chars.length + 2)).foldl (fun width column =>
    width + last.cells column) 0
  [number first.number ++ " │ ╭─▶ " ++ first.render]
    ++ (if first.number + 1 < last.number then [margin ++ "┆ ┆   "] else [])
    ++ [number last.number ++ " │ ├─▶ " ++ last.render,
        margin ++ "│ │ " ++ spaces (width + 2),
        margin ++ "│ ╰───" ++ bars width ++ " " ++ message]

/-- The report of an error in a source text. -/
def render (e : Error) (file source : String) : String :=
  match e.span? with
  | none => "error: " ++ e.describe ++ "\n"
  | some span =>
    let size := source.utf8ByteSize
    let start := min span.start size
    let stop := min (max span.stop start) size
    let lines := linesOf source
    let first := lineAt lines start
    let last := if start < stop then lineAt lines (stop - 1) else first
    let firstColumn := charsBefore start first.firstByte first.chars
    let lastColumn :=
      if start < stop then charsBefore stop last.firstByte last.chars else firstColumn
    let width := (toString last.number).length
    let margin := spaces (width + 2)
    let number (n : Nat) : String := " " ++ rightAlign width (toString n)
    let rows :=
      if first.number == last.number then
        let middle := (first.firstChar + firstColumn + (last.firstChar + lastColumn)) / 2 -
          first.firstChar
        singleRows margin (number first.number) first firstColumn lastColumn middle e.message
      else multiRows margin number first last e.message
    String.join (([
      "Error: " ++ e.describe,
      margin ++ "╭─[ " ++ file ++ s!":{first.number}:{firstColumn + 1} ]",
      margin ++ "│"] ++ rows ++ [bars (width + 2) ++ "╯"]).map (· ++ "\n"))

end LiveLisp.Report
