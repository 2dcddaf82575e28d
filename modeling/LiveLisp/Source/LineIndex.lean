/-
  Places of a text. The byte offsets at which the lines start are worked out once; the line of an
  offset is found among them by bisection, and the characters of that line are counted up to it.

  Lines and columns have 32 bits, and what does not fit is cut off. There is no place where the
  offset parts a character.
-/
import LiveLisp.Source.Span

namespace LiveLisp

/-- A text and the byte offset of the first character of every line. -/
structure LineIndex where
  text : String
  starts : Array Nat
deriving Repr

namespace LineIndex

/-- Where the line feeds stand among characters of which the first is at `offset`. -/
def feedsFrom (offset : Nat) : List Char → List Nat
  | [] => []
  | c :: cs =>
    if c = '\n' then offset :: feedsFrom (offset + c.utf8Size) cs
      else feedsFrom (offset + c.utf8Size) cs

/-- A line starts with the text, and after every line feed. -/
def ofText (text : String) : LineIndex :=
  ⟨text, (0 :: (feedsFrom 0 text.toList).map (· + 1)).toArray⟩

/-- Bisection of the entries from `lo` to before `hi`: where the key stands, or else before which
entry it belongs. -/
def search (starts : Array Nat) (key lo hi : Nat) (hhi : hi ≤ starts.size) : Except Nat Nat :=
  if hlt : lo < hi then
    let mid := lo + (hi - lo) / 2
    match compare starts[mid] key with
    | .eq => .ok mid
    | .lt => search starts key (mid + 1) hi hhi
    | .gt => search starts key lo mid (by omega)
  else .error lo
termination_by hi - lo

/-- The line an offset is in, counted from 0: the one it starts, or else the one before those that
start after it. -/
def lineOf? (index : LineIndex) (offset : Nat) : Option Nat :=
  match search index.starts offset 0 index.starts.size (Nat.le_refl _) with
  | .ok line => some line
  | .error 0 => none
  | .error (line + 1) => some line

/-- The part of a text between two offsets, if neither parts a character. -/
def slice? (text : String) (start stop : Nat) : Option String :=
  if start ≤ stop ∧ String.Pos.Raw.IsValid text ⟨start⟩ ∧ String.Pos.Raw.IsValid text ⟨stop⟩ then
    some (String.Pos.Raw.extract text ⟨start⟩ ⟨stop⟩)
  else none

/-- Line and column of a byte offset, both from 1. Columns count characters; an offset past the end
is the end. -/
def place (index : LineIndex) (offset : Nat) : Option (UInt32 × UInt32) := do
  let offset := min offset index.text.utf8ByteSize
  let line ← index.lineOf? offset
  let start ← index.starts[line]?
  let soFar ← slice? index.text start offset
  return (UInt32.ofNat line + 1, UInt32.ofNat (soFar.length + 1))

/-- The span of a byte range, placed where its start is. A range that begins inside a character has
no place, and none is made: it would count as placed at the start of the text. -/
def span (index : LineIndex) (start stop : Nat) : Span :=
  let (line, column) := (index.place start).getD (1, 1)
  ⟨start, stop, line, column⟩

/-- The empty span at the end of the text. -/
def endSpan (index : LineIndex) : Span :=
  index.span index.text.utf8ByteSize index.text.utf8ByteSize

end LineIndex

end LiveLisp
