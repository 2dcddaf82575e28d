/-
  Tokens and the scan that finds them. Blanks and comments separate tokens; a string runs to the
  next double quote and has no escapes; every other token but a parenthesis is a maximal run of the
  characters that are left, a number if it is written as one and an identifier otherwise.
-/
import LiveLisp.Text.Blank
import LiveLisp.Decimal.Reader
import LiveLisp.Decimal.Shortest
import LiveLisp.Source.LineIndex

namespace LiveLisp

inductive Token where
  | opening
  | closing
  | number (value : Float)
  | text (content : String)
  | identifier (name : String)
deriving Repr

/-- A token and where it stands. -/
structure Lexeme where
  token : Token
  span : Span
deriving Repr

namespace Token

def render : Token → String
  | opening => "("
  | closing => ")"
  | number value => Decimal.render value
  | text content => "\"" ++ content ++ "\""
  | identifier name => name

/-- Characters that may stand in a number or an identifier. -/
def isAtomChar (c : Char) : Bool :=
  !Text.isBlank c && c != '(' && c != ')' && c != ';' && c != '"'

/-- What a run of atom characters stands for. -/
def ofAtom (run : List Char) : Token :=
  match Decimal.literal? run with
  | some value => number value
  | none => identifier (String.ofList run)

theorem length_dropWhile_le {α : Type} (p : α → Bool) (l : List α) :
    (l.dropWhile p).length ≤ l.length := by
  induction l with
  | nil => exact Nat.le_refl _
  | cons a l ih =>
    rw [List.dropWhile_cons]
    split
    · exact Nat.le_succ_of_le ih
    · exact Nat.le_refl _

/-- The offset after some characters that stand at `offset`. -/
def advance (offset : Nat) (cs : List Char) : Nat :=
  cs.foldl (fun n c => n + c.utf8Size) offset

theorem advance_nil (offset : Nat) : advance offset [] = offset := rfl

theorem advance_cons (offset : Nat) (c : Char) (cs : List Char) :
    advance offset (c :: cs) = advance (offset + c.utf8Size) cs := rfl

theorem advance_append (offset : Nat) (cs ds : List Char) :
    advance offset (cs ++ ds) = advance (advance offset cs) ds := by
  simp [advance]

/-- The tokens of `cs`, which stands at a byte offset of the indexed text; or the offset of its end,
if a string is not closed there. -/
def scanFrom (index : LineIndex) (offset : Nat) (cs : List Char) : Except Nat (List Lexeme) :=
  match cs with
  | [] => .ok []
  | c :: rest =>
    let next := offset + c.utf8Size
    if Text.isBlank c then scanFrom index next rest
    else if c = ';' then
      scanFrom index (advance next (rest.takeWhile (· != '\n'))) (rest.dropWhile (· != '\n'))
    else if c = '(' then do
      return ⟨opening, index.span offset next⟩ :: (← scanFrom index next rest)
    else if c = ')' then do
      return ⟨closing, index.span offset next⟩ :: (← scanFrom index next rest)
    else if c = '"' then
      let content := rest.takeWhile (· != '"')
      let close := advance next content
      match _h : rest.dropWhile (· != '"') with
      | [] => .error close
      | quote :: after => do
        let stop := close + quote.utf8Size
        return ⟨text (String.ofList content), index.span offset stop⟩ ::
          (← scanFrom index stop after)
    else
      let run := rest.takeWhile isAtomChar
      let stop := advance next run
      do return ⟨ofAtom (c :: run), index.span offset stop⟩ ::
           (← scanFrom index stop (rest.dropWhile isAtomChar))
termination_by cs.length
decreasing_by
  · simp
  · have := length_dropWhile_le (· != '\n') rest
    simp only [List.length_cons]; omega
  · simp
  · simp
  · have := length_dropWhile_le (· != '"') rest
    rw [_h] at this
    simp only [List.length_cons] at this ⊢; omega
  · have := length_dropWhile_le isAtomChar rest
    simp only [List.length_cons]; omega

def scan (source : String) : Except Nat (List Lexeme) :=
  scanFrom (.ofText source) 0 source.toList

end Token

end LiveLisp
