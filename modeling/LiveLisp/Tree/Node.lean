/-
  Syntax trees with the place of every node, and how they are read from text.

  Reading is one pass over the tokens with the lists that are open, innermost first. A program may
  hold any number of forms and is read as the body of an implicit `(do ...)`.
-/
import LiveLisp.Error
import LiveLisp.Token
import LiveLisp.Tree.Form

namespace LiveLisp

inductive Node where
  | number (value : Float) (span : Span)
  | text (content : String) (span : Span)
  | identifier (name : String) (span : Span)
  | list (items : List Node) (span : Span)
deriving Repr, Inhabited

namespace Node

def span : Node → Span
  | number _ span => span
  | text _ span => span
  | identifier _ span => span
  | list _ span => span

def name? : Node → Option String
  | identifier name _ => some name
  | _ => none

def items? : Node → Option (List Node)
  | list items _ => some items
  | _ => none

/-- The nodes directly inside a list; none inside a leaf. -/
def children : Node → List Node
  | list items _ => items
  | _ => []

/-- The identifier that a list begins with. -/
def head? : Node → Option String
  | list (identifier name _ :: _) _ => some name
  | _ => none

mutual
/-- The tree without its places. -/
def form : Node → Form
  | number value _ => .number value
  | text content _ => .text content
  | identifier name _ => .identifier name
  | list items _ => .list (forms items)
def forms : List Node → List Form
  | [] => []
  | node :: nodes => form node :: forms nodes
end

theorem sizeOf_append (nodes nodes' : List Node) :
    sizeOf (nodes ++ nodes') + 1 = sizeOf nodes + sizeOf nodes' := by
  induction nodes with
  | nil => exact Nat.add_comm _ _
  | cons node nodes ih =>
    rw [List.cons_append, List.cons.sizeOf_spec, List.cons.sizeOf_spec]
    omega

theorem sizeOf_children_le (node : Node) : sizeOf node.children ≤ sizeOf node := by
  cases node with
  | list items span =>
    rw [children, list.sizeOf_spec]
    omega
  | number value span => exact Nat.le_add_right_of_le (Nat.le_add_right 1 _)
  | text content span => exact Nat.le_add_right_of_le (Nat.le_add_right 1 _)
  | identifier name span => exact Nat.le_add_right_of_le (Nat.le_add_right 1 _)

theorem forms_eq_map (nodes : List Node) : forms nodes = nodes.map form := by
  induction nodes with
  | nil => rfl
  | cons node nodes ih => rw [forms, ih, List.map_cons]

end Node

/-- A list that is not closed yet: where it opened, and its items so far, the last one first. -/
structure OpenList where
  span : Span
  items : List Node

/-- What has been read: the open lists, innermost first, and the finished forms, the last one first.
-/
structure Reading where
  nest : List OpenList
  forms : List Node

namespace Reading

def empty : Reading := ⟨[], []⟩

/-- Puts a finished node into the innermost open list, or among the finished forms. -/
def add (r : Reading) (node : Node) : Reading :=
  match r.nest with
  | [] => { r with forms := node :: r.forms }
  | inner :: outer => { r with nest := { inner with items := node :: inner.items } :: outer }

/-- Reads one token. `stray` is what to say of a `)` outside any list. -/
def next (stray : ParseProblem) (r : Reading) (lexeme : Lexeme) : Except Error Reading :=
  match lexeme.token with
  | .number value => .ok (r.add (.number value lexeme.span))
  | .text content => .ok (r.add (.text content lexeme.span))
  | .identifier name => .ok (r.add (.identifier name lexeme.span))
  | .opening =>
    if maxNesting ≤ r.nest.length then .error (.parse .tooDeep lexeme.span)
    else .ok { r with nest := ⟨lexeme.span, []⟩ :: r.nest }
  | .closing =>
    match r.nest with
    | [] => .error (.parse stray lexeme.span)
    | inner :: outer =>
      .ok (add { r with nest := outer } (.list inner.items.reverse (inner.span.to lexeme.span)))

/-- Like `next`, but a token after a finished form is left over. -/
def nextOfOne (r : Reading) (lexeme : Lexeme) : Except Error Reading :=
  if r.nest.isEmpty && !r.forms.isEmpty then .error (.parse .leftover lexeme.span)
  else r.next .strayClose lexeme

/-- The finished forms in order, if every list is closed. -/
def finish (r : Reading) : Except Error (List Node) :=
  match r.nest with
  | [] => .ok r.forms.reverse
  | inner :: _ => .error (.parse .unclosed inner.span)

end Reading

namespace Node

def scan (source : String) : Except Error (List Lexeme) :=
  match Token.scan source with
  | .ok lexemes => .ok lexemes
  | .error stop => .error (.parse .unclosedText ((LineIndex.ofText source).span stop stop))

/-- Any number of forms, one after the other. -/
def readForms (lexemes : List Lexeme) : Except Error (List Node) := do
  let r ← lexemes.foldlM (Reading.next .leftover) .empty
  r.finish

/-- A whole program: its forms, as the body of a `do`. -/
def ofProgram (source : String) : Except Error Node := do
  let lexemes ← scan source
  let forms ← readForms lexemes
  let index := LineIndex.ofText source
  return .list (.identifier "do" (index.span 0 0) :: forms) (index.span 0 source.utf8ByteSize)

/-- Exactly one form. -/
def ofForm (source : String) : Except Error Node := do
  let lexemes ← scan source
  let r ← lexemes.foldlM Reading.nextOfOne .empty
  match ← r.finish with
  | node :: _ => return node
  | [] => throw (.parse .nothing (LineIndex.ofText source).endSpan)

end Node

end LiveLisp
