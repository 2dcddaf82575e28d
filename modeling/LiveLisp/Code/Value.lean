/-
  Values and code. A program's constants are values and a function body is itself a constant, so
  values, code and instructions are one family of types.

  Functions, code and host methods compare by identity: a closure by the number of its making, code
  by the compilation and form it comes from, a method by its owner's place among the capabilities.
-/
import LiveLisp.Decimal.Shortest
import LiveLisp.Scope.Ticket
import LiveLisp.Source.Span
import LiveLisp.Text.Quoted

namespace LiveLisp

/-- Which closure: the one that stands for this constant in a machine copied so many times since, or
the one built after this many others. -/
inductive ClosureId where
  | literal (number copies : Nat)
  | built (number : Nat)
deriving DecidableEq, Repr, Inhabited

/-- Which code: the compilation it comes from, and the form whose body it is (none for a whole
program). -/
structure CodeId where
  unit : Nat
  form : Option Span
deriving DecidableEq, Repr, Inhabited

/-- A capability, by its place in the list of all and the name it goes by. -/
structure Owner where
  slot : Nat
  label : String
deriving DecidableEq, Repr, Inhabited

mutual

inductive Value where
  | null
  | bool (truth : Bool)
  | number (value : Float)
  | text (content : String)
  | list (items : List Value)
  /-- A function built by `lambda`, with the scope it was built in. -/
  | closure (id : ClosureId) (params : List String) (code : Code) (scope : Option Ticket)
  /-- Stands for whatever function the table holds under this name when it is called. -/
  | named (name : String)
  | host (owner : Owner) (method : String)
  /-- Parameter names, for `buildFunction`. -/
  | params (names : List String)
  /-- A function body, for `buildFunction`. -/
  | code (body : Code)

structure Code where
  id : CodeId
  instructions : List Instruction

structure Instruction where
  op : Op
  /-- Where the form stands that the instruction was compiled from. -/
  origin : Span

inductive Op where
  /-- Push a literal. -/
  | loadConstant (value : Value)
  /-- Push an operand of `buildFunction`. -/
  | push (value : Value)
  | pop
  | nameLookup (name : String)
  /-- Like `nameLookup`, for the head of a call. -/
  | functionLookup (name : String)
  /-- Bind the top value in the innermost scope and leave it there. -/
  | storeNew (name : String)
  /-- Assign the top value to an existing binding and leave it there. -/
  | store (name : String)
  /-- Take parameters and code; leave a closure, or register a named function and leave its name. -/
  | buildFunction (name : Option String)
  | call (argc : Nat)
  | tailCall (argc : Nat)
  /-- Offsets count from the jump itself. -/
  | jump (offset : Int)
  | jumpIfNot (offset : Int)
  | ret

end

instance : Inhabited Value := ⟨.null⟩

instance : Inhabited Op := ⟨.pop⟩

instance : Inhabited Code := ⟨⟨default, []⟩⟩

def Code.length (code : Code) : Nat :=
  code.instructions.length

namespace Value

/-- Everything but `null` and `false` counts as true. -/
def isTruthy : Value → Bool
  | null => false
  | bool truth => truth
  | _ => true

def kind : Value → String
  | null => "null"
  | bool _ => "boolean"
  | number _ => "number"
  | text _ => "string"
  | list _ => "list"
  | closure .. => "function"
  | named _ => "function"
  | host .. => "function"
  | params _ => "parameter list"
  | code _ => "code"

def isCallable : Value → Bool
  | closure .. => true
  | named _ => true
  | host .. => true
  | _ => false

def number? : Value → Option Float
  | number value => some value
  | _ => none

mutual
/-- The scopes that a value keeps alive, one entry for each closure in it. -/
def scopes : Value → List Ticket
  | closure _ _ _ scope => scope.toList
  | list items => allScopes items
  | _ => []
def allScopes : List Value → List Ticket
  | [] => []
  | item :: items => scopes item ++ allScopes items
end

mutual
/-- Equality as programs see it: lists item by item, functions and code by identity. -/
def equals : Value → Value → Bool
  | null, null => true
  | bool a, bool b => a == b
  | number a, number b => a == b
  | text a, text b => a == b
  | list as, list bs => allEqual as bs
  | closure a _ _ _, closure b _ _ _ => a == b
  | named a, named b => a == b
  | host a m, host b n => a.slot == b.slot && m == n
  | params as, params bs => as == bs
  | code a, code b => a.id == b.id
  | _, _ => false
def allEqual : List Value → List Value → Bool
  | [], [] => true
  | a :: as, b :: bs => equals a b && allEqual as bs
  | _, _ => false
end

mutual
/-- A value as a program prints it. -/
def render : Value → String
  | null => "null"
  | bool truth => if truth then "true" else "false"
  | number value => Decimal.render value
  | text content => content
  | list items => "(" ++ String.intercalate " " (inspectAll items) ++ ")"
  | closure _ names _ _ => s!"<lambda/{names.length}>"
  | named name => s!"<function {name}>"
  | host owner method => s!"<{owner.label} {method}>"
  | params names => "(" ++ String.intercalate " " names ++ ")"
  | code body => s!"<code: {body.length} instructions>"
/-- A value as it shows inside others: text is quoted. -/
def inspect : Value → String
  | text content => Text.quote content
  | v => render v
def inspectAll : List Value → List String
  | [] => []
  | item :: items => inspect item :: inspectAll items
end

end Value

end LiveLisp
