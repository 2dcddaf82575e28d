/-
  The builtin functions: arithmetic, comparison, lists and text. They have no state and answer from
  their arguments alone.
-/
import LiveLisp.Decimal.Remainder
import LiveLisp.Host.Capability

namespace LiveLisp.Builtin

def methods : List String :=
  ["+", "-", "*", "/", "mod", "=", "!=", "<", ">", "<=", ">=", "not", "list",
   "first", "rest", "count", "empty?", "str"]

/-- The arguments as numbers; `position` is that of the first one. -/
def numbers (position : Nat) : List Value → Except HostProblem (List Float)
  | [] => .ok []
  | .number x :: args => do return x :: (← numbers (position + 1) args)
  | arg :: _ => .error (.notNumber position arg.kind)

/-- All arguments as text, one after the other. -/
def concat (args : List Value) : Value :=
  .text (String.join (args.map Value.render))

def isText : Value → Bool
  | .text _ => true
  | _ => false

/-- Whether every two neighbours are equal. -/
def chainEqual : List Value → Bool
  | a :: b :: rest => a.equals b && chainEqual (b :: rest)
  | _ => true

/-- The order of two values, if they have one. Text goes by code points. -/
def order : Value → Value → Except HostProblem Ordering
  | .number a, .number b =>
    if a < b then .ok .lt
    else if a > b then .ok .gt
    else if a == b then .ok .eq
    else .error .unordered
  | .text a, .text b => .ok (compare a b)
  | a, b => .error (.incomparable a.kind b.kind)

/-- Whether every two neighbours are in an accepted order; the first that are not decide. -/
def chainOrdered (accept : Ordering → Bool) : List Value → Except HostProblem Bool
  | a :: b :: rest => do
    if accept (← order a b) then chainOrdered accept (b :: rest) else return false
  | _ => .ok true

def compareWith (accept : Ordering → Bool) (args : List Value) : Except HostProblem Value :=
  if args.length < 2 then .error (.tooFew 2 args.length)
  else return .bool (← chainOrdered accept args)

def theList : List Value → Except HostProblem (List Value)
  | [.list items] => .ok items
  | [other] => .error (.notList other.kind)
  | args => .error (.wrongCount 1 args.length)

/-- The length of a list, or of text in characters. -/
def sizeOf : List Value → Except HostProblem Nat
  | [.list items] => .ok items.length
  | [.text content] => .ok content.length
  | _ => .error .notListOrString

def invoke (method : String) (args : List Value) : Except HostProblem Value :=
  match method with
  | "+" =>
    if args.any isText then .ok (concat args)
    -- the empty sum is negative zero, which changes no other number
    else do return .number ((← numbers 1 args).foldl (· + ·) (-0.0))
  | "*" => do return .number ((← numbers 1 args).foldl (· * ·) 1.0)
  | "-" => do
    match ← numbers 1 args with
    | [] => throw .noArguments
    | [only] => return .number (-only)
    | first :: rest => return .number (rest.foldl (· - ·) first)
  | "/" => do
    match ← numbers 1 args with
    | [] => throw .noArguments
    | first :: rest =>
      if rest.any (· == 0.0) then throw .divisionByZero
      return .number (rest.foldl (· / ·) first)
  | "mod" => do
    match ← numbers 1 args with
    | [a, b] =>
      if b == 0.0 then throw .divisionByZero
      return .number (Decimal.rem a b)
    | _ => throw (.wrongCount 2 args.length)
  | "=" => .ok (.bool (chainEqual args))
  | "!=" =>
    match args with
    | [a, b] => .ok (.bool (!a.equals b))
    | _ => .error (.wrongCount 2 args.length)
  | "<" => compareWith (·.isLT) args
  | ">" => compareWith (·.isGT) args
  | "<=" => compareWith (·.isLE) args
  | ">=" => compareWith (·.isGE) args
  | "not" =>
    match args with
    | [value] => .ok (.bool (!value.isTruthy))
    | _ => .error (.wrongCount 1 args.length)
  | "list" => .ok (.list args)
  | "first" => do return (← theList args).head?.getD .null
  | "rest" => do return .list ((← theList args).drop 1)
  | "count" => do return .number (Float.ofNat (← sizeOf args))
  | "empty?" => do return .bool ((← sizeOf args) == 0)
  | "str" => .ok (concat args)
  | _ => .error (.unknownBuiltin method)

end LiveLisp.Builtin

namespace LiveLisp

def Capability.builtins {σ : Type} : Capability σ where
  label := "builtins"
  hasMethod := Builtin.methods.contains
  invoke := fun method args world => (Builtin.invoke method args, world)

end LiveLisp
