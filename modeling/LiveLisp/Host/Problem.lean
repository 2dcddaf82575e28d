/-
  What can go wrong on the host's side of a call, and how it is worded.
-/
namespace LiveLisp

/-- Why a capability refused a call or a saved state. -/
inductive HostProblem where
  | noArguments
  | tooFew (least got : Nat)
  | wrongCount (expected got : Nat)
  | divisionByZero
  /-- The position counts arguments from 1. -/
  | notNumber (position : Nat) (got : String)
  | unordered
  | incomparable (left right : String)
  | notList (got : String)
  | notListOrString
  | unknownBuiltin (method : String)
  | noMethod (label method : String)
  | takesNoArguments (method : String)
  | missingOutput
  | missingOwner (label : String)
  | custom (text : String)
deriving DecidableEq, Repr

namespace HostProblem

def plural (n : Nat) : String :=
  if n = 1 then "argument" else "arguments"

def message : HostProblem → String
  | noArguments => "expected at least 1 argument"
  | tooFew least got => s!"expected at least {least} {plural least}, got {got}"
  | wrongCount expected got => s!"expected {expected} {plural expected}, got {got}"
  | divisionByZero => "division by zero"
  | notNumber position got => s!"argument {position} must be a number, got {got}"
  | unordered => "cannot compare NaN"
  | incomparable left right => s!"cannot compare {left} with {right}"
  | notList got => s!"expected a list, got {got}"
  | notListOrString => "expected a list or a string"
  | unknownBuiltin method => s!"unknown builtin `{method}`"
  | noMethod label method => s!"{label} has no method `{method}`"
  | takesNoArguments method => s!"`{method}` takes no arguments"
  | missingOutput => "console state is missing `output`"
  | missingOwner label => s!"{label} is not available"
  | custom text => text

end HostProblem

end LiveLisp
