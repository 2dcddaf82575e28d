/-
  Errors, by stage and cause. Reading and compiling fail before a program exists; a runtime error
  belongs to the instruction that raised it; an internal error means that the interpreter
  contradicts itself.

  Every wording is in the `message` function of its cause.
-/
import LiveLisp.Source.Span
import LiveLisp.Scope.Ticket
import LiveLisp.Host.Problem

namespace LiveLisp

/-- Lists nested deeper than this are refused. -/
def maxNesting : Nat := 256

/-- Why a text is not a program. -/
inductive ParseProblem where
  | unclosedText
  | nothing
  | leftover
  | strayClose
  | unclosed
  | tooDeep
  | definedTwice (name : String)
  | custom (text : String)
deriving DecidableEq, Repr

/-- What a scan says of a string that never ends. -/
def unclosedTextMessage : String :=
  "found end of input expected something else, or '\"'"

def ParseProblem.message : ParseProblem → String
  | unclosedText => "unreadable input: " ++ unclosedTextMessage
  | nothing => "nothing to parse"
  | leftover => "didn't finish parse"
  | strayClose => "unexpected `)`"
  | unclosed => "forgot to close something"
  | tooDeep => s!"forms nested deeper than {maxNesting} levels"
  | definedTwice name => s!"function `{name}` is defined twice at the same nesting level"
  | custom text => text

/-- Why a form has no meaning. The last five arise only when a tree is evaluated directly. -/
inductive CompileProblem where
  | reservedAsValue (name : String)
  | reservedAsName (name : String)
  | reservedAsCallee (name : String)
  | notAName (role : String)
  | emptyForm
  | assignmentShape (keyword : String)
  | lambdaShape
  | defnShape
  | ifShape
  | parametersNotList
  | repeatedParameter (name : String)
  | assignmentParts
  | assignedNotAName
  | parametersNotNames
  | namedFunction
  | ifParts
  | custom (text : String)
deriving DecidableEq, Repr

def CompileProblem.message : CompileProblem → String
  | reservedAsValue name => s!"`{name}` is a special form and cannot be used as a value"
  | reservedAsName name => s!"`{name}` is a special form and cannot be bound"
  | reservedAsCallee name => s!"`{name}` cannot be called"
  | notAName role => s!"{role} name must be an identifier"
  | emptyForm => "empty form `()` cannot be evaluated"
  | assignmentShape keyword => s!"`{keyword}` needs a name and a value"
  | lambdaShape => "`lambda` needs a parameter list"
  | defnShape => "`defn` needs a name and a parameter list"
  | ifShape => "`if` takes a condition, a branch and an optional else branch"
  | parametersNotList => "parameters must be a list"
  | repeatedParameter name => s!"parameter `{name}` appears twice"
  | assignmentParts => "assignment needs a name and a value"
  | assignedNotAName => "name must be an identifier"
  | parametersNotNames => "parameters must be identifiers"
  | namedFunction => "named functions are not supported by the tree-walk evaluator"
  | ifParts => "malformed `if`"
  | custom text => text

/-- Why an instruction or a request to a session failed. -/
inductive RuntimeProblem where
  | notDefined (name : String)
  | immutable (name : String)
  | unassignable (name : String)
  | noFunction (name : String)
  | retired (name : String)
  | notCallable (kind shown : String)
  /-- No name for an anonymous function. -/
  | arity (name : Option String) (expected got : Nat)
  | underflow
  | host (method : String) (problem : HostProblem)
  | alreadyFinished
  | noProgram
  | outOfSteps (limit : Nat)
  | noKeyframe (step : Nat)
  | atFirstStep
  | notRestored (label : String) (problem : HostProblem)
  | functionAsResult
  | functionAsArgument
  | callDepth
  | custom (text : String)
deriving DecidableEq, Repr

def RuntimeProblem.message : RuntimeProblem → String
  | notDefined name => s!"`{name}` is not defined"
  | immutable name => s!"cannot assign to `{name}`: it is an immutable binding"
  | unassignable name => s!"cannot assign to `{name}`: it is not defined"
  | noFunction name => s!"no function named `{name}`"
  | retired name => s!"function `{name}` is no longer available"
  | notCallable kind shown => s!"cannot call {kind} `{shown}`"
  | arity name expected got =>
    let callee := match name with
      | some name => s!"`{name}`"
      | none => "lambda"
    s!"{callee} expected {expected} {HostProblem.plural expected}, got {got}"
  | underflow => "value stack underflow"
  | host method problem => method ++ ": " ++ problem.message
  | alreadyFinished => "program has already finished"
  | noProgram => "no program loaded"
  | outOfSteps limit => s!"program did not finish within {limit} steps"
  | noKeyframe step => s!"no keyframe at or before step {step}"
  | atFirstStep => "already at the first step"
  | notRestored label problem => label ++ " could not restore its state: " ++ problem.message
  | functionAsResult => "tree-walk evaluation produced a function"
  | functionAsArgument => "functions cannot be passed to host methods here"
  | callDepth => "call depth exceeded"
  | custom text => text

/-- How the interpreter contradicted itself. -/
inductive InternalProblem where
  | unknownTicket (ticket : Ticket)
  | belowZero (ticket : Ticket)
  | endlessChain (ticket : Ticket)
  | noScopeLayer
  | noFrame
  | noEnvironment
  | pastEnd (pc length : Nat)
  | jumpOut (offset : Int) (pc : Nat)
  | buildOperands
  | leftValues (count : Nat)
  | noResult
  | noCheckpoint
  | noSession
  | jumpTooFar
  | custom (text : String)
deriving DecidableEq, Repr

/-- A jump offset, always with its sign. -/
def signed (n : Int) : String :=
  if 0 ≤ n then s!"+{n}" else s!"{n}"

def InternalProblem.message : InternalProblem → String
  | unknownTicket ticket => "unknown or stale scope ticket " ++ ticket.render
  | belowZero ticket => "scope " ++ ticket.render ++ " released below zero"
  | endlessChain ticket => "scopes around " ++ ticket.render ++ " enclose each other"
  | noScopeLayer => "environment has no scope layer to define into"
  | noFrame => "unfinished context has no frame"
  | noEnvironment => "frame has no environment"
  | pastEnd pc length => s!"program counter {pc} ran past the end of a {length}-instruction frame"
  | jumpOut offset pc => "jump " ++ signed offset ++ s!" from {pc} leaves the frame"
  | buildOperands => "`BuildFunction` expects parameters and code on the stack"
  | leftValues count => s!"finished program left {count} values on the stack"
  | noResult => "finished program has no single result"
  | noCheckpoint => "checkpoint vanished during update"
  | noSession => "session vanished during update"
  | jumpTooFar => "jump offset does not fit in 32 bits"
  | custom text => text

inductive Error where
  | parse (problem : ParseProblem) (span : Span)
  | compile (problem : CompileProblem) (span : Span)
  | runtime (problem : RuntimeProblem) (span : Option Span)
  | internal (problem : InternalProblem)
deriving DecidableEq, Repr

namespace Error

def message : Error → String
  | parse problem _ => problem.message
  | compile problem _ => problem.message
  | runtime problem _ => problem.message
  | internal problem => problem.message

/-- Where the offending form is, when that is known. -/
def span? : Error → Option Span
  | parse _ span => some span
  | compile _ span => some span
  | runtime _ span => span
  | internal _ => none

/-- The message with its stage in front. -/
def describe (e : Error) : String :=
  let stage := match e with
    | parse .. => "parse error: "
    | compile .. => "compile error: "
    | runtime .. => "runtime error: "
    | internal _ => "internal consistency error: "
  stage ++ e.message

/-- Only an error of the interpreter itself ends a run for good. -/
def isFatal : Error → Bool
  | internal _ => true
  | _ => false

/-- Places a runtime error that has no place yet. -/
def located (origin : Span) : Error → Error
  | runtime problem none => runtime problem (some origin)
  | e => e

end Error

end LiveLisp
