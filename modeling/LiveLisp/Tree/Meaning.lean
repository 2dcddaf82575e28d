/-
  The meaning of a tree, by walking it. This is the reference that compiled code is held against: no
  code, no scope accounting, no named functions.

  Scopes are numbered in the order of their making and never go away, so a scope's parent has a
  smaller number. `eval` recurses on the tree; how a function is called is a parameter, and
  `callWithin` ties the knot for a bounded depth of calls.
-/
import LiveLisp.Host.Capability
import LiveLisp.NameMap
import LiveLisp.Tree.Keyword
import LiveLisp.Tree.Definition

namespace LiveLisp.Meaning

/-- Nested calls allowed before evaluation gives up. -/
def maxCallDepth : Nat := 512

/-- An anonymous function and the scope it was built in. -/
structure Lambda where
  params : List String
  body : List Node
  scope : Nat

inductive Datum where
  | value (value : Value)
  | lambda (lambda : Lambda)
deriving Inhabited

structure Bindings where
  values : NameMap Datum
  parent : Option Nat

/-- All scopes made so far, and the world. -/
structure State (σ : Type) where
  scopes : Array Bindings
  world : σ

abbrev Eval (σ : Type) := EStateM Error (State σ)

variable {σ : Type}

/-- The nearest scope from `scope` outwards that binds a name. -/
def ownerOf (scopes : Array Bindings) (scope : Nat) (name : String) : Option Nat :=
  match scopes[scope]? with
  | none => none
  | some bindings =>
    if bindings.values.contains name then some scope
    else
      match bindings.parent with
      | none => none
      | some parent => if _h : parent < scope then ownerOf scopes parent name else none
termination_by scope

def lookup? (scopes : Array Bindings) (scope : Nat) (name : String) : Option Datum := do
  let owner ← ownerOf scopes scope name
  let bindings ← scopes[owner]?
  bindings.values.get? name

def define (scope : Nat) (name : String) (datum : Datum) : Eval σ Unit :=
  modify fun s =>
    { s with scopes := s.scopes.modify scope fun b => { b with values := b.values.put name datum } }

/-- Assigns in the nearest scope that binds the name. -/
def assign (host : Host σ) (scope : Nat) (name : String) (datum : Datum) (span : Span) :
    Eval σ Unit := do
  match ownerOf (← get).scopes scope name with
  | some owner => define owner name datum
  | none =>
    if (host.owner? name).isSome then throw (.runtime (.immutable name) (some span))
    else throw (.runtime (.unassignable name) (some span))

/-- What an identifier stands for: a literal, a binding, or a method of the host. -/
def identifier (host : Host σ) (scope : Nat) (name : String) (span : Span) : Eval σ Datum :=
  match Keyword.ofName? name with
  | some .null => pure (.value .null)
  | some (.truth value) => pure (.value (.bool value))
  | some _ => throw (.compile (.reservedAsValue name) span)
  | none => do
    match lookup? (← get).scopes scope name with
    | some datum => pure datum
    | none =>
      match host.owner? name with
      | some owner => pure (.value (.host owner name))
      | none => throw (.runtime (.notDefined name) (some span))

/-- The arguments of a host method, none of which may be a function. -/
def plainValues (span : Span) : List Datum → Except Error (List Value)
  | [] => .ok []
  | .value v :: rest => do return v :: (← plainValues span rest)
  | .lambda _ :: _ => .error (.runtime .functionAsArgument (some span))

def invoke (host : Host σ) (owner : Owner) (method : String) (args : List Value) (span : Span) :
    Eval σ Datum := do
  let s ← get
  let (result, world) := host.invoke owner method args s.world
  set { s with world }
  match result with
  | .ok value => pure (.value value)
  | .error problem => throw (.runtime (.host method problem) (some span))

/-- How a function is called with as many arguments as it has parameters. -/
abbrev Caller (σ : Type) := Lambda → List Datum → Span → Eval σ Datum

/-- Calls whatever stands at the head of a form. -/
def apply (host : Host σ) (call : Caller σ) (callee : Datum) (args : List Datum) (span : Span) :
    Eval σ Datum :=
  match callee with
  | .value (.host owner method) => do
    match plainValues span args with
    | .ok values => invoke host owner method values span
    | .error e => throw e
  | .lambda lambda =>
    if lambda.params.length ≠ args.length then
      throw (.runtime (.arity none lambda.params.length args.length) (some span))
    else call lambda args span
  | .value other => throw (.runtime (.notCallable other.kind other.inspect) (some span))

def isTruthy : Datum → Bool
  | .value v => v.isTruthy
  | .lambda _ => true

mutual

def eval (host : Host σ) (call : Caller σ) (scope : Nat) : Node → Eval σ Datum
  | .number value _ => pure (.value (.number value))
  | .text content _ => pure (.value (.text content))
  | .identifier name span => identifier host scope name span
  | .list [] span => throw (.compile .emptyForm span)
  | .list (head :: items) span =>
    match head.keyword? with
    | some .define => assignment host call scope (define scope) span items
    | some .assign =>
      assignment host call scope (fun name datum => assign host scope name datum span) span items
    | some .lambda =>
      match items with
      | params :: body =>
        match params.items?.bind Definition.names? with
        | some names => pure (.lambda ⟨names, body, scope⟩)
        | none => throw (.compile .parametersNotNames params.span)
      | [] => throw (.compile .lambdaShape span)
    | some .defn => throw (.compile .namedFunction span)
    | some .branch =>
      match items with
      | [condition, yes] => do
        if isTruthy (← eval host call scope condition) then eval host call scope yes
        else pure (.value .null)
      | [condition, yes, no] => do
        if isTruthy (← eval host call scope condition) then eval host call scope yes
        else eval host call scope no
      | _ => throw (.compile .ifParts span)
    | some .sequence => sequence host call scope items
    | _ => do
      let callee ← eval host call scope head
      let args ← evalAll host call scope items
      apply host call callee args span

/-- What `define` and `set!` make of the nodes after them: the value, once it is put under the name.
-/
def assignment (host : Host σ) (call : Caller σ) (scope : Nat) (put : String → Datum → Eval σ Unit)
    (span : Span) : List Node → Eval σ Datum
  | [name, value] =>
    match name.name? with
    | some bound => do
      let datum ← eval host call scope value
      put bound datum
      pure datum
    | none => throw (.compile .assignedNotAName name.span)
  | _ => throw (.compile .assignmentParts span)

/-- Forms in order; the last one's value counts, and none at all is `null`. -/
def sequence (host : Host σ) (call : Caller σ) (scope : Nat) : List Node → Eval σ Datum
  | [] => pure (.value .null)
  | [last] => eval host call scope last
  | form :: forms => do
    let _ ← eval host call scope form
    sequence host call scope forms

def evalAll (host : Host σ) (call : Caller σ) (scope : Nat) : List Node → Eval σ (List Datum)
  | [] => pure []
  | form :: forms => do
    let datum ← eval host call scope form
    return datum :: (← evalAll host call scope forms)

end

theorem eval_identifier (host : Host σ) (call : Caller σ) (scope : Nat)
    (name : String) (span : Span) :
    eval host call scope (.identifier name span) = identifier host scope name span := by
  rw [eval]

/-- A new scope that binds parameters to arguments; of two parameters with one name the later
counts. -/
def enter (lambda : Lambda) (args : List Datum) : Eval σ Nat := do
  let s ← get
  let values := NameMap.putAll [] (lambda.params.zip args)
  set { s with scopes := s.scopes.push ⟨values, some lambda.scope⟩ }
  return s.scopes.size

/-- Calls with at most `depth` calls nested inside each other. -/
def callWithin (host : Host σ) : Nat → Caller σ
  | 0 => fun _ _ span => throw (.runtime .callDepth (some span))
  | depth + 1 => fun lambda args _ => do
    let scope ← enter lambda args
    sequence host (callWithin host depth) scope lambda.body

/-- The value of a whole program. Functions may not be its result. -/
def evaluate (host : Host σ) (root : Node) (world : σ) : Except Error Value × σ :=
  match (eval host (callWithin host maxCallDepth) 0 root).run ⟨#[⟨[], none⟩], world⟩ with
  | .ok (.value value) s => (.ok value, s.world)
  | .ok (.lambda _) s => (.error (.runtime .functionAsResult (some root.span)), s.world)
  | .error e s => (.error e, s.world)

end LiveLisp.Meaning
