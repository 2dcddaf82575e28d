/-
  Environments: where names are looked up. The innermost layer is a scope with the scopes around it,
  then come the capabilities, the last one first, then the table of named functions.

  The function table and the scope store together are the memory of a program. Copying an
  environment changes no count; whoever holds one retains and releases it.
-/
import LiveLisp.Host.Capability
import LiveLisp.Scope.Sweep

namespace LiveLisp

structure Environment where
  scope : Option Ticket
deriving DecidableEq, Repr, Inhabited

/-- A function registered by `defn`. -/
structure NamedFunction where
  params : List String
  code : Code
  /-- The body that the registering instruction pushed. -/
  site : Code
  /-- Where the `defn` ran; none once the function has been retired. -/
  env : Option Environment
deriving Inhabited

/-- A body that replaces those of the `defn` forms at some sites, whenever one of them runs again.
-/
structure Revision where
  params : List String
  code : Code
  sites : List CodeId

def Revision.covers (r : Revision) (site : Code) : Bool :=
  r.sites.contains site.id

/-- Named functions in order of registration, and the revisions of edited ones. An entry owns one
count of its environment's scope. -/
structure FunctionTable where
  entries : NameMap NamedFunction
  revisions : NameMap Revision
deriving Inhabited

structure Memory where
  functions : FunctionTable
  store : Store
deriving Inhabited

abbrev MemoryM := EStateM Error Memory

namespace Memory

def empty : Memory := ⟨⟨[], []⟩, .empty⟩

variable {α : Type}

def onStore (x : StoreM α) : MemoryM α := fun ⟨functions, store⟩ =>
  match x store with
  | .ok a store => .ok a ⟨functions, store⟩
  | .error e store => .error e ⟨functions, store⟩

end Memory

namespace Environment

/-- What a name stands for, if any layer knows it. A value from a scope comes with a count of its
own. -/
def resolve (env : Environment) (owner? : String → Option Owner) (name : String) :
    MemoryM (Option Value) := do
  let found ← match env.scope with
    | some scope => Memory.onStore (Store.lookup scope name)
    | none => pure none
  match found with
  | some v => return some v
  | none =>
    match owner? name with
    | some owner => return some (.host owner name)
    | none =>
      if (← get).functions.entries.contains name then return some (.named name) else return none

def lookup (env : Environment) (owner? : String → Option Owner)
    (name : String) : MemoryM Value := do
  match ← env.resolve owner? name with
  | some v => return v
  | none => throw (.runtime (.notDefined name) none)

/-- Assigns to a binding of a scope; methods and named functions cannot be assigned to. -/
def assign (env : Environment) (owner? : String → Option Owner) (name : String) (v : Value) :
    MemoryM Unit := do
  let assigned ← match env.scope with
    | some scope => Memory.onStore (Store.assign scope name v)
    | none => pure false
  if assigned then return
  if (owner? name).isSome || (← get).functions.entries.contains name then
    throw (.runtime (.immutable name) none)
  else throw (.runtime (.unassignable name) none)

/-- Binds a name in the innermost scope. -/
def define (env : Environment) (name : String) (v : Value) : StoreM Unit :=
  match env.scope with
  | some scope => Store.define scope name v
  | none => throw (.internal .noScopeLayer)

/-- An environment with a new scope inside this one's, of which it owns a count. -/
def extend (env : Environment) (bindings : List (String × Value)) : StoreM Environment :=
  match env.scope with
  | some parent => return ⟨some (← Store.newScopeIn parent bindings)⟩
  | none => do
    let scope ← Store.newScope
    bindings.forM fun (name, v) => Store.define scope name v
    return ⟨some scope⟩

def retain (env : Environment) : StoreM Unit :=
  match env.scope with
  | some scope => Store.incref scope
  | none => pure ()

def release (env : Environment) : StoreM Unit :=
  match env.scope with
  | some scope => Store.decref scope
  | none => pure ()

/-- The layers in words. -/
def describe (env : Environment) (labels : List String) : String :=
  let scope := match env.scope with
    | some t => "Some(" ++ t.render ++ ")"
    | none => "None"
  "Environment \x7b capabilities: " ++ Text.quoteAll labels ++ ", scope: " ++ scope ++ " \x7d"

end Environment

namespace Memory

/-- Registers a named function, or registers it anew. A revision that covers the pushed body wins
over it. -/
def register (name : String) (params : List String) (code : Code) (env : Environment) :
    MemoryM Unit := do
  onStore env.retain
  let m ← get
  let (newParams, newCode) := match m.functions.revisions.get? name with
    | some revision =>
      if revision.covers code then (revision.params, revision.code) else (params, code)
    | none => (params, code)
  let entry : NamedFunction := ⟨newParams, newCode, code, some env⟩
  let previous := m.functions.entries.get? name
  set { m with functions := { m.functions with entries := m.functions.entries.put name entry } }
  match previous.bind (·.env) with
  | some old => onStore old.release
  | none => pure ()

/-- Lets go of the environment of one function, which then stays listed but cannot be called. -/
def retireOne (name : String) : MemoryM Unit := do
  let m ← get
  match m.functions.entries.get? name with
  | none => pure ()
  | some entry =>
    match entry.env with
    | none => pure ()
    | some env =>
      let entries := m.functions.entries.put name { entry with env := none }
      set { m with functions := { m.functions with entries } }
      onStore env.release

/-- Lets go of the environments of all functions. -/
def retire : MemoryM Unit := do
  (← get).functions.entries.keys.forM retireOne

end Memory

namespace FunctionTable

/-- Replaces the body of a function at some sites, from the next call through its name on. -/
def patch (table : FunctionTable) (name : String) (revision : Revision) : FunctionTable where
  entries :=
    match table.entries.get? name with
    | some entry =>
      if revision.covers entry.site then
        table.entries.put name { entry with params := revision.params, code := revision.code }
      else table.entries
    | none => table.entries
  revisions := table.revisions.put name revision

/-- The scopes that registered functions hold. -/
def scopes (table : FunctionTable) : List Ticket :=
  table.entries.values.filterMap fun entry => entry.env.bind (·.scope)

end FunctionTable

end LiveLisp
