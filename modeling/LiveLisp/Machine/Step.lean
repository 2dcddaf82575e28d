/-
  One instruction at a time. An instruction is applied whole, or fails before it changes anything
  that a program or its host can see: a runtime error leaves stacks and memory as they were.
-/
import LiveLisp.Machine.Basic

namespace LiveLisp

/-- A machine and the world its host acts on. -/
structure Running (σ : Type) where
  machine : Machine
  world : σ

abbrev Exec (σ : Type) := EStateM Error (Running σ)

/-- Where to go on after an instruction. `stay` means that the counters are already in place. -/
inductive Flow where
  | advance
  | jump (target : Nat)
  | stay
deriving DecidableEq, Repr

namespace Exec

variable {σ α : Type}

def onMachine (x : MachineM α) : Exec σ α := fun ⟨machine, world⟩ =>
  match x machine with
  | .ok a machine => .ok a ⟨machine, world⟩
  | .error e machine => .error e ⟨machine, world⟩

def onMemory (x : MemoryM α) : Exec σ α :=
  onMachine (Machine.onMemory x)

def onStore (x : StoreM α) : Exec σ α :=
  onMachine (Machine.onStore x)

/-- A runtime error without a place gets this one. -/
def locatedAt (origin : Span) (x : Exec σ α) : Exec σ α := fun s =>
  match x s with
  | .ok a s => .ok a s
  | .error e s => .error (e.located origin) s

def context : Exec σ Context := do
  return (← get).machine.context

def modifyContext (f : Context → Context) : Exec σ Unit :=
  modify fun ⟨⟨context, memory, built⟩, world⟩ => ⟨⟨f context, memory, built⟩, world⟩

def setValues (values : List Value) : Exec σ Unit :=
  modifyContext fun c => { c with values }

def pushValue (v : Value) : Exec σ Unit :=
  modifyContext fun c => { c with values := v :: c.values }

def underflow (origin : Span) : Error :=
  .runtime .underflow (some origin)

def popValue (origin : Span) : Exec σ Value := do
  match (← context).values with
  | [] => throw (underflow origin)
  | v :: rest =>
    setValues rest
    return v

def topValue (origin : Span) : Exec σ Value := do
  match (← context).values with
  | [] => throw (underflow origin)
  | v :: _ => return v

def jumpTarget (pc : Nat) (offset : Int) : Exec σ Nat :=
  match (pc : Int) + offset with
  | .ofNat target => return target
  | .negSucc _ => throw (.internal (.jumpOut offset pc))

/-- The number of the next closure. -/
def nextClosure : Exec σ ClosureId := do
  let ⟨⟨context, memory, built⟩, world⟩ ← get
  set (Running.mk (Machine.mk context memory (built + 1)) world)
  return .built built

/-- Takes code and parameters from the stack and leaves the function they make. -/
def buildFunction (env : Environment) (name : Option String) (origin : Span) : Exec σ Flow := do
  match (← context).values with
  | .code code :: .params params :: rest =>
    setValues rest
    let function ← match name with
      | some name => do
        onMemory (Memory.register name params code env)
        pure (Value.named name)
      | none => do
        pure (Value.closure (← nextClosure) params code env.scope)
    locatedAt origin (onStore (Store.retain function))
    pushValue function
    return .advance
  | _ => throw (.internal .buildOperands)

/-- Asks the host; the callee and its arguments make way for the answer. -/
def callHost (host : Host σ) (owner : Owner) (method : String) (callee : Value)
    (args rest : List Value) (origin : Span) : Exec σ Flow := do
  let ⟨machine, world⟩ ← get
  let (result, world) := host.invoke owner method args world
  set (Running.mk machine world)
  match result with
  | .error problem => throw (.runtime (.host method problem) (some origin))
  | .ok v =>
    onStore (Store.retain v)
    setValues rest
    (callee :: args).forM fun v => onStore (Store.release v)
    pushValue v
    return .advance

/-- Leaves the frame of a call in tail position, which has nothing left to do. -/
def dropFrame : Exec σ Unit := do
  match (← context).environments with
  | [] => pure ()
  | finished :: rest =>
    modifyContext fun c => { c with environments := rest }
    onStore finished.release
  modifyContext fun c => { c with pcs := c.pcs.tail, frames := c.frames.tail }

/-- Enters a function with a new scope that binds its parameters. -/
def enter (tail : Bool) (params : List String) (code : Code) (env : Environment) (callee : Value)
    (args rest : List Value) : Exec σ Flow := do
  setValues (callee :: rest)
  let inner ← onStore (env.extend (params.zip args))
  (args ++ [callee]).forM fun v => onStore (Store.release v)
  setValues rest
  if tail then dropFrame
  modifyContext fun c => { c with
    pcs := 0 :: c.pcs, frames := code :: c.frames, environments := inner :: c.environments }
  return .stay

/-- Whatever is wrong with a call is found before the stacks change. -/
def call (host : Host σ) (tail : Bool) (argc : Nat) (origin : Span) : Exec σ Flow := do
  let values := (← context).values
  match values.drop argc with
  | [] => throw (underflow origin)
  | callee :: rest =>
    let args := (values.take argc).reverse
    let enterIf (name : Option String) (params : List String) (code : Code) (env : Environment) :
        Exec σ Flow :=
      if params.length ≠ argc then
        throw (.runtime (.arity name params.length argc) (some origin))
      else enter tail params code env callee args rest
    match callee with
    | .host owner method => callHost host owner method callee args rest origin
    | .closure _ params code scope => enterIf none params code ⟨scope⟩
    | .named name =>
      match (← get).machine.memory.functions.entries.get? name with
      | none => throw (.runtime (.noFunction name) (some origin))
      | some function =>
        match function.env with
        | none => throw (.runtime (.retired name) (some origin))
        | some env => enterIf (some name) function.params function.code env
    | other => throw (.runtime (.notCallable other.kind other.inspect) (some origin))

/-- Leaves a function; the outermost frame ends the program. -/
def leave : Exec σ Flow := do
  modifyContext fun c => { c with pcs := c.pcs.tail, frames := c.frames.tail }
  match (← context).environments with
  | [] => pure ()
  | env :: rest =>
    modifyContext fun c => { c with environments := rest }
    onStore env.release
  if (← context).frames.isEmpty then
    modifyContext fun c => { c with done := true }
    return .stay
  else return .advance

def execute (host : Host σ) (pc : Nat) (env : Environment) (origin : Span) : Op → Exec σ Flow
  | .loadConstant v => do
    onStore (Store.retain v)
    pushValue v
    return .advance
  | .push v => do
    onStore (Store.retain v)
    pushValue v
    return .advance
  | .pop => do
    let v ← popValue origin
    onStore (Store.release v)
    return .advance
  | .nameLookup name => do
    let v ← locatedAt origin (onMemory (env.lookup host.owner? name))
    pushValue v
    return .advance
  | .functionLookup name => do
    match ← onMemory (env.resolve host.owner? name) with
    | some v =>
      pushValue v
      return .advance
    | none => throw (.runtime (.noFunction name) (some origin))
  | .storeNew name => do
    let v ← topValue origin
    onStore (env.define name v)
    return .advance
  | .store name => do
    let v ← topValue origin
    locatedAt origin (onMemory (env.assign host.owner? name v))
    return .advance
  | .buildFunction name => buildFunction env name origin
  | .call argc => call host false argc origin
  | .tailCall argc => call host true argc origin
  | .jump offset => do return .jump (← jumpTarget pc offset)
  | .jumpIfNot offset => do
    let target ← jumpTarget pc offset
    let condition ← popValue origin
    onStore (Store.release condition)
    return if condition.isTruthy then .advance else .jump target
  | .ret => leave

/-- Moves the counter of the top frame. -/
def follow : Flow → Exec σ Unit
  | .advance => modifyContext fun c => { c with pcs := c.pcs.modifyHead (· + 1) }
  | .jump target => modifyContext fun c => { c with pcs := c.pcs.modifyHead fun _ => target }
  | .stay => pure ()

/-- Runs one instruction of the top frame. -/
def step (host : Host σ) : Exec σ Unit := do
  let c ← context
  if c.done then throw (.runtime .alreadyFinished none)
  match c.frames, c.pcs with
  | code :: _, pc :: _ =>
    match code.instructions[pc]? with
    | none => throw (.internal (.pastEnd pc code.length))
    | some i =>
      match c.environments with
      | [] => throw (.internal .noEnvironment)
      | env :: _ => follow (← execute host pc env i.origin i.op)
  | _, _ => throw (.internal .noFrame)

/-- The one value of a finished program. -/
def theResult : Exec σ Value := do
  match (← context).values with
  | [v] => return v
  | values => throw (.internal (.leftValues values.length))

/-- Steps until the program has finished, and answers its value; none if that takes more than
`limit` steps. -/
def run (host : Host σ) : Nat → Exec σ (Option Value)
  | 0 => do
    if (← context).done then return some (← theResult) else return none
  | limit + 1 => do
    if (← context).done then return some (← theResult)
    step host
    run host limit

end Exec

end LiveLisp
