/-
  The machine: a paused program is four stacks and a memory, and nothing else. Stacks are lists with
  the top first, so a machine is a value that can be kept and taken up again at any instruction.
-/
import LiveLisp.Machine.Environment

namespace LiveLisp

/-- The number of arguments of a call. -/
def Op.argc? : Op → Option Nat
  | .call argc => some argc
  | .tailCall argc => some argc
  | _ => none

/-- The stacks of a program. A frame is a program counter, the code it counts in and an environment.
-/
structure Context where
  pcs : List Nat
  frames : List Code
  environments : List Environment
  values : List Value
  done : Bool
deriving Inhabited

namespace Context

/-- About to run the first instruction; the environment comes with the count that the frame owns. -/
def start (code : Code) (env : Environment) : Context :=
  ⟨[0], [code], [env], [], false⟩

def depth (c : Context) : Nat :=
  c.frames.length

/-- The one value that a finished program left. -/
def result? (c : Context) : Option Value :=
  match c.done, c.values with
  | true, [v] => some v
  | _, _ => none

/-- The scopes that the stacks hold, from the bottom up. -/
def scopes (c : Context) : List Ticket :=
  c.environments.reverse.filterMap (·.scope) ++ c.values.reverse.flatMap Value.scopes

/-- The instruction about to run. -/
def instruction? (c : Context) : Option Instruction :=
  match c.frames, c.pcs with
  | code :: _, pc :: _ => code.instructions[pc]?
  | _, _ => none

/-- Where the form stands whose instruction is about to run. -/
def at? (c : Context) : Option Span :=
  c.instruction?.map (·.origin)

/-- The name of the function that the next instruction is about to call by name. -/
def pendingCall? (c : Context) : Option String := do
  let i ← c.instruction?
  let argc ← i.op.argc?
  match c.values[argc]? with
  | some (.named name) => some name
  | _ => none

end Context

structure Machine where
  context : Context
  memory : Memory
  /-- How many closures have been built. -/
  built : Nat
deriving Inhabited

abbrev MachineM := EStateM Error Machine

namespace Machine

/-- About to run `code` in an empty scope. -/
def start (code : Code) : Machine :=
  let (root, store) := Store.empty.alloc ⟨1, [], none⟩
  ⟨.start code ⟨some root⟩, ⟨⟨[], []⟩, store⟩, 0⟩

variable {α : Type}

def onMemory (x : MemoryM α) : MachineM α := fun ⟨context, memory, built⟩ =>
  match x memory with
  | .ok a memory => .ok a ⟨context, memory, built⟩
  | .error e memory => .error e ⟨context, memory, built⟩

def onStore (x : StoreM α) : MachineM α :=
  onMemory (Memory.onStore x)

/-- What a collection starts from: every scope that the stacks or the function table hold. -/
def roots (m : Machine) : List Ticket :=
  m.context.scopes ++ m.memory.functions.scopes

def collectGarbage : MachineM Nat := do
  onStore (Store.collect (← get).roots)

/-- Tears down a finished program: functions let go of their scopes, and what the result does not
reach is collected. -/
def finish : MachineM Nat := do
  onMemory Memory.retire
  collectGarbage

end Machine

end LiveLisp
