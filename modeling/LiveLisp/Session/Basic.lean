/-
  A session runs one program for a host: it loads the source, steps under a budget, keeps states to
  go back to and answers what the host asks.
-/
import LiveLisp.Code.Site
import LiveLisp.Host.World
import LiveLisp.Machine.Step
import LiveLisp.Session.Settings
import LiveLisp.Session.Timeline

namespace LiveLisp

/-- What a session is set up with. Later capabilities answer before earlier ones. -/
structure Config (σ : Type) where
  settings : Settings
  capabilities : List (Capability σ)
  render : Signal σ

namespace Config

/-- The standard capabilities that the settings ask for. -/
def ofSettings {σ : Type} (settings : Settings) (render : Signal σ) : Config σ where
  settings
  capabilities := if settings.standardBuiltins then [.builtins, .frame render] else []
  render

def withCapability {σ : Type} (c : Config σ) (capability : Capability σ) : Config σ :=
  { c with capabilities := c.capabilities ++ [capability] }

/-- Settings and labels in words. -/
def describe {σ : Type} (c : Config σ) : String :=
  "RunnerConfig \x7b settings: " ++ c.settings.describe ++ ", capabilities: "
    ++ Text.quoteAll (c.capabilities.map (·.label)) ++ " \x7d"

end Config

/-- The program that a session runs. -/
structure Loaded where
  source : String
  form : Form
  definitions : List Definition
  /-- For each definition the bodies that its form has been compiled to, in the running code and in
  every body patched in since. -/
  sites : NameMap (List CodeId)
  machine : Machine

structure Session (σ : Type) where
  config : Config σ
  world : σ
  loaded : Option Loaded
  timeline : Timeline
  steps : Nat
  /-- The error that stopped the program, until it is cleared. -/
  fault : Option Error
  /-- How many compilations have been numbered. -/
  units : Nat

abbrev SessionM (σ : Type) := EStateM Error (Session σ)

namespace Session

variable {σ : Type}

def start (config : Config σ) (world : σ) : Session σ :=
  ⟨config, world, none, .empty, 0, none, 0⟩

def context? (s : Session σ) : Option Context :=
  s.loaded.map (·.machine.context)

def isFinished (s : Session σ) : Bool :=
  (s.context?.map (·.done)).getD false

def result? (s : Session σ) : Option Value :=
  s.context?.bind (·.result?)

def liveScopes (s : Session σ) : Nat :=
  (s.loaded.map (·.machine.memory.store.live)).getD 0

def noProgram : Error := .runtime .noProgram none

/-- Clears the redraw flag. -/
def clearRender (s : Session σ) : Session σ :=
  { s with world := s.config.render.set false s.world }

/-- The state of a machine and of all capabilities, as it is now. -/
def capture (s : Session σ) (machine : Machine) : Snapshot where
  step := s.steps
  machine := machine
  states := s.config.capabilities.map (·.save s.world)

def snapshot : SessionM σ Snapshot := do
  let s ← get
  match s.loaded with
  | some loaded => return s.capture loaded.machine
  | none => throw noProgram

/-- Where each definition's form is compiled in this code. -/
def sitesOf (code : Code) (definitions : List Definition) : NameMap (List CodeId) :=
  definitions.map fun d => (d.name, (code.sites d).map (·.id))

/-- Starts a program and forgets the one before. `units` counts the compilations so far. -/
def install (s : Session σ) (source : String) (form : Form)
    (definitions : List Definition) (code : Code) (units : Nat) : Session σ :=
  let machine := Machine.start code
  let s := { s.clearRender with
    loaded := some ⟨source, form, definitions, sitesOf code definitions, machine⟩
    timeline := .empty, steps := 0, fault := none, units }
  { s with timeline :=
    s.timeline.recordKeyframe (s.capture machine) s.config.settings.keyframeLimit }

/-- Reads, compiles and starts a program. An error leaves the one before in place. -/
def load (source : String) : SessionM σ Unit := do
  let s ← get
  let prepared : Except Error (Node × List Definition × Code) := do
    let root ← Node.ofProgram source
    let definitions ← Definition.find root
    let code ← Code.ofProgram s.units root
    return (root, definitions, code)
  match prepared with
  | .error e => throw e
  | .ok (root, definitions, code) =>
    set (s.install source root.form definitions code (s.units + 1))

/-- The world, and the answers remembered from it. -/
structure Replay (σ : Type) where
  world : σ
  answers : List (Nat × Value)

/-- Calls go to their capability, but one that may not answer the same again is asked only the first
time that its step runs. -/
def replayHost (capabilities : List (Capability σ)) (step : Nat) : Host (Replay σ) where
  owner? := Capability.ownerOf? capabilities
  invoke := fun owner method args r =>
    let ask : Except HostProblem Value × σ :=
      Capability.invokeAt capabilities owner method args r.world
    if ((capabilities[owner.slot]?).map (·.isDeterministic)).getD true then
      (ask.1, { r with world := ask.2 })
    else
      match answerAt? step r.answers with
      | some v => (.ok v, r)
      | none =>
        match ask with
        | (.ok v, world) => (.ok v, ⟨world, recordAnswer step v r.answers⟩)
        | (.error problem, world) => (.error problem, { r with world })

variable {α : Type}

/-- Runs a part of the program on the machine, the world and the remembered answers. -/
def onRunning (x : Exec (Replay σ) α) : SessionM σ α
  | ⟨config, world, some ⟨source, form, definitions, sites, machine⟩,
      ⟨keyframes, checkpoints, answers⟩,
      steps, fault, units⟩ =>
    let resume : Running (Replay σ) → Session σ := fun ⟨machine, ⟨world, answers⟩⟩ =>
      ⟨config, world, some ⟨source, form, definitions, sites, machine⟩,
        ⟨keyframes, checkpoints, answers⟩,
        steps, fault, units⟩
    match x ⟨machine, ⟨world, answers⟩⟩ with
    | .ok a r => .ok a (resume r)
    | .error e r => .error e (resume r)
  | s => .error noProgram s

def onMachine (x : MachineM α) : SessionM σ α :=
  onRunning (Exec.onMachine x)

/-- An error of `x` stops the program. -/
def orFault (x : SessionM σ α) : SessionM σ α := fun s =>
  match x s with
  | .ok a s => .ok a s
  | .error e s => .error e { s with fault := some e }

/-- Keeps the present state as the last call of the function about to be called. -/
def recordCall : SessionM σ Unit := do
  let s ← get
  if s.config.settings.recordCheckpoints then
    match s.loaded with
    | none => pure ()
    | some loaded =>
      match loaded.machine.context.pendingCall? with
      | some name =>
        set { s with timeline := s.timeline.recordCheckpoint name (s.capture loaded.machine) }
      | none => pure ()

/-- Runs the next instruction. -/
def runInstruction : SessionM σ Unit := do
  let s ← get
  onRunning (Exec.step (replayHost s.config.capabilities s.steps))
  modify fun s => { s with steps := s.steps + 1 }

/-- Tears down a finished program, or collects garbage when it is time. -/
def tidy : SessionM σ Unit := do
  let s ← get
  let interval := s.config.settings.gcInterval
  if s.isFinished then
    let _ ← onMachine Machine.finish
  else if 0 < interval && s.steps % interval == 0 then
    let _ ← onMachine Machine.collectGarbage

/-- Keeps a keyframe when it is time and there is none yet. -/
def recordKeyframe : SessionM σ Unit := do
  let s ← get
  let interval := s.config.settings.keyframeInterval
  if 0 < interval && s.steps % interval == 0 && !s.timeline.hasKeyframe s.steps then
    match s.loaded with
    | none => pure ()
    | some loaded =>
      set { s with
        timeline := s.timeline.recordKeyframe (s.capture loaded.machine)
          s.config.settings.keyframeLimit }

/-- Runs one instruction. After an error every further step answers the same error. -/
def step : SessionM σ Unit := do
  let s ← get
  match s.fault with
  | some e => throw e
  | none =>
    if s.loaded.isNone then throw noProgram
    else if s.isFinished then throw (.runtime .alreadyFinished none)
    else
      recordCall
      orFault runInstruction
      orFault tidy
      recordKeyframe

inductive StopReason where
  | exhausted
  | renderRequested
  | finished
  | faulted
deriving DecidableEq, Repr

/-- How a budget ended: the steps it took, why it stopped, and the error that was reported. -/
structure BudgetReport where
  steps : Nat
  stop : StopReason
  reported : Option Error

/-- Spends what is left of a budget after `done` steps of it. -/
def spend (done : Nat) : Nat → SessionM σ BudgetReport
  | 0 => do
    let finished := (← get).isFinished
    return ⟨done, if finished then .finished else .exhausted, none⟩
  | left + 1 => fun s =>
    if s.isFinished then .ok ⟨done, .finished, none⟩ s
    else
      match step s with
      | .error e s => if e.isFatal then .error e s else .ok ⟨done, .faulted, some e⟩ s
      | .ok _ s =>
        if s.config.render.isRequested s.world then
          .ok ⟨done + 1, .renderRequested, none⟩ s.clearRender
        else spend (done + 1) left s.clearRender

/-- Takes up to `budget` steps. A redraw request, the end of the program or a runtime error ends the
budget early; an internal error is thrown. -/
def runBudget (budget : Nat) : SessionM σ BudgetReport := do
  let s ← get
  if s.loaded.isNone then throw noProgram
  else if s.fault.isSome then return ⟨0, .faulted, none⟩
  else spend 0 budget

/-- The value of a program that has finished. -/
def finishedValue (s : Session σ) : EStateM.Result Error (Session σ) Value :=
  match s.result? with
  | some v => .ok v s
  | none => .error (.internal .noResult) s

/-- Steps until the program has finished, with so many steps left of `limit`. -/
def completeWithin (limit : Nat) : Nat → SessionM σ Value
  | 0 => fun s =>
    if s.isFinished then s.finishedValue else .error (.runtime (.outOfSteps limit) none) s
  | left + 1 => fun s =>
    if s.isFinished then s.finishedValue
    else
      match step s with
      | .error e s => .error e s
      | .ok _ s => completeWithin limit left s.clearRender

/-- Steps until the program has finished, and answers its value. -/
def runToCompletion (limit : Nat) : SessionM σ Value :=
  completeWithin limit limit

def collectGarbage : SessionM σ Nat := do
  if (← get).loaded.isNone then return 0 else onMachine Machine.collectGarbage

end Session

end LiveLisp
