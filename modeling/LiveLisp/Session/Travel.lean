/-
  Going back and forth in time, and taking up an edited source while the program runs.

  A step is reached from the nearest keyframe before it by running again. An edit of named functions
  goes back to the earliest of their last calls and goes on with the new bodies; an edit of anything
  else starts afresh.
-/
import LiveLisp.Session.Basic

namespace LiveLisp.Session

variable {σ : Type}

def notRestored (capability : Capability σ) (problem : HostProblem) : Error :=
  .runtime (.notRestored capability.label problem) none

/-- The first objection of a capability to its saved state. -/
def checkStates (world : σ) : List (Capability σ × Json) → Except Error Unit
  | [] => .ok ()
  | (capability, state) :: rest =>
    match capability.check state world with
    | .ok _ => checkStates world rest
    | .error problem => .error (notRestored capability problem)

/-- Hands the capabilities their saved states, up to the first that fails to take it. -/
def restoreStates : List (Capability σ × Json) → σ → Except Error Unit × σ
  | [], world => (.ok (), world)
  | (capability, state) :: rest, world =>
    match capability.restore state world with
    | (.ok _, world) => restoreStates rest world
    | (.error problem, world) => (.error (notRestored capability problem), world)

/-- The capabilities that saved something, each with what it saved. -/
def savedStates (capabilities : List (Capability σ)) (states : List (Option Json)) :
    List (Capability σ × Json) :=
  (capabilities.zip states).filterMap fun (capability, state) =>
    state.map fun state => (capability, state)

/-- Returns to a saved state. Nothing changes unless every capability accepts its part. -/
def restore (k : Snapshot) : SessionM σ Unit := do
  let s ← get
  match s.loaded with
  | none => throw noProgram
  | some loaded =>
    let saved := savedStates s.config.capabilities k.states
    match checkStates s.world saved with
    | .error e => throw e
    | .ok _ =>
      let (result, world) := restoreStates saved s.world
      set { s with world }
      match result with
      | .error e => throw e
      | .ok _ =>
        modify fun s =>
          { s with
            loaded := some { loaded with machine := k.machine }, steps := k.step, fault := none }
        modify clearRender

/-- Steps until `target`, or until the program has finished; at most `left` steps. -/
def replayTo (target : Nat) : Nat → SessionM σ Unit
  | 0 => pure ()
  | left + 1 => do
    let s ← get
    if s.steps < target && !s.isFinished then
      step
      replayTo target left

/-- Goes to exactly this step, backwards or forwards. -/
def rewindTo (target : Nat) : SessionM σ Unit := do
  match (← get).timeline.keyframeBefore? target with
  | none => throw (.runtime (.noKeyframe target) none)
  | some k =>
    restore k
    replayTo target (target - k.step)
    modify clearRender

/-- Undoes the last step. -/
def stepBack : SessionM σ Unit := do
  match (← get).steps with
  | 0 => throw (.runtime .atFirstStep none)
  | previous + 1 => rewindTo previous

inductive UpdateOutcome where
  /-- The same program, still running. -/
  | unchanged
  | restarted
  /-- Back at the last call of `function`, with the new bodies. -/
  | rewound (function : String) (step : Nat)
  /-- No edited function had been called; their bodies were replaced in place. -/
  | patched (functions : List String)
deriving DecidableEq, Repr

/-- A new body for a named function. -/
structure Fresh where
  definition : Definition
  code : Code

/-- Compiles the body of every definition, each as a compilation of its own. -/
def freshBodies (unit : Nat) : List Definition → Except Error (List Fresh)
  | [] => .ok []
  | d :: ds => do
    let code ← Code.ofDefinition unit d
    return ⟨d, code⟩ :: (← freshBodies (unit + 1) ds)

/-- The sites of a definition after an edit: those known before, if its depth is still the same, and
those in the new bodies. -/
def sitesAfter (loaded : Loaded) (fresh : List Fresh) (d : Definition) : List CodeId :=
  let known := match Definition.get? loaded.definitions d.name with
    | some previous =>
      if previous.depth = d.depth then (loaded.sites.get? d.name).getD [] else []
    | none => []
  known ++ fresh.flatMap fun f => (f.code.sites d).map (·.id)

/-- Puts every new body into the function table. -/
def patchAll (sites : NameMap (List CodeId)) (table : FunctionTable)
    (fresh : List Fresh) : FunctionTable :=
  fresh.foldl (fun table f =>
    table.patch f.definition.name ⟨f.definition.params, f.code,
      (sites.get? f.definition.name).getD []⟩) table

/-- What an edited source compiles to. -/
structure Edit where
  root : Node
  definitions : List Definition
  code : Code
  fresh : List Fresh

def Edit.prepare (units : Nat) (root : Node) : Except Error Edit := do
  let definitions ← Definition.find root
  let code ← Code.ofProgram units root
  let fresh ← freshBodies (units + 1) definitions
  return ⟨root, definitions, code, fresh⟩

/-- Goes back to the earliest last call among the changed functions, if there is one. -/
def rewindForEdit (changed : List String) : SessionM σ UpdateOutcome := do
  let s ← get
  match s.timeline.earliest? changed with
  | some (function, target) =>
    match s.timeline.checkpoint? function with
    | none => throw (.internal .noCheckpoint)
    | some k =>
      restore k
      modify fun s => { s with timeline := s.timeline.pruneAfter target }
      return .rewound function target
  | none =>
    set { s with fault := none }
    return .patched changed

/-- Takes over an edit of named functions. -/
def adopt (source : String) (loaded : Loaded) (edit : Edit) (changed : List String) :
    SessionM σ UpdateOutcome := do
  let sites := edit.definitions.map fun d => (d.name, sitesAfter loaded edit.fresh d)
  let outcome ← rewindForEdit changed
  let s ← get
  match s.loaded with
  | none => throw (.internal .noSession)
  | some current =>
    let machine := current.machine
    let functions := patchAll sites machine.memory.functions edit.fresh
    set { s with
      loaded := some
        { source, form := edit.root.form, definitions := edit.definitions, sites
          machine := { machine with memory := { machine.memory with functions } } }
      units := s.units + 1 + edit.fresh.length }
    return outcome

/-- Takes up an edited source. The whole of it is read and compiled first, so that an error leaves
the running program as it was. -/
def update (source : String) : SessionM σ UpdateOutcome := do
  let s ← get
  match Node.ofProgram source with
  | .error e => throw e
  | .ok root =>
    match s.loaded with
    | none =>
      load source
      return .restarted
    | some loaded =>
      if root.form.alike loaded.form && !s.isFinished then
        set { s with loaded := some { loaded with source } }
        return .unchanged
      else
        match Edit.prepare s.units root with
        | .error e => throw e
        | .ok edit =>
          match Definition.changed loaded.definitions edit.definitions with
          | [] =>
            set (s.install source root.form edit.definitions edit.code (s.units + 1))
            return .restarted
          | changed => adopt source loaded edit changed

end LiveLisp.Session
