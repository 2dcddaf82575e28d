/-
  The ideal machine: the same instructions over scopes that are never removed. Scopes are numbered
  in the order of their making; nothing is counted, nothing is released, and no number is used
  twice. It is what memory management is held against, and where programs are reasoned about.

  An instruction asks the host at most once. `Context.hostCall?` says what the next one asks, and
  `step` is given the reply, so that it is a function of the machine alone; `advance` puts machine
  and host together.
-/
import LiveLisp.Machine.Step
import LiveLisp.Proofs.Outcome
import LiveLisp.Proofs.Scope.WellFormed

namespace LiveLisp

namespace Context

/-- The host method that the next instruction calls, with its arguments. -/
def hostCall? (c : Context) : Option (Owner × String × List Value) :=
  match c.instruction?.bind (·.op.argc?) with
  | none => none
  | some argc =>
    match c.values.drop argc with
    | .host owner method :: _ => some (owner, method, (c.values.take argc).reverse)
    | _ => none

/-- Without the top frame. -/
def dropFrame (c : Context) : Context :=
  { c with pcs := c.pcs.tail, frames := c.frames.tail, environments := c.environments.tail }

/-- With a new frame about to run its first instruction. -/
def pushFrame (c : Context) (code : Code) (env : Environment) : Context :=
  { c with pcs := 0 :: c.pcs, frames := code :: c.frames, environments := env :: c.environments }

/-- With the counter of the top frame moved. -/
def follow (c : Context) : Flow → Context
  | .advance => { c with pcs := c.pcs.modifyHead (· + 1) }
  | .jump target => { c with pcs := c.pcs.modifyHead fun _ => target }
  | .stay => c

end Context

/-- What `register` makes of the table: the entry of a name, with the body of a revision that covers
the pushed one. -/
def FunctionTable.enroll (table : FunctionTable) (name : String)
    (params : List String) (code : Code) (env : Environment) : FunctionTable :=
  let (newParams, newCode) := match table.revisions.get? name with
    | some revision =>
      if revision.covers code then (revision.params, revision.code) else (params, code)
    | none => (params, code)
  { table with entries := table.entries.put name ⟨newParams, newCode, code, some env⟩ }

/-- What `Memory.retireOne` makes of the table. -/
def FunctionTable.retireOne (table : FunctionTable) (name : String) : FunctionTable :=
  match table.entries.get? name with
  | none => table
  | some entry =>
    match entry.env with
    | none => table
    | some _ => { table with entries := table.entries.put name { entry with env := none } }

/-- What `Memory.retire` makes of the table. -/
def FunctionTable.retire (table : FunctionTable) : FunctionTable :=
  table.entries.keys.foldl retireOne table

/-- What a name stands for outside all scopes: a host method or a named function. -/
def FunctionTable.known? (table : FunctionTable) (owner? : String → Option Owner)
    (name : String) : Option Value :=
  match owner? name with
  | some owner => some (.host owner name)
  | none => if table.entries.contains name then some (.named name) else none

structure Ideal where
  context : Context
  functions : FunctionTable
  scopes : Array Scope
  /-- How many closures have been built. -/
  built : Nat

namespace Ideal

def start (code : Code) : Ideal :=
  ⟨.start code ⟨some ⟨0, 0⟩⟩, ⟨[], []⟩, #[⟨[], none⟩], 0⟩

/-- The nearest scope from `t` outwards that binds a name. Parents have smaller numbers. -/
def ownerOf (scopes : Array Scope) (name : String) (t : Ticket) : Option Ticket :=
  match scopes[t.index]? with
  | none => none
  | some sc =>
    if sc.bindings.contains name then some t
    else
      match sc.parent with
      | none => none
      | some parent => if _h : parent.index < t.index then ownerOf scopes name parent else none
termination_by t.index

def lookup? (scopes : Array Scope) (name : String) (t : Ticket) : Option Value := do
  let owner ← ownerOf scopes name t
  let sc ← scopes[owner.index]?
  sc.bindings.get? name

def setValues (m : Ideal) (values : List Value) : Ideal :=
  { m with context := { m.context with values } }

def push (m : Ideal) (v : Value) : Ideal :=
  m.setValues (v :: m.context.values)

/-- What a name stands for, in the scopes of an environment or outside them. -/
def resolve? (m : Ideal) (owner? : String → Option Owner) (env : Environment)
    (name : String) : Option Value :=
  match env.scope.bind (lookup? m.scopes name) with
  | some v => some v
  | none => m.functions.known? owner? name

/-- With a name bound in one scope. -/
def bindIn (m : Ideal) (t : Ticket) (name : String) (v : Value) : Ideal :=
  { m with scopes := m.scopes.modify t.index fun sc =>
    { sc with bindings := sc.bindings.put name v } }

def assign (m : Ideal) (owner? : String → Option Owner) (env : Environment)
    (name : String) (v : Value) (origin : Span) : Except Error Ideal :=
  match env.scope.bind (ownerOf m.scopes name) with
  | some t => .ok (m.bindIn t name v)
  | none =>
    if (owner? name).isSome || m.functions.entries.contains name then
      .error (.runtime (.immutable name) (some origin))
    else .error (.runtime (.unassignable name) (some origin))

def buildFunction (m : Ideal) (env : Environment) (name : Option String) :
    Except Error (Flow × Ideal) :=
  match m.context.values with
  | .code code :: .params params :: rest =>
    match name with
    | some name =>
      .ok (.advance, { m with functions := m.functions.enroll name params code env }.setValues
        (.named name :: rest))
    | none =>
      .ok (.advance,
        { m with built := m.built + 1 }.setValues
          (.closure (.built m.built) params code env.scope :: rest))
  | _ => .error (.internal .buildOperands)

/-- Enters a function with a new scope that binds its parameters; a call in tail position leaves its
own frame first. -/
def enter (m : Ideal) (tail : Bool) (params : List String) (code : Code) (env : Environment)
    (args rest : List Value) : Ideal :=
  let caller := { (if tail then m.context.dropFrame else m.context) with values := rest }
  { m with
    context := caller.pushFrame code ⟨some ⟨m.scopes.size, 0⟩⟩
    scopes := m.scopes.push ⟨NameMap.putAll [] (params.zip args), env.scope⟩ }

def enterIf (m : Ideal) (tail : Bool) (name : Option String) (params : List String) (code : Code)
    (env : Environment) (args rest : List Value) (origin : Span) : Except Error (Flow × Ideal) :=
  if params.length ≠ args.length then
    .error (.runtime (.arity name params.length args.length) (some origin))
  else .ok (.stay, m.enter tail params code env args rest)

def call (m : Ideal) (reply : Except HostProblem Value) (tail : Bool) (argc : Nat) (origin : Span) :
    Except Error (Flow × Ideal) :=
  match m.context.values.drop argc with
  | [] => .error (Exec.underflow origin)
  | callee :: rest =>
    let args := (m.context.values.take argc).reverse
    match callee with
    | .host _ method =>
      match reply with
      | .ok v => .ok (.advance, m.setValues (v :: rest))
      | .error problem => .error (.runtime (.host method problem) (some origin))
    | .closure _ params code scope => m.enterIf tail none params code ⟨scope⟩ args rest origin
    | .named name =>
      match m.functions.entries.get? name with
      | none => .error (.runtime (.noFunction name) (some origin))
      | some function =>
        match function.env with
        | none => .error (.runtime (.retired name) (some origin))
        | some env => m.enterIf tail (some name) function.params function.code env args rest origin
    | other => .error (.runtime (.notCallable other.kind other.inspect) (some origin))

/-- Leaves a function; the outermost frame ends the program. -/
def leave (m : Ideal) : Flow × Ideal :=
  let c := m.context.dropFrame
  if c.frames.isEmpty then (.stay, { m with context := { c with done := true } })
  else (.advance, { m with context := c })

def jumpTarget (pc : Nat) (offset : Int) : Except Error Nat :=
  match (pc : Int) + offset with
  | .ofNat target => .ok target
  | .negSucc _ => .error (.internal (.jumpOut offset pc))

def execute (m : Ideal) (owner? : String → Option Owner)
    (reply : Except HostProblem Value) (pc : Nat) (env : Environment)
    (origin : Span) : Op → Except Error (Flow × Ideal)
  | .loadConstant v => .ok (.advance, m.push v)
  | .push v => .ok (.advance, m.push v)
  | .pop =>
    match m.context.values with
    | [] => .error (Exec.underflow origin)
    | _ :: rest => .ok (.advance, m.setValues rest)
  | .nameLookup name =>
    match m.resolve? owner? env name with
    | some v => .ok (.advance, m.push v)
    | none => .error (.runtime (.notDefined name) (some origin))
  | .functionLookup name =>
    match m.resolve? owner? env name with
    | some v => .ok (.advance, m.push v)
    | none => .error (.runtime (.noFunction name) (some origin))
  | .storeNew name =>
    match m.context.values with
    | [] => .error (Exec.underflow origin)
    | v :: _ =>
      match env.scope with
      | some t => .ok (.advance, m.bindIn t name v)
      | none => .error (.internal .noScopeLayer)
  | .store name =>
    match m.context.values with
    | [] => .error (Exec.underflow origin)
    | v :: _ => do return (.advance, ← m.assign owner? env name v origin)
  | .buildFunction name => m.buildFunction env name
  | .call argc => m.call reply false argc origin
  | .tailCall argc => m.call reply true argc origin
  | .jump offset => do return (.jump (← jumpTarget pc offset), m)
  | .jumpIfNot offset => do
    let target ← jumpTarget pc offset
    match m.context.values with
    | [] => .error (Exec.underflow origin)
    | v :: rest => return (if v.isTruthy then .advance else .jump target, m.setValues rest)
  | .ret => .ok m.leave

/-- Where the counter goes after an instruction. -/
def settle : Except Error (Flow × Ideal) → Except Error Ideal
  | .ok (flow, m) => .ok { m with context := m.context.follow flow }
  | .error e => .error e

/-- Runs one instruction of the top frame, given the reply to its host call. -/
def step (m : Ideal) (owner? : String → Option Owner) (reply : Except HostProblem Value) :
    Except Error Ideal :=
  let c := m.context
  if c.done then .error (.runtime .alreadyFinished none)
  else
    match c.frames, c.pcs with
    | code :: _, pc :: _ =>
      match code.instructions[pc]? with
      | none => .error (.internal (.pastEnd pc code.length))
      | some i =>
        match c.environments with
        | [] => .error (.internal .noEnvironment)
        | env :: _ =>
          settle (m.execute owner? reply pc env i.origin i.op)
    | _, _ => .error (.internal .noFrame)

section Step

variable {r : Ideal} {pc : Nat} {pcs : List Nat} {code : Code}
    {frames : List Code} {env : Environment}
  {envs : List Environment} {values : List Value} {owner? : String → Option Owner}
    {reply : Except HostProblem Value}
  (hcontext : r.context = ⟨pc :: pcs, code :: frames, env :: envs, values, false⟩)

include hcontext

theorem step_running {i : Instruction} (hi : code.instructions[pc]? = some i) :
    r.step owner? reply = settle (r.execute owner? reply pc env i.origin i.op) := by
  unfold step
  rw [hcontext]
  simp only [hi, Bool.false_eq_true, if_false]

theorem step_pastEnd (hi : code.instructions[pc]? = none) :
    r.step owner? reply = .error (.internal (.pastEnd pc code.length)) := by
  unfold step
  rw [hcontext]
  simp only [hi, Bool.false_eq_true, if_false]

end Step

/-! ## What has been done, where nothing failed -/

section Success

variable {m m' : Ideal} {owner? : String → Option Owner} {reply : Except HostProblem Value}
    {flow : Flow} {pc : Nat}
  {env : Environment} {origin : Span}

/-- A name has been bound in some scope. -/
theorem assign_eq_ok {name : String} {v : Value} (h : m.assign owner? env name v origin = .ok m') :
    ∃ t, m' = m.bindIn t name v := by
  unfold assign at h
  split at h
  · next t _ =>
    cases h
    exact ⟨t, rfl⟩
  · split at h <;> cases h

/-- An instruction that stays in its frame and makes no function has left other values, or has bound
a name. -/
theorem execute_eq_ok {op : Op} (h : m.execute owner? reply pc env origin op = .ok (flow, m'))
    (hcall : op.argc? = none) (hret : op ≠ .ret) (hmakes : ∀ f, op ≠ .buildFunction f) :
    (∃ values, m' = m.setValues values) ∨ ∃ t name v, m' = m.bindIn t name v := by
  cases op with
  | call argc | tailCall argc => cases hcall
  | ret => exact absurd rfl hret
  | buildFunction f => exact absurd rfl (hmakes f)
  | loadConstant v | push v =>
    cases h
    exact .inl ⟨_, rfl⟩
  | pop | nameLookup name | functionLookup name =>
    rw [execute] at h
    split at h <;> cases h
    exact .inl ⟨_, rfl⟩
  | storeNew name =>
    rw [execute] at h
    split at h
    · cases h
    · split at h <;> cases h
      exact .inr ⟨_, _, _, rfl⟩
  | store name =>
    rw [execute] at h
    split at h
    · cases h
    · obtain ⟨after, hassign, h⟩ := except_bind_eq_ok h
      cases h
      obtain ⟨t, rfl⟩ := assign_eq_ok hassign
      exact .inr ⟨t, name, _, rfl⟩
  | jump offset =>
    obtain ⟨target, -, h⟩ := except_bind_eq_ok h
    cases h
    exact .inl ⟨m.context.values, rfl⟩
  | jumpIfNot offset =>
    obtain ⟨target, -, h⟩ := except_bind_eq_ok h
    split at h <;> cases h
    exact .inl ⟨_, rfl⟩

/-- A named function has been registered, or a closure built. -/
theorem buildFunction_eq_ok {name : Option String} (h : m.buildFunction env name = .ok (flow, m')) :
    (∃ f params code rest, name = some f ∧
      m' = { m with functions := m.functions.enroll f params code env }.setValues
        (.named f :: rest)) ∨
    ∃ params code rest,
      m' = { m with built := m.built + 1 }.setValues
        (.closure (.built m.built) params code env.scope :: rest) := by
  unfold buildFunction at h
  split at h
  · split at h
    · cases h
      exact .inl ⟨_, _, _, _, rfl, rfl⟩
    · cases h
      exact .inr ⟨_, _, _, rfl⟩
  · cases h

theorem enterIf_eq_ok {tail : Bool} {name : Option String} {params : List String} {code : Code}
    {closed : Environment} {args rest : List Value}
    (h : m.enterIf tail name params code closed args rest origin = .ok (flow, m')) :
    flow = .stay ∧ m' = m.enter tail params code closed args rest := by
  unfold enterIf at h
  split at h
  · cases h
  · cases h
    exact ⟨rfl, rfl⟩

/-- A call has been answered by the host, or has entered the body of a closure or of a named
function. -/
theorem call_eq_ok {tail : Bool} {argc : Nat} (h : m.call reply tail argc origin = .ok (flow, m')) :
    (∃ values, flow = .advance ∧ m' = m.setValues values) ∨
    ∃ callee rest params code closed, m.context.values.drop argc = callee :: rest ∧
      ((∃ id params code scope, callee = .closure id params code scope) ∨ ∃ f, callee = .named f) ∧
      flow = .stay ∧ m' = m.enter tail params code closed
        (m.context.values.take argc).reverse rest := by
  unfold call at h
  split at h
  · cases h
  · next callee rest hcallee =>
    split at h
    · split at h
      · cases h
        exact .inl ⟨_, rfl, rfl⟩
      · cases h
    · next id params code scope =>
      exact .inr ⟨_, rest, params, code, ⟨scope⟩, hcallee, .inl ⟨_, _, _, _, rfl⟩, enterIf_eq_ok h⟩
    · next f =>
      split at h
      · cases h
      · next function _ =>
        split at h
        · cases h
        · next closed _ =>
          exact .inr ⟨_, rest, function.params, function.code, closed, hcallee, .inr ⟨f, rfl⟩,
            enterIf_eq_ok h⟩
    · cases h

/-- A step has run the instruction of the top frame. -/
theorem step_eq_ok (h : m.step owner? reply = .ok m') :
    ∃ i pc env flow after, m.context.instruction? = some i ∧
    m.execute owner? reply pc env i.origin i.op = .ok (flow, after) ∧
    m' = { after with context := after.context.follow flow } := by
  unfold step at h
  dsimp only at h
  split at h
  · cases h
  · split at h
    · next code frames pc pcs hframes hpcs =>
      split at h
      · cases h
      · next i hi =>
        split at h
        · cases h
        · next env envs _ =>
          cases hexecute : m.execute owner? reply pc env i.origin i.op with
          | error e =>
            rw [hexecute] at h
            cases h
          | ok after =>
            obtain ⟨flow, after⟩ := after
            rw [hexecute] at h
            cases h
            refine ⟨i, pc, env, flow, after, ?_, hexecute, rfl⟩
            unfold Context.instruction?
            rw [hframes, hpcs]
            exact hi
    · cases h

end Success

end Ideal

variable {σ : Type}

/-- What the host says to the call that the next instruction makes, and the world after that. -/
def Host.reply (host : Host σ) (c : Context) (world : σ) : Except HostProblem Value × σ :=
  match c.hostCall? with
  | some (owner, method, args) => host.invoke owner method args world
  | none => (.ok .null, world)

/-- One step of machine and host. -/
def Ideal.advance (host : Host σ) (m : Ideal) (world : σ) : Except Error Ideal × σ :=
  let (reply, world) := host.reply m.context world
  (m.step host.owner? reply, world)

theorem Ideal.advance_of_reply {host : Host σ} {r : Ideal} {w w' : σ}
    {reply : Except HostProblem Value} (h : host.reply r.context w = (reply, w')) :
    Ideal.advance host r w = (r.step host.owner? reply, w') := by
  unfold Ideal.advance
  rw [h]

end LiveLisp
