/-
  Runs of the ideal machine, instruction by instruction, for a program without named functions. The
  frame that runs is written out: its code, its counter and the number of its scope; the frames
  below it are left alone until it returns.

  Only calls that pass no functions to the host are followed, since these look the same on every
  machine.
-/
import LiveLisp.Code.Compile
import LiveLisp.Proofs.Host.Standard

namespace LiveLisp

variable {σ : Type}

/-- The frames under the one that runs. -/
structure Below where
  pcs : List Nat
  frames : List Code
  environments : List Environment

/-- The frames under a function that is called from here. -/
def Below.under (below : Below) (code : Code) (pc scope : Nat) : Below :=
  ⟨pc :: below.pcs, code :: below.frames, ⟨some ⟨scope, 0⟩⟩ :: below.environments⟩

/-- The code of a function's body. -/
def Code.ofBody (unit : Nat) (span : Span) (body : List Instruction) : Code :=
  ⟨⟨unit, some span⟩, body ++ [⟨.ret, span⟩]⟩

/-- These instructions stand in the code from `pc` on. -/
def Code.Has (code : Code) (pc : Nat) (is : List Instruction) : Prop :=
  ∀ k i, is[k]? = some i → code.instructions[pc + k]? = some i

namespace Code.Has

variable {code : Code} {pc : Nat} {is js : List Instruction} {i : Instruction}

theorem left (h : code.Has pc (is ++ js)) : code.Has pc is := by
  intro k i hk
  refine h k i ?_
  rw [List.getElem?_append_left (List.getElem?_eq_some_iff.mp hk).1]
  exact hk

theorem right (h : code.Has pc (is ++ js)) : code.Has (pc + is.length) js := by
  intro k i hk
  rw [Nat.add_assoc]
  refine h (is.length + k) i ?_
  rw [List.getElem?_append_right (Nat.le_add_right ..), Nat.add_sub_cancel_left]
  exact hk

theorem head (h : code.Has pc (i :: is)) : code.instructions[pc]? = some i :=
  h 0 i rfl

end Code.Has

namespace Ideal

/-- In a frame, about to run the instruction at `pc`. -/
def inside (below : Below) (code : Code) (pc scope : Nat) (values : List Value)
    (scopes : Array Scope) (built : Nat) :
    Ideal :=
  ⟨⟨pc :: below.pcs, code :: below.frames, ⟨some ⟨scope, 0⟩⟩ :: below.environments, values, false⟩,
    ⟨[], []⟩, scopes,
    built⟩

/-- Back in the frame below, after the call that it made, or done if there is none. -/
def returned (below : Below) (values : List Value) (scopes : Array Scope) (built : Nat) : Ideal :=
  if below.frames.isEmpty then
    ⟨⟨below.pcs, below.frames, below.environments, values, true⟩, ⟨[], []⟩, scopes, built⟩
  else
    ⟨⟨below.pcs.modifyHead (· + 1), below.frames, below.environments, values, false⟩,
      ⟨[], []⟩, scopes, built⟩

end Ideal

/-- If the next instruction calls the host, then without functions among the arguments. -/
def Context.CallsPlainly (c : Context) : Prop :=
  ∀ owner method args, c.hostCall? = some (owner, method, args) → ∀ v ∈ args, v.isPlain = true

namespace Ideal

inductive Runs (host : Host σ) : Ideal → σ → Ideal → σ → Prop where
  | refl (r : Ideal) (w : σ) : Runs host r w r w
  | step {r r₁ r₂ : Ideal} {w w₁ w₂ : σ} (hplain : r.context.CallsPlainly)
      (h : Ideal.advance host r w = (.ok r₁, w₁)) (hrest : Runs host r₁ w₁ r₂ w₂) :
        Runs host r w r₂ w₂

/-- A run that ends with an error. -/
def Fails (host : Host σ) (r : Ideal) (w : σ) (e : Error) (w' : σ) : Prop :=
  ∃ r₁ w₁, Runs host r w r₁ w₁ ∧ r₁.context.done = false ∧ r₁.context.CallsPlainly ∧
    Ideal.advance host r₁ w₁ = (.error e, w')

variable {host : Host σ} {r r₁ r₂ : Ideal} {w w₁ w₂ : σ}

theorem Runs.trans (h : Runs host r w r₁ w₁) (h' : Runs host r₁ w₁ r₂ w₂) :
    Runs host r w r₂ w₂ := by
  induction h with
  | refl r w => exact h'
  | step hplain hadvance hrest ih => exact .step hplain hadvance (ih h')

theorem Fails.after {e : Error} (h : Runs host r w r₁ w₁) (h' : Fails host r₁ w₁ e w₂) :
    Fails host r w e w₂ := by
  obtain ⟨r₃, w₃, hrun, hfail⟩ := h'
  exact ⟨r₃, w₃, h.trans hrun, hfail⟩

/-! ## Instructions that do not call -/

section Instructions

variable {below : Below} {code : Code} {pc scope : Nat} {values : List Value}
    {scopes : Array Scope} {built : Nat}
  {span : Span} {op : Op} {v : Value} {name : String}

/-- The next step is what the instruction does, with the host's reply. -/
theorem advance_inside (hi : code.instructions[pc]? = some ⟨op, span⟩)
    {reply : Except HostProblem Value} {w' : σ}
    (hreply : host.reply (inside below code pc scope values scopes built).context w = (reply, w')) :
    Ideal.advance host (inside below code pc scope values scopes built) w =
      (settle ((inside below code pc scope values scopes built).execute host.owner? reply pc
        ⟨some ⟨scope, 0⟩⟩ span
        op), w') := by
  rw [advance_of_reply hreply, step_running rfl hi]

theorem hostCall?_of_quiet (hi : code.instructions[pc]? = some ⟨op, span⟩)
    (hquiet : op.argc? = none) :
    (inside below code pc scope values scopes built).context.hostCall? = none := by
  have hinstruction :
    (inside below code pc scope values scopes built).context.instruction? = some ⟨op, span⟩ := hi
  unfold Context.hostCall?
  rw [hinstruction, Option.bind_some, hquiet]

variable (hi : code.instructions[pc]? = some ⟨op, span⟩) (hquiet : op.argc? = none)

include hi hquiet

theorem callsPlainly_of_quiet :
    (inside below code pc scope values scopes built).context.CallsPlainly := by
  intro owner method args hcall
  rw [hostCall?_of_quiet hi hquiet] at hcall
  cases hcall

theorem advance_of_quiet :
    Ideal.advance host (inside below code pc scope values scopes built) w =
      (settle ((inside below code pc scope values scopes built).execute host.owner? (.ok .null) pc
        ⟨some ⟨scope, 0⟩⟩ span
        op), w) := by
  have hreply : host.reply (inside below code pc scope values scopes built).context w =
    (.ok .null, w) := by
    unfold Host.reply
    rw [hostCall?_of_quiet hi hquiet]
  rw [advance_inside hi hreply]

theorem runs_of_quiet (flow : Flow) (m : Ideal)
    (h : (inside below code pc scope values scopes built).execute host.owner? (.ok .null) pc
      ⟨some ⟨scope, 0⟩⟩ span op =
      .ok (flow, m)) :
    Runs host (inside below code pc scope values scopes built) w
      { m with context := m.context.follow flow } w := by
  refine .step (callsPlainly_of_quiet hi hquiet) ?_ (.refl _ _)
  rw [advance_of_quiet hi hquiet, h]
  rfl

theorem fails_of_quiet {e : Error}
    (h : (inside below code pc scope values scopes built).execute host.owner? (.ok .null) pc
      ⟨some ⟨scope, 0⟩⟩ span op =
      .error e) :
    Fails host (inside below code pc scope values scopes built) w e w := by
  refine ⟨_, w, .refl _ _, rfl, callsPlainly_of_quiet hi hquiet, ?_⟩
  rw [advance_of_quiet hi hquiet, h]
  rfl

end Instructions

section Steps

variable {below : Below} {code : Code} {pc scope : Nat} {values : List Value}
    {scopes : Array Scope} {built : Nat}
  {span : Span} {v : Value} {name : String}

theorem runs_constant (hi : code.instructions[pc]? = some ⟨.loadConstant v, span⟩) :
    Runs host (inside below code pc scope values scopes built) w
      (inside below code (pc + 1) scope (v :: values) scopes built) w :=
  runs_of_quiet hi rfl .advance (inside below code pc scope (v :: values) scopes built) rfl

theorem runs_pop (hi : code.instructions[pc]? = some ⟨.pop, span⟩) :
    Runs host (inside below code pc scope (v :: values) scopes built) w
      (inside below code (pc + 1) scope values scopes built) w :=
  runs_of_quiet hi rfl .advance (inside below code pc scope values scopes built) rfl

/-- The value of a name in a program without named functions. -/
def nameValue? (host : Host σ) (scopes : Array Scope) (scope : Nat)
    (name : String) : Option Value :=
  match lookup? scopes name ⟨scope, 0⟩ with
  | some v => some v
  | none => (host.owner? name).map fun owner => .host owner name

theorem resolve?_inside :
    (inside below code pc scope values scopes built).resolve? host.owner? ⟨some ⟨scope, 0⟩⟩ name =
      nameValue? host scopes scope name := by
  unfold resolve? nameValue? FunctionTable.known?
  simp only [inside, Option.bind_some]
  cases lookup? scopes name ⟨scope, 0⟩ with
  | some v => rfl
  | none => cases host.owner? name <;> rfl

theorem runs_nameLookup (hi : code.instructions[pc]? = some ⟨.nameLookup name, span⟩)
    (hv : nameValue? host scopes scope name = some v) :
    Runs host (inside below code pc scope values scopes built) w
      (inside below code (pc + 1) scope (v :: values) scopes built) w := by
  refine runs_of_quiet hi rfl .advance (inside below code pc scope (v :: values) scopes built) ?_
  simp only [execute, resolve?_inside, hv]
  rfl

theorem fails_nameLookup (hi : code.instructions[pc]? = some ⟨.nameLookup name, span⟩)
    (hv : nameValue? host scopes scope name = none) :
    Fails host (inside below code pc scope values scopes built) w (.runtime (.notDefined name)
      (some span)) w := by
  refine fails_of_quiet hi rfl ?_
  simp only [execute, resolve?_inside, hv]

theorem runs_functionLookup (hi : code.instructions[pc]? = some ⟨.functionLookup name, span⟩)
    (hv : nameValue? host scopes scope name = some v) :
    Runs host (inside below code pc scope values scopes built) w
      (inside below code (pc + 1) scope (v :: values) scopes built) w := by
  refine runs_of_quiet hi rfl .advance (inside below code pc scope (v :: values) scopes built) ?_
  simp only [execute, resolve?_inside, hv]
  rfl

theorem fails_functionLookup (hi : code.instructions[pc]? = some ⟨.functionLookup name, span⟩)
    (hv : nameValue? host scopes scope name = none) :
    Fails host (inside below code pc scope values scopes built) w (.runtime (.noFunction name)
      (some span)) w := by
  refine fails_of_quiet hi rfl ?_
  simp only [execute, resolve?_inside, hv]

/-- The scopes with a name bound in one of them. -/
def bound (scopes : Array Scope) (scope : Nat) (name : String) (v : Value) : Array Scope :=
  scopes.modify scope fun sc => { sc with bindings := sc.bindings.put name v }

theorem runs_storeNew (hi : code.instructions[pc]? = some ⟨.storeNew name, span⟩) :
    Runs host (inside below code pc scope (v :: values) scopes built) w
      (inside below code (pc + 1) scope (v :: values) (bound scopes scope name v) built) w :=
  runs_of_quiet hi rfl .advance (inside below code pc scope (v :: values)
    (bound scopes scope name v) built) rfl

theorem runs_store (hi : code.instructions[pc]? = some ⟨.store name, span⟩) {owner : Nat}
    (howner : ownerOf scopes name ⟨scope, 0⟩ = some ⟨owner, 0⟩) :
    Runs host (inside below code pc scope (v :: values) scopes built) w
      (inside below code (pc + 1) scope (v :: values) (bound scopes owner name v) built) w := by
  refine runs_of_quiet hi rfl .advance (inside below code pc scope (v :: values)
    (bound scopes owner name v) built) ?_
  simp only [execute, inside, assign, Option.bind_some, howner]
  rfl

theorem fails_store (hi : code.instructions[pc]? = some ⟨.store name, span⟩)
    (howner : ownerOf scopes name ⟨scope, 0⟩ = none) :
    Fails host (inside below code pc scope (v :: values) scopes built) w
      (.runtime (if (host.owner? name).isSome then .immutable name else .unassignable name)
        (some span)) w := by
  refine fails_of_quiet hi rfl ?_
  simp only [execute, inside, assign, Option.bind_some, howner]
  cases (host.owner? name).isSome <;> rfl

/-- The operands of a function and the instruction that builds it, one after the other. -/
theorem runs_function {unit : Nat} {params : List String} {paramsSpan : Span}
    {body : List Instruction}
    (hi : code.Has pc (Compile.function unit none params paramsSpan body span)) :
    Runs host (inside below code pc scope values scopes built) w
      (inside below code (pc + 3) scope
        (.closure (.built built) params (.ofBody unit span body)
          (some ⟨scope, 0⟩) :: values) scopes (built + 1)) w := by
  have hparams : Runs host (inside below code pc scope values scopes built) w
      (inside below code (pc + 1) scope (.params params :: values) scopes built) w :=
    runs_of_quiet (hi 0 _ rfl) rfl .advance
      (inside below code pc scope (.params params :: values) scopes built) rfl
  have hbody : Runs host (inside below code (pc + 1) scope (.params params :: values) scopes built)
    w
      (inside below code (pc + 2) scope (.code (.ofBody unit span body) :: .params params ::
        values) scopes built) w :=
    runs_of_quiet (hi 1 _ rfl) rfl .advance
      (inside below code (pc + 1) scope (.code (.ofBody unit span body) :: .params params ::
        values) scopes built) rfl
  refine hparams.trans (hbody.trans ?_)
  exact runs_of_quiet (hi 2 _ rfl) rfl .advance (inside below code (pc + 2) scope
    (.closure (.built built) params (.ofBody unit span body) (some ⟨scope, 0⟩) :: values) scopes
      (built + 1)) rfl

theorem runs_jump {ahead : Nat} (hi : code.instructions[pc]? = some ⟨.jump ahead, span⟩) :
    Runs host (inside below code pc scope values scopes built) w
      (inside below code (pc + ahead) scope values scopes built) w :=
  runs_of_quiet hi rfl (.jump (pc + ahead)) (inside below code pc scope values scopes built) rfl

/-- A condition that holds goes on, and one that does not jumps. -/
theorem runs_jumpIfNot {ahead : Nat} (hi : code.instructions[pc]? = some ⟨.jumpIfNot ahead, span⟩) :
    Runs host (inside below code pc scope (v :: values) scopes built) w
      (inside below code (if v.isTruthy then pc + 1 else pc + ahead) scope values scopes built)
      w := by
  have hexecute :
    (inside below code pc scope (v :: values) scopes built).execute host.owner? (.ok .null) pc
      ⟨some ⟨scope, 0⟩⟩ span (.jumpIfNot ahead) =
        .ok (if v.isTruthy then .advance else .jump (pc + ahead),
        inside below code pc scope values scopes built) := rfl
  cases hv : v.isTruthy with
  | true =>
    rw [hv] at hexecute
    exact runs_of_quiet hi rfl .advance _ hexecute
  | false =>
    rw [hv] at hexecute
    exact runs_of_quiet hi rfl (.jump (pc + ahead)) _ hexecute

theorem runs_ret (hi : code.instructions[pc]? = some ⟨.ret, span⟩) :
    Runs host (inside below code pc scope values scopes built) w
      (returned below values scopes built) w := by
  obtain ⟨pcs, frames, environments⟩ := below
  cases frames with
  | nil => exact runs_of_quiet hi rfl .stay (returned ⟨pcs, [],
      environments⟩ values scopes built) rfl
  | cons caller frames =>
    exact runs_of_quiet hi rfl .advance
      ⟨⟨pcs, caller :: frames, environments, values, false⟩, ⟨[], []⟩, scopes, built⟩ rfl

/-- From here the frame has nothing left to do but to return. -/
inductive Leaves (code : Code) : Nat → Prop where
  | ret {pc : Nat} {span : Span} (hi : code.instructions[pc]? = some ⟨.ret, span⟩) : Leaves code pc
  | jump {pc ahead : Nat} {span : Span} (hi : code.instructions[pc]? = some ⟨.jump ahead, span⟩)
      (h : Leaves code (pc + ahead)) : Leaves code pc

theorem runs_of_leaves (h : Leaves code pc) :
    Runs host (inside below code pc scope values scopes built) w
      (returned below values scopes built) w := by
  induction h with
  | ret hi => exact runs_ret hi
  | jump hi h ih => exact (runs_jump hi).trans ih

/-! ## Calls -/

variable {args : List Value} {callee : Value} {tail : Bool}

theorem drop_operands : (args.reverse ++ callee :: values).drop args.length = callee :: values := by
  rw [← List.length_reverse, List.drop_left]

theorem take_operands : ((args.reverse ++ callee :: values).take args.length).reverse = args := by
  rw [← List.length_reverse, List.take_left, List.reverse_reverse]

theorem argc?_invocation (tail : Bool) (argc : Nat) :
    (Compile.invocation tail argc).argc? = some argc := by
  cases tail <;> rfl

/-- What a call does, as far as its callee decides. -/
theorem execute_invocation (reply : Except HostProblem Value) (owner? : String → Option Owner) :
    (inside below code pc scope (args.reverse ++ callee :: values) scopes built).execute owner?
    reply pc
      ⟨some ⟨scope, 0⟩⟩ span (Compile.invocation tail args.length) =
    (inside below code pc scope (args.reverse ++ callee :: values) scopes built).call reply tail
    args.length span := by
  cases tail <;> rfl

theorem call_closure (id : ClosureId) (params : List String) (body : Code)
    (parent : Option Ticket) :
    (inside below code pc scope (args.reverse ++ .closure id params body parent ::
      values) scopes built).call (.ok .null)
      tail args.length span =
    (inside below code pc scope (args.reverse ++ .closure id params body parent ::
      values) scopes built).enterIf tail none
      params body ⟨parent⟩ args values span := by
  have hvalues :
    (inside below code pc scope (args.reverse ++ .closure id params body parent :: values) scopes
      built).context.values = args.reverse ++ .closure id params body parent :: values := rfl
  unfold call
  rw [hvalues]
  simp only [drop_operands, take_operands]

variable (hi : code.instructions[pc]? = some ⟨Compile.invocation tail args.length, span⟩)

include hi

theorem hostCall?_of_call :
    (inside below code pc scope (args.reverse ++ callee :: values) scopes built).context.hostCall? =
      match callee with
      | .host owner method => some (owner, method, args)
      | _ => none := by
  have hinstruction :
      (inside below code pc scope (args.reverse ++ callee :: values) scopes
        built).context.instruction? =
      some ⟨Compile.invocation tail args.length, span⟩ := hi
  have hvalues :
      (inside below code pc scope (args.reverse ++ callee :: values) scopes built).context.values =
      args.reverse ++ callee :: values := rfl
  unfold Context.hostCall?
  rw [hinstruction, Option.bind_some, argc?_invocation, hvalues]
  simp only [drop_operands, take_operands]
  cases callee <;> rfl

/-- A step that calls the host, with its answer. -/
theorem advance_host {owner : Owner} {method : String} {answer : Except HostProblem Value} {w' : σ}
    (hplain : ∀ v ∈ args, v.isPlain = true)
    (hanswer : host.invoke owner method args w = (answer, w')) :
    (inside below code pc scope (args.reverse ++ .host owner method ::
      values) scopes built).context.CallsPlainly ∧
    Ideal.advance host (inside below code pc scope (args.reverse ++ .host owner method ::
      values) scopes built) w =
      (match answer with
        | .ok v => .ok (inside below code (pc + 1) scope (v :: values) scopes built)
        | .error problem => .error (.runtime (.host method problem) (some span)), w') := by
  have hcall : (inside below code pc scope (args.reverse ++ .host owner method ::
    values) scopes built).context.hostCall?
      = some (owner, method, args) := hostCall?_of_call hi
  constructor
  · rintro owner' method' args' hcall'
    rw [hcall] at hcall'
    cases hcall'
    exact hplain
  · have hreply : host.reply
        (inside below code pc scope (args.reverse ++ .host owner method ::
          values) scopes built).context w =
        (answer, w') := by
      unfold Host.reply
      rw [hcall]
      exact hanswer
    have hvalues :
      (inside below code pc scope (args.reverse ++ .host owner method ::
        values) scopes built).context.values
        = args.reverse ++ .host owner method :: values := rfl
    rw [advance_inside hi hreply, execute_invocation]
    unfold call
    rw [hvalues]
    simp only [drop_operands]
    cases answer <;> rfl

theorem runs_host {owner : Owner} {method : String} {w' : σ} (hplain : ∀ v ∈ args, v.isPlain = true)
    (hanswer : host.invoke owner method args w = (.ok v, w')) :
    Runs host (inside below code pc scope (args.reverse ++ .host owner method ::
      values) scopes built) w
      (inside below code (pc + 1) scope (v :: values) scopes built) w' := by
  obtain ⟨hcall, hadvance⟩ := advance_host hi hplain hanswer
  exact .step hcall hadvance (.refl _ _)

theorem fails_host {owner : Owner} {method : String} {problem : HostProblem} {w' : σ}
    (hplain : ∀ v ∈ args, v.isPlain = true)
    (hanswer : host.invoke owner method args w = (.error problem, w')) :
    Fails host (inside below code pc scope (args.reverse ++ .host owner method ::
      values) scopes built) w
      (.runtime (.host method problem) (some span)) w' := by
  obtain ⟨hcall, hadvance⟩ := advance_host hi hplain hanswer
  exact ⟨_, w, .refl _ _, rfl, hcall, hadvance⟩

/-- A step that calls anything but the host. -/
theorem advance_call (hcallee : ∀ owner method, callee ≠ .host owner method) :
    (inside below code pc scope (args.reverse ++ callee :: values) scopes
      built).context.CallsPlainly ∧
    Ideal.advance host (inside below code pc scope (args.reverse ++ callee :: values) scopes built)
      w =
      (settle ((inside below code pc scope (args.reverse ++ callee :: values) scopes built).call
        (.ok .null) tail
        args.length span), w) := by
  have hcall : (inside below code pc scope (args.reverse ++ callee ::
    values) scopes built).context.hostCall? = none := by
    rw [hostCall?_of_call hi]
    cases callee with
    | host owner method => exact absurd rfl (hcallee owner method)
    | _ => rfl
  constructor
  · intro owner method args' hcall'
    rw [hcall] at hcall'
    cases hcall'
  · have hreply : host.reply (inside below code pc scope
      (args.reverse ++ callee :: values) scopes built).context w =
        (.ok .null, w) := by
      unfold Host.reply
      rw [hcall]
    rw [advance_inside hi hreply, execute_invocation]

theorem runs_of_call (flow : Flow) (m : Ideal)
    (hcallee : ∀ owner method, callee ≠ .host owner method)
    (h : (inside below code pc scope (args.reverse ++ callee :: values) scopes built).call
      (.ok .null) tail args.length
      span = .ok (flow, m)) :
    Runs host (inside below code pc scope (args.reverse ++ callee :: values) scopes built) w
      { m with context := m.context.follow flow } w := by
  obtain ⟨hcall, hadvance⟩ := advance_call hi hcallee
  rw [h] at hadvance
  exact .step hcall hadvance (.refl _ _)

theorem fails_of_call {e : Error} (hcallee : ∀ owner method, callee ≠ .host owner method)
    (h : (inside below code pc scope (args.reverse ++ callee :: values) scopes built).call
      (.ok .null) tail args.length
      span = .error e) :
    Fails host (inside below code pc scope (args.reverse ++ callee :: values) scopes built) w e
      w := by
  obtain ⟨hcall, hadvance⟩ := advance_call hi hcallee
  rw [h] at hadvance
  exact ⟨_, w, .refl _ _, rfl, hcall, hadvance⟩

variable {id : ClosureId} {params : List String} {body : Code} {parent : Option Ticket}

/-- A function runs above the frame that calls it, or in its place when the call is in tail
position. -/
theorem runs_enter (hlength : params.length = args.length) :
    Runs host (inside below code pc scope (args.reverse ++ .closure id params body parent ::
      values) scopes built) w
      (inside (if tail then below else below.under code pc scope) body 0 scopes.size values
        (scopes.push ⟨NameMap.putAll [] (params.zip args), parent⟩) built) w := by
  refine runs_of_call hi .stay (inside (if tail then below
    else below.under code pc scope) body 0 scopes.size values
    (scopes.push ⟨NameMap.putAll [] (params.zip args), parent⟩) built) nofun
    ((call_closure id params body parent).trans ?_)
  unfold enterIf
  rw [if_neg (fun hne => hne hlength)]
  cases tail <;> rfl

theorem fails_arity (hlength : params.length ≠ args.length) :
    Fails host (inside below code pc scope (args.reverse ++ .closure id params body parent ::
      values) scopes built) w
      (.runtime (.arity none params.length args.length) (some span)) w := by
  refine fails_of_call hi nofun ((call_closure id params body parent).trans ?_)
  unfold enterIf
  rw [if_pos hlength]

theorem fails_notCallable (hplain : callee.isPlain = true)
    (hcallee : ∀ owner method, callee ≠ .host owner method) :
    Fails host (inside below code pc scope (args.reverse ++ callee :: values) scopes built) w
      (.runtime (.notCallable callee.kind callee.inspect) (some span)) w := by
  have hvalues :
      (inside below code pc scope (args.reverse ++ callee :: values) scopes built).context.values =
      args.reverse ++ callee :: values := rfl
  refine fails_of_call hi hcallee ?_
  unfold call
  rw [hvalues]
  simp only [drop_operands]
  cases callee with
  | host owner method => exact absurd rfl (hcallee owner method)
  | closure id params body parent => cases hplain
  | named name => cases hplain
  | _ => rfl

end Steps

end Ideal

end LiveLisp
