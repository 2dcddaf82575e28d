/-
  A step takes nothing from its host but who owns a name and the reply to the call it makes. Two
  hosts that agree on these, be it in worlds that have nothing in common, lead the same machine to
  the same machine or to the same error (`Exec.step_of_reply`).
-/
import LiveLisp.Proofs.Machine.Sound

namespace LiveLisp

variable {σ τ α β : Type}

namespace Exec

/-- How a run ends, the world apart. -/
def outcome : EStateM.Result Error (Running σ) α → EStateM.Result Error Machine α
  | .ok a r => .ok a r.machine
  | .error e r => .error e r.machine

/-- Two computations that end alike from every machine, whatever the worlds. -/
def Parallel (x : Exec σ α) (y : Exec τ α) : Prop :=
  ∀ m w u, outcome (x ⟨m, w⟩) = outcome (y ⟨m, u⟩)

/-- What follows two runs that end alike ends alike. -/
theorem outcome_bind {x : Exec σ α} {y : Exec τ α} {f : α → Exec σ β}
    {g : α → Exec τ β} {r : Running σ} {r' : Running τ} (h : outcome (x r) = outcome (y r'))
    (hf : ∀ a, Parallel (f a) (g a)) :
    outcome ((x >>= f) r) = outcome ((y >>= g) r') := by
  cases hx : x r with
  | ok a s =>
    cases hy : y r' with
    | ok b s' =>
      obtain ⟨m, w⟩ := s
      obtain ⟨m', u⟩ := s'
      rw [hx, hy] at h
      cases h
      rw [bind_of_ok hx, bind_of_ok hy]
      exact hf a m w u
    | error e s' =>
      rw [hx, hy] at h
      cases h
  | error e s =>
    cases hy : y r' with
    | ok b s' =>
      rw [hx, hy] at h
      cases h
    | error e' s' =>
      obtain ⟨m, w⟩ := s
      obtain ⟨m', u⟩ := s'
      rw [hx, hy] at h
      cases h
      rw [bind_of_error hx, bind_of_error hy]
      rfl

namespace Parallel

theorem bind {x : Exec σ α} {y : Exec τ α} {f : α → Exec σ β} {g : α → Exec τ β} (h : Parallel x y)
    (hf : ∀ a, Parallel (f a) (g a)) : Parallel (x >>= f) (y >>= g) :=
  fun m w u => outcome_bind (h m w u) hf

theorem pure (a : α) : Parallel (pure a : Exec σ α) (pure a : Exec τ α) := fun _ _ _ => rfl

theorem throw (e : Error) : Parallel (throw e : Exec σ α) (throw e : Exec τ α) := fun _ _ _ => rfl

theorem onMachine (x : MachineM α) : Parallel (onMachine x : Exec σ α)
    (onMachine x : Exec τ α) := by
  intro m w u
  simp only [Exec.onMachine]
  cases x m <;> rfl

theorem modifyContext (f : Context → Context) : Parallel (modifyContext f : Exec σ Unit)
    (modifyContext f : Exec τ Unit) :=
  fun _ _ _ => rfl

theorem context : Parallel (context : Exec σ Context) (context : Exec τ Context) := fun _ _ _ => rfl

theorem locatedAt (origin : Span) {x : Exec σ α} {y : Exec τ α} (h : Parallel x y) :
    Parallel (locatedAt origin x) (locatedAt origin y) := by
  intro m w u
  have hxy := h m w u
  unfold Exec.locatedAt
  cases hx : x ⟨m, w⟩ <;> cases hy : y ⟨m, u⟩ <;> rw [hx, hy] at hxy <;>
    simp only [outcome, EStateM.Result.ok.injEq, EStateM.Result.error.injEq, reduceCtorEq] at hxy ⊢
  · exact hxy
  · exact ⟨congrArg (Error.located origin) hxy.1, hxy.2⟩

theorem forM (items : List Value) {f : Value → Exec σ PUnit} {g : Value → Exec τ PUnit}
    (h : ∀ v, Parallel (f v) (g v)) : Parallel (items.forM f) (items.forM g) := by
  induction items with
  | nil => exact pure _
  | cons item items ih => exact (h item).bind fun _ => ih

theorem popValue (origin : Span) : Parallel (popValue origin : Exec σ Value)
    (popValue origin : Exec τ Value) := by
  refine context.bind fun c => ?_
  cases c.values with
  | nil => exact throw _
  | cons v rest => exact (modifyContext _).bind fun _ => pure v

theorem topValue (origin : Span) : Parallel (topValue origin : Exec σ Value)
    (topValue origin : Exec τ Value) := by
  refine context.bind fun c => ?_
  cases c.values with
  | nil => exact throw _
  | cons v rest => exact pure v

theorem jumpTarget (pc : Nat) (offset : Int) :
    Parallel (jumpTarget pc offset : Exec σ Nat) (jumpTarget pc offset : Exec τ Nat) := by
  unfold Exec.jumpTarget
  split
  · exact pure _
  · exact throw _

end Parallel

/-! ## Instructions -/

theorem buildFunction_parallel (env : Environment) (name : Option String) (origin : Span) :
    Parallel (buildFunction env name origin : Exec σ Flow)
      (buildFunction env name origin : Exec τ Flow) := by
  have hpush (function : Value) : Parallel (do
      locatedAt origin (onStore (Store.retain function))
      pushValue function
      return .advance : Exec σ Flow) (do
      locatedAt origin (onStore (Store.retain function))
      pushValue function
      return .advance : Exec τ Flow) :=
    .bind (.locatedAt origin (.onMachine _)) fun _ => .bind (.modifyContext _) fun _ => .pure _
  refine .bind .context fun c => ?_
  split
  · refine .bind (.modifyContext _) fun _ => ?_
    cases name with
    | some name => exact .bind (.onMachine _) fun _ => .bind (.pure _) hpush
    | none => exact .bind (fun _ _ _ => rfl) fun number => .bind (.pure _) hpush
  · exact .throw _

theorem leave_parallel : Parallel (leave : Exec σ Flow) (leave : Exec τ Flow) := by
  have hend : Parallel (do
      if (← context).frames.isEmpty then
        modifyContext fun c => { c with done := true }
        return .stay
      else return .advance : Exec σ Flow) (do
      if (← context).frames.isEmpty then
        modifyContext fun c => { c with done := true }
        return .stay
      else return .advance : Exec τ Flow) := by
    refine .bind .context fun c => ?_
    cases c.frames.isEmpty with
    | true => exact .bind (.modifyContext _) fun _ => .pure _
    | false => exact .pure _
  refine .bind (.modifyContext _) fun _ => .bind .context fun c => ?_
  cases c.environments with
  | nil => exact hend
  | cons env rest => exact .bind (.modifyContext _) fun _ => .bind (.onMachine _) fun _ => hend

theorem dropFrame_parallel : Parallel (dropFrame : Exec σ Unit) (dropFrame : Exec τ Unit) := by
  refine .bind .context fun c => ?_
  cases c.environments with
  | nil => exact .modifyContext _
  | cons env rest =>
    exact .bind (.modifyContext _) fun _ => .bind (.onMachine _) fun _ => .modifyContext _

theorem enter_parallel (tail : Bool) (params : List String) (code : Code)
    (env : Environment) (callee : Value) (args rest : List Value) :
    Parallel (enter tail params code env callee args rest : Exec σ Flow)
      (enter tail params code env callee args rest : Exec τ Flow) := by
  refine .bind (.modifyContext _) fun _ => .bind (.onMachine _) fun inner => ?_
  refine .bind (.forM _ fun _ => .onMachine _) fun _ => .bind (.modifyContext _) fun _ => ?_
  cases tail with
  | true => exact .bind dropFrame_parallel fun _ => .bind (.modifyContext _) fun _ => .pure _
  | false => exact .bind (.modifyContext _) fun _ => .pure _

section Hosts

variable {host : Host σ} {host' : Host τ} {m : Machine} {w : σ} {u : τ}

/-- What becomes of a host's answer. -/
theorem callHost_of_invoke {owner : Owner} {method : String} {callee : Value}
    {args rest : List Value} (origin : Span)
    (h : (host.invoke owner method args w).1 = (host'.invoke owner method args u).1) :
    outcome (callHost host owner method callee args rest origin ⟨m, w⟩) =
      outcome (callHost host' owner method callee args rest origin ⟨m, u⟩) := by
  unfold callHost
  rw [get_bind, get_bind]
  simp only [set_bind, h]
  cases (host'.invoke owner method args u).1 with
  | error problem => rfl
  | ok v =>
    refine outcome_bind ((Parallel.onMachine _) m _ _) fun _ => .bind (.modifyContext _) fun _ => ?_
    exact .bind (.forM _ fun _ => .onMachine _) fun _ => .bind (.modifyContext _) fun _ => .pure _

theorem call_of_invoke (tail : Bool) {argc : Nat} (origin : Span)
    (h : ∀ owner method rest, m.context.values.drop argc = .host owner method :: rest →
      (host.invoke owner method (m.context.values.take argc).reverse w).1 =
        (host'.invoke owner method (m.context.values.take argc).reverse u).1) :
    outcome (call host tail argc origin ⟨m, w⟩) = outcome (call host' tail argc origin ⟨m, u⟩) := by
  have henter (name : Option String) (params : List String) (code : Code)
    (env : Environment) (callee : Value)
      (args rest : List Value) :
      Parallel (if params.length ≠ argc
        then throw (.runtime (.arity name params.length argc) (some origin))
          else enter tail params code env callee args rest : Exec σ Flow)
        (if params.length ≠ argc
          then throw (.runtime (.arity name params.length argc) (some origin))
          else enter tail params code env callee args rest : Exec τ Flow) := by
    split
    · exact .throw _
    · exact enter_parallel tail params code env callee args rest
  unfold call
  rw [context_bind, context_bind]
  cases hcallee : m.context.values.drop argc with
  | nil => rfl
  | cons callee rest =>
    cases callee with
    | host owner method => exact callHost_of_invoke origin (h owner method rest hcallee)
    | closure id params code scope => exact henter none params code ⟨scope⟩ _ _ rest m w u
    | named name =>
      simp only [get_bind]
      cases m.memory.functions.entries.get? name with
      | none => rfl
      | some function =>
        simp only
        cases function.env with
        | none => rfl
        | some env => exact henter (some name) _ _ env _ _ rest m w u
    | _ => rfl

theorem execute_of_reply (howner : host.owner? = host'.owner?) {i : Instruction}
    (hi : m.context.instruction? = some i)
    (hreply : (host.reply m.context w).1 = (host'.reply m.context u).1) (pc : Nat)
    (env : Environment) :
    outcome (execute host pc env i.origin i.op ⟨m, w⟩) =
      outcome (execute host' pc env i.origin i.op ⟨m, u⟩) := by
  have hcall (argc : Nat) (hargc : i.op.argc? = some argc) (owner : Owner)
    (method : String) (rest : List Value)
      (hcallee : m.context.values.drop argc = .host owner method :: rest) :
      (host.invoke owner method (m.context.values.take argc).reverse w).1 =
        (host'.invoke owner method (m.context.values.take argc).reverse u).1 := by
    have hasked : m.context.hostCall? = some (owner, method,
      (m.context.values.take argc).reverse) := by
      simp only [Context.hostCall?, hi, Option.bind_some, hargc, hcallee]
    simpa only [Host.reply, hasked] using hreply
  cases hop : i.op with
  | call argc => exact call_of_invoke false i.origin (hcall argc (by rw [hop]; rfl))
  | tailCall argc => exact call_of_invoke true i.origin (hcall argc (by rw [hop]; rfl))
  | loadConstant v =>
    exact Parallel.bind (.onMachine _) (fun _ => .bind (.modifyContext _) fun _ => .pure _) m w u
  | push v => exact Parallel.bind (.onMachine _) (fun _ =>
      .bind (.modifyContext _) fun _ => .pure _) m w u
  | pop => exact Parallel.bind (.popValue _) (fun _ => .bind (.onMachine _) fun _ => .pure _) m w u
  | nameLookup name =>
    unfold execute
    rw [howner]
    exact Parallel.bind (.locatedAt _ (.onMachine _))
      (fun _ => .bind (.modifyContext _) fun _ => .pure _) m w u
  | functionLookup name =>
    unfold execute
    rw [howner]
    refine Parallel.bind (.onMachine _) (fun found => ?_) m w u
    cases found with
    | none => exact .throw _
    | some v => exact .bind (.modifyContext _) fun _ => .pure _
  | storeNew name =>
    exact Parallel.bind (.topValue _) (fun _ => .bind (.onMachine _) fun _ => .pure _) m w u
  | store name =>
    unfold execute
    rw [howner]
    exact Parallel.bind (.topValue _) (fun _ =>
      .bind (.locatedAt _ (.onMachine _)) fun _ => .pure _) m w u
  | buildFunction name => exact buildFunction_parallel env name i.origin m w u
  | jump offset => exact Parallel.bind (.jumpTarget pc offset) (fun _ => .pure _) m w u
  | jumpIfNot offset =>
    refine Parallel.bind (.jumpTarget pc offset)
      (fun target => .bind (.popValue _) fun v => ?_) m w u
    exact .bind (.onMachine _) fun _ => .pure _
  | ret => exact leave_parallel m w u

/-- A step is decided by the machine, by who owns a name and by the host's reply. -/
theorem step_of_reply (howner : host.owner? = host'.owner?)
    (hreply : (host.reply m.context w).1 = (host'.reply m.context u).1) :
    outcome (step host ⟨m, w⟩) = outcome (step host' ⟨m, u⟩) := by
  have hfollow (flow : Flow) :
    Parallel (follow flow : Exec σ Unit) (follow flow : Exec τ Unit) := by
    cases flow <;> exact fun _ _ _ => rfl
  unfold step
  rw [context_bind, context_bind]
  obtain ⟨⟨pcs, frames, envs, values, done⟩, memory, built⟩ := m
  cases done with
  | true => rfl
  | false =>
    match frames, pcs with
    | [], _ => rfl
    | _ :: _, [] => rfl
    | code :: frames, pc :: pcs =>
      simp only [Bool.false_eq_true, if_false]
      cases hi : code.instructions[pc]? with
      | none => rfl
      | some i =>
        cases envs with
        | nil => rfl
        | cons env envs =>
          refine outcome_bind (execute_of_reply howner ?_ hreply pc env) hfollow
          exact hi

end Hosts

end Exec

/-! ## Answered calls -/

/-- A call to the host goes as the host says: with an answer it succeeds, with a refusal it fails.
-/
theorem Ideal.step_of_hostCall? {r : Ideal} (hr : r.context.Balanced)
    {call : Owner × String × List Value} (hcall : r.context.hostCall? = some call)
    (owner? : String → Option Owner) :
    (∀ v, ∃ r', r.step owner? (.ok v) = .ok r') ∧
    ∀ problem, ∃ e, r.step owner? (.error problem) = .error e := by
  cases hcontext : r.context with
  | mk pcs frames envs values done =>
    obtain ⟨hpcs, henvs, hdone⟩ := hr
    rw [hcontext] at hpcs henvs hdone hcall
    cases frames with
    | nil => cases hcall
    | cons code frames =>
      have hrunning : done = false := by simpa using hdone
      subst hrunning
      obtain ⟨pc, pcs, rfl⟩ := List.exists_cons_of_length_eq_add_one hpcs
      obtain ⟨env, envs, rfl⟩ := List.exists_cons_of_length_eq_add_one henvs
      simp only [Context.hostCall?, Context.instruction?] at hcall
      cases hi : code.instructions[pc]? with
      | none =>
        rw [hi] at hcall
        cases hcall
      | some i =>
        rw [hi, Option.bind_some] at hcall
        split at hcall
        · cases hcall
        · next argc hargc =>
          split at hcall
          · next owner method rest hcallee =>
            have hexecute : ∃ tail, ∀ reply, r.execute owner? reply pc env i.origin i.op =
                r.call reply tail argc i.origin := by
              cases hop : i.op <;> rw [hop] at hargc <;> cases hargc
              · exact ⟨false, fun _ => rfl⟩
              · exact ⟨true, fun _ => rfl⟩
            obtain ⟨tail, hexecute⟩ := hexecute
            have hvalues : r.context.values = values := by rw [hcontext]
            constructor
            · intro v
              rw [step_running hcontext hi, hexecute, Ideal.call, hvalues, hcallee]
              exact ⟨_, rfl⟩
            · intro problem
              rw [step_running hcontext hi, hexecute, Ideal.call, hvalues, hcallee]
              exact ⟨_, rfl⟩
          · cases hcall

namespace Machine

variable {m : Machine} {host : Host σ} {w : σ}

/-- The step of a sound machine with an honest host, and what the host has to do with how it goes: a
step that succeeds has been answered, and one that fails has asked nothing or has been refused. -/
theorem step_replied (h : m.Sound) (hhost : host.HonestIn w) :
    (∃ m' v, Exec.step host ⟨m, w⟩ = .ok () ⟨m', (host.reply m.context w).2⟩ ∧ m'.Sound ∧
      (host.reply m.context w).1 = .ok v) ∨
    ∃ e, Exec.step host ⟨m, w⟩ = .error e ⟨m, (host.reply m.context w).2⟩ ∧ e.OfProgram ∧
      (m.context.hostCall? = none ∨ ∃ problem, (host.reply m.context w).1 = .error problem) := by
  obtain ⟨r, ⟨swept, hx, ρ, scopes, hm, rfl⟩, hr⟩ := h
  have hstep := step_image hx hm hr fun v hv => hhost.reply hv
  have hasked : m.context.hostCall? = none ∨
    ∃ call, (m.image ρ scopes).context.hostCall? = some call := by
    have hrenamed : (m.image ρ scopes).context.hostCall? = _ := Context.hostCall?_rename ρ m.context
    cases hcall : m.context.hostCall? with
    | none => exact .inl rfl
    | some call =>
      rw [hcall] at hrenamed
      exact .inr ⟨_, hrenamed⟩
  split at hstep
  · next r' hideal =>
    obtain ⟨m', hrun, hfollows, hr'⟩ := hstep
    have hanswer : ∃ v, (host.reply m.context w).1 = .ok v := by
      rcases hasked with hnone | ⟨call, hcall⟩
      · exact ⟨.null, by simp only [Host.reply, hnone]⟩
      · cases hreply : (host.reply m.context w).1 with
        | ok v => exact ⟨v, rfl⟩
        | error problem =>
          obtain ⟨e, he⟩ :=
            (Ideal.step_of_hostCall? hr.stacked.balanced hcall host.owner?).2 problem
          rw [hreply] at hideal
          cases he.symm.trans hideal
    obtain ⟨v, hv⟩ := hanswer
    exact .inl ⟨m', v, hrun, ⟨r', ⟨swept, hfollows⟩, hr'⟩, hv⟩
  · next e hideal =>
    refine .inr ⟨e, hstep.1, hstep.2, ?_⟩
    refine hasked.imp_right fun ⟨call, hcall⟩ => ?_
    cases hreply : (host.reply m.context w).1 with
    | error problem => exact ⟨problem, rfl⟩
    | ok v =>
      obtain ⟨r', hr'⟩ :=
        (Ideal.step_of_hostCall? hr.stacked.balanced hcall host.owner?).1 (v.rename ρ)
      rw [hreply] at hideal
      cases hr'.symm.trans hideal

end Machine

end LiveLisp
