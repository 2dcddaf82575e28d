/-
  A failing instruction is atomic. If a step fails at runtime, then the machine is what it was
  before, whatever code it runs and whatever its host does, and the error names the place of the
  instruction (`step_atomic`).

  Two facts make this up. The store and most of what is built on it fail only by errors of the
  interpreter itself (`Steady`), so no count has moved when a runtime error arises. And where one
  arises, all that has been done up to there was to look (`Atomic`): a name that is not found has
  left the store alone, and a call finds all that is wrong with it before it takes anything from the
  stack.

  No invariant of machines is assumed, so this says nothing of errors of the interpreter itself:
  those may leave a step half done. And the host has been asked, so its world may have changed.
-/
import LiveLisp.Proofs.Ideal.Simulation

namespace LiveLisp

variable {σ τ ω α β : Type}

/-- Whatever it fails with is an error of the interpreter itself. -/
def Steady (x : EStateM Error τ α) : Prop :=
  ∀ s e s', x s = .error e s' → e.isFatal = true

/-- From this state it fails at runtime only while what is looked at is as given, and by errors that
name this place. -/
def Atomic (view : τ → ω) (before : ω) (place : Option Span)
    (x : EStateM Error τ α) (s : τ) : Prop :=
  ∀ problem span s', x s = .error (.runtime problem span) s' → view s' = before ∧ span = place

namespace Steady

variable {x : EStateM Error τ α}

theorem bind {f : α → EStateM Error τ β} (hx : Steady x) (hf : ∀ a, Steady (f a)) :
    Steady (x >>= f) := by
  intro s e s' h
  cases hrun : x s with
  | ok a s₁ =>
    rw [bind_of_ok hrun] at h
    exact hf a s₁ e s' h
  | error e₁ s₁ =>
    rw [bind_of_error hrun] at h
    cases h
    exact hx s e s' hrun

/-- What succeeds from every state does not fail. -/
theorem of_ok {f : τ → α} {g : τ → τ} (h : ∀ s, x s = .ok (f s) (g s)) : Steady x := by
  intro s e s' herror
  rw [h] at herror
  cases herror

theorem pure (a : α) : Steady (pure a : EStateM Error τ α) := .of_ok fun _ => rfl

theorem throw {e : Error} (he : e.isFatal = true) : Steady (throw e : EStateM Error τ α) := by
  rintro s _ _ ⟨⟩
  exact he

theorem get : Steady (get : EStateM Error τ τ) := .of_ok fun _ => rfl

theorem set (s : τ) : Steady (set s : EStateM Error τ PUnit) := .of_ok fun _ => rfl

theorem modify (f : τ → τ) : Steady (modify f : EStateM Error τ PUnit) := .of_ok fun _ => rfl

theorem forM {items : List α} {f : α → EStateM Error τ PUnit}
    (h : ∀ a, Steady (f a)) : Steady (items.forM f) := by
  induction items with
  | nil => exact pure _
  | cons a items ih => exact (h a).bind fun _ => ih

theorem atomic (h : Steady x) {view : τ → ω} {before : ω} {place : Option Span} {s : τ} :
    Atomic view before place x s := by
  intro problem span s' herror
  cases h s _ s' herror

end Steady

namespace Atomic

variable {view : τ → ω} {before : ω} {place : Option Span} {x : EStateM Error τ α} {s : τ}

theorem bind {f : α → EStateM Error τ β} (hx : Atomic view before place x s)
    (hf : ∀ a s', x s = .ok a s' → Atomic view before place (f a) s') :
    Atomic view before place (x >>= f) s := by
  intro problem span s' h
  cases hrun : x s with
  | ok a s₁ =>
    rw [bind_of_ok hrun] at h
    exact hf a s₁ hrun problem span s' h
  | error e₁ s₁ =>
    rw [bind_of_error hrun] at h
    cases h
    exact hx problem span s' hrun

/-- Once it has failed or not, nothing that follows fails at runtime. -/
theorem then_steady {f : α → EStateM Error τ β} (hx : Atomic view before place x s)
    (hf : ∀ a, Steady (f a)) :
    Atomic view before place (x >>= f) s :=
  hx.bind fun a _ _ => (hf a).atomic

theorem throw (h : view s = before) (problem : RuntimeProblem) :
    Atomic view before place (throw (.runtime problem place) : EStateM Error τ α) s := by
  rintro _ _ _ ⟨⟩
  exact ⟨h, rfl⟩

end Atomic

/-! ## The store -/

namespace Store

theorem dropAll_steady {s s' : Store} {pending : List Ticket} {e : Error}
    (h : s.dropAll pending = .error e s') :
    e.isFatal = true := by
  fun_induction dropAll s pending with
  | case1 => cases h
  | case2 => cases h; rfl
  | case3 => cases h; rfl
  | case4 _ _ _ _ _ _ _ ih => exact ih h
  | case5 _ _ _ _ _ _ _ ih => exact ih h

theorem decref_steady (t : Ticket) : Steady (decref t) := fun _ _ _ h => dropAll_steady h

theorem incref_steady (t : Ticket) : Steady (incref t) := by
  intro s e s' h
  unfold incref at h
  split at h
  · cases h
    rfl
  · cases h

theorem retain_steady (v : Value) : Steady (retain v) := .forM incref_steady

theorem release_steady (v : Value) : Steady (release v) := .forM decref_steady

theorem define_steady (t : Ticket) (name : String) (v : Value) : Steady (define t name v) := by
  refine (retain_steady v).bind fun _ => Steady.get.bind fun s => ?_
  cases s.record? t with
  | none => exact .throw rfl
  | some r =>
    refine (Steady.set _).bind fun _ => ?_
    cases r.bindings.get? name with
    | none => exact .pure ()
    | some old => exact release_steady old

theorem newScope_steady : Steady newScope := .of_ok fun _ => rfl

theorem newScopeIn_steady (parent : Ticket) (bindings : List (String × Value)) :
    Steady (newScopeIn parent bindings) :=
  (incref_steady parent).bind fun _ => Steady.get.bind fun _ => (Steady.set _).bind fun _ =>
    (Steady.forM fun _ => define_steady _ _ _).bind fun _ => .pure _

theorem isFatal_of_ownerWithin {s : Store} {name : String} {fuel : Nat} {t : Ticket} {e : Error}
    (h : s.ownerWithin name fuel t = .error e) : e.isFatal = true := by
  induction fuel generalizing t with
  | zero =>
    cases h
    rfl
  | succ fuel ih =>
    rw [ownerWithin] at h
    split at h
    · cases h
      rfl
    · split at h
      · cases h
      · split at h
        · exact ih h
        · cases h

theorem lookup_steady (t : Ticket) (name : String) : Steady (lookup t name) := by
  refine Steady.get.bind fun s => ?_
  cases howner : s.ownerOf t name with
  | error e => exact .throw (isFatal_of_ownerWithin howner)
  | ok owner =>
    cases owner with
    | none => exact .pure _
    | some owner =>
      simp only
      split
      · exact (retain_steady _).bind fun _ => .pure _
      · exact .pure _

theorem assign_steady (t : Ticket) (name : String) (v : Value) : Steady (assign t name v) := by
  refine Steady.get.bind fun s => ?_
  cases howner : s.ownerOf t name with
  | error e => exact .throw (isFatal_of_ownerWithin howner)
  | ok owner =>
    cases owner with
    | none => exact .pure _
    | some owner =>
      refine (retain_steady v).bind fun _ => Steady.get.bind fun s => ?_
      simp only
      split
      · exact .throw rfl
      · next r _ =>
        refine (Steady.set _).bind fun _ => ?_
        cases r.bindings.get? name with
        | none => exact .pure true
        | some old => exact (release_steady old).bind fun _ => .pure true

variable {s s' : Store} {t : Ticket} {name : String} {v : Value}

/-- A lookup that finds nothing has touched nothing. -/
theorem eq_of_lookup_none (h : lookup t name s = .ok none s') : s' = s := by
  unfold lookup at h
  rw [get_bind] at h
  cases howner : s.ownerOf t name with
  | error e =>
    rw [howner] at h
    cases h
  | ok owner =>
    rw [howner] at h
    cases owner with
    | none =>
      cases h
      rfl
    | some owner =>
      simp only at h
      cases hfound : (s.record? owner).bind (·.bindings.get? name) with
      | none =>
        rw [hfound] at h
        cases h
        rfl
      | some found =>
        rw [hfound] at h
        cases hretain : retain found s with
        | ok _ s₁ =>
          simp only [bind_of_ok hretain] at h
          cases h
        | error e s₁ =>
          simp only [bind_of_error hretain] at h
          cases h

/-- Neither has an assignment to a name that no scope binds. -/
theorem eq_of_assign_false (h : assign t name v s = .ok false s') : s' = s := by
  unfold assign at h
  rw [get_bind] at h
  cases howner : s.ownerOf t name with
  | error e =>
    rw [howner] at h
    cases h
  | ok owner =>
    rw [howner] at h
    cases owner with
    | none =>
      cases h
      rfl
    | some owner =>
      -- whatever is displaced, the answer is `true`
      exfalso
      simp only at h
      cases hretain : retain v s with
      | error e s₁ => simp [bind_of_error hretain] at h
      | ok _ s₁ =>
        simp only [bind_of_ok hretain, get_bind] at h
        cases hrecord : s₁.record? owner with
        | none =>
          rw [hrecord] at h
          cases h
        | some r =>
          rw [hrecord] at h
          simp only [set_bind] at h
          cases hold : r.bindings.get? name with
          | none =>
            rw [hold] at h
            cases h
          | some old =>
            rw [hold] at h
            simp only at h
            cases hrelease :
              release old (s₁.setRecord owner { r with bindings := r.bindings.put name v }) with
            | ok _ s₂ => simp only [bind_of_ok hrelease] at h; cases h
            | error e s₂ => simp only [bind_of_error hrelease] at h; cases h

end Store

/-! ## Memories -/

namespace Memory

theorem onStore_steady {x : StoreM α} (h : Steady x) : Steady (onStore x) := by
  rintro ⟨functions, s⟩ e m' herror
  unfold onStore at herror
  cases hrun : x s with
  | ok a s₁ => simp [hrun] at herror
  | error e₁ s₁ =>
    simp only [hrun, EStateM.Result.error.injEq] at herror
    exact herror.1 ▸ h s e₁ s₁ hrun

/-- What leaves the store alone leaves the memory alone. -/
theorem eq_of_onStore {x : StoreM α} {a : α} {m m' : Memory}
    (hx : ∀ s', x m.store = .ok a s' → s' = m.store) (h : onStore x m = .ok a m') : m' = m := by
  obtain ⟨functions, s⟩ := m
  unfold onStore at h
  cases hrun : x s with
  | error e₁ s₁ => simp [hrun] at h
  | ok a₁ s₁ =>
    simp only [hrun, EStateM.Result.ok.injEq] at h
    obtain ⟨rfl, rfl⟩ := h
    rw [hx s₁ hrun]

end Memory

namespace Environment

variable {env : Environment} {owner? : String → Option Owner} {name : String}

theorem define_steady (env : Environment) (name : String) (v : Value) :
    Steady (env.define name v) := by
  unfold define
  split
  · exact Store.define_steady _ _ _
  · exact .throw rfl

theorem retain_steady (env : Environment) : Steady env.retain := by
  unfold retain
  split
  · exact Store.incref_steady _
  · exact .pure _

theorem release_steady (env : Environment) : Steady env.release := by
  unfold release
  split
  · exact Store.decref_steady _
  · exact .pure _

theorem extend_steady (env : Environment) (bindings : List (String × Value)) :
    Steady (env.extend bindings) := by
  unfold extend
  split
  · exact (Store.newScopeIn_steady _ _).bind fun _ => .pure _
  · exact Store.newScope_steady.bind fun _ =>
    (Steady.forM fun _ => Store.define_steady _ _ _).bind fun _ => .pure _

/-- What the scopes know of a name. -/
def lookupInScopes (env : Environment) (name : String) : MemoryM (Option Value) :=
  match env.scope with
  | some scope => Memory.onStore (Store.lookup scope name)
  | none => pure none

/-- Whether a scope has taken an assignment. -/
def assignInScopes (env : Environment) (name : String) (v : Value) : MemoryM Bool :=
  match env.scope with
  | some scope => Memory.onStore (Store.assign scope name v)
  | none => pure false

/-- What a name stands for that no scope binds. -/
def resolveOutside (owner? : String → Option Owner) (name : String) : MemoryM (Option Value) := do
  match owner? name with
  | some owner => return some (.host owner name)
  | none => if (← get).functions.entries.contains name then return some (.named
      name) else return none

/-- Why no assignment is possible to a name that no scope binds. -/
def refuseAssignment (owner? : String → Option Owner) (name : String) : MemoryM Unit := do
  if (owner? name).isSome || (← get).functions.entries.contains name then
    throw (.runtime (.immutable name) none)
  else throw (.runtime (.unassignable name) none)

theorem resolve_eq (env : Environment) (owner? : String → Option Owner) (name : String) :
    env.resolve owner? name = env.lookupInScopes name >>= fun
      | some v => pure (some v)
      | none => resolveOutside owner? name := by
  unfold resolve lookupInScopes
  cases env.scope <;> rfl

theorem assign_eq (env : Environment) (owner? : String → Option Owner) (name : String) (v : Value) :
    env.assign owner? name v = env.assignInScopes name v >>= fun assigned =>
      if assigned then pure () else refuseAssignment owner? name := by
  unfold assign assignInScopes
  cases env.scope <;> rfl

theorem lookupInScopes_steady (env : Environment) (name : String) :
    Steady (env.lookupInScopes name) := by
  unfold lookupInScopes
  split
  · exact Memory.onStore_steady (Store.lookup_steady _ _)
  · exact .pure _

theorem assignInScopes_steady (env : Environment) (name : String)
    (v : Value) : Steady (env.assignInScopes name v) := by
  unfold assignInScopes
  split
  · exact Memory.onStore_steady (Store.assign_steady _ _ _)
  · exact .pure _

theorem resolveOutside_steady (owner? : String → Option Owner)
    (name : String) : Steady (resolveOutside owner? name) := by
  unfold resolveOutside
  split
  · exact .pure _
  · refine Steady.get.bind fun m => ?_
    split
    · exact .pure _
    · exact .pure _

theorem resolve_steady (env : Environment) (owner? : String → Option Owner) (name : String) :
    Steady (env.resolve owner? name) := by
  rw [resolve_eq]
  refine (lookupInScopes_steady env name).bind fun found => ?_
  cases found with
  | some v => exact .pure _
  | none => exact resolveOutside_steady owner? name

variable {m m' : Memory}

theorem eq_of_lookupInScopes_none (h : env.lookupInScopes name m = .ok none m') : m' = m := by
  unfold lookupInScopes at h
  cases hscope : env.scope with
  | none =>
    rw [hscope] at h
    cases h
    rfl
  | some scope =>
    rw [hscope] at h
    exact Memory.eq_of_onStore (fun s' => Store.eq_of_lookup_none) h

theorem eq_of_assignInScopes_false {v : Value} (h : env.assignInScopes name v m = .ok false m') :
    m' = m := by
  unfold assignInScopes at h
  cases hscope : env.scope with
  | none =>
    rw [hscope] at h
    cases h
    rfl
  | some scope =>
    rw [hscope] at h
    exact Memory.eq_of_onStore (fun s' => Store.eq_of_assign_false) h

theorem eq_of_resolveOutside {found : Option Value}
    (h : resolveOutside owner? name m = .ok found m') : m' = m := by
  unfold resolveOutside at h
  cases howner : owner? name with
  | some owner =>
    rw [howner] at h
    cases h
    rfl
  | none =>
    rw [howner] at h
    simp only [get_bind] at h
    split at h
    · cases h
      rfl
    · cases h
      rfl

/-- A name that stands for nothing has been looked for only. -/
theorem eq_of_resolve_none (h : env.resolve owner? name m = .ok none m') : m' = m := by
  rw [resolve_eq] at h
  cases hrun : env.lookupInScopes name m with
  | error e m₁ =>
    rw [bind_of_error hrun] at h
    cases h
  | ok found m₁ =>
    rw [bind_of_ok hrun] at h
    cases found with
    | some v => cases h
    | none => exact (eq_of_resolveOutside h).trans (eq_of_lookupInScopes_none hrun)

theorem lookup_atomic (env : Environment) (owner? : String → Option Owner)
    (name : String) (m : Memory) :
    Atomic id m none (env.lookup owner? name) m := by
  refine (resolve_steady env owner? name).atomic.bind fun found m' hrun => ?_
  cases found with
  | some v => exact (Steady.pure v).atomic
  | none => exact .throw (eq_of_resolve_none hrun) _

theorem assign_atomic (env : Environment) (owner? : String → Option Owner) (name : String)
    (v : Value) (m : Memory) :
    Atomic id m none (env.assign owner? name v) m := by
  rw [assign_eq]
  refine (assignInScopes_steady env name v).atomic.bind fun assigned m' hrun => ?_
  cases assigned with
  | true => exact (Steady.pure ()).atomic
  | false =>
    have hm : id m' = m := eq_of_assignInScopes_false hrun
    refine Atomic.bind (Steady.get.atomic) fun _ _ hget => ?_
    cases hget
    split
    · exact .throw hm _
    · exact .throw hm _

end Environment

theorem Memory.register_steady (name : String) (params : List String) (code : Code)
    (env : Environment) :
    Steady (Memory.register name params code env) := by
  refine (onStore_steady env.retain_steady).bind fun _ => Steady.get.bind fun m => ?_
  simp only
  split
  all_goals
    refine (Steady.set _).bind fun _ => ?_
    split
    · exact onStore_steady (Environment.release_steady _)
    · exact .pure _

/-! ## Instructions -/

theorem Machine.onMemory_steady {x : MemoryM α} (h : Steady x) : Steady (onMemory x) := by
  rintro ⟨context, memory, built⟩ e m' herror
  unfold onMemory at herror
  cases hrun : x memory with
  | ok a memory₁ => simp [hrun] at herror
  | error e₁ memory₁ =>
    simp only [hrun, EStateM.Result.error.injEq] at herror
    exact herror.1 ▸ h memory e₁ memory₁ hrun

namespace Exec

variable {host : Host σ} {r : Running σ} {origin : Span}

theorem onMemory_steady {x : MemoryM α} (h : Steady x) : Steady (onMemory x : Exec σ α) := by
  rintro ⟨machine, world⟩ e r' herror
  unfold onMemory onMachine at herror
  cases hrun : Machine.onMemory x machine with
  | ok a machine₁ => simp [hrun] at herror
  | error e₁ machine₁ =>
    simp only [hrun, EStateM.Result.error.injEq] at herror
    exact herror.1 ▸ Machine.onMemory_steady h machine e₁ machine₁ hrun

theorem onStore_steady {x : StoreM α} (h : Steady x) : Steady (onStore x : Exec σ α) :=
  onMemory_steady (Memory.onStore_steady h)

/-- What fails only with the memory as it was, fails only with the machine as it was. -/
theorem onMemory_atomic {x : MemoryM α} {place : Option Span}
    (h : Atomic id r.machine.memory place x r.machine.memory) :
    Atomic Running.machine r.machine place (onMemory x : Exec σ α) r := by
  obtain ⟨⟨context, memory, built⟩, world⟩ := r
  intro problem span r' herror
  cases hrun : x memory with
  | ok a memory₁ => rw [onMemory_of_ok hrun] at herror; cases herror
  | error e₁ memory₁ =>
    rw [onMemory_of_error hrun] at herror
    cases herror
    obtain ⟨hmemory, hspan⟩ := h problem span memory₁ hrun
    exact ⟨congrArg (Machine.mk context · built) hmemory, hspan⟩

/-- What leaves the memory alone leaves the machine alone, and its world. -/
theorem eq_of_onMemory {x : MemoryM α} {a : α} {r' : Running σ}
    (hx : ∀ m', x r.machine.memory = .ok a m' → m' = r.machine.memory)
    (h : onMemory x r = .ok a r') : r' = r := by
  obtain ⟨⟨context, memory, built⟩, world⟩ := r
  cases hrun : x memory with
  | error e₁ memory₁ => rw [onMemory_of_error hrun] at h; cases h
  | ok a₁ memory₁ =>
    rw [onMemory_of_ok hrun] at h
    cases h
    rw [hx memory₁ hrun]

theorem locatedAt_atomic {x : Exec σ α} {before : Machine}
    (h : Atomic Running.machine before none x r) :
    Atomic Running.machine before (some origin) (locatedAt origin x) r := by
  intro problem span r' herror
  cases hrun : x r with
  | ok a r₁ => rw [locatedAt_of_ok origin hrun] at herror; cases herror
  | error e r₁ =>
    rw [locatedAt_of_error origin hrun] at herror
    cases e with
    | runtime problem₁ span₁ =>
      obtain ⟨hmachine, rfl⟩ := h problem₁ span₁ r₁ hrun
      cases herror
      exact ⟨hmachine, rfl⟩
    | _ => cases herror

theorem locatedAt_steady {x : Exec σ α} (h : Steady x) : Steady (locatedAt origin x) := by
  intro r e r' herror
  cases hrun : x r with
  | ok a r₁ => rw [locatedAt_of_ok origin hrun] at herror; cases herror
  | error e₁ r₁ =>
    rw [locatedAt_of_error origin hrun] at herror
    cases e₁ with
    | internal problem => cases herror; rfl
    | _ => cases h r _ r₁ hrun

theorem context_steady : Steady (context : Exec σ Context) := Steady.get.bind fun _ => .pure _

theorem modifyContext_steady (f : Context → Context) :
    Steady (modifyContext f : Exec σ Unit) := .modify _

theorem setValues_steady (values : List Value) : Steady (setValues values : Exec σ Unit) :=
    modifyContext_steady _

theorem pushValue_steady (v : Value) : Steady (pushValue v : Exec σ Unit) := modifyContext_steady _

theorem nextClosure_steady : Steady (nextClosure : Exec σ ClosureId) :=
  Steady.get.bind fun _ => (Steady.set _).bind fun _ => .pure _

theorem retain_steady (v : Value) : Steady (onStore (Store.retain v) : Exec σ Unit) :=
  onStore_steady (Store.retain_steady v)

theorem release_steady (v : Value) : Steady (onStore (Store.release v) : Exec σ Unit) :=
  onStore_steady (Store.release_steady v)

theorem jumpTarget_steady (pc : Nat) (offset : Int) :
    Steady (jumpTarget pc offset : Exec σ Nat) := by
  unfold jumpTarget
  split
  · exact .pure _
  · exact .throw rfl

theorem eq_of_jumpTarget {pc target : Nat} {offset : Int} {r' : Running σ}
    (h : jumpTarget pc offset r = .ok target r') :
    r' = r := by
  unfold jumpTarget at h
  cases hsum : (pc : Int) + offset with
  | ofNat n =>
    rw [hsum] at h
    cases h
    rfl
  | negSucc n =>
    rw [hsum] at h
    cases h

theorem popValue_atomic (r : Running σ) (origin : Span) :
    Atomic Running.machine r.machine (some origin) (popValue origin) r := by
  refine Atomic.bind context_steady.atomic fun c r' hrun => ?_
  cases hrun
  cases r.machine.context.values with
  | nil => exact .throw rfl _
  | cons v rest => exact ((setValues_steady rest).bind fun _ => .pure v).atomic

theorem topValue_atomic (r : Running σ) (origin : Span) :
    Atomic Running.machine r.machine (some origin) (topValue origin) r := by
  refine Atomic.bind context_steady.atomic fun c r' hrun => ?_
  cases hrun
  cases r.machine.context.values with
  | nil => exact .throw rfl _
  | cons v rest => exact (Steady.pure v).atomic

theorem eq_of_topValue {v : Value} {r' : Running σ}
    (h : topValue origin r = .ok v r') : r' = r := by
  unfold topValue at h
  rw [context_bind] at h
  cases hvalues : r.machine.context.values with
  | nil =>
    rw [hvalues] at h
    cases h
  | cons top rest =>
    rw [hvalues] at h
    cases h
    rfl

theorem buildFunction_steady (env : Environment) (name : Option String) (origin : Span) :
    Steady (buildFunction env name origin : Exec σ Flow) := by
  refine context_steady.bind fun c => ?_
  have hlast : ∀ function : Value, Steady (do
      locatedAt origin (onStore (Store.retain function)); pushValue function; return Flow.advance :
        Exec σ Flow) :=
    fun function => (locatedAt_steady (retain_steady function)).bind fun _ =>
      (pushValue_steady function).bind fun _ =>
      .pure _
  split
  · refine (setValues_steady _).bind fun _ => ?_
    cases name with
    | some name =>
      exact (onMemory_steady (Memory.register_steady _ _ _ _)).bind fun _ =>
        (Steady.pure _).bind hlast
    | none => exact nextClosure_steady.bind fun _ => (Steady.pure _).bind hlast
  · exact .throw rfl

theorem dropFrame_steady : Steady (dropFrame : Exec σ Unit) := by
  refine context_steady.bind fun c => ?_
  cases c.environments with
  | nil => exact modifyContext_steady _
  | cons finished rest =>
    exact (modifyContext_steady _).bind fun _ =>
      (onStore_steady finished.release_steady).bind fun _ =>
      modifyContext_steady _

theorem enter_steady (tail : Bool) (params : List String) (code : Code)
    (env : Environment) (callee : Value) (args rest : List Value) :
    Steady (enter tail params code env callee args rest : Exec σ Flow) := by
  refine (setValues_steady _).bind fun _ => (onStore_steady (env.extend_steady _)).bind fun inner =>
    (Steady.forM release_steady).bind fun _ => (setValues_steady _).bind fun _ => ?_
  cases tail with
  | true => exact dropFrame_steady.bind fun _ => (modifyContext_steady _).bind fun _ => .pure _
  | false => exact (modifyContext_steady _).bind fun _ => .pure _

/-- The host may refuse; what it has done to its world by then stays done. -/
theorem callHost_atomic (host : Host σ) (owner : Owner) (method : String) (callee : Value)
    (args rest : List Value) (origin : Span) (r : Running σ) :
    Atomic Running.machine r.machine (some origin)
      (callHost host owner method callee args rest origin) r := by
  refine Atomic.bind Steady.get.atomic fun _ _ hget => ?_
  cases hget
  refine Atomic.bind (Steady.set _).atomic fun _ r' hset => ?_
  cases hset
  cases (host.invoke owner method args r.world).1 with
  | error problem => exact .throw rfl _
  | ok v =>
    exact Steady.atomic <| (retain_steady v).bind fun _ => (setValues_steady rest).bind fun _ =>
      (Steady.forM release_steady).bind fun _ => (pushValue_steady v).bind fun _ => .pure _

theorem call_atomic (host : Host σ) (tail : Bool) (argc : Nat) (origin : Span) (r : Running σ) :
    Atomic Running.machine r.machine (some origin) (call host tail argc origin) r := by
  refine Atomic.bind context_steady.atomic fun c r' hrun => ?_
  cases hrun
  simp only
  cases r.machine.context.values.drop argc with
  | nil => exact .throw rfl _
  | cons callee rest =>
    have henter : ∀ (name : Option String) (params : List String) (code : Code) (env : Environment),
        Atomic Running.machine r.machine (some origin)
          (if params.length ≠ argc
            then throw (.runtime (.arity name params.length argc) (some origin))
          else enter tail params code env callee (r.machine.context.values.take argc).reverse rest :
            Exec σ Flow) r := by
      intro name params code env
      split
      · exact .throw rfl _
      · exact (enter_steady tail params code env callee _ rest).atomic
    cases callee with
    | host owner method => exact callHost_atomic host owner method _ _ rest origin r
    | closure id params code scope => exact henter none params code ⟨scope⟩
    | named name =>
      refine Atomic.bind Steady.get.atomic fun _ _ hget => ?_
      cases hget
      cases hfound : r.machine.memory.functions.entries.get? name with
      | none => exact .throw rfl _
      | some function =>
        obtain ⟨params, code, site, env⟩ := function
        cases env with
        | none => exact .throw rfl _
        | some env => exact henter (some name) params code env
    | _ => exact .throw rfl _

theorem leave_steady : Steady (leave : Exec σ Flow) := by
  have hlast : Steady (do
      if (← context).frames.isEmpty then
        modifyContext fun c => { c with done := true }
        return Flow.stay
      else return Flow.advance : Exec σ Flow) := by
    refine context_steady.bind fun c => ?_
    split
    · exact (modifyContext_steady _).bind fun _ => .pure _
    · exact .pure _
  refine (modifyContext_steady _).bind fun _ => context_steady.bind fun c => ?_
  cases c.environments with
  | nil => exact hlast
  | cons env rest => exact (modifyContext_steady _).bind fun _ => (onStore_steady
      env.release_steady).bind fun _ => hlast

/-- One case for each kind of instruction. -/
theorem execute_atomic (host : Host σ) (pc : Nat) (env : Environment) (origin : Span)
    (op : Op) (r : Running σ) :
    Atomic Running.machine r.machine (some origin) (execute host pc env origin op) r := by
  have hpush : ∀ v : Value, Steady (do pushValue v; return Flow.advance : Exec σ Flow) :=
    fun v => (pushValue_steady v).bind fun _ => .pure _
  cases op with
  | loadConstant v => exact ((retain_steady v).bind fun _ => hpush v).atomic
  | push v => exact ((retain_steady v).bind fun _ => hpush v).atomic
  | pop => exact (popValue_atomic r origin).then_steady fun v => (release_steady
      v).bind fun _ => .pure _
  | nameLookup name =>
    exact (locatedAt_atomic (onMemory_atomic (env.lookup_atomic _ name _))).then_steady hpush
  | functionLookup name =>
    refine Atomic.bind (onMemory_steady (env.resolve_steady _ name)).atomic fun found r' hrun => ?_
    cases found with
    | some v => exact (hpush v).atomic
    | none => exact .throw (congrArg Running.machine
        (eq_of_onMemory (fun _ => Environment.eq_of_resolve_none) hrun)) _
  | storeNew name =>
    exact (topValue_atomic r origin).then_steady fun v =>
      (onStore_steady (env.define_steady name v)).bind fun _ => .pure _
  | store name =>
    refine (topValue_atomic r origin).bind fun v r' hrun => ?_
    rw [← eq_of_topValue hrun]
    exact (locatedAt_atomic (onMemory_atomic (env.assign_atomic _ name v _))).then_steady fun _ =>
      .pure _
  | buildFunction name => exact (buildFunction_steady env name origin).atomic
  | call argc => exact call_atomic host false argc origin r
  | tailCall argc => exact call_atomic host true argc origin r
  | jump offset => exact ((jumpTarget_steady pc offset).bind fun _ => .pure _).atomic
  | jumpIfNot offset =>
    refine (jumpTarget_steady pc offset).atomic.bind fun target r' hrun => ?_
    rw [← eq_of_jumpTarget hrun]
    refine (popValue_atomic r' origin).then_steady fun condition =>
      (release_steady condition).bind fun _ => ?_
    split
    · exact .pure _
    · exact .pure _
  | ret => exact leave_steady.atomic

theorem follow_steady (flow : Flow) : Steady (follow flow : Exec σ Unit) := by
  unfold follow
  split
  · exact modifyContext_steady _
  · exact modifyContext_steady _
  · exact .pure _

/-- A step that fails at runtime has changed nothing of the machine: not its stacks, nor whether it
is done, nor the function table, nor the store with its counts and free places. The error names the
form of the instruction about to run. -/
theorem step_atomic (host : Host σ) (r : Running σ) (hrunning : r.machine.context.done = false)
    {problem : RuntimeProblem} {span : Option Span} {r' : Running σ}
    (h : step host r = .error (.runtime problem span) r') :
    r'.machine = r.machine ∧ ∃ origin, r.machine.context.at? = some origin ∧
      span = some origin := by
  obtain ⟨⟨⟨pcs, frames, envs, values, done⟩, memory, built⟩, w⟩ := r
  cases hrunning
  match frames, pcs with
  | [], _ => cases h
  | _ :: _, [] => cases h
  | code :: frames, pc :: pcs =>
    cases hi : code.instructions[pc]? with
    | none =>
      unfold step at h
      rw [context_bind] at h
      simp only [hi] at h
      cases h
    | some i =>
      cases envs with
      | nil =>
        unfold step at h
        rw [context_bind] at h
        simp only [hi] at h
        cases h
      | cons env envs =>
        rw [step_running hi] at h
        obtain ⟨hmachine, hspan⟩ :=
          (execute_atomic host pc env i.origin i.op _).then_steady follow_steady problem span r' h
        exact ⟨hmachine, i.origin, by simp [Context.at?, Context.instruction?, hi], hspan⟩

/-- A host that counts how often it is asked and refuses every time. -/
def refusing : Host Nat where
  owner? _ := some ⟨0, "Refusing"⟩
  invoke _ _ _ asked := (.error .noArguments, asked + 1)

/-- Code that no program compiles to: a call of `f` with the argument `null`, and nothing after it.
-/
def bareCall : Code :=
  ⟨⟨0, none⟩, [⟨.functionLookup "f", ⟨0, 0, 1, 1⟩⟩, ⟨.loadConstant .null, ⟨0, 0, 1, 1⟩⟩,
    ⟨.call 1, ⟨0, 0, 1, 1⟩⟩]⟩

/-- About to make the call. -/
def refused : Running Nat :=
  ⟨{ Machine.start bareCall with
    context := ⟨[2], [bareCall], [⟨some ⟨0, 0⟩⟩], [.null, .host ⟨0, "Refusing"⟩ "f"], false⟩ }, 0⟩

/-- The host has been asked once, and the machine still has callee and argument on its stack. -/
theorem step_atomic_refused : refused.machine.context.done = false ∧ ∃ r',
    step refusing refused = .error (.runtime (.host "f" .noArguments) (some ⟨0, 0, 1, 1⟩)) r' ∧
      r'.world = 1 ∧
    r'.machine = refused.machine ∧
    ∃ origin, refused.machine.context.at? = some origin ∧
      some (⟨0, 0, 1, 1⟩ : Span) = some origin := by
  have hstep : ∃ r', step refusing refused =
      .error (.runtime (.host "f" .noArguments) (some ⟨0, 0, 1, 1⟩)) r' ∧
      r'.world = 1 := ⟨_, rfl, rfl⟩
  obtain ⟨r', hrefused, hworld⟩ := hstep
  exact ⟨rfl, r', hrefused, hworld, step_atomic refusing refused rfl hrefused⟩

end Exec

end LiveLisp
