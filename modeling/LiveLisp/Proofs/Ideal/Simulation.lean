/-
  Whole steps, and what happens to a machine between steps. A step of the machine is a step of the
  ideal machine (`step_agrees`); a collection is no step at all; tearing down, patching and copying
  do the same on both sides. All that later modules say about machines they derive from these.
-/
import LiveLisp.Machine.Copy
import LiveLisp.Proofs.Ideal.Instructions

namespace LiveLisp

variable {σ : Type}

/-! ## Steps -/

/-- Frames in step with their counters and environments, and none left when the program is done. -/
structure Context.Balanced (c : Context) : Prop where
  pcs : c.pcs.length = c.frames.length
  environments : c.environments.length = c.frames.length
  done : c.done = true ↔ c.frames = []

/-- Moving the counter changes nothing that is held. -/
theorem Machine.FollowsSince.follow {swept : Nat → Prop} {m : Machine} {r : Ideal}
    (h : m.FollowsSince swept r) (flow : Flow) :
    Machine.FollowsSince swept { m with context := m.context.follow flow }
      { r with context := r.context.follow flow } := by
  obtain ⟨hx, ρ, scopes, hm, rfl⟩ := h
  cases flow with
  | advance => exact ⟨hx, ρ, scopes, hm, rfl⟩
  | jump target => exact ⟨hx, ρ, scopes, hm, rfl⟩
  | stay => exact ⟨hx, ρ, scopes, hm, rfl⟩

namespace Exec

variable {pc : Nat} {pcs : List Nat} {code : Code} {frames : List Code} {env : Environment}
    {envs : List Environment}
  {values : List Value} {memory : Memory} {built : Nat} {w : σ} {host : Host σ}

theorem step_running {i : Instruction} (hi : code.instructions[pc]? = some i) :
    step host ⟨⟨⟨pc :: pcs, code :: frames, env :: envs, values, false⟩, memory, built⟩, w⟩ =
      (do follow (← execute host pc env i.origin i.op) : Exec σ Unit)
        ⟨⟨⟨pc :: pcs, code :: frames, env :: envs, values, false⟩, memory, built⟩, w⟩ := by
  unfold step
  rw [context_bind]
  simp only [hi]
  rfl

theorem step_pastEnd (hi : code.instructions[pc]? = none) :
    step host ⟨⟨⟨pc :: pcs, code :: frames, env :: envs, values, false⟩, memory, built⟩, w⟩ =
      .error (.internal (.pastEnd pc code.length))
        ⟨⟨⟨pc :: pcs, code :: frames, env :: envs, values, false⟩, memory, built⟩, w⟩ := by
  unfold step
  rw [context_bind]
  simp only [hi]
  rfl

end Exec

/-- One step of the machine is one step of the ideal machine. -/
theorem step_agrees {swept : Nat → Prop} {ρ : Ticket → Ticket} {m : Machine} {scopes : Array Scope}
    {w : σ} {host : Host σ} (hx : m.memory.store.Exact m.roots)
    (hm : Mirrors swept ρ m.memory.store.scope? scopes) (hbal : m.context.Balanced)
    (hclean : ∀ i, m.context.instruction? = some i → i.op.Clean)
    (hreply : ∀ v, (host.reply m.context w).1 = .ok v → ∀ u ∈ v.scopes, m.memory.store.contains u) :
    match (m.image ρ scopes).step host.owner? ((host.reply m.context w).1.map (Value.rename ρ)) with
    | .ok r => ∃ m', Exec.step host ⟨m, w⟩ = .ok () ⟨m', (host.reply m.context w).2⟩ ∧
        m'.FollowsSince swept r
    | .error e => Exec.step host ⟨m, w⟩ = .error e ⟨m, (host.reply m.context w).2⟩ := by
  have hsilent : m.context.instruction? = none → host.reply m.context w = (.ok .null, w) := by
    intro h
    unfold Host.reply Context.hostCall?
    rw [h]
    rfl
  obtain ⟨hpcs, henvs, hdone⟩ := hbal
  obtain ⟨⟨pcs, frames, envs, values, done⟩, memory, b⟩ := m
  simp only at hpcs henvs hdone
  cases frames with
  | nil =>
    cases hdone.mpr rfl
    rw [hsilent rfl]
    rfl
  | cons code frames =>
    have hrunning : done = false := by simpa using hdone
    subst hrunning
    obtain ⟨pc, pcs, rfl⟩ := List.exists_cons_of_length_eq_add_one hpcs
    obtain ⟨env, envs, rfl⟩ := List.exists_cons_of_length_eq_add_one henvs
    cases hi : code.instructions[pc]? with
    | none =>
      rw [hsilent hi, Ideal.step_pastEnd rfl hi, Exec.step_pastEnd hi]
    | some i =>
      have hagrees := execute_agrees hx hm pc hi (hclean i hi) (List.mem_cons_self ..) hreply
      rw [Ideal.step_running rfl hi, Exec.step_running hi]
      rcases hagrees.inv with ⟨flow, r, m', hideal, hrun, hfollows⟩ | ⟨e, hideal, hrun⟩
      · rw [hideal]
        refine ⟨{ m' with context := m'.context.follow flow }, (bind_of_ok hrun).trans ?_,
          hfollows.follow flow⟩
        cases flow <;> rfl
      · rw [hideal]
        exact bind_of_error hrun

/-! ## Between steps -/

namespace FunctionTable

variable (ρ : Ticket → Ticket)

theorem rename_retireOne (table : FunctionTable) (name : String) :
    (table.retireOne name).rename ρ = (table.rename ρ).retireOne name := by
  unfold retireOne rename
  rw [NameMap.get?_mapValues]
  cases table.entries.get? name with
  | none => rfl
  | some entry =>
    cases he : entry.env with
    | none => simp [NamedFunction.rename, he]
    | some env => simp [NamedFunction.rename, he]

theorem rename_retire (table : FunctionTable) :
    table.retire.rename ρ = (table.rename ρ).retire := by
  have hkeys : (table.rename ρ).entries.keys = table.entries.keys := by
    simp [rename, NameMap.mapValues, NameMap.keys]
  unfold retire
  rw [hkeys]
  clear hkeys
  generalize table.entries.keys = names
  induction names generalizing table with
  | nil => rfl
  | cons name names ih => rw [List.foldl_cons, List.foldl_cons, ih, rename_retireOne]

theorem rename_patch (table : FunctionTable) (name : String) (revision : Revision) :
    (table.patch name revision).rename ρ = (table.rename ρ).patch name revision := by
  unfold patch rename
  congr 1
  rw [NameMap.get?_mapValues]
  cases table.entries.get? name with
  | none => rfl
  | some entry =>
    simp only [Option.map_some, NamedFunction.rename]
    split
    · rw [NameMap.mapValues_put]
      rfl
    · rfl

/-- A patched entry keeps its environment. -/
theorem count_scopes_patch (table : FunctionTable) (name : String)
    (revision : Revision) (u : Ticket) :
    (table.patch name revision).scopes.count u = table.scopes.count u := by
  unfold patch
  cases hf : table.entries.get? name with
  | none => rfl
  | some entry =>
    simp only
    split
    · have := table.count_scopes_put name
        { entry with params := revision.params, code := revision.code } u
      simp only [scopesAt, hf, Option.map_some, Option.getD_some, NamedFunction.scopes] at this
      simp only [scopes] at this ⊢
      omega
    · rfl

end FunctionTable

namespace Machine

theorem onStore_of_ok {α : Type} {x : StoreM α} {m : Machine} {a : α} {s : Store}
    (h : x m.memory.store = .ok a s) :
    Machine.onStore x m = .ok a ⟨m.context, ⟨m.memory.functions, s⟩, m.built⟩ := by
  simp only [Machine.onStore, Machine.onMemory, Memory.onStore, h]

variable {swept : Nat → Prop} {m : Machine} {r : Ideal}

/-- A collection sweeps away what it does not find. -/
theorem collectGarbage_followsSince (h : m.FollowsSince swept r) :
    ∃ n m' swept', collectGarbage m = .ok n m' ∧ m'.FollowsSince swept' r ∧
      m'.context = m.context := by
  obtain ⟨hx, ρ, scopes, hm, rfl⟩ := h
  obtain ⟨n, s, hcollect, hexact, hwithin⟩ := Store.collect_exact hx
  exact ⟨n, _, _, onStore_of_ok hcollect,
    ⟨hexact, ρ, scopes, hm.sweep hwithin hexact.closed fun _ => .rfl, rfl⟩, rfl⟩

theorem collectGarbage_follows (h : m.Follows r) :
    ∃ n m', collectGarbage m = .ok n m' ∧ m'.Follows r ∧ m'.context = m.context := by
  obtain ⟨swept, h⟩ := h
  obtain ⟨n, m', swept', hrun, hfollows, hcontext⟩ := collectGarbage_followsSince h
  exact ⟨n, m', hrun, ⟨swept', hfollows⟩, hcontext⟩

/-- Functions let go of their environments, and nothing is swept. -/
theorem retire_followsSince (h : m.FollowsSince swept r) :
    ∃ m', onMemory Memory.retire m = .ok () m' ∧
      m'.FollowsSince swept { r with functions := r.functions.retire } ∧
      m'.context = m.context := by
  obtain ⟨hx, ρ, scopes, hm, rfl⟩ := h
  obtain ⟨s, hretire, hexact, hremains⟩ := Memory.retire_exact hx
  refine ⟨⟨m.context, ⟨m.memory.functions.retire, s⟩, m.built⟩, ?_,
    ⟨hexact, ρ, scopes, hm.mono hremains, ?_⟩, rfl⟩
  · simp only [onMemory, hretire]
  · simp only [image, FunctionTable.rename_retire]

theorem finish_follows (h : m.Follows r) :
    ∃ n m', finish m = .ok n m' ∧ m'.Follows { r with functions := r.functions.retire } ∧
      m'.context = m.context := by
  obtain ⟨swept, h⟩ := h
  obtain ⟨m₁, hretire, hretired, hsame⟩ := retire_followsSince h
  obtain ⟨n, m', hcollect, hfollows, hcontext⟩ := collectGarbage_follows ⟨swept, hretired⟩
  exact ⟨n, m', (bind_of_ok hretire).trans hcollect, hfollows, hcontext.trans hsame⟩

/-- With a function patched. -/
def patch (m : Machine) (name : String) (revision : Revision) : Machine :=
  { m with memory := { m.memory with functions := m.memory.functions.patch name revision } }

theorem patch_followsSince (h : m.FollowsSince swept r) (name : String) (revision : Revision) :
    (m.patch name revision).FollowsSince swept
      { r with functions := r.functions.patch name revision } := by
  obtain ⟨hx, ρ, scopes, hm, rfl⟩ := h
  refine ⟨hx.congr fun u => ?_, ρ, scopes, hm, ?_⟩
  · show (_ ++ _ : List Ticket).count u = (_ ++ _ : List Ticket).count u
    rw [List.count_append, List.count_append]
    exact congrArg _ (FunctionTable.count_scopes_patch ..)
  · simp only [image, patch, FunctionTable.rename_patch]

theorem patch_follows (h : m.Follows r) (name : String) (revision : Revision) :
    (m.patch name revision).Follows { r with functions := r.functions.patch name revision } := by
  obtain ⟨swept, h⟩ := h
  exact ⟨swept, patch_followsSince h name revision⟩

end Machine

end LiveLisp
