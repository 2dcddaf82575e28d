/-
  Sound machines, and that they stay sound: what follows a sound ideal machine. The invariant says
  nothing of counts or stacks by itself; that counts are exact, that the stacks fit the code and
  that an instruction cannot fail inside the interpreter all come from the ideal machine and from
  following it.
-/
import LiveLisp.Proofs.Ideal.Sound

namespace LiveLisp

variable {σ : Type}

def Machine.Sound (m : Machine) : Prop :=
  ∃ r, m.Follows r ∧ r.Sound

/-- In this world the host answers from the arguments of a call: the closures in an answer are among
theirs. -/
def Host.HonestIn (host : Host σ) (w : σ) : Prop :=
  ∀ owner method args v, (host.invoke owner method args w).1 = .ok v →
    ∀ c ∈ v.closures, ∃ arg ∈ args, c ∈ arg.closures

theorem Context.mem_values_of_hostCall? {c : Context} {owner : Owner}
    {method : String} {args : List Value} (h : c.hostCall? = some (owner, method, args)) :
    ∀ v ∈ args, v ∈ c.values := by
  unfold Context.hostCall? at h
  split at h
  · cases h
  · split at h
    · cases h
      exact fun v hv => List.mem_of_mem_take (List.mem_reverse.mp hv)
    · cases h

/-- The closures in an honest reply are on the stack. -/
theorem Host.HonestIn.reply {host : Host σ} {w : σ} (h : host.HonestIn w) {c : Context} {v : Value}
    (hv : (host.reply c w).1 = .ok v) : ∀ cl ∈ v.closures, ∃ u ∈ c.values, cl ∈ u.closures := by
  unfold Host.reply at hv
  split at hv
  · next owner method args hcall =>
    intro cl hcl
    obtain ⟨arg, harg, hmem⟩ := h owner method args v hv cl hcl
    exact ⟨arg, Context.mem_values_of_hostCall? hcall arg harg, hmem⟩
  · cases hv
    exact nofun

/-- In this world it makes no difference to any call how scopes are named. -/
def Host.BlindIn (host : Host σ) (w : σ) : Prop :=
  ∀ ρ owner method args, host.invoke owner method (args.map (Value.rename ρ)) w =
    ((host.invoke owner method args w).1.map (Value.rename ρ), (host.invoke owner method args w).2)

theorem Host.BlindIn.reply {host : Host σ} {w : σ} (h : host.BlindIn w) (ρ : Ticket → Ticket)
    (c : Context) :
    host.reply (c.rename ρ) w = ((host.reply c w).1.map (Value.rename ρ), (host.reply c w).2) := by
  unfold Host.reply
  rw [Context.hostCall?_rename]
  cases c.hostCall? with
  | none => rfl
  | some call => exact h ρ call.1 call.2.1 call.2.2

namespace Machine

variable {m : Machine} {host : Host σ} {w : σ}

theorem start_sound {code : Code} (h : code.Sound) : (Machine.start code).Sound :=
  ⟨_, start_follows code, Ideal.start_sound h⟩

theorem balanced_of_rename {ρ : Ticket → Ticket} {c : Context}
    (h : (c.rename ρ).Balanced) : c.Balanced := by
  obtain ⟨hpcs, henvs, hdone⟩ := h
  refine ⟨hpcs, ?_, hdone⟩
  simpa [Context.rename] using henvs

theorem Sound.balanced (h : m.Sound) : m.context.Balanced := by
  obtain ⟨r, ⟨_, -, ρ, scopes, -, rfl⟩, hr⟩ := h
  exact balanced_of_rename hr.stacked.balanced

/-- A finished program has left one value. -/
theorem Sound.result (h : m.Sound) (hdone : m.context.done = true) :
    ∃ v, m.context.values = [v] := by
  obtain ⟨r, ⟨_, -, ρ, scopes, -, rfl⟩, hr⟩ := h
  obtain ⟨u, hu⟩ := hr.stacked.result hdone
  obtain ⟨v, hv, -⟩ := List.map_eq_singleton_iff.mp hu
  exact ⟨v, hv⟩

/-- A step against the step of the ideal machine with the same reply, if the closures in that are on
the stack. -/
theorem step_image {swept : Nat → Prop} {ρ : Ticket → Ticket} {scopes : Array Scope}
    (hx : m.memory.store.Exact m.roots) (hm : Mirrors swept ρ m.memory.store.scope? scopes)
    (hr : (m.image ρ scopes).Sound)
    (hanswer : ∀ v, (host.reply m.context w).1 = .ok v →
      ∀ cl ∈ v.closures, ∃ u ∈ m.context.values, cl ∈ u.closures) :
    match (m.image ρ scopes).step host.owner? ((host.reply m.context w).1.map (Value.rename ρ)) with
    | .ok r => ∃ m', Exec.step host ⟨m, w⟩ = .ok () ⟨m',
      (host.reply m.context w).2⟩ ∧ m'.FollowsSince swept r ∧ r.Sound
    | .error e => Exec.step host ⟨m, w⟩ = .error e ⟨m,
        (host.reply m.context w).2⟩ ∧ e.OfProgram := by
  have hlive : ∀ v, (host.reply m.context w).1 = .ok v →
    ∀ u ∈ v.scopes, m.memory.store.contains u := by
    intro v hv u hu
    rw [Value.scopes_eq_closures] at hu
    obtain ⟨cl, hcl, hscope⟩ := List.mem_filterMap.mp hu
    obtain ⟨x, hx', hmem⟩ := hanswer v hv cl hcl
    refine live_of_value hx hx' u ?_
    rw [Value.scopes_eq_closures]
    exact List.mem_filterMap.mpr ⟨cl, hmem, hscope⟩
  have hreply : ∀ v, (host.reply m.context w).1.map (Value.rename ρ) = .ok v → v.Sound := by
    intro v hv
    cases hreplied : (host.reply m.context w).1 with
    | error problem =>
      rw [hreplied] at hv
      cases hv
    | ok u =>
      rw [hreplied] at hv
      cases hv
      intro cl hcl
      rw [Value.closures_rename] at hcl
      obtain ⟨cl', hcl', rfl⟩ := List.mem_map.mp hcl
      obtain ⟨x, hx', hmem⟩ := hanswer u hreplied cl' hcl'
      have hsound : (x.rename ρ).Sound := hr.contents.values _ (List.mem_map_of_mem hx')
      refine hsound _ ?_
      rw [Value.closures_rename]
      exact List.mem_map_of_mem hmem
  have hbalanced : m.context.Balanced := balanced_of_rename hr.stacked.balanced
  have hagrees := step_agrees hx hm hbalanced (fun i hi => hr.clean i hi) hlive
  have hideal := Ideal.step_sound host.owner? hr hreply
  cases hstep : (m.image ρ scopes).step host.owner?
    ((host.reply m.context w).1.map (Value.rename ρ)) with
  | ok r =>
    rw [hstep] at hagrees hideal
    obtain ⟨m', hrun, hfollows⟩ := hagrees
    exact ⟨m', hrun, hfollows, hideal⟩
  | error e =>
    rw [hstep] at hagrees hideal
    exact ⟨hagrees, hideal⟩

/-- A step of a sound machine with an honest host succeeds in a sound machine, or fails by an error
that is the program's own and leaves the machine as it was. -/
theorem step_sound (h : m.Sound) (hhost : host.HonestIn w) :
    (∃ m', Exec.step host ⟨m, w⟩ = .ok () ⟨m', (host.reply m.context w).2⟩ ∧ m'.Sound) ∨
    (∃ e, Exec.step host ⟨m, w⟩ = .error e ⟨m, (host.reply m.context w).2⟩ ∧ e.OfProgram) := by
  obtain ⟨r, ⟨swept, hx, ρ, scopes, hm, rfl⟩, hr⟩ := h
  have hstep := step_image hx hm hr fun v hv => hhost.reply hv
  split at hstep
  · next r' _ =>
    obtain ⟨m', hrun, hfollows, hr'⟩ := hstep
    exact .inl ⟨m', hrun, r', ⟨swept, hfollows⟩, hr'⟩
  · next e _ => exact .inr ⟨e, hstep⟩

theorem collectGarbage_sound (h : m.Sound) :
    ∃ n m', collectGarbage m = .ok n m' ∧ m'.Sound ∧ m'.context = m.context := by
  obtain ⟨r, hfollows, hr⟩ := h
  obtain ⟨n, m', hrun, hfollows', hcontext⟩ := collectGarbage_follows hfollows
  exact ⟨n, m', hrun, ⟨r, hfollows', hr⟩, hcontext⟩

theorem finish_sound (h : m.Sound) : ∃ n m', finish m = .ok n m' ∧ m'.Sound ∧
    m'.context = m.context := by
  obtain ⟨r, hfollows, hr⟩ := h
  obtain ⟨n, m', hrun, hfollows', hcontext⟩ := finish_follows hfollows
  exact ⟨n, m', hrun, ⟨_, hfollows', Ideal.retire_sound hr⟩, hcontext⟩

theorem patch_sound (h : m.Sound) (name : String) {revision : Revision}
    (hcode : revision.code.Sound) :
    (m.patch name revision).Sound := by
  obtain ⟨r, hfollows, hr⟩ := h
  exact ⟨_, patch_follows hfollows name revision, Ideal.patch_sound hr name hcode⟩

end Machine

/-! ## Copies -/

namespace Value

mutual
theorem copy_of_built (v : Value) (h : ∀ c ∈ v.closures, ∃ number, c.id = .built number) :
    v.copy = v := by
  cases v with
  | closure id names body scope =>
    obtain ⟨number, rfl⟩ := h _ (List.mem_singleton_self _)
    rfl
  | list items =>
    simp only [copy]
    rw [copyAll_of_built items h]
  | _ => rfl
theorem copyAll_of_built (items : List Value)
    (h : ∀ c ∈ allClosures items, ∃ number, c.id = .built number) :
    copyAll items = items := by
  cases items with
  | nil => rfl
  | cons item items =>
    rw [allClosures] at h
    rw [copyAll, copy_of_built item fun c hc => h c (List.mem_append_left _ hc),
      copyAll_of_built items fun c hc => h c (List.mem_append_right _ hc)]
end

/-- A value that a sound machine holds under another name for its tickets. -/
theorem copy_of_sound {ρ : Ticket → Ticket} {v : Value} (h : (v.rename ρ).Sound) : v.copy = v := by
  refine copy_of_built v fun c hc => ?_
  obtain ⟨number, hnumber⟩ := (h (c.rename ρ) (closures_rename ρ v ▸ List.mem_map_of_mem hc)).built
  exact ⟨number, hnumber⟩

end Value

theorem Record.copy_of_sound {ρ : Ticket → Ticket} {r : Record}
    (h : ∀ v ∈ (r.scope.rename ρ).bindings.values, v.Sound) : r.copy = r := by
  have hbindings : r.bindings.map (fun pair => (pair.1, pair.2.copy)) = r.bindings.map id := by
    refine List.map_congr_left fun pair hpair => ?_
    have hmem : pair.2.rename ρ ∈ (r.scope.rename ρ).bindings.values :=
      List.mem_map.mpr ⟨_, List.mem_map.mpr ⟨pair, hpair, rfl⟩, rfl⟩
    rw [Value.copy_of_sound (h _ hmem)]
    rfl
  unfold Record.copy
  rw [hbindings, List.map_id]

/-- A sound machine is its own copy: all its closures were built by a machine. -/
theorem Machine.copy_eq {m : Machine} (h : m.Sound) : m.copy = m := by
  obtain ⟨r, ⟨_, -, ρ, scopes, hm, rfl⟩, hr⟩ := h
  have hvalues : m.context.values.map Value.copy = m.context.values.map id :=
    List.map_congr_left fun v hv =>
      Value.copy_of_sound (hr.contents.values _ (List.mem_map_of_mem hv))
  have hslots : m.memory.store.slots.map (fun slot =>
      { slot with record := slot.record.map Record.copy }) =
      m.memory.store.slots.map id := by
    refine Array.map_congr_left fun slot hslot => ?_
    obtain ⟨i, hi, rfl⟩ := Array.mem_iff_getElem.mp hslot
    cases hrecord : m.memory.store.slots[i].record with
    | none =>
      rw [Option.map_none, ← hrecord]
      rfl
    | some record =>
      have hrecord? :
        m.memory.store.record? ⟨i, m.memory.store.slots[i].generation⟩ = some record := by
        rw [Store.record?_eq_some_iff, Array.getElem?_eq_getElem hi, ← hrecord]
      have hscope : m.memory.store.scope? ⟨i, m.memory.store.slots[i].generation⟩ =
        some record.scope := by
        simp only [Store.scope?, hrecord?, Option.map_some]
      have hcontent := hm.content _ _ hscope
      rw [Option.map_some, Record.copy_of_sound (hr.contents.scopes _ _ hcontent), ← hrecord]
      rfl
  unfold Machine.copy Context.copy Store.copy
  rw [hvalues, hslots, List.map_id, Array.map_id]

end LiveLisp
