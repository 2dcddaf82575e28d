/-
  Machines that keep track of where their functions come from: what follows an ideal machine that
  does. A step with an honest host keeps this, since the closures in a reply are on the stack
  already; so does tidying up, which makes no functions.
-/
import LiveLisp.Proofs.Ideal.Registered
import LiveLisp.Proofs.Machine.Sound

namespace LiveLisp

variable {σ : Type} {P : Option String → List String → Code → Prop}
    {O : String → List String → Code → Prop}
  {name : String} {revision? : Option Revision}

/-- All code that the machine runs or holds makes functions from operands of which `P` holds; the
name has this revision, and is registered with what that makes of such operands. -/
def Machine.Tracks (P : Option String → List String → Code → Prop) (name : String)
    (revision? : Option Revision) (m : Machine) : Prop :=
  ∃ r, m.Follows r ∧ r.Sound ∧ r.Registers P name revision?

/-- The same, where only the operands of named functions are known. -/
abbrev Machine.Registers (O : String → List String → Code → Prop) : String →
    Option Revision → Machine → Prop :=
  Machine.Tracks (Named O)

namespace Machine

variable {m m' : Machine} {host : Host σ} {w w' : σ}

theorem Tracks.sound (h : m.Tracks P name revision?) : m.Sound := by
  obtain ⟨r, hfollows, hsound, -⟩ := h
  exact ⟨r, hfollows, hsound⟩

theorem tracks_start {code : Code} (hsound : code.Sound) (h : Makes P code.instructions) :
    (Machine.start code).Tracks P name none :=
  ⟨_, start_follows code, Ideal.start_sound hsound, Ideal.registers_start h⟩

theorem Tracks.revision (h : m.Tracks P name revision?) :
    m.memory.functions.revisions.get? name = revision? := by
  obtain ⟨r, ⟨_, -, ρ, scopes, -, rfl⟩, -, hregisters⟩ := h
  exact hregisters.functions.revision

/-- The frames above the outermost one run bodies that have been made functions of. -/
theorem Tracks.called (h : m.Tracks P name revision?) :
    ∀ code ∈ m.context.frames.dropLast, code.Made P := by
  obtain ⟨r, ⟨_, -, ρ, scopes, -, rfl⟩, -, hregisters⟩ := h
  exact hregisters.called

/-- The entry of the name, and the operands that it was registered with. -/
theorem Registers.entry (h : m.Registers O name revision?) {entry : NamedFunction}
    (hentry : m.memory.functions.entries.get? name = some entry) :
    ∃ params, O name params entry.site ∧
      (entry.params, entry.code) = reissued m.memory.functions.revisions
      (some name) params entry.site := by
  obtain ⟨r, ⟨_, -, ρ, scopes, -, rfl⟩, -, hregisters⟩ := h
  have hrenamed : (m.memory.functions.rename ρ).entries.get? name = some (entry.rename ρ) := by
    show (m.memory.functions.entries.mapValues (NamedFunction.rename ρ)).get? name = _
    rw [NameMap.get?_mapValues, hentry]
    rfl
  obtain ⟨params, hmade, hbody⟩ := hregisters.functions.operands (entry.rename ρ) hrenamed
  exact ⟨params, hmade name rfl, hbody⟩

/-- An honest reply makes functions as the stack does. -/
theorem reply_makes {ρ : Ticket → Ticket} {scopes : Array Scope}
    (h : (m.image ρ scopes).Registers P name revision?) (hhost : host.HonestIn w) :
    ∀ v, (host.reply m.context w).1.map (Value.rename ρ) = .ok v → v.Makes P := by
  intro v hv c hc
  cases hreplied : (host.reply m.context w).1 with
  | error problem =>
    rw [hreplied] at hv
    cases hv
  | ok u =>
    rw [hreplied] at hv
    cases hv
    rw [Value.closures_rename] at hc
    obtain ⟨original, horiginal, rfl⟩ := List.mem_map.mp hc
    obtain ⟨x, hx, hmem⟩ := hhost.reply hreplied original horiginal
    refine h.values (x.rename ρ) (List.mem_map_of_mem hx) (original.rename ρ) ?_
    rw [Value.closures_rename]
    exact List.mem_map_of_mem hmem

theorem Tracks.step (h : m.Tracks P name revision?) (hhost : host.HonestIn w)
    (hstep : Exec.step host ⟨m, w⟩ = .ok () ⟨m', w'⟩) : m'.Tracks P name revision? := by
  obtain ⟨r, ⟨swept, hx, ρ, scopes, hm, rfl⟩, hsound, hregisters⟩ := h
  have himage := step_image hx hm hsound fun v hv => hhost.reply hv
  have hkept : Ends (Ideal.Registers P name revision?) (fun _ => True)
      ((m.image ρ scopes).step host.owner? ((host.reply m.context w).1.map (Value.rename ρ))) :=
    hregisters.step (reply_makes hregisters hhost)
  split at himage
  · next r' hr' =>
    obtain ⟨m₁, hrun, hfollows, hsound'⟩ := himage
    cases hrun.symm.trans hstep
    rw [hr'] at hkept
    exact ⟨r', ⟨swept, hfollows⟩, hsound', hkept⟩
  · cases himage.1.symm.trans hstep

theorem Tracks.collectGarbage (h : m.Tracks P name revision?) :
    ∃ n m', Machine.collectGarbage m = .ok n m' ∧ m'.Tracks P name revision? := by
  obtain ⟨r, hfollows, hsound, hregisters⟩ := h
  obtain ⟨n, m', hrun, hfollows', -⟩ := collectGarbage_follows hfollows
  exact ⟨n, m', hrun, r, hfollows', hsound, hregisters⟩

theorem Tracks.finish (h : m.Tracks P name revision?) :
    ∃ n m', Machine.finish m = .ok n m' ∧ m'.Tracks P name revision? := by
  obtain ⟨r, hfollows, hsound, hregisters⟩ := h
  obtain ⟨n, m', hrun, hfollows', -⟩ := finish_follows hfollows
  exact ⟨n, m', hrun, _, hfollows', Ideal.retire_sound hsound, hregisters.context,
    hregisters.functions.retire,
    hregisters.scopes⟩

end Machine

end LiveLisp
