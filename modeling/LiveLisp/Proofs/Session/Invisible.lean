/-
  Memory management does not show. A loaded program is run twice: by a session, whose store deletes
  scopes when nothing holds them, uses their slots again and collects cycles, and on the ideal
  machine, which keeps every scope in a slot of its own. After the same steps the two show the same,
  however often and whenever the session collects (`collections_invisible`).
-/
import LiveLisp.Proofs.Session.Sound

namespace LiveLisp

variable {σ : Type}

/-! ## Blind hosts -/

/-- How scopes are named makes no difference to any call. -/
def Host.Blind (host : Host σ) : Prop :=
  ∀ ρ owner method args w, host.invoke owner method (args.map (Value.rename ρ)) w =
    ((host.invoke owner method args w).1.map (Value.rename ρ), (host.invoke owner method args w).2)

theorem Host.direct_blind {capabilities : List (Capability σ)} (h : ∀ c ∈ capabilities, c.Blind) :
    (Host.direct capabilities).Blind := by
  intro ρ owner method args w
  simp only [Host.direct, Capability.invokeAt]
  split
  · next c hc => exact h c (List.mem_of_getElem? hc) ρ method args w
  · rfl

theorem Host.Blind.reply {host : Host σ} (h : host.Blind) (ρ : Ticket → Ticket)
    (c : Context) (w : σ) :
    host.reply (c.rename ρ) w =
      ((host.reply c w).1.map (Value.rename ρ), (host.reply c w).2) := by
  have hblind : host.BlindIn w := fun ρ owner method args => h ρ owner method args w
  exact hblind.reply ρ c

/-- The next step of the ideal machine, told by what the host says to the real one. -/
theorem Ideal.advance_image {host : Host σ} (h : host.Blind) (ρ : Ticket → Ticket) (m : Machine)
    (scopes : Array Scope) (w : σ) : Ideal.advance host (m.image ρ scopes) w =
      ((m.image ρ scopes).step host.owner? ((host.reply m.context w).1.map (Value.rename ρ)),
        (host.reply m.context w).2) := by
  have hreply : host.reply (m.image ρ scopes).context w = _ := h.reply ρ m.context w
  exact Ideal.advance_of_reply hreply

/-! ## The reference -/

/-- A program on the ideal machine, with the world and the error that stopped it. -/
structure Reference (σ : Type) where
  machine : Ideal
  world : σ
  fault : Option Error

namespace Reference

/-- The next step, unless the program has failed or is done. -/
def step (capabilities : List (Capability σ)) (ref : Reference σ) : Reference σ :=
  if ref.fault.isSome || ref.machine.context.done then ref
  else
    match Ideal.advance (.direct capabilities) ref.machine ref.world with
    | (.ok machine, world) => ⟨machine, world, none⟩
    | (.error e, world) => ⟨ref.machine, world, some e⟩

/-- What a session would start when it loads the source. -/
def load (s : Session σ) (source : String) : Except Error (Reference σ) := do
  let root ← Node.ofProgram source
  let code ← Code.ofProgram s.units root
  return ⟨.start code, s.clearRender.world, none⟩

end Reference

/-- What a host does with a loaded program: it steps, collects garbage, or changes the world in
between. -/
inductive Move (σ : Type) where
  | step
  | collect
  | outside (change : σ → σ)

namespace Move

/-- Collections are what must not show. -/
def isVisible : Move σ → Bool
  | collect => false
  | _ => true

def onReference (capabilities : List (Capability σ)) (ref : Reference σ) : Move σ → Reference σ
  | step => ref.step capabilities
  | collect => ref
  | outside change => { ref with world := change ref.world }

end Move

/-- The session when an operation is over, whether or not it has failed. -/
def Session.after {α : Type} (s : Session σ) (x : SessionM σ α) : Session σ :=
  match x s with
  | .ok _ s' => s'
  | .error _ s' => s'

def Move.onSession (s : Session σ) : Move σ → Session σ
  | step => s.after Session.step
  | collect => s.after Session.collectGarbage
  | outside change => { s with world := change s.world }

def Reference.play (capabilities : List (Capability σ)) (ref : Reference σ)
    (moves : List (Move σ)) : Reference σ :=
  moves.foldl (Move.onReference capabilities) ref

def Session.play (s : Session σ) (moves : List (Move σ)) : Session σ :=
  moves.foldl Move.onSession s

/-- All that can be seen of a program: where it is, the values on its stack as they print and as
they show inside others, which of them are equal, its result, the error that stopped it, and the
world. -/
structure Observation (σ : Type) where
  pcs : List Nat
  frames : List Code
  done : Bool
  printed : List String
  inspected : List String
  equalities : List (List Bool)
  result : Option String
  fault : Option Error
  world : σ

def Observation.of (c : Context) (fault : Option Error) (world : σ) : Observation σ where
  pcs := c.pcs
  frames := c.frames
  done := c.done
  printed := c.values.map Value.render
  inspected := c.values.map Value.inspect
  equalities := c.values.map fun v => c.values.map v.equals
  result := c.result?.map Value.render
  fault
  world

def Reference.observe (ref : Reference σ) : Observation σ :=
  .of ref.machine.context ref.fault ref.world

def Session.observe (s : Session σ) : Option (Observation σ) :=
  s.context?.map fun c => .of c s.fault s.world

/-- Names of scopes cannot be seen. -/
theorem Observation.of_rename (ρ : Ticket → Ticket) (c : Context) (fault : Option Error) (w : σ) :
    Observation.of (c.rename ρ) fault w = .of c fault w := by
  have hvalues : (c.rename ρ).values = c.values.map (Value.rename ρ) := rfl
  have hresult : (c.rename ρ).result? = c.result?.map (Value.rename ρ) := by
    obtain ⟨pcs, frames, envs, values, done⟩ := c
    cases done with
    | false => rfl
    | true =>
      match values with
      | [] => rfl
      | [v] => rfl
      | _ :: _ :: _ => rfl
  unfold Observation.of
  simp only [hvalues, hresult, List.map_map, Option.map_map, Function.comp_def, Value.render_rename,
    Value.inspect_rename, Value.equals_rename]
  rfl

namespace Session

variable {s : Session σ} {ref : Reference σ} {capabilities : List (Capability σ)}

/-- A session that follows the reference. A program that is done has let go of its functions, which
the reference does not do; until then the machines correspond in everything. -/
structure Shadows (capabilities : List (Capability σ)) (s : Session σ)
    (ref : Reference σ) : Prop where
  config : s.config.capabilities = capabilities
  machine : ∃ loaded r, s.loaded = some loaded ∧ loaded.machine.Follows r ∧ r.Sound ∧
    r.context = ref.machine.context ∧ (r.context.done = false → r = ref.machine)
  world : s.world = ref.world
  fault : s.fault = ref.fault
  /-- No answer is remembered for a step that is still to come. -/
  past : ref.fault = none → ∀ pair ∈ s.timeline.answers, pair.1 < s.steps

theorem Shadows.observe (h : Shadows capabilities s ref) : s.observe = some ref.observe := by
  obtain ⟨loaded, r, hloaded, ⟨_, -, ρ, scopes, -, rfl⟩, -, hcontext, -⟩ := h.machine
  have hsame : Observation.of loaded.machine.context s.fault s.world = ref.observe := by
    rw [← Observation.of_rename ρ, h.fault, h.world]
    exact congrArg (Observation.of · ref.fault ref.world) hcontext
  unfold Session.observe context?
  rw [hloaded]
  exact congrArg some hsame

theorem Shadows.isFinished (h : Shadows capabilities s ref) :
    s.isFinished = ref.machine.context.done := by
  obtain ⟨loaded, r, hloaded, ⟨_, -, ρ, scopes, -, rfl⟩, -, hcontext, -⟩ := h.machine
  unfold Session.isFinished context?
  rw [hloaded, ← hcontext]
  rfl

/-! ## One instruction -/

theorem answerAt?_none {step : Nat} {answers : List (Nat × Value)}
    (h : ∀ pair ∈ answers, pair.1 < step) :
    answerAt? step answers = none := by
  induction answers with
  | nil => rfl
  | cons pair answers ih =>
    have hlt := h pair (List.mem_cons_self ..)
    have hne : pair.1 ≠ step := by omega
    unfold answerAt?
    rw [if_neg hne]
    exact ih fun other hother => h other (List.mem_cons_of_mem _ hother)

/-- When a step runs for the first time, calls go straight to their capabilities. -/
theorem replayHost_first {step : Nat} {w : σ} {answers : List (Nat × Value)}
    (h : ∀ pair ∈ answers, pair.1 < step) (owner : Owner) (method : String) (args : List Value) :
    ∃ later, (replayHost capabilities step).invoke owner method args ⟨w, answers⟩ =
      (((Host.direct capabilities).invoke owner method args w).1,
        ⟨((Host.direct capabilities).invoke owner method args w).2, later⟩) ∧
      ∀ pair ∈ later, pair.1 < step + 1 := by
  have hpast : ∀ pair ∈ answers, pair.1 < step + 1 :=
    fun pair hpair => Nat.lt_succ_of_lt (h pair hpair)
  simp only [replayHost, Host.direct, answerAt?_none h]
  split
  · exact ⟨answers, rfl, hpast⟩
  · cases hask : Capability.invokeAt capabilities owner method args w with
    | mk answer w' =>
      cases answer with
      | ok v =>
        refine ⟨_, rfl, fun pair hpair => ?_⟩
        rcases List.mem_cons.mp hpair with rfl | hpair
        · exact Nat.lt_succ_self step
        · exact hpast pair (List.mem_filter.mp hpair).1
      | error problem => exact ⟨answers, rfl, hpast⟩

theorem reply_first (capabilities : List (Capability σ)) {step : Nat} {answers : List (Nat × Value)}
    (h : ∀ pair ∈ answers, pair.1 < step) (c : Context) (w : σ) :
    ∃ later, (replayHost capabilities step).reply c ⟨w, answers⟩ =
      (((Host.direct capabilities).reply c w).1,
        ⟨((Host.direct capabilities).reply c w).2, later⟩) ∧
      ∀ pair ∈ later, pair.1 < step + 1 := by
  unfold Host.reply
  cases c.hostCall? with
  | none => exact ⟨answers, rfl, fun pair hpair => Nat.lt_succ_of_lt (h pair hpair)⟩
  | some call => exact replayHost_first h call.1 call.2.1 call.2.2

theorem orFault_of_ok {α : Type} {x : SessionM σ α} {a : α} {s' : Session σ} (h : x s = .ok a s') :
    orFault x s = .ok a s' := by
  unfold orFault
  rw [h]

theorem orFault_of_error {α : Type} {x : SessionM σ α} {e : Error} {s' : Session σ}
    (h : x s = .error e s') :
    orFault x s = .error e { s' with fault := some e } := by
  unfold orFault
  rw [h]

/-- The next instruction of a program that runs. -/
theorem runInstruction_shadows (hblind : ∀ c ∈ capabilities, c.Blind) (hs : s.Sound)
    (h : Shadows capabilities s ref) (hfault : ref.fault = none)
    (hrunning : ref.machine.context.done = false) :
    match Ideal.advance (.direct capabilities) ref.machine ref.world with
    | (.ok r, w) => ∃ s', runInstruction s = .ok () s' ∧ Shadows capabilities s' ⟨r, w, none⟩
    | (.error e, w) =>
      ∃ s', orFault runInstruction s = .error e s' ∧
        Shadows capabilities s' ⟨ref.machine, w, some e⟩ := by
  obtain ⟨loaded, r, hloaded, ⟨swept, hx, ρ, scopes, hm, rfl⟩, hr, hcontext, hsame⟩ := h.machine
  have hmachine : loaded.machine.image ρ scopes = ref.machine := hsame (hcontext ▸ hrunning)
  obtain ⟨later, hreply, hpast⟩ :=
    reply_first capabilities (h.past hfault) loaded.machine.context s.world
  have hhost : (replayHost capabilities s.steps).HonestIn ⟨s.world, s.timeline.answers⟩ :=
    replayHost_honest (h.config ▸ hs.honest) hs.answers
  have hstep := Machine.step_image hx hm hr fun v hv => hhost.reply hv
  have hinstruction :
    runInstruction s = (onRunning (Exec.step (replayHost capabilities s.steps)) >>= fun _ =>
      modify fun s => { s with steps := s.steps + 1 }) s := by
    rw [← h.config]
    rfl
  rw [← hmachine, ← h.world, Ideal.advance_image (Host.direct_blind hblind)]
  rw [hreply] at hstep
  have howner : (replayHost capabilities s.steps).owner? = (Host.direct capabilities).owner? := rfl
  rw [howner] at hstep
  cases hideal : (loaded.machine.image ρ scopes).step (Host.direct capabilities).owner?
      (((Host.direct capabilities).reply loaded.machine.context s.world).1.map (Value.rename ρ))
        with
  | ok r =>
    simp only [hideal] at hstep ⊢
    obtain ⟨m', hrun, hfollows, hr'⟩ := hstep
    have hon := onRunning_eq (Exec.step (replayHost capabilities s.steps)) hloaded
    rw [hrun] at hon
    refine ⟨_, hinstruction.trans (bind_of_ok hon), h.config, ?_, rfl,
      h.fault.trans hfault, fun _ => hpast⟩
    exact ⟨_, r, rfl, ⟨swept, hfollows⟩, hr', rfl, fun _ => rfl⟩
  | error e =>
    simp only [hideal] at hstep ⊢
    obtain ⟨hrun, -⟩ := hstep
    have hon := onRunning_eq (Exec.step (replayHost capabilities s.steps)) hloaded
    rw [hrun] at hon
    have hfailed := hinstruction.trans (bind_of_error hon)
    refine ⟨_, orFault_of_error hfailed, h.config, ?_, rfl, rfl, nofun⟩
    exact ⟨_, _, rfl, ⟨swept, hx, ρ, scopes, hm, rfl⟩, hr, rfl, fun _ => rfl⟩

/-! ## Between instructions -/

theorem SafeUpTo.sound_of_ok {α : Type} {E : Error → Prop} {x : SessionM σ α}
    {Q : α → Session σ → Prop} (h : SafeUpTo E x s Q) {a : α} {s' : Session σ}
    (hx : x s = .ok a s') : s'.Sound := by
  unfold SafeUpTo at h
  rw [hx] at h
  exact h.1

theorem recordCall_shadows (h : Shadows capabilities s ref) :
    ∃ s', recordCall s = .ok () s' ∧ Shadows capabilities s' ref := by
  obtain ⟨loaded, r, hloaded, hmachine⟩ := h.machine
  unfold recordCall
  rw [get_bind, hloaded]
  split
  · cases hcall : loaded.machine.context.pendingCall? with
    | none =>
      simp only [hcall]
      exact ⟨s, rfl, h⟩
    | some name =>
      simp only [hcall]
      exact ⟨_, rfl, h.config, ⟨loaded, r, rfl, hmachine⟩, h.world, h.fault, h.past⟩
  · exact ⟨s, rfl, h⟩

theorem recordKeyframe_shadows (h : Shadows capabilities s ref) :
    ∃ s', recordKeyframe s = .ok () s' ∧ Shadows capabilities s' ref := by
  obtain ⟨loaded, r, hloaded, hmachine⟩ := h.machine
  unfold recordKeyframe
  rw [get_bind, hloaded]
  split
  · exact ⟨_, rfl, h.config, ⟨loaded, r, rfl, hmachine⟩, h.world, h.fault, h.past⟩
  · exact ⟨s, rfl, h⟩

theorem tidy_shadows (h : Shadows capabilities s ref) : ∃ s', tidy s = .ok () s' ∧
    Shadows capabilities s' ref := by
  obtain ⟨loaded, r, hloaded, hfollows, hr, hcontext, hsame⟩ := h.machine
  have hfinished := h.isFinished
  unfold tidy
  rw [get_bind]
  cases hdone : ref.machine.context.done with
  | true =>
    obtain ⟨n, m', hrun, hfollows', -⟩ := Machine.finish_follows hfollows
    rw [hfinished, hdone, if_pos rfl]
    refine ⟨_, bind_of_ok (onMachine_of_ok hloaded hrun), h.config, ?_, h.world, h.fault, h.past⟩
    refine ⟨_, _, rfl, hfollows', Ideal.retire_sound hr, hcontext, fun hrunning => ?_⟩
    rw [← hcontext] at hdone
    rw [hdone] at hrunning
    cases hrunning
  | false =>
    rw [hfinished, hdone, if_neg (by decide)]
    split
    · obtain ⟨n, m', hrun, hfollows', -⟩ := Machine.collectGarbage_follows hfollows
      refine ⟨_, bind_of_ok (onMachine_of_ok hloaded hrun), h.config, ?_, h.world, h.fault, h.past⟩
      exact ⟨_, r, rfl, hfollows', hr, hcontext, hsame⟩
    · exact ⟨s, rfl, h⟩

/-! ## Whole runs -/

theorem after_of_ok {α : Type} {x : SessionM σ α} {a : α} {s' : Session σ}
    (h : x s = .ok a s') : s.after x = s' := by
  unfold after
  rw [h]

theorem after_of_error {α : Type} {x : SessionM σ α} {e : Error} {s' : Session σ}
    (h : x s = .error e s') :
    s.after x = s' := by
  unfold after
  rw [h]

theorem SafeUpTo.after_sound {α : Type} {E : Error → Prop} {x : SessionM σ α}
    {Q : α → Session σ → Prop} (h : SafeUpTo E x s Q) :
    (s.after x).Sound := by
  unfold SafeUpTo at h
  cases hx : x s with
  | ok a s' =>
    rw [hx] at h
    exact after_of_ok hx ▸ h.1
  | error e s' =>
    rw [hx] at h
    exact after_of_error hx ▸ h.1

/-- A step of a session is a step of the reference. -/
theorem step_shadows (hblind : ∀ c ∈ capabilities, c.Blind) (hs : s.Sound)
    (h : Shadows capabilities s ref) :
    Shadows capabilities (s.after Session.step) (ref.step capabilities) := by
  have hfinished := h.isFinished
  cases hfault : ref.fault with
  | some e =>
    have hstep : Session.step s = .error e s := by
      unfold Session.step
      rw [get_bind, h.fault, hfault]
      rfl
    rw [after_of_error hstep]
    unfold Reference.step
    rw [hfault]
    exact h
  | none =>
    obtain ⟨loaded, r, hloaded, -⟩ := h.machine
    cases hdone : ref.machine.context.done with
    | true =>
      have hstep : Session.step s = .error (.runtime .alreadyFinished none) s := by
        unfold Session.step
        rw [get_bind, h.fault, hfault, hloaded, hfinished, hdone]
        rfl
      rw [after_of_error hstep]
      unfold Reference.step
      rw [hfault, hdone]
      exact h
    | false =>
      have hstep : Session.step s =
          (recordCall >>= fun _ => orFault runInstruction >>= fun _ => orFault tidy >>= fun _ =>
            recordKeyframe) s := by
        unfold Session.step
        rw [get_bind, h.fault, hfault, hloaded, hfinished, hdone]
        rfl
      obtain ⟨s₁, hcall, h₁⟩ := recordCall_shadows h
      have hs₁ := (recordCall_safe hs).sound_of_ok hcall
      have hrun := runInstruction_shadows hblind hs₁ h₁ hfault hdone
      rw [bind_of_ok hcall] at hstep
      unfold Reference.step
      rw [hfault, hdone]
      simp only [Option.isSome_none, Bool.or_false, Bool.false_eq_true, if_false]
      split at hrun
      · next r' w' hadvance =>
        obtain ⟨s₂, hok, h₂⟩ := hrun
        obtain ⟨s₃, htidy, h₃⟩ := tidy_shadows h₂
        obtain ⟨s₄, hkeyframe, h₄⟩ := recordKeyframe_shadows h₃
        rw [bind_of_ok (orFault_of_ok hok), bind_of_ok (orFault_of_ok htidy), hkeyframe] at hstep
        rw [after_of_ok hstep]
        exact h₄
      · next e w' hadvance =>
        obtain ⟨s₂, herror, h₂⟩ := hrun
        rw [bind_of_error herror] at hstep
        rw [after_of_error hstep]
        exact h₂

/-- A collection changes nothing that the reference has. -/
theorem collectGarbage_shadows (h : Shadows capabilities s ref) :
    Shadows capabilities (s.after Session.collectGarbage) ref := by
  obtain ⟨loaded, r, hloaded, hfollows, hr, hcontext, hsame⟩ := h.machine
  obtain ⟨n, m', hrun, hfollows', -⟩ := Machine.collectGarbage_follows hfollows
  have hcollect : Session.collectGarbage s = onMachine Machine.collectGarbage s := by
    unfold Session.collectGarbage
    rw [get_bind, hloaded]
    rfl
  rw [after_of_ok (hcollect.trans (onMachine_of_ok hloaded hrun))]
  exact ⟨h.config, ⟨_, r, rfl, hfollows', hr, hcontext, hsame⟩, h.world, h.fault, h.past⟩

theorem move_shadows (hblind : ∀ c ∈ capabilities, c.Blind) (hs : s.Sound)
    (h : Shadows capabilities s ref) (move : Move σ) :
    (move.onSession s).Sound ∧ Shadows capabilities (move.onSession s)
    (move.onReference capabilities ref) := by
  cases move with
  | step => exact ⟨(step_safe hs).after_sound, step_shadows hblind hs h⟩
  | collect => exact ⟨(collectGarbage_safe hs).after_sound, collectGarbage_shadows h⟩
  | outside change =>
    exact ⟨hs.setWorld _, h.config, h.machine, congrArg change h.world, h.fault, h.past⟩

theorem play_shadows (hblind : ∀ c ∈ capabilities, c.Blind) (moves : List (Move σ)) (hs : s.Sound)
    (h : Shadows capabilities s ref) : Shadows capabilities (s.play moves)
    (ref.play capabilities moves) := by
  induction moves generalizing s ref with
  | nil => exact h
  | cons move moves ih =>
    obtain ⟨hs', h'⟩ := move_shadows hblind hs h move
    exact ih hs' h'

/-! ## Loaded programs -/

/-- The same session with another interval between collections. -/
def withInterval (s : Session σ) (interval : Nat) : Session σ :=
  { s with config :=
    { s.config with settings := { s.config.settings with gcInterval := interval } } }

/-- What a session starts follows what the reference starts. -/
theorem install_shadows (s : Session σ) (source : String) (form : Form)
    (definitions : List Definition) {code : Code} (hcode : code.Sound) (units : Nat) :
    Shadows s.config.capabilities (s.install source form definitions code units)
      ⟨.start code, s.clearRender.world, none⟩ :=
  ⟨rfl, ⟨_, _, rfl, Machine.start_follows code, Ideal.start_sound hcode, rfl, fun _ => rfl⟩, rfl,
    rfl, nofun⟩

theorem play_visible (ref : Reference σ) (moves : List (Move σ)) :
    ref.play capabilities (moves.filter Move.isVisible) = ref.play capabilities moves := by
  unfold Reference.play
  induction moves generalizing ref with
  | nil => rfl
  | cons move moves ih =>
    cases move with
    | step => exact ih (ref.step capabilities)
    | collect => exact ih ref
    | outside change => exact ih { ref with world := change ref.world }

theorem observe_play {s : Session σ} (hcapabilities : ∀ c ∈ s.config.capabilities, c.Honest ∧
    c.Blind) {source : String}
    {root : Node} {definitions : List Definition} {code : Code}
    (hprepare : prepare s.units source = .ok (root, definitions, code)) (moves : List (Move σ)) :
    ((s.install source root.form definitions code (s.units + 1)).play moves).observe =
      some (Reference.play s.config.capabilities ⟨.start code, s.clearRender.world,
        none⟩ moves).observe := by
  have hcode := Code.sound_ofProgram (prepare_eq_ok hprepare).2.2
  have hsound := install_sound (fun c hc =>
    (hcapabilities c hc).1) source root.form definitions hcode (s.units + 1)
  have hstart := install_shadows s source root.form definitions hcode (s.units + 1)
  exact (play_shadows (fun c hc => (hcapabilities c hc).2) moves hsound hstart).observe

/-- A program that loads shows, after any steps, what it shows on the ideal machine after the same
steps: the same counters and frames, values, equalities, result, error and world. Collections in
between, by the host or by the settings, make no difference; so two sessions that differ in the
interval between collections show the same. -/
theorem collections_invisible {s₀ s : Session σ} {source : String}
    (hcapabilities : ∀ c ∈ s₀.config.capabilities, c.Honest ∧ c.Blind)
    (hload : Session.load source s₀ = .ok () s) :
    (∃ ref, Reference.load s₀ source = .ok ref ∧
      ∀ moves, (s.play moves).observe = some (ref.play s₀.config.capabilities moves).observe) ∧
    ∀ interval, ∃ s', Session.load source (s₀.withInterval interval) = .ok () s' ∧
      ∀ moves moves', moves.filter Move.isVisible = moves'.filter Move.isVisible →
        (s'.play moves').observe = (s.play moves).observe := by
  obtain ⟨root, definitions, code, hprepare, rfl⟩ := load_eq_ok hload
  obtain ⟨hroot, -, hcode⟩ := prepare_eq_ok hprepare
  have hobserve := observe_play hcapabilities hprepare
  refine ⟨⟨⟨.start code, s₀.clearRender.world, none⟩, ?_, hobserve⟩, fun interval => ?_⟩
  · unfold Reference.load
    rw [hroot]
    show (Code.ofProgram s₀.units root >>= _) = _
    rw [hcode]
    rfl
  · have hother := observe_play (s := s₀.withInterval interval) hcapabilities hprepare
    refine ⟨_, load_of_ok (s := s₀.withInterval interval) hprepare, fun moves moves' hvisible => ?_⟩
    rw [hother, hobserve, ← play_visible _ moves, hvisible]
    exact congrArg (fun ref : Reference σ => some ref.observe) (play_visible _ moves').symm

/-- A function that is bound in the scope it was built in, so that only a collection lets go of the
two. -/
theorem collections_invisible_cycle : ∃ s : Session World,
    Session.load "(define f (lambda (x) f)) (f f)" (.start playground {}) = .ok () s ∧
    (∃ ref, Reference.load (.start playground {}) "(define f (lambda (x) f)) (f f)" = .ok ref ∧
      ∀ moves, (s.play moves).observe = some (ref.play playground.capabilities moves).observe) ∧
    ∀ interval, ∃ s', Session.load "(define f (lambda (x) f)) (f f)"
      ((Session.start playground {}).withInterval interval)
        = .ok () s' ∧
      ∀ moves moves', moves.filter Move.isVisible = moves'.filter Move.isVisible →
        (s'.play moves').observe = (s.play moves).observe := by
  have hload : (match Session.load "(define f (lambda (x) f)) (f f)" (Session.start playground {})
    with
      | .ok _ _ => true
      | .error _ _ => false) = true := by decide +kernel
  split at hload
  · next s hrun => exact ⟨s, hrun, collections_invisible
    (fun c hc => ⟨(playground_complies c hc).honest, (playground_complies c hc).blind⟩) hrun⟩
  · cases hload

end Session

end LiveLisp
