/-
  What one step of a session does, said once. A program that runs goes on in a session that is known
  in every field (`advanced`), or it fails and nothing has changed but the world, the answers, the
  note of its call and the error (`stopped`); one that has failed or finished stays as it is. Later
  modules derive all they say about steps from `step_of_running` and `step_of_resting`.
-/
import LiveLisp.Proofs.Machine.Reply
import LiveLisp.Proofs.Session.Invisible

namespace LiveLisp

variable {σ : Type}

/-- The machine when it is time to tidy up: torn down if the program is done, collected every so
many steps. -/
def Machine.tidied (m : Machine) (interval steps : Nat) : Machine :=
  let tidying : MachineM Nat :=
    if m.context.done then finish
    else if 0 < interval && steps % interval == 0 then collectGarbage
    else pure 0
  match tidying m with
  | .ok _ m' => m'
  | .error _ m' => m'

namespace Session

/-- A program that has neither failed nor finished. -/
structure Runs (s : Session σ) (loaded : Loaded) : Prop where
  program : s.loaded = some loaded
  fault : s.fault = none
  running : loaded.machine.context.done = false

/-- What the host says to the next instruction, with the world and the remembered answers after
that. -/
def reply (s : Session σ) (loaded : Loaded) : Except HostProblem Value × Replay σ :=
  (replayHost s.config.capabilities s.steps).reply loaded.machine.context
    ⟨s.world, s.timeline.answers⟩

/-- The last calls when the next instruction has been noted as one. -/
def calls (s : Session σ) (machine : Machine) : NameMap Snapshot :=
  match machine.context.pendingCall? with
  | some name =>
    if s.config.settings.recordCheckpoints then s.timeline.checkpoints.put name (s.capture machine)
    else s.timeline.checkpoints
  | none => s.timeline.checkpoints

/-- The keyframes when the present has been added to them, if it is time to. -/
def framesWith (s : Session σ) (machine : Machine) : List Snapshot :=
  let interval := s.config.settings.keyframeInterval
  if 0 < interval && s.steps % interval == 0 && !s.timeline.hasKeyframe s.steps then
    (s.timeline.recordKeyframe (s.capture machine) s.config.settings.keyframeLimit).keyframes
  else s.timeline.keyframes

/-- With the next call noted. -/
def noted (s : Session σ) (machine : Machine) : Session σ :=
  { s with timeline := { s.timeline with checkpoints := s.calls machine } }

/-- With the present kept, if it is time to. -/
def framed (s : Session σ) (machine : Machine) : Session σ :=
  { s with timeline := { s.timeline with keyframes := s.framesWith machine } }

/-- One step further, with the machine that the instruction has led to. -/
def advanced (s : Session σ) (loaded : Loaded) (m : Machine) (r : Replay σ) : Session σ :=
  let m' := m.tidied s.config.settings.gcInterval (s.steps + 1)
  framed { s with
    world := r.world
    loaded := some { loaded with machine := m' }
    timeline := ⟨s.timeline.keyframes, s.calls loaded.machine, r.answers⟩
    steps := s.steps + 1 } m'

/-- Stopped by an error. -/
def stopped (s : Session σ) (loaded : Loaded) (e : Error) (r : Replay σ) : Session σ :=
  { s with
    world := r.world
    timeline := ⟨s.timeline.keyframes, s.calls loaded.machine, r.answers⟩
    fault := some e }

variable {s : Session σ} {loaded : Loaded}

/-! ## The parts of a step -/

theorem mem_calls {machine : Machine} {k : Snapshot} (h : k ∈ (s.calls machine).values) :
    k.machine = machine ∨ k ∈ s.timeline.checkpoints.values := by
  unfold calls at h
  split at h
  · split at h
    · rcases NameMap.mem_values_put h with rfl | hold
      · exact .inl rfl
      · exact .inr hold
    · exact .inr h
  · exact .inr h

theorem recordCall_eq (h : s.loaded = some loaded) : recordCall s = .ok ()
    (s.noted loaded.machine) := by
  obtain ⟨config, w, _, timeline, steps, fault, units⟩ := s
  cases h
  simp only [recordCall, noted, calls, get_bind]
  cases config.settings.recordCheckpoints with
  | false => cases loaded.machine.context.pendingCall? <;> rfl
  | true => cases loaded.machine.context.pendingCall? <;> rfl

theorem recordKeyframe_eq (h : s.loaded = some loaded) : recordKeyframe s = .ok ()
    (s.framed loaded.machine) := by
  obtain ⟨config, w, _, timeline, steps, fault, units⟩ := s
  cases h
  simp only [recordKeyframe, framed, framesWith, get_bind]
  split <;> rfl

theorem isFinished_eq (h : s.loaded = some loaded) :
    s.isFinished = loaded.machine.context.done := by
  simp [isFinished, context?, h]

/-- Tidying up cannot fail. -/
theorem tidy_eq (hs : s.Sound) (h : s.loaded = some loaded) :
    tidy s = .ok () { s with loaded := some { loaded with
      machine := loaded.machine.tidied s.config.settings.gcInterval s.steps } } := by
  have hm := hs.machine loaded h
  unfold tidy Machine.tidied
  rw [get_bind, isFinished_eq h]
  cases loaded.machine.context.done with
  | true =>
    obtain ⟨n, m', hrun, -, -⟩ := Machine.finish_sound hm
    simp only [if_true, hrun]
    exact bind_of_ok (onMachine_of_ok h hrun)
  | false =>
    cases 0 < s.config.settings.gcInterval && s.steps % s.config.settings.gcInterval == 0 with
    | true =>
      obtain ⟨n, m', hrun, -, -⟩ := Machine.collectGarbage_sound hm
      simp only [Bool.false_eq_true, if_false, if_true, hrun]
      exact bind_of_ok (onMachine_of_ok h hrun)
    | false =>
      show EStateM.Result.ok () s = .ok () { s with loaded := some loaded }
      rw [← h]

/-- Tidying up does not touch the stacks. -/
theorem context_tidied {m : Machine} (hm : m.Sound) (interval steps : Nat) :
    (m.tidied interval steps).context = m.context := by
  unfold Machine.tidied
  cases m.context.done with
  | true =>
    obtain ⟨n, m', hrun, -, hcontext⟩ := Machine.finish_sound hm
    simp only [if_true, hrun]
    exact hcontext
  | false =>
    cases 0 < interval && steps % interval == 0 with
    | true =>
      obtain ⟨n, m', hrun, -, hcontext⟩ := Machine.collectGarbage_sound hm
      simp only [Bool.false_eq_true, if_false, if_true, hrun]
      exact hcontext
    | false => rfl

/-! ## Whole steps -/

theorem step_eq (h : s.Runs loaded) : Session.step s =
    (orFault runInstruction >>= fun _ => orFault tidy >>= fun _ => recordKeyframe)
    (s.noted loaded.machine) := by
  have hstep : Session.step s =
      (recordCall >>= fun _ => orFault runInstruction >>= fun _ => orFault tidy >>= fun _ =>
        recordKeyframe) s := by
    unfold Session.step
    rw [get_bind, h.fault, h.program, isFinished_eq h.program, h.running]
    rfl
  rw [hstep, bind_of_ok (recordCall_eq h.program)]

/-- A step of a program that runs. -/
theorem step_of_running (hs : s.Sound) (h : s.Runs loaded) :
    (∃ m v, Exec.step (replayHost s.config.capabilities s.steps) ⟨loaded.machine,
        ⟨s.world, s.timeline.answers⟩⟩ =
        .ok () ⟨m, (s.reply loaded).2⟩ ∧ m.Sound ∧ (s.reply loaded).1 = .ok v ∧
      Session.step s = .ok () (s.advanced loaded m (s.reply loaded).2)) ∨
    ∃ e, Exec.step (replayHost s.config.capabilities s.steps) ⟨loaded.machine,
        ⟨s.world, s.timeline.answers⟩⟩ =
        .error e ⟨loaded.machine, (s.reply loaded).2⟩ ∧
      (loaded.machine.context.hostCall? = none ∨ ∃ problem, (s.reply loaded).1 = .error problem) ∧
      Session.step s = .error e (s.stopped loaded e (s.reply loaded).2) := by
  have hhost : (replayHost s.config.capabilities s.steps).HonestIn ⟨s.world, s.timeline.answers⟩ :=
    replayHost_honest hs.honest hs.answers
  have hloaded : (s.noted loaded.machine).loaded = some loaded := h.program
  have hon := onRunning_eq (Exec.step (replayHost s.config.capabilities s.steps)) hloaded
  have hnoted : (⟨loaded.machine, ⟨(s.noted loaded.machine).world,
    (s.noted loaded.machine).timeline.answers⟩⟩ :
      Running (Replay σ)) = ⟨loaded.machine, ⟨s.world, s.timeline.answers⟩⟩ := rfl
  have hinstruction : runInstruction (s.noted loaded.machine) =
      (onRunning (Exec.step (replayHost s.config.capabilities s.steps)) >>= fun _ =>
        modify fun s => { s with steps := s.steps + 1 }) (s.noted loaded.machine) := rfl
  have hsafe := (runInstruction_safe ((recordCall_safe hs).sound_of_ok (recordCall_eq h.program)))
  rcases Machine.step_replied (hs.machine loaded h.program) hhost
    with ⟨m, v, hrun, hm, hv⟩ | ⟨e, hrun, -, hrefused⟩
  · refine .inl ⟨m, v, hrun, hm, hv, ?_⟩
    have hran : runInstruction (s.noted loaded.machine) = .ok () { s with
        world := (s.reply loaded).2.world
        loaded := some { loaded with machine := m }
        timeline := ⟨s.timeline.keyframes, s.calls loaded.machine, (s.reply loaded).2.answers⟩
        steps := s.steps + 1 } := by
      rw [hnoted, hrun] at hon
      exact hinstruction.trans (bind_of_ok hon)
    have htidy := tidy_eq (hsafe.sound_of_ok hran) rfl
    rw [step_eq h, bind_of_ok (orFault_of_ok hran), bind_of_ok (orFault_of_ok htidy),
      recordKeyframe_eq rfl]
    rfl
  · refine .inr ⟨e, hrun, hrefused, ?_⟩
    have hfailed : runInstruction (s.noted loaded.machine) = .error e { s with
        world := (s.reply loaded).2.world
        loaded := some loaded
        timeline := ⟨s.timeline.keyframes, s.calls loaded.machine,
          (s.reply loaded).2.answers⟩ } := by
      rw [hnoted, hrun] at hon
      exact hinstruction.trans (bind_of_error hon)
    rw [step_eq h, bind_of_error (orFault_of_error hfailed)]
    unfold stopped
    rw [← h.program]

/-- A program that has failed or finished takes no step. -/
theorem step_of_resting (hloaded : s.loaded = some loaded) (h : ¬ s.Runs loaded) :
    ∃ e, Session.step s = .error e s := by
  unfold Session.step
  rw [get_bind]
  cases hfault : s.fault with
  | some e => exact ⟨e, rfl⟩
  | none =>
    cases hdone : loaded.machine.context.done with
    | false => exact absurd ⟨hloaded, hfault, hdone⟩ h
    | true =>
      rw [hloaded, isFinished_eq hloaded, hdone]
      exact ⟨_, rfl⟩

theorem step_of_unloaded (h : s.loaded = none) : ∃ e, Session.step s = .error e s := by
  unfold Session.step
  rw [get_bind, h]
  cases s.fault with
  | some e => exact ⟨e, rfl⟩
  | none => exact ⟨_, rfl⟩

/-- Only a program that runs takes a step. -/
theorem runs_of_step {s' : Session σ} (h : Session.step s = .ok () s') :
    ∃ loaded, s.Runs loaded := by
  cases hloaded : s.loaded with
  | none =>
    obtain ⟨e, he⟩ := step_of_unloaded hloaded
    cases he.symm.trans h
  | some loaded =>
    refine ⟨loaded, by_contra fun hresting => ?_⟩
    obtain ⟨e, he⟩ := step_of_resting hloaded hresting
    cases he.symm.trans h

/-- The step that a program has taken. -/
theorem step_eq_ok (hs : s.Sound) {s' : Session σ} (h : Session.step s = .ok () s') :
    ∃ loaded m v, s.Runs loaded ∧ m.Sound ∧ (s.reply loaded).1 = .ok v ∧
      s' = s.advanced loaded m (s.reply loaded).2 := by
  obtain ⟨loaded, hruns⟩ := runs_of_step h
  rcases step_of_running hs hruns with ⟨m, v, -, hm, hv, hadvanced⟩ | ⟨e, -, -, herror⟩
  · cases hadvanced.symm.trans h
    exact ⟨loaded, m, v, hruns, hm, hv, rfl⟩
  · cases herror.symm.trans h

end Session

end LiveLisp
