/-
  Taking up an edit in a running program agrees with starting the new program, if no edited code has
  run (`update_agrees`). Until the point that the edit goes on from, the old program and the new one
  run in step (`InStep`), since all code that has run is twin code; there the new bodies come into
  place, and from then on the edited program and the new one are in step to the end.

  Members must leave the saved states alone when they fail, and must not look into functions: there
  is an edit without the one (`update_disagrees_refused`) and without the other
  (`update_disagrees_located`) that leads elsewhere than the new program.
-/
import LiveLisp.Proofs.Code.Placement
import LiveLisp.Proofs.Session.Revisions
import LiveLisp.Proofs.Session.RewindPoint
import LiveLisp.Proofs.Tree.Equality

namespace LiveLisp

open Capability

variable {σ : Type} {revisions active : NameMap Revision} {edited : String → Prop}

/-- Capabilities with which a run is determined by its program: all are deterministic, and none
looks into functions. -/
structure Capability.Determined (capabilities : List (Capability σ)) (render : Signal σ) : Prop
    extends Repeatable capabilities render where
  deterministic : ∀ c ∈ capabilities, c.isDeterministic = true
  parametric : ∀ c ∈ capabilities, c.Parametric

/-- What is read from a source is a sequence of forms. -/
theorem Node.ofProgram_eq_ok {source : String} {root : Node}
    (h : Node.ofProgram source = .ok root) :
    ∃ doSpan forms span, root = .list (.identifier "do" doSpan :: forms) span := by
  obtain ⟨lexemes, -, h⟩ := except_bind_eq_ok h
  obtain ⟨forms, -, h⟩ := except_bind_eq_ok h
  cases h
  exact ⟨_, forms, _, rfl⟩

namespace Session

variable {s t s' t' : Session σ} {loaded : Loaded} {l r : Ideal}

/-! ## Answers -/

section Answers

variable {capabilities : List (Capability σ)} {render : Signal σ}
    (h : Determined capabilities render)

include h

/-- Machines in step get related answers, and what is recorded stays the same. -/
theorem reply_twin {c c' : Context} (hc : Context.Twin revisions edited c c') {w w' : σ}
    (hw : recorded capabilities w = recorded capabilities w') :
    RelatedReplies (Closure.Twin revisions edited) ((Host.direct capabilities).reply c w).1
      ((Host.direct capabilities).reply c' w').1 ∧
    recorded capabilities ((Host.direct capabilities).reply c w).2 =
      recorded capabilities ((Host.direct capabilities).reply c' w').2 := by
  unfold Host.reply
  rcases hc.hostCall? with ⟨hnone, hnone'⟩ | ⟨owner, method, args, args', hcall, hcall', hargs⟩
  · rw [hnone, hnone']
    exact ⟨Value.related_self rfl, hw⟩
  · rw [hcall, hcall']
    simp only [Host.direct, invokeAt]
    cases hcapability : capabilities[owner.slot]? with
    | none => exact ⟨rfl, hw⟩
    | some c =>
      have hmem := List.mem_of_getElem? hcapability
      -- first other closures in the same world, then the same arguments in the other world
      obtain ⟨hrelated, hworld⟩ :=
        h.parametric c hmem _ Closure.twin_lookalikes method args args' w hargs
      obtain ⟨hanswer, hrecorded⟩ := h.repeats c hmem (h.deterministic c hmem) method args' w w' hw
      simp only
      rw [← hanswer, hworld]
      exact ⟨hrelated, hrecorded⟩

/-- No answer is remembered. -/
theorem replayHost_answers_eq (step : Nat) (c : Context) (r : Replay σ) :
    ((replayHost capabilities step).reply c r).2.answers = r.answers := by
  unfold Host.reply
  split
  · next owner method args _ =>
    have hdet : ((capabilities[owner.slot]?).map (·.isDeterministic)).getD true = true := by
      cases hc : capabilities[owner.slot]? with
      | none => rfl
      | some c => exact h.deterministic c (List.mem_of_getElem? hc)
    simp only [replayHost, hdet, if_true]
  · rfl

end Answers

/-! ## One step -/

/-- A step of a program that runs is a step of the ideal machine. -/
theorem step_ideal (hblind : ∀ c ∈ s.config.capabilities, c.Blind) (hs : s.Sound)
    (hruns : s.Runs loaded) (h : Shadows s.config.capabilities s ⟨l, s.world, s.fault⟩) :
    match Ideal.advance (.direct s.config.capabilities) l s.world with
    | (.ok l', w) => ∃ m, Session.step s = .ok () (s.advanced loaded m (s.reply loaded).2) ∧
        Shadows s.config.capabilities (s.advanced loaded m (s.reply loaded).2) ⟨l', w, none⟩
    | (.error e, w) => Session.step s = .error e (s.stopped loaded e (s.reply loaded).2) ∧
        Shadows s.config.capabilities (s.stopped loaded e (s.reply loaded).2) ⟨l, w, some e⟩ ∧
        (loaded.machine.context.hostCall? = none ∨
          ∃ problem, (s.reply loaded).1 = .error problem) := by
  have hrunning : l.context.done = false := by
    rw [← hruns.running, ← isFinished_eq hruns.program]
    exact h.isFinished.symm
  have hshadows := step_shadows hblind hs h
  unfold Reference.step at hshadows
  simp only [hruns.fault, hrunning, Option.isSome_none, Bool.or_false, Bool.false_eq_true, if_false]
    at hshadows
  cases hadvance : Ideal.advance (.direct s.config.capabilities) l s.world with
  | mk outcome w =>
    rw [hadvance] at hshadows
    rcases step_of_running hs hruns with ⟨m, v, -, -, -, hstep⟩ | ⟨e, -, hrefused, hstep⟩
    · rw [after_of_ok hstep] at hshadows
      cases outcome with
      | ok l' => exact ⟨m, hstep, hshadows⟩
      | error e => cases hshadows.fault.symm.trans hruns.fault
    · rw [after_of_error hstep] at hshadows
      cases outcome with
      | ok l' => cases hshadows.fault
      | error e' =>
        cases hshadows.fault
        exact ⟨hstep, hshadows, hrefused⟩

theorem Shadows.own {capabilities : List (Capability σ)} {w : σ} {fault : Option Error}
    (h : Shadows capabilities s ⟨l, w, fault⟩) : Shadows capabilities s ⟨l, s.world, s.fault⟩ := by
  obtain rfl := h.world
  obtain rfl := h.fault
  exact h

/-- The ideal machine is about to call what the session is. -/
theorem Shadows.pendingCall? {capabilities : List (Capability σ)} {ref : Reference σ}
    (h : Shadows capabilities s ref) (hloaded : s.loaded = some loaded) :
    ref.machine.context.pendingCall? = loaded.machine.context.pendingCall? := by
  obtain ⟨program, _, hprogram, ⟨_, -, ρ, scopes, -, rfl⟩, -, hcontext, -⟩ := h.machine
  cases hloaded.symm.trans hprogram
  rw [← hcontext]
  exact Context.pendingCall?_rename ρ loaded.machine.context

/-- Two sessions run machines that are in step, and their capabilities have the same states. Errors
that have stopped them are left out. -/
structure InStep (revisions : NameMap Revision) (edited : String → Prop)
    (active : NameMap Revision) (s t : Session σ) :
    Prop where
  left : s.Sound
  right : t.Sound
  capabilities : t.config.capabilities = s.config.capabilities
  render : t.config.render = s.config.render
  machines : ∃ l r, Shadows s.config.capabilities s ⟨l, s.world, s.fault⟩ ∧
    Shadows s.config.capabilities t ⟨r, t.world, t.fault⟩ ∧ Ideal.Twin revisions edited active l r
  states : recorded s.config.capabilities s.world = recorded s.config.capabilities t.world

namespace InStep

/-- What is done to the worlds makes no difference if it keeps the saved states. -/
theorem setWorlds (h : InStep revisions edited active s t) {w w' : σ}
    (hw : recorded s.config.capabilities w = recorded s.config.capabilities s.world)
    (hw' : recorded s.config.capabilities w' = recorded s.config.capabilities t.world) :
    InStep revisions edited active { s with world := w } { t with world := w' } := by
  obtain ⟨l, r, hl, hr, htwin⟩ := h.machines
  refine ⟨h.left.setWorld w, h.right.setWorld w', h.capabilities, h.render,
    ⟨l, r, ?_, ?_, htwin⟩, ?_⟩
  · exact ⟨hl.config, hl.machine, rfl, hl.fault, hl.past⟩
  · exact ⟨hr.config, hr.machine, rfl, hr.fault, hr.past⟩
  · exact hw.trans (h.states.trans hw'.symm)

theorem isFinished (h : InStep revisions edited active s t) : s.isFinished = t.isFinished := by
  obtain ⟨l, r, hl, hr, htwin⟩ := h.machines
  rw [hl.isFinished, hr.isFinished]
  exact htwin.context.done_eq

/-- The two have the same result to show. -/
theorem result? (h : InStep revisions edited active s t) :
    s.result?.map Value.render = t.result?.map Value.render := by
  have hshown {u : Session σ} {m : Ideal} {capabilities : List (Capability σ)}
      (hu : Shadows capabilities u ⟨m, u.world, u.fault⟩) :
      u.result?.map Value.render = m.context.result?.map Value.render := by
    have hobserve := hu.observe
    unfold Session.observe at hobserve
    unfold Session.result?
    cases hcontext : u.context? with
    | none =>
      rw [hcontext] at hobserve
      cases hobserve
    | some c =>
      rw [hcontext, Option.map_some, Option.some.injEq] at hobserve
      exact congrArg Observation.result hobserve
  obtain ⟨l, r, hl, hr, htwin⟩ := h.machines
  rw [hshown hl, hshown hr]
  exact htwin.context.result?

section Steps

variable (hcapabilities : Determined s.config.capabilities s.config.render)

include hcapabilities

/-- A program that fails is where it was. -/
theorem stopped (h : InStep revisions edited active s t) (hruns : s.Runs loaded) {e : Error}
    (hstep : Session.step s = .error e s') : InStep revisions edited active s' t := by
  obtain ⟨l, r, hl, hr, htwin⟩ := h.machines
  have hsound : s'.Sound := after_of_error hstep ▸ (step_safe h.left).after_sound
  have hideal := step_ideal (fun c hc => (hcapabilities.parametric c hc).blind) h.left hruns hl
  split at hideal
  · obtain ⟨m, hok, -⟩ := hideal
    cases hok.symm.trans hstep
  · obtain ⟨herror, hshadows, hrefused⟩ := hideal
    cases herror.symm.trans hstep
    refine ⟨hsound, h.right, h.capabilities, h.render, ⟨l, r, hshadows.own, hr, htwin⟩, ?_⟩
    exact (reply_refused hcapabilities.toRepeatable hrefused).trans h.states

/-- Both sessions take a step, or both fail with one message. -/
theorem step (h : InStep revisions edited active s t) (hruns : s.Runs loaded) (ht : t.fault = none)
    (hcallable : ∀ name, loaded.machine.context.pendingCall? = some name →
      Callable revisions edited active name) :
    (∃ s' t', Session.step s = .ok () s' ∧ Session.step t = .ok () t' ∧
      InStep revisions edited active s' t' ∧
      s'.config = s.config ∧ s'.steps = s.steps + 1 ∧ s'.fault = none ∧ t'.fault = none) ∨
    ∃ e e' s' t', Session.step s = .error e s' ∧ Session.step t = .error e' t' ∧
      e.message = e'.message ∧
      InStep revisions edited active s' t' ∧ s'.config = s.config ∧ s'.fault = some e ∧
        t'.fault = some e' := by
  obtain ⟨l, r, hl, hr, htwin⟩ := h.machines
  obtain ⟨program, _, hprogram, -⟩ := hr.machine
  have hblind : ∀ c ∈ s.config.capabilities, c.Blind :=
    fun c hc => (hcapabilities.parametric c hc).blind
  have hruns' : t.Runs program := by
    refine ⟨hprogram, ht, ?_⟩
    rw [← isFinished_eq hprogram, ← h.isFinished, isFinished_eq hruns.program]
    exact hruns.running
  have hleft := step_ideal hblind h.left hruns hl
  have hright := step_ideal (h.capabilities ▸ hblind) h.right hruns' (h.capabilities ▸ hr)
  rw [h.capabilities] at hright
  obtain ⟨hreplies, hstates⟩ := reply_twin hcapabilities htwin.context h.states
  have houtcomes :
    TwinOutcomes revisions edited active (l.step (Host.direct s.config.capabilities).owner? _)
      (r.step (Host.direct s.config.capabilities).owner? _) :=
    htwin.step hreplies fun name hname => hcallable name (hl.pendingCall? hruns.program ▸ hname)
  unfold Ideal.advance at hleft hright
  simp only at hleft hright
  generalize l.step _ _ = outcome at hleft houtcomes
  generalize r.step _ _ = outcome' at hright houtcomes
  cases outcome with
  | ok l' =>
    cases outcome' with
    | ok r' =>
      obtain ⟨m, hstep, hshadows⟩ := hleft
      obtain ⟨m', hstep', hshadows'⟩ := hright
      refine .inl ⟨_, _, hstep, hstep',
        ⟨(step_safe h.left).sound_of_ok hstep, (step_safe h.right).sound_of_ok hstep',
        h.capabilities, h.render, ⟨l', r', hshadows.own, hshadows'.own, houtcomes⟩, ?_⟩, rfl, rfl,
          hruns.fault, ht⟩
      rw [hshadows.world, hshadows'.world]
      exact hstates
    | error e' => exact houtcomes.elim
  | error e =>
    cases outcome' with
    | ok r' => exact houtcomes.elim
    | error e' =>
      obtain ⟨hstep, hshadows, -⟩ := hleft
      obtain ⟨hstep', hshadows', -⟩ := hright
      have hsound := after_of_error hstep ▸ (step_safe h.left).after_sound
      have hsound' := after_of_error hstep' ▸ (step_safe h.right).after_sound
      refine .inr ⟨e, e', _, _, hstep, hstep', houtcomes,
        ⟨hsound, hsound', h.capabilities, h.render,
        ⟨l, r, hshadows.own, hshadows'.own, htwin⟩, ?_⟩, rfl, rfl, rfl⟩
      rw [hshadows.world, hshadows'.world]
      exact hstates

end Steps

end InStep

/-! ## Whole runs -/

/-- Two runs to completion end with values that show the same, or with errors of one message, or
both for want of steps; and they have left the same output. -/
def EndsAlike (output : σ → String) :
    EStateM.Result Error (Session σ) Value → EStateM.Result Error (Session σ) Value → Prop
  | .ok v s, .ok v' t => v.render = v'.render ∧ output s.world = output t.world
  | .error e s, .error e' t =>
    (e.message = e'.message ∨
      ∃ limit limit', e = .runtime (.outOfSteps limit) none ∧
        e' = .runtime (.outOfSteps limit') none) ∧
    output s.world = output t.world
  | _, _ => False

namespace InStep

theorem runs (h : InStep revisions edited active s t) (hs : s.fault = none)
    (hunfinished : s.isFinished = false) :
    ∃ loaded, s.Runs loaded := by
  obtain ⟨l, r, hl, -, -⟩ := h.machines
  obtain ⟨loaded, _, hloaded, -⟩ := hl.machine
  exact ⟨loaded, hloaded, hs, by rw [← isFinished_eq hloaded, hunfinished]⟩

theorem clearRender (hcapabilities : Determined s.config.capabilities s.config.render)
    (h : InStep revisions edited active s t) :
    InStep revisions edited active s.clearRender t.clearRender := by
  refine h.setWorlds (hcapabilities.recorded_signal false s.world) ?_
  rw [h.render]
  exact hcapabilities.recorded_signal false t.world

variable {output : σ → String}

theorem finishedValue (h : InStep revisions edited active s t)
    (houtput : output s.world = output t.world) :
    EndsAlike output s.finishedValue t.finishedValue := by
  have hresult := h.result?
  unfold Session.finishedValue
  cases hs : s.result? with
  | none =>
    rw [hs, Option.map_none] at hresult
    rw [Option.map_eq_none_iff.mp hresult.symm]
    exact ⟨.inl rfl, houtput⟩
  | some v =>
    rw [hs, Option.map_some] at hresult
    obtain ⟨v', hv', hrender⟩ := Option.map_eq_some_iff.mp hresult.symm
    rw [hv']
    exact ⟨hrender.symm, houtput⟩

/-- With all revisions in place, two sessions in step come to the same end. -/
theorem complete (hcapabilities : Determined s.config.capabilities s.config.render)
    (h : InStep revisions edited revisions s t) (hs : s.fault = none) (ht : t.fault = none)
    (houtput : ∀ w w', recorded s.config.capabilities w = recorded s.config.capabilities w' →
      output w = output w')
    (limit limit' left : Nat) : EndsAlike output (completeWithin limit left s)
    (completeWithin limit' left t) := by
  induction left generalizing s t with
  | zero =>
    simp only [completeWithin]
    rw [← h.isFinished]
    cases s.isFinished with
    | true => exact h.finishedValue (houtput _ _ h.states)
    | false => exact ⟨.inr ⟨limit, limit', rfl, rfl⟩, houtput _ _ h.states⟩
  | succ left ih =>
    simp only [completeWithin]
    rw [← h.isFinished]
    cases hfinished : s.isFinished with
    | true => exact h.finishedValue (houtput _ _ h.states)
    | false =>
      obtain ⟨loaded, hruns⟩ := h.runs hs hfinished
      rcases h.step hcapabilities hruns ht fun _ _ => .inl rfl with
        ⟨s', t', hstep, hstep', h', hconfig, -, hs', ht'⟩ | ⟨e, e', s', t', hstep, hstep', hmessage,
          h', hconfig, -⟩
      · simp only [hstep, hstep', Bool.false_eq_true, if_false]
        rw [← hconfig] at hcapabilities houtput
        exact ih hcapabilities (h'.clearRender hcapabilities) hs' ht' houtput
      · simp only [hstep, hstep', Bool.false_eq_true, if_false]
        exact ⟨.inl hmessage, houtput _ _ (hconfig ▸ h'.states)⟩

end InStep

theorem forward_sound (hs : s.Sound) (n : Nat) : (s.forward n).Sound := by
  induction n with
  | zero => exact hs
  | succ n ih => exact (step_safe ih).after_sound

/-- A step that calls no edited function is the first step of what the other session still has to
do. -/
theorem InStep.follow (hcapabilities : Determined s.config.capabilities s.config.render)
    (h : InStep revisions edited [] s t) (ht : t.fault = none) (hruns : s.Runs loaded)
    (hcalls : ∀ f, edited f → ¬ s.Calls f) (hstep : Session.step s = .ok () s') :
    ∃ t', InStep revisions edited [] s' t' ∧ t'.fault = none ∧
      ∀ limit left, completeWithin limit (left + 1) t = completeWithin limit left t' := by
  rcases h.step hcapabilities hruns ht fun name hname =>
      .inr ⟨rfl, fun hedited => hcalls name hedited ⟨loaded, hruns, hname⟩⟩ with
    ⟨s₁, t', hs₁, ht', h', hconfig, -, -, hfault⟩ | ⟨e, e', s₁, t', hs₁, -⟩
  · cases hstep.symm.trans hs₁
    refine ⟨t'.clearRender, h'.setWorlds rfl ?_, hfault, fun limit left => ?_⟩
    · rw [h'.render, hconfig]
      exact hcapabilities.recorded_signal false t'.world
    · have hunfinished : t.isFinished = false := by
        rw [← h.isFinished, isFinished_eq hruns.program]
        exact hruns.running
      simp only [completeWithin, hunfinished, ht', Bool.false_eq_true, if_false]
  · cases hstep.symm.trans hs₁

/-- Without an edited function called, the old program runs in step with the new one, to wherever it
has come. -/
theorem InStep.forward (hcapabilities : Determined s.config.capabilities s.config.render)
    (h : InStep revisions edited [] s t) (ht : t.fault = none) (hloaded : s.loaded = some loaded)
    (hzero : s.steps = 0) (n : Nat) (hcalls : ∀ i < (s.forward n).steps, ∀ f, edited f →
      ¬ (s.forward i).Calls f) :
    ∃ t', InStep revisions edited [] (s.forward n) t' ∧ t'.fault = none ∧
      ∀ limit left, completeWithin limit ((s.forward n).steps + left) t =
        completeWithin limit left t' := by
  induction n with
  | zero =>
    refine ⟨t, h, ht, fun limit left => ?_⟩
    have hstart : (s.forward 0).steps = 0 := hzero
    rw [hstart, Nat.zero_add]
  | succ n ih =>
    obtain ⟨hconfig, machine, hn⟩ := forward_program hloaded n
    rw [← hconfig] at hcapabilities
    by_cases hruns : (s.forward n).Runs { loaded with machine }
    · have hsteps : (s.forward n).steps = n := by
        rw [forward_steps hloaded hruns, hzero, Nat.zero_add]
      rcases step_of_running (forward_sound h.left n) hruns
        with ⟨m, v, -, -, -, hstep⟩ | ⟨e, -, -, hstep⟩
      · have hnext : s.forward (n + 1) = _ := after_of_ok hstep
        have hsteps' : (s.forward (n + 1)).steps = n + 1 := by
          rw [hnext]
          exact congrArg (· + 1) hsteps
        rw [hsteps'] at hcalls ⊢
        obtain ⟨t₁, h₁, ht₁, hrest⟩ := ih fun i hi => hcalls i (by omega)
        obtain ⟨t', h', ht', hfirst⟩ :=
          h₁.follow hcapabilities ht₁ hruns (hcalls n (Nat.lt_succ_self n)) hstep
        refine ⟨t', hnext ▸ h', ht', fun limit left => ?_⟩
        have hleft : n + 1 + left = (s.forward n).steps + (left + 1) := by omega
        rw [hleft, hrest, hfirst]
      · -- a step that fails is not counted, and what it would have called may be edited
        have hnext : s.forward (n + 1) = _ := after_of_error hstep
        have hsteps' : (s.forward (n + 1)).steps = (s.forward n).steps := by
          rw [hnext]
          rfl
        rw [hsteps'] at hcalls ⊢
        obtain ⟨t₁, h₁, ht₁, hrest⟩ := ih hcalls
        exact ⟨t₁, hnext ▸ h₁.stopped hcapabilities hruns hstep, ht₁, hrest⟩
    · have hnext : s.forward (n + 1) = s.forward n := after_step_of_resting hn hruns
      rw [hnext] at hcalls ⊢
      exact ih hcalls

/-! ## The edit -/

theorem forward_answers (hcapabilities : Determined s.config.capabilities s.config.render)
    (hs : s.Sound) (hloaded : s.loaded = some loaded) (hempty : s.timeline.answers = []) (n : Nat) :
    (s.forward n).timeline.answers = [] := by
  induction n with
  | zero => exact hempty
  | succ n ih =>
    obtain ⟨hconfig, machine, hn⟩ := forward_program hloaded n
    rw [← hconfig] at hcapabilities
    have hsilent :
      ((s.forward n).reply { loaded with machine }).2.answers = (s.forward n).timeline.answers :=
      replayHost_answers_eq hcapabilities ..
    by_cases hruns : (s.forward n).Runs { loaded with machine }
    · rcases step_of_running (forward_sound hs n) hruns
        with ⟨m, v, -, -, -, hstep⟩ | ⟨e, -, -, hstep⟩
      · have hnext : s.forward (n + 1) = _ := after_of_ok hstep
        rw [hnext]
        exact hsilent.trans ih
      · have hnext : s.forward (n + 1) = _ := after_of_error hstep
        rw [hnext]
        exact hsilent.trans ih
    · have hnext : s.forward (n + 1) = s.forward n := after_step_of_resting hn hruns
      rw [hnext]
      exact ih

/-- A session that keeps no checkpoints has none. -/
theorem checkpoints_forward (hloaded : s.loaded = some loaded)
    (hrecords : s.config.settings.recordCheckpoints = false) (hempty : s.timeline.checkpoints = [])
    (n : Nat) : (s.forward n).timeline.checkpoints = [] := by
  induction n with
  | zero => exact hempty
  | succ n ih =>
    obtain ⟨hconfig, machine, hn⟩ := forward_program hloaded n
    by_cases hruns : (s.forward n).Runs { loaded with machine }
    · have hnext : (s.forward (n + 1)).timeline.checkpoints = _ :=
        (after_step_of_running hruns).checkpoints
      rw [hnext]
      unfold calls
      rw [hconfig, hrecords, ih]
      split <;> rfl
    · have hnext : s.forward (n + 1) = s.forward n := after_step_of_resting hn hruns
      rw [hnext]
      exact ih

theorem earliest?_of_empty {timeline : Timeline} (h : timeline.checkpoints = [])
    (names : List String) :
    timeline.earliest? names = none := by
  have hspec := timeline.earliest?_spec names
  split at hspec
  · assumption
  · obtain ⟨-, ⟨k, hk, -⟩, -⟩ := hspec
    rw [Timeline.checkpoint?, h] at hk
    cases hk

/-- With the new bodies in place, a session that stands where another did is in step with the new
program. -/
theorem InStep.patched {fresh : List Fresh} {sites : NameMap (List CodeId)} {program : Loaded}
    (h : InStep (revisionsOf sites fresh) edited [] s t) (hloaded : s.loaded = some loaded)
    (hnames : (fresh.map (·.definition.name)).Nodup) (hfresh : ∀ f ∈ fresh, f.code.Sound)
    (hsound : s'.Sound) (hconfig : s'.config = s.config)
    (hprogram : s'.loaded = some program)
    (hmachine : program.machine = { loaded.machine with memory := { loaded.machine.memory with
      functions := patchAll sites loaded.machine.memory.functions fresh } })
    (hstates : recorded s.config.capabilities s'.world = recorded s.config.capabilities s.world)
    (hanswers : s'.timeline.answers = []) :
    InStep (revisionsOf sites fresh) edited (revisionsOf sites fresh) s' t := by
  obtain ⟨l, r, hl, hr, htwin⟩ := h.machines
  obtain ⟨_, m, hsame, hfollows, hm, hcontext, hrunning⟩ := hl.machine
  cases hloaded.symm.trans hsame
  refine ⟨hsound, h.right, by rw [hconfig, h.capabilities], by rw [hconfig, h.render],
    ⟨_, r, ?_, ?_, htwin.patchAll hnames⟩, ?_⟩
  · have hfollows' := patchAll_follows sites fresh hfollows
    rw [← hmachine] at hfollows'
    refine ⟨rfl, ⟨program, _, hprogram, hfollows', patchAll_ideal_sound sites hfresh hm,
      hcontext, fun hdone => ?_⟩,
      rfl, rfl, fun _ => by rw [hanswers]; exact nofun⟩
    have heq : m = l := hrunning hdone
    rw [heq]
  · rw [hconfig]
    exact hr
  · rw [hconfig]
    exact hstates.trans h.states

/-- The step that a program goes on from when an edit of its functions has been taken up: the one it
has gone back to, or the present one. -/
def UpdateOutcome.point? (present : Nat) : UpdateOutcome → Option Nat
  | .rewound _ step => some step
  | .patched _ => some present
  | _ => none

/-- An edit that leads somewhere is an edit of functions. -/
theorem update_adopts {source : String} {root : Node} {outcome : UpdateOutcome}
    {present point : Nat} (hroot : Node.ofProgram source = .ok root)
    (hloaded : s.loaded = some loaded) (hupdate : update source s = .ok outcome s')
    (hpoint : outcome.point? present = some point) :
    ∃ edit changed, Edit.prepare s.units root = .ok edit ∧
      adopt source loaded edit changed s = .ok outcome s' := by
  rw [update_eq hroot hloaded] at hupdate
  split at hupdate
  · cases hupdate
    cases hpoint
  · split at hupdate
    · cases hupdate
    · next edit hedit =>
      split at hupdate
      · cases hupdate
        cases hpoint
      · exact ⟨edit, _, hedit, hupdate⟩

/-- After an edit the session stands where the run was at the point that it goes on from, with the
new bodies. -/
theorem adopt_stands (hcapabilities : Determined s.config.capabilities s.config.render)
    (hloaded : s.loaded = some loaded) (hzero : s.steps = 0) (hempty : s.timeline.checkpoints = [])
    (n : Nat) {program : Loaded} (hprogram : (s.forward n).loaded = some program) {source : String}
    {edit : Edit} {changed : List String} {outcome : UpdateOutcome} {point : Nat}
    (hadopt : adopt source program edit changed (s.forward n) = .ok outcome s')
    (hpoint : outcome.point? (s.forward n).steps = some point) :
    ∃ j before, (s.forward j).loaded = some before ∧ (s.forward j).steps = point ∧
      s'.steps = point ∧
      s'.config = s.config ∧ s'.fault = none ∧
        s'.loaded = some (edit.applied source program before.machine) ∧
      recorded s.config.capabilities s'.world = recorded s.config.capabilities (s.forward j).world ∧
      s'.timeline.answers ⊆ (s.forward n).timeline.answers := by
  obtain ⟨hconfig, -⟩ := forward_program hloaded n
  cases hfound : (s.forward n).timeline.earliest? changed with
  | none =>
    cases (adopt_of_uncalled source edit hprogram hfound).symm.trans hadopt
    cases hpoint
    exact ⟨n, program, hprogram, rfl, rfl, hconfig, rfl, rfl, rfl, List.Subset.refl _⟩
  | some found =>
    obtain ⟨f, j⟩ := found
    have hrecords : s.config.settings.recordCheckpoints = true := by
      by_contra hoff
      have hnone := earliest?_of_empty (checkpoints_forward hloaded
        (Bool.eq_false_iff.mpr hoff) hempty n) changed
      cases hnone.symm.trans hfound
    have hearliest := earliest?_forward ⟨⟨loaded, hloaded⟩, hrecords⟩ hempty hzero n changed
    rw [hfound] at hearliest
    obtain ⟨-, -, -, before, hbefore, hsteps, hk⟩ := hearliest
    have hstates : ((s.forward j).capture before.machine).states =
        (s.forward n).config.capabilities.map (·.save (s.forward j).world) := by
      rw [hconfig, ← (forward_program hloaded j).1]
      rfl
    obtain ⟨w', hsaves, hcalled⟩ := adopt_of_called source edit hprogram
      (by rw [hconfig]; exact hcapabilities.toRestorable) hfound hk hstates
    cases hcalled.symm.trans hadopt
    cases hpoint
    refine ⟨_, before, hbefore, hsteps, hsteps, hconfig, rfl, rfl, recorded_congr fun c hc _ => ?_,
      List.filter_subset_self _⟩
    rw [hconfig] at hsaves
    exact hsaves c hc

/-! ## Agreement -/

theorem load_installs {source : String} {root : Node} (hroot : Node.ofProgram source = .ok root)
    (hdistinct : Definition.Distinct root.definitions) (hload : load source s = .ok () s') :
    ∃ code, Code.ofProgram s.units root = .ok code ∧
      s' = s.install source root.form root.definitions code (s.units + 1) := by
  obtain ⟨root', definitions, code, hprepare, rfl⟩ := load_eq_ok hload
  obtain ⟨hroot', hfind, hcode⟩ := prepare_eq_ok hprepare
  cases hroot.symm.trans hroot'
  cases Definition.find_of_distinct hdistinct hfind
  exact ⟨code, hcode, rfl⟩

/-- All that has been prepared of an edit is made from its program. -/
theorem edit_eq_ok {units : Nat} {root : Node} {edit : Edit}
    (hdistinct : Definition.Distinct root.definitions) (h : Edit.prepare units root = .ok edit) :
      edit.definitions = root.definitions ∧
      Definition.find root = .ok root.definitions ∧ Code.ofProgram units root = .ok edit.code ∧
      freshBodies (units + 1) root.definitions = .ok edit.fresh := by
  obtain ⟨definitions, hfind, h⟩ := except_bind_eq_ok h
  obtain ⟨code, hcode, h⟩ := except_bind_eq_ok h
  obtain ⟨fresh, hfresh, h⟩ := except_bind_eq_ok h
  cases h
  cases Definition.find_of_distinct hdistinct hfind
  exact ⟨rfl, hfind, hcode, hfresh⟩

/-- A program that can be taken up can be loaded, by any session. -/
theorem load_of_edit {units : Nat} {source : String} {root : Node} {edit : Edit}
    (hroot : Node.ofProgram source = .ok root) (hdistinct : Definition.Distinct root.definitions)
    (hedit : Edit.prepare units root = .ok edit) (t : Session σ) :
    ∃ code, Code.ofProgram t.units root = .ok code ∧
      load source t = .ok () (t.install source root.form root.definitions code (t.units + 1)) := by
  obtain ⟨-, hfind, hcode, -⟩ := edit_eq_ok hdistinct hedit
  obtain ⟨code, hcode, -⟩ := (Code.ofProgram_concurs units t.units rfl).of_ok hcode
  exact ⟨code, hcode, load_of_ok (prepare_of_ok hroot hfind hcode)⟩

/-- Programs whose code is twin code start in step. -/
theorem install_inStep (form form' : Form) (definitions definitions' : List Definition)
    {code code' : Code} (hcapabilities : Determined s.config.capabilities s.config.render)
    (hsame : t.config.capabilities = s.config.capabilities)
    (hrender : t.config.render = s.config.render)
    (hstates : recorded s.config.capabilities t.world = recorded s.config.capabilities s.world)
    (hcode : code.Sound) (hcode' : code'.Sound)
    (htwins : Twins revisions edited code.instructions code'.instructions) (source source' : String)
    (units units' : Nat) :
    InStep revisions edited [] (s.install source form definitions code units)
      (t.install source' form' definitions' code' units') := by
  have hhonest : ∀ c ∈ t.config.capabilities, c.Honest := by
    rw [hsame]
    exact hcapabilities.honest
  have hright := install_shadows t source' form' definitions' hcode' units'
  rw [hsame] at hright
  refine ⟨install_sound hcapabilities.honest _ _ _ hcode _, install_sound hhonest _ _ _ hcode' _,
    hsame, hrender, ?_, ?_⟩
  · exact ⟨_, _, install_shadows s source form definitions hcode units, hright,
      Ideal.twin_start htwins⟩
  · have hleft := hcapabilities.recorded_signal false s.world
    have hother := hcapabilities.recorded_signal false t.world
    rw [← hrender] at hother
    exact hleft.trans (hstates.symm.trans hother.symm)

/-- A program is loaded and steps forward; then an edit of functions is taken up, and the program
goes on from some point of its run. If no function whose own code has been edited was called before
that point, then it comes to the same end as the new program does when it is started afresh: the
same result or the same error, and the same output. -/
theorem update_agrees {s₀ s₁ t₀ : Session σ} {source source' : String} {old new : Node}
    {outcome : UpdateOutcome} {point : Nat}
    (hcapabilities : Determined s₀.config.capabilities s₀.config.render)
    (hold : Node.ofProgram source = .ok old) (hnew : Node.ofProgram source' = .ok new)
    (houtline : old.outline = new.outline) (hdistinct : Definition.Distinct old.definitions)
    (hdistinct' : Definition.Distinct new.definitions)
    (hload : load source s₀ = .ok () s₁) (n : Nat)
    (hupdate : update source' (s₁.forward n) = .ok outcome s')
    (hpoint : outcome.point? (s₁.forward n).steps = some point)
    (hcalls : ∀ i < point, ∀ f, Definition.Edited old.definitions new.definitions f →
      ¬ (s₁.forward i).Calls f)
    (hsame : t₀.config.capabilities = s₀.config.capabilities)
    (hrender : t₀.config.render = s₀.config.render)
    (hstates : recorded s₀.config.capabilities t₀.world = recorded s₀.config.capabilities s₀.world)
    {output : σ → String} (houtput : ∀ w w', recorded s₀.config.capabilities w =
      recorded s₀.config.capabilities w' → output w = output w') :
    ∃ t₁, load source' t₀ = .ok () t₁ ∧
      ∀ limit, EndsAlike output (runToCompletion limit s')
        (runToCompletion (point + limit) t₁) := by
  obtain ⟨code, hcode, hs₁⟩ := load_installs hold hdistinct hload
  have hconfig₁ : s₁.config = s₀.config := by rw [hs₁]; rfl
  have hloaded : s₁.loaded = some ⟨source, old.form, old.definitions, sitesOf code old.definitions,
    Machine.start code⟩ := by
    rw [hs₁]; rfl
  have hzero : s₁.steps = 0 := by rw [hs₁]; rfl
  have hcapabilities₁ : Determined s₁.config.capabilities s₁.config.render := by rwa [hconfig₁]
  obtain ⟨-, machine, hprogram⟩ := forward_program hloaded n
  obtain ⟨edit, changed, hedit, hadopt⟩ := update_adopts hnew hprogram hupdate hpoint
  obtain ⟨hdefinitions, -, -, hfresh⟩ := edit_eq_ok hdistinct' hedit
  obtain ⟨code', hcode', hload'⟩ := load_of_edit hnew hdistinct' hedit t₀
  refine ⟨_, hload', fun limit => ?_⟩
  -- the programs start in step, and are so when the old one comes to the point that the edit goes
  -- on from
  obtain ⟨doSpan, forms, span, hnode⟩ := Node.ofProgram_eq_ok hnew
  let running : Loaded := ⟨source, old.form, old.definitions, sitesOf code old.definitions, machine⟩
  have htwins := twins_of_program (reissues_of_fresh running hdistinct' hfresh _)
    (revises_of_loaded running hdistinct' hfresh hdistinct rfl rfl) houtline hcode hcode' hnode
  have hstart := install_inStep old.form new.form old.definitions new.definitions hcapabilities
    hsame hrender hstates
    (Code.sound_ofProgram hcode) (Code.sound_ofProgram hcode') htwins source source' (s₀.units + 1)
      (t₀.units + 1)
  rw [← hs₁] at hstart
  obtain ⟨j, before, hbefore, hj, hsteps, hconfig', hfault, hloaded', hrecorded, hanswers⟩ :=
    adopt_stands hcapabilities₁ hloaded hzero (by rw [hs₁]; rfl) n hprogram hadopt hpoint
  obtain ⟨t, h, ht, hrest⟩ := hstart.forward hcapabilities₁ rfl hloaded hzero j (by rwa [hj])
  -- there the new bodies come into place, and both go on in step
  have hsilent := forward_answers hcapabilities₁ hstart.left hloaded (by rw [hs₁]; rfl) n
  have hsound := (update_safe source' (forward_sound hstart.left n)).sound_of_ok hupdate
  have hpatched : InStep _ _ _ s' t :=
    h.patched hbefore (fresh_names hdistinct' hfresh) (freshBodies_sound hfresh) hsound
    (hconfig'.trans (forward_program hloaded j).1.symm) hloaded' (by rw [← hdefinitions]; rfl)
    (by rw [(forward_program hloaded j).1]; exact hrecorded)
      (List.subset_nil.mp (hsilent ▸ hanswers))
  have hend := hpatched.complete (by rwa [hconfig']) hfault ht (by
    rwa [hconfig', hconfig₁]) limit (point + limit) limit
  unfold runToCompletion
  rw [hj] at hrest
  rw [hrest]
  exact hend

theorem terminal_determined : Determined terminal.capabilities terminal.render := by
  have hmem : ∀ c ∈ terminal.capabilities, c = builtins ∨
      c = frame World.renderSignal ∨ c = console := by
    simp [terminal, Config.withCapability, Config.ofSettings]
  refine ⟨repeatable_of_standard (fun c hc => (terminal_standard c hc).1)
    fun c hc => (terminal_standard c hc).2.honest, fun c hc => ?_, fun c hc => ?_⟩
  · rcases hmem c hc with rfl | rfl | rfl <;> rfl
  · rcases hmem c hc with rfl | rfl | rfl
    · exact builtins_parametric
    · exact frame_parametric _
    · exact console_parametric

/-- No function is about to be called by name before step `n`. -/
def isQuietFor (s : Session σ) (n : Nat) : Bool :=
  (List.range n).all fun i =>
    decide ((s.forward i).loaded.bind (·.machine.context.pendingCall?) = none)

theorem not_calls_of_isQuietFor {n : Nat} (h : s.isQuietFor n = true) :
    ∀ i < n, ∀ f, ¬ (s.forward i).Calls f := by
  rintro i hi f ⟨loaded, hruns, hcall⟩
  have hnone := decide_eq_true_eq.mp (List.all_eq_true.mp h i (List.mem_range.mpr hi))
  rw [hruns.program, Option.bind_some, hcall] at hnone
  cases hnone

/-- A function has been called at step 9 and has printed; edited, it prints something else. -/
theorem update_agrees_printing : ∃ s₁ s' t₁ : Session World,
    load "(print \"x\") (defn f () (print \"a\")) (f)" (.start terminal {}) = .ok () s₁ ∧
    update "(print \"x\") (defn f () (print \"b\")) (f)" (s₁.forward 14) = .ok (.rewound "f" 9) s' ∧
    load "(print \"x\") (defn f () (print \"b\")) (f)" (.start terminal {}) = .ok () t₁ ∧
    ∀ limit, EndsAlike World.console (runToCompletion limit s')
      (runToCompletion (9 + limit) t₁) := by
  have hrun : yields (fun old => yields (fun new =>
        decide (old.definitions.map (·.name)).Nodup &&
          decide (new.definitions.map (·.name)).Nodup &&
        old.outline.alike new.outline && old.outline.zerosAgree new.outline &&
        succeedsWith (fun _ s₁ => s₁.isQuietFor 9 &&
          succeedsWith (fun outcome _ => decide (outcome = .rewound "f" 9))
            (update "(print \"x\") (defn f () (print \"b\")) (f)" (s₁.forward 14)))
          (load "(print \"x\") (defn f () (print \"a\")) (f)" (.start terminal {})))
        (Node.ofProgram "(print \"x\") (defn f () (print \"b\")) (f)"))
      (Node.ofProgram "(print \"x\") (defn f () (print \"a\")) (f)") = true := by decide +kernel
  obtain ⟨old, hold, hrun⟩ := yields_iff.mp hrun
  obtain ⟨new, hnew, hrun⟩ := yields_iff.mp hrun
  simp only [Bool.and_eq_true, decide_eq_true_eq, succeedsWith_iff] at hrun
  obtain ⟨⟨⟨⟨hdistinct, hdistinct'⟩, halike⟩, hzeros⟩, _, s₁, hload, hquiet, _, s', hupdate, rfl⟩ :=
    hrun
  have hcalls : ∀ i < 9, ∀ f, Definition.Edited old.definitions new.definitions f →
    ¬ (s₁.forward i).Calls f := fun i hi f _ => not_calls_of_isQuietFor hquiet i hi f
  have houtput : ∀ w w' :
      World, recorded terminal.capabilities w = recorded terminal.capabilities w' →
      w.console = w'.console :=
        fun w w' => console_of_recorded (by simp [terminal, Config.withCapability])
  obtain ⟨t₁, hload', hends⟩ :=
    update_agrees terminal_determined hold hnew (Form.eq_of_alike halike hzeros) hdistinct
    hdistinct' hload 14 hupdate rfl hcalls rfl rfl rfl houtput
  exact ⟨s₁, s', t₁, hload, hupdate, hload', hends⟩

/-! ## Edits that do not agree -/

/-- An edit that is taken up after `n` steps, before any function has been called, leads elsewhere
than a fresh run of the new program. -/
def Disagrees (config : Config World) (source source' : String) (n : Nat) : Prop :=
  ∃ old new, Node.ofProgram source = .ok old ∧ Node.ofProgram source' = .ok new ∧
    old.outline = new.outline ∧ Definition.Distinct old.definitions ∧
    Definition.Distinct new.definitions ∧
    ∃ s₁ s' t₁ : Session World, ∃ names, load source (.start config {}) = .ok () s₁ ∧
      update source' (s₁.forward n) = .ok (.patched names) s' ∧
      (∀ i < (s₁.forward n).steps, ∀ f, ¬ (s₁.forward i).Calls f) ∧
      load source' (.start config {}) = .ok () t₁ ∧
      ¬ ∀ limit, EndsAlike World.console (runToCompletion limit s')
        (runToCompletion ((s₁.forward n).steps + limit) t₁)

def isPatched : UpdateOutcome → Bool
  | .patched _ => true
  | _ => false

def isOutOfSteps : Error → Bool
  | .runtime (.outOfSteps _) _ => true
  | _ => false

/-- What two ends can be seen to differ in: values, messages or output. -/
def endApart :
    EStateM.Result Error (Session World) Value → EStateM.Result Error (Session World) Value → Bool
  | .ok v s, .ok v' t => v.render != v'.render || s.world.console != t.world.console
  | .error e s, .error e' t =>
    e.message != e'.message && !isOutOfSteps e || s.world.console != t.world.console
  | _, _ => true

theorem not_endsAlike_of_endApart {r r' : EStateM.Result Error (Session World) Value}
    (h : endApart r r' = true) : ¬ EndsAlike World.console r r' := by
  intro halike
  cases r with
  | ok v s =>
    cases r' with
    | ok v' t => simp [endApart, halike.1, halike.2] at h
    | error e' t => exact halike
  | error e s =>
    cases r' with
    | ok v' t => exact halike
    | error e' t =>
      obtain ⟨hmessage | ⟨limit, limit', rfl, -⟩, houtput⟩ := halike
      · simp [endApart, hmessage, houtput] at h
      · simp [endApart, isOutOfSteps, houtput] at h

/-- To see that an edit does not agree, it is tried with so many steps left. -/
theorem disagrees_of_trial {config : Config World} {source source' : String} {n : Nat} (left : Nat)
    (h : yields (fun old => yields (fun new =>
        old.outline.alike new.outline && old.outline.zerosAgree new.outline &&
        decide (old.definitions.map (·.name)).Nodup &&
          decide (new.definitions.map (·.name)).Nodup &&
        succeedsWith (fun _ s₁ => s₁.isQuietFor (s₁.forward n).steps &&
          succeedsWith (fun _ t₁ =>
            succeedsWith (fun outcome s' => isPatched outcome &&
              endApart (runToCompletion left s')
                (runToCompletion ((s₁.forward n).steps + left) t₁))
              (update source' (s₁.forward n)))
            (load source' (.start config {})))
          (load source (.start config {})))
        (Node.ofProgram source'))
      (Node.ofProgram source) = true) : Disagrees config source source' n := by
  obtain ⟨old, hold, h⟩ := yields_iff.mp h
  obtain ⟨new, hnew, h⟩ := yields_iff.mp h
  simp only [Bool.and_eq_true, decide_eq_true_eq, succeedsWith_iff] at h
  obtain ⟨⟨⟨⟨halike, hzeros⟩, hdistinct⟩, hdistinct'⟩, _, s₁, hload, hquiet, _, t₁, hload',
    outcome, s', hupdate, hpatched, hapart⟩ := h
  cases outcome with
  | patched names =>
    exact ⟨old, new, hold, hnew, Form.eq_of_alike halike hzeros, hdistinct, hdistinct', s₁, s', t₁,
      names, hload, hupdate, not_calls_of_isQuietFor hquiet, hload',
      fun hends => not_endsAlike_of_endApart hapart (hends left)⟩
  | _ => cases hpatched

/-- A call that fails writes when the program first comes to it, and again when the edited program
goes on from there. So it is not enough that all members are deterministic and that their states are
taken back exactly. -/
theorem update_disagrees_refused :
    let config := terminal.withCapability (scribbler (.error .noArguments) true)
    Answerable config.capabilities config.render ∧
    (∀ c ∈ config.capabilities, c.isDeterministic = true) ∧
    Disagrees config "(defn f () 1) (scribble)" "(defn f () 2) (scribble)" 6 := by
  intro config
  refine ⟨scribbler_answerable (fun v hv => by cases hv) true, ?_,
    disagrees_of_trial 1 (by decide +kernel)⟩
  simp [config, terminal, Config.withCapability, Config.ofSettings, builtins, frame, console,
    scribbler]

/-- A member that tells whether the code of a function stands at an even place. -/
def surveyor : Capability World where
  label := "surveyor"
  hasMethod := (· == "locate")
  invoke := fun _ args world =>
    match args with
    | [.closure _ _ ⟨_, ⟨_, origin⟩ :: _⟩ _] => (.ok (.bool (origin.start % 2 == 0)), world)
    | _ => (.error .noArguments, world)

/-- Nor is it enough if a member looks into functions: those that come after the edited one stand
elsewhere in the new source. -/
theorem update_disagrees_located :
    let config := terminal.withCapability surveyor
    Answerable config.capabilities config.render ∧
    (∀ c ∈ config.capabilities, c.isDeterministic = true) ∧
    Disagrees config "(defn f () null) (if (locate (lambda () null)) x y)"
      "(defn f () \"a\") (if (locate (lambda () null)) x y)" 3 := by
  intro config
  refine ⟨terminal_answerable (fun _ => rfl) ?_ ?_, ?_, disagrees_of_trial 12 (by decide +kernel)⟩
  · intro method args w v hv
    simp only [surveyor] at hv
    split at hv <;> cases hv
    exact ⟨nofun, fun _ => rfl⟩
  · intro method args w w' hw
    simp only [surveyor]
    split
    · exact ⟨rfl, hw⟩
    · exact ⟨rfl, hw⟩
  · simp [config, terminal, Config.withCapability, Config.ofSettings, builtins, frame, console,
      surveyor]

end Session

end LiveLisp
