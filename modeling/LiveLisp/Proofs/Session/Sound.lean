/-
  Sound sessions: the running machine, every state that was kept and every answer that was
  remembered can be gone on with. Each operation of a session keeps it sound and fails only by
  errors that a program or a host can cause; that is `Safe`, with one lemma for each operation.

  What the session relies on is that its capabilities are honest: a closure in an answer comes from
  the arguments, and an answer that is remembered for later has no closures.
-/
import LiveLisp.Proofs.Code.Compiled
import LiveLisp.Proofs.Code.Refusal
import LiveLisp.Proofs.Host.Standard
import LiveLisp.Proofs.Machine.Sound
import LiveLisp.Session.Travel

namespace LiveLisp

variable {σ : Type}

/-- Neither a contradiction inside the interpreter nor an empty stack. -/
def Error.Benign : Error → Prop
  | .runtime problem _ => problem ≠ .underflow
  | .internal _ => False
  | _ => True

theorem Error.OfProgram.benign {e : Error} (h : e.OfProgram) : e.Benign := by
  obtain ⟨problem, span, rfl, hproblem⟩ := h
  exact hproblem

/-- Benign, or a jump too far in the code of a source that is long enough for it. -/
def Error.BenignFor (source : String) (e : Error) : Prop :=
  e.Benign ∨ e = .internal .jumpTooFar ∧ 2 ^ 30 ≤ source.utf8ByteSize

/-- What a source is refused with is benign for it. -/
theorem Refuses.benign {α : Type} {source : String} {x : Except Error α}
    (h : Refuses source.utf8ByteSize x) {e : Error} (hx : x = .error e) : e.BenignFor source := by
  refine (h e hx).imp_left fun hstatic => ?_
  cases e with
  | runtime problem span => exact hstatic.elim
  | internal problem => exact hstatic.elim
  | _ => trivial

namespace Session

structure Sound (s : Session σ) : Prop where
  honest : ∀ c ∈ s.config.capabilities, c.Honest
  machine : ∀ loaded, s.loaded = some loaded → loaded.machine.Sound
  keyframes : ∀ k ∈ s.timeline.keyframes, k.machine.Sound
  checkpoints : ∀ k ∈ s.timeline.checkpoints.values, k.machine.Sound
  answers : ∀ pair ∈ s.timeline.answers, pair.2.closures = []
  fault : ∀ e, s.fault = some e → e.Benign

/-- From here `x` ends in a sound session, as `Q` says or with an error that `E` admits. -/
def SafeUpTo {α : Type} (E : Error → Prop) (x : SessionM σ α) (s : Session σ)
    (Q : α → Session σ → Prop) : Prop :=
  match x s with
  | .ok a s' => s'.Sound ∧ Q a s'
  | .error e s' => s'.Sound ∧ E e

/-- From here `x` ends in a sound session, as `Q` says or with a benign error. -/
abbrev Safe {α : Type} (x : SessionM σ α) (s : Session σ) (Q : α → Session σ → Prop) : Prop :=
  SafeUpTo Error.Benign x s Q

section Rules

variable {α β : Type} {E : Error → Prop} {x : SessionM σ α} {s s' : Session σ}
  {Q : α → Session σ → Prop}

theorem SafeUpTo.mono {E' : Error → Prop} (h : SafeUpTo E x s Q) (hE : ∀ e, E e → E' e) :
    SafeUpTo E' x s Q := by
  unfold SafeUpTo at h ⊢
  cases hx : x s with
  | ok a s' => rwa [hx] at h
  | error e s' =>
    rw [hx] at h
    exact ⟨h.1, hE e h.2⟩

theorem SafeUpTo.bind {f : α → SessionM σ β} {R : β → Session σ → Prop} (h : SafeUpTo E x s Q)
    (hf : ∀ a s', s'.Sound → Q a s' → SafeUpTo E (f a) s' R) : SafeUpTo E (x >>= f) s R := by
  unfold SafeUpTo at h ⊢
  cases hx : x s with
  | ok a s' =>
    rw [hx] at h
    rw [bind_of_ok hx]
    exact hf a s' h.1 h.2
  | error e s' =>
    rw [hx] at h
    rw [bind_of_error hx]
    exact h

theorem SafeUpTo.get_bind {f : Session σ → SessionM σ β} {R : β → Session σ → Prop}
    (h : SafeUpTo E (f s) s R) :
    SafeUpTo E (get >>= f) s R := h

theorem SafeUpTo.throw (hs : s.Sound) {e : Error} (he : E e) :
    SafeUpTo E (throw e : SessionM σ α) s Q := ⟨hs, he⟩

theorem SafeUpTo.pure (hs : s.Sound) {a : α} (ha : Q a s) :
    SafeUpTo E (pure a : SessionM σ α) s Q := ⟨hs, ha⟩

theorem SafeUpTo.set (hs : s'.Sound) :
    SafeUpTo E (set s' : SessionM σ PUnit) s fun _ _ => True := ⟨hs, trivial⟩

theorem SafeUpTo.modify {f : Session σ → Session σ} (hs : (f s).Sound) :
    SafeUpTo E (modify f : SessionM σ PUnit) s fun _ _ => True := ⟨hs, trivial⟩

end Rules

variable {s : Session σ}

theorem start_sound (config : Config σ) (w : σ) (h : ∀ c ∈ config.capabilities, c.Honest) :
    (Session.start config w).Sound :=
  ⟨h, nofun, nofun, nofun, nofun, nofun⟩

theorem Sound.setWorld (hs : s.Sound) (w : σ) : Sound { s with world := w } :=
  ⟨hs.honest, hs.machine, hs.keyframes, hs.checkpoints, hs.answers, hs.fault⟩

theorem Sound.clearRender (hs : s.Sound) : s.clearRender.Sound := hs.setWorld _

/-- The standard capabilities, with a console and a clock. -/
def playground : Config World :=
  ((Config.ofSettings {} World.renderSignal).withCapability .console).withCapability .clock

theorem playground_complies : ∀ c ∈ playground.capabilities, c.Complies := by
  intro c hc
  simp only [playground, Config.withCapability, Config.ofSettings, if_true,
    List.cons_append, List.nil_append, List.mem_cons, List.not_mem_nil, or_false] at hc
  rcases hc with rfl | rfl | rfl | rfl
  · exact Capability.builtins_complies
  · exact Capability.frame_complies _
  · exact Capability.console_complies
  · exact Capability.clock_complies

/-! ## Running the machine -/

theorem answerAt?_mem {step : Nat} {v : Value} {answers : List (Nat × Value)}
    (h : answerAt? step answers = some v) :
    ∃ pair ∈ answers, pair.2 = v := by
  induction answers with
  | nil => cases h
  | cons pair rest ih =>
    obtain ⟨other, u⟩ := pair
    unfold answerAt? at h
    split at h
    · cases h
      exact ⟨_, List.mem_cons_self .., rfl⟩
    · obtain ⟨pair, hpair, rfl⟩ := ih h
      exact ⟨pair, List.mem_cons_of_mem _ hpair, rfl⟩

/-- What a capability with this place answers is honest. -/
theorem invokeAt_honest {capabilities : List (Capability σ)}
    (h : ∀ c ∈ capabilities, c.Honest) {owner : Owner} {method : String}
    {args : List Value} {w : σ} {v : Value}
    (hv : (Capability.invokeAt capabilities owner method args w).1 = .ok v) :
    (∀ cl ∈ v.closures, ∃ arg ∈ args, cl ∈ arg.closures) ∧
    (((capabilities[owner.slot]?).map (·.isDeterministic)).getD true = false →
      v.closures = []) := by
  unfold Capability.invokeAt at hv
  split at hv
  · next c hc =>
    obtain ⟨hfrom, hfree⟩ := h c (List.mem_of_getElem? hc) method args w v hv
    refine ⟨hfrom, fun hdet => hfree ?_⟩
    rw [hc] at hdet
    exact hdet
  · cases hv

variable {capabilities : List (Capability σ)} {step : Nat} {r : Replay σ}

theorem replayHost_honest (h : ∀ c ∈ capabilities, c.Honest)
    (hr : ∀ pair ∈ r.answers, pair.2.closures = []) :
    (replayHost capabilities step).HonestIn r := by
  intro owner method args v hv
  simp only [replayHost] at hv
  split at hv
  · exact (invokeAt_honest h hv).1
  · split at hv
    · next u hu =>
      cases hv
      obtain ⟨pair, hpair, rfl⟩ := answerAt?_mem hu
      rw [hr pair hpair]
      exact nofun
    · split at hv
      · next u w hask =>
        cases hv
        exact (invokeAt_honest h (by rw [hask])).1
      · cases hv

/-- Only answers without closures are remembered. -/
theorem replayHost_answers (h : ∀ c ∈ capabilities, c.Honest)
    (hr : ∀ pair ∈ r.answers, pair.2.closures = []) (owner : Owner) (method : String)
    (args : List Value) :
    ∀ pair ∈ ((replayHost capabilities step).invoke owner method args r).2.answers,
      pair.2.closures = [] := by
  simp only [replayHost]
  split
  · exact hr
  · next hdet =>
    split
    · exact hr
    · split
      · next u w hask =>
        intro pair hpair
        rcases List.mem_cons.mp hpair with rfl | hpair
        · exact (invokeAt_honest h (by rw [hask])).2 (by simpa using hdet)
        · exact hr pair (List.mem_filter.mp hpair).1
      · exact hr

theorem reply_answers (step : Nat) (h : ∀ c ∈ capabilities, c.Honest)
    (hr : ∀ pair ∈ r.answers, pair.2.closures = []) (c : Context) :
    ∀ pair ∈ ((replayHost capabilities step).reply c r).2.answers, pair.2.closures = [] := by
  unfold Host.reply
  split
  · exact replayHost_answers h hr _ _ _
  · exact hr

theorem noProgram_benign : noProgram.Benign := by
  unfold noProgram
  exact nofun

/-- With this machine, this world and these remembered answers. -/
def resume (s : Session σ) (loaded : Loaded) (r : Running (Replay σ)) : Session σ :=
  { s with
    world := r.world.world
    loaded := some { loaded with machine := r.machine }
    timeline := { s.timeline with answers := r.world.answers } }

theorem onRunning_eq {α : Type} (x : Exec (Replay σ) α) {loaded : Loaded}
    (h : s.loaded = some loaded) :
    onRunning x s = match x ⟨loaded.machine, ⟨s.world, s.timeline.answers⟩⟩ with
      | .ok a r => .ok a (s.resume loaded r)
      | .error e r => .error e (s.resume loaded r) := by
  obtain ⟨config, w, _, timeline, steps, fault, units⟩ := s
  cases h
  rfl

theorem onRunning_of_unloaded {α : Type} (x : Exec (Replay σ) α) (h : s.loaded = none) :
    onRunning x s = .error noProgram s := by
  obtain ⟨config, w, _, timeline, steps, fault, units⟩ := s
  cases h
  rfl

theorem onMachine_of_ok {α : Type} {x : MachineM α} {loaded : Loaded} {a : α} {m : Machine}
    (h : s.loaded = some loaded) (hx : x loaded.machine = .ok a m) :
    onMachine x s = .ok a { s with loaded := some { loaded with machine := m } } := by
  unfold onMachine
  rw [onRunning_eq _ h]
  simp only [Exec.onMachine, hx]
  rfl

/-- A sound machine and answers without closures make a sound session again. -/
theorem Sound.resume (hs : s.Sound) (loaded : Loaded) {r : Running (Replay σ)}
    (hm : r.machine.Sound) (hanswers : ∀ pair ∈ r.world.answers, pair.2.closures = []) :
    (s.resume loaded r).Sound := by
  refine ⟨hs.honest, ?_, hs.keyframes, hs.checkpoints, hanswers, hs.fault⟩
  rintro _ ⟨⟩
  exact hm

/-- The step of a sound machine, with the world and the remembered answers. -/
theorem onRunning_step_safe (hs : s.Sound) (step : Nat) :
    Safe (onRunning (Exec.step (replayHost s.config.capabilities step))) s fun _ _ => True := by
  unfold Safe SafeUpTo
  cases hloaded : s.loaded with
  | none =>
    rw [onRunning_of_unloaded _ hloaded]
    exact ⟨hs, noProgram_benign⟩
  | some loaded =>
    have hm := hs.machine loaded hloaded
    have hhost : (replayHost s.config.capabilities step).HonestIn ⟨s.world, s.timeline.answers⟩ :=
      replayHost_honest hs.honest hs.answers
    have hanswers := reply_answers step (r := ⟨s.world, s.timeline.answers⟩) hs.honest hs.answers
      loaded.machine.context
    rw [onRunning_eq _ hloaded]
    rcases Machine.step_sound hm hhost with ⟨m', hrun, hsound⟩ | ⟨e, hrun, hprogram⟩
    · rw [hrun]
      exact ⟨hs.resume loaded hsound hanswers, trivial⟩
    · rw [hrun]
      exact ⟨hs.resume loaded hm hanswers, hprogram.benign⟩

/-- An operation on the machine that succeeds and keeps it sound. -/
theorem onMachine_safe {α : Type} {x : MachineM α}
    (hx : ∀ m, m.Sound → ∃ a m', x m = .ok a m' ∧ m'.Sound) (hs : s.Sound) :
    Safe (onMachine x) s fun _ _ => True := by
  unfold Safe SafeUpTo
  cases hloaded : s.loaded with
  | none =>
    unfold onMachine
    rw [onRunning_of_unloaded _ hloaded]
    exact ⟨hs, noProgram_benign⟩
  | some loaded =>
    obtain ⟨a, m', hrun, hsound⟩ := hx loaded.machine (hs.machine loaded hloaded)
    rw [onMachine_of_ok hloaded hrun]
    refine ⟨⟨hs.honest, ?_, hs.keyframes, hs.checkpoints, hs.answers, hs.fault⟩, trivial⟩
    rintro _ ⟨⟩
    exact hsound

theorem collectGarbage_onMachine_safe (hs : s.Sound) :
    Safe (onMachine Machine.collectGarbage) s fun _ _ => True :=
  onMachine_safe (fun _ hm => by
    obtain ⟨n, m', hrun, hsound, -⟩ := Machine.collectGarbage_sound hm
    exact ⟨n, m', hrun, hsound⟩) hs

theorem orFault_safe {α : Type} {x : SessionM σ α} {Q : α → Session σ → Prop} (h : Safe x s Q) :
    Safe (orFault x) s Q := by
  unfold Safe SafeUpTo orFault at *
  cases hx : x s with
  | ok a s' =>
    rw [hx] at h
    exact h
  | error e s' =>
    rw [hx] at h
    obtain ⟨hs', he⟩ := h
    refine ⟨⟨hs'.honest, hs'.machine, hs'.keyframes, hs'.checkpoints, hs'.answers, ?_⟩, he⟩
    rintro _ ⟨⟩
    exact he

/-! ## Steps -/

theorem recordCall_safe (hs : s.Sound) : Safe recordCall s fun _ _ => True := by
  refine SafeUpTo.get_bind ?_
  split
  · split
    · exact .pure hs trivial
    · next loaded hloaded =>
      split
      · refine .set ⟨hs.honest, hs.machine, hs.keyframes, fun k hk => ?_, hs.answers, hs.fault⟩
        rcases NameMap.mem_values_put hk with rfl | hk
        · exact hs.machine loaded hloaded
        · exact hs.checkpoints k hk
      · exact .pure hs trivial
  · exact .pure hs trivial

theorem runInstruction_safe (hs : s.Sound) : Safe runInstruction s fun _ _ => True := by
  refine SafeUpTo.get_bind (SafeUpTo.bind (onRunning_step_safe hs s.steps) fun _ s' hs' _ => ?_)
  exact .modify ⟨hs'.honest, hs'.machine, hs'.keyframes, hs'.checkpoints, hs'.answers, hs'.fault⟩

theorem tidy_safe (hs : s.Sound) : Safe tidy s fun _ _ => True := by
  refine SafeUpTo.get_bind ?_
  simp only
  split
  · refine SafeUpTo.bind (onMachine_safe (fun _ hm => ?_) hs) fun _ s' hs' _ => .pure hs' trivial
    obtain ⟨n, m', hrun, hsound, -⟩ := Machine.finish_sound hm
    exact ⟨n, m', hrun, hsound⟩
  · split
    · exact SafeUpTo.bind (collectGarbage_onMachine_safe hs) fun _ s' hs' _ => .pure hs' trivial
    · exact .pure hs trivial

theorem mem_insertKeyframe {k k' : Snapshot} {keyframes : List Snapshot}
    (h : k' ∈ Timeline.insertKeyframe k keyframes) : k' = k ∨ k' ∈ keyframes := by
  induction keyframes with
  | nil => exact .inl (List.mem_singleton.mp h)
  | cons other rest ih =>
    unfold Timeline.insertKeyframe at h
    split at h
    · exact List.mem_cons.mp h
    · split at h
      · rcases List.mem_cons.mp h with h | h
        · exact .inl h
        · exact .inr (List.mem_cons_of_mem _ h)
      · rcases List.mem_cons.mp h with h | h
        · exact .inr (h ▸ List.mem_cons_self ..)
        · rcases ih h with h | h
          · exact .inl h
          · exact .inr (List.mem_cons_of_mem _ h)

theorem mem_recordKeyframe {t : Timeline} {k k' : Snapshot} {limit : Nat}
    (h : k' ∈ (t.recordKeyframe k limit).keyframes) : k' = k ∨ k' ∈ t.keyframes := by
  refine mem_insertKeyframe ?_
  simp only [Timeline.recordKeyframe, Timeline.evict] at h
  split at h
  · exact h
  · rcases List.mem_append.mp h with h | h
    · exact (List.mem_filter.mp (List.mem_of_mem_take h)).1
    · exact (List.mem_filter.mp h).1

/-- Keeping the present state of a sound machine. -/
theorem Sound.recordKeyframe (hs : s.Sound) {m : Machine} (hm : m.Sound) (limit : Nat) :
    Sound { s with timeline := s.timeline.recordKeyframe (s.capture m) limit } := by
  refine ⟨hs.honest, hs.machine, fun k hk => ?_, hs.checkpoints, hs.answers, hs.fault⟩
  rcases mem_recordKeyframe hk with rfl | hk
  · exact hm
  · exact hs.keyframes k hk

theorem recordKeyframe_safe (hs : s.Sound) : Safe recordKeyframe s fun _ _ => True := by
  refine SafeUpTo.get_bind ?_
  simp only
  split
  · split
    · exact .pure hs trivial
    · next loaded hloaded => exact .set (hs.recordKeyframe (hs.machine loaded hloaded) _)
  · exact .pure hs trivial

theorem step_safe (hs : s.Sound) : Safe Session.step s fun _ _ => True := by
  refine SafeUpTo.get_bind ?_
  split
  · next e he => exact .throw hs (hs.fault e he)
  · split
    · exact .throw hs noProgram_benign
    · split
      · exact .throw hs nofun
      · refine SafeUpTo.bind (recordCall_safe hs) fun _ s₁ hs₁ _ => ?_
        refine SafeUpTo.bind (orFault_safe (runInstruction_safe hs₁)) fun _ s₂ hs₂ _ => ?_
        refine SafeUpTo.bind (orFault_safe (tidy_safe hs₂)) fun _ s₃ hs₃ _ => ?_
        exact recordKeyframe_safe hs₃

/-! ## Runs -/

theorem spend_safe (done left : Nat) (hs : s.Sound) :
    Safe (spend done left) s fun report _ => ∀ e, report.reported = some e → e.Benign := by
  induction left generalizing done s with
  | zero => exact ⟨hs, nofun⟩
  | succ left ih =>
    have hstep := step_safe hs
    unfold Safe SafeUpTo at hstep ih ⊢
    simp only [spend]
    cases hfinished : s.isFinished with
    | true => exact ⟨hs, nofun⟩
    | false =>
      simp only [Bool.false_eq_true, if_false]
      cases hrun : Session.step s with
      | error e s' =>
        rw [hrun] at hstep
        obtain ⟨hs', he⟩ := hstep
        have hfatal : e.isFatal = false := by
          cases e with
          | internal problem => exact he.elim
          | _ => rfl
        simp only [hfatal]
        refine ⟨hs', ?_⟩
        rintro _ ⟨⟩
        exact he
      | ok a s' =>
        rw [hrun] at hstep
        simp only
        cases hflag : s'.config.render.isRequested s'.world with
        | true => exact ⟨hstep.1.clearRender, nofun⟩
        | false =>
          simp only [Bool.false_eq_true, if_false]
          exact ih (done + 1) hstep.1.clearRender

theorem runBudget_safe (budget : Nat) (hs : s.Sound) :
    Safe (runBudget budget) s fun report _ => ∀ e, report.reported = some e → e.Benign := by
  refine SafeUpTo.get_bind ?_
  split
  · exact .throw hs noProgram_benign
  · split
    · exact .pure hs nofun
    · exact spend_safe 0 budget hs

/-- A program that has finished has a value. -/
theorem finishedValue_safe (hs : s.Sound) (h : s.isFinished = true) :
    Safe finishedValue s fun _ _ => True := by
  unfold isFinished context? at h
  cases hloaded : s.loaded with
  | none =>
    rw [hloaded] at h
    cases h
  | some loaded =>
    have hdone : loaded.machine.context.done = true := by
      rw [hloaded] at h
      exact h
    obtain ⟨v, hv⟩ := (hs.machine loaded hloaded).result hdone
    have hresult : s.result? = some v := by
      simp [result?, context?, hloaded, Context.result?, hdone, hv]
    unfold Safe SafeUpTo finishedValue
    simp only [hresult]
    exact ⟨hs, trivial⟩

theorem completeWithin_safe (limit left : Nat) (hs : s.Sound) :
    Safe (completeWithin limit left) s fun _ _ => True := by
  induction left generalizing s with
  | zero =>
    unfold Safe SafeUpTo
    simp only [completeWithin]
    cases hfinished : s.isFinished with
    | true => exact finishedValue_safe hs hfinished
    | false => exact ⟨hs, nofun⟩
  | succ left ih =>
    have hstep := step_safe hs
    unfold Safe SafeUpTo at hstep ⊢
    simp only [completeWithin]
    cases hfinished : s.isFinished with
    | true => exact finishedValue_safe hs hfinished
    | false =>
      simp only [Bool.false_eq_true, if_false]
      cases hrun : Session.step s with
      | error e s' =>
        rw [hrun] at hstep
        exact hstep
      | ok a s' =>
        rw [hrun] at hstep
        exact ih hstep.1.clearRender

theorem runToCompletion_safe (limit : Nat) (hs : s.Sound) :
    Safe (runToCompletion limit) s fun _ _ => True :=
  completeWithin_safe limit limit hs

theorem collectGarbage_safe (hs : s.Sound) : Safe Session.collectGarbage s fun _ _ => True := by
  refine SafeUpTo.get_bind ?_
  split
  · exact .pure hs trivial
  · exact collectGarbage_onMachine_safe hs

/-! ## Loading -/

theorem install_sound (honest : ∀ c ∈ s.config.capabilities, c.Honest)
    (source : String) (form : Form) (definitions : List Definition) {code : Code}
    (hcode : code.Sound) (units : Nat) : (s.install source form definitions code units).Sound := by
  have hm := Machine.start_sound hcode
  have hfresh : Sound { s.clearRender with
      loaded := some ⟨source, form, definitions, sitesOf code definitions, Machine.start code⟩
      timeline := .empty, steps := 0, fault := none, units } := by
    refine ⟨honest, ?_, nofun, nofun, nofun, nofun⟩
    rintro _ ⟨⟩
    exact hm
  exact hfresh.recordKeyframe hm _

/-- A source, read and compiled. -/
def prepare (units : Nat) (source : String) : Except Error (Node × List Definition × Code) := do
  let root ← Node.ofProgram source
  let definitions ← Definition.find root
  let code ← Code.ofProgram units root
  return (root, definitions, code)

theorem prepare_refuses (units : Nat) (source : String) :
    Refuses source.utf8ByteSize (prepare units source) :=
  .bind (ofProgram_refuses source) fun root hroot => .bind (find_refuses root) fun _ _ =>
    .bind (Code.ofProgram_refuses units hroot) fun _ _ => .ok _

theorem prepare_eq_ok {units : Nat} {source : String} {root : Node}
    {definitions : List Definition} {code : Code}
    (h : prepare units source = .ok (root, definitions, code)) :
    Node.ofProgram source = .ok root ∧ Definition.find root = .ok definitions ∧
      Code.ofProgram units root = .ok code := by
  obtain ⟨root', hroot, h⟩ := except_bind_eq_ok h
  obtain ⟨definitions', hfound, h⟩ := except_bind_eq_ok h
  obtain ⟨code', hcode, h⟩ := except_bind_eq_ok h
  cases h
  exact ⟨hroot, hfound, hcode⟩

theorem prepare_of_ok {units : Nat} {source : String} {root : Node}
    {definitions : List Definition} {code : Code} (hroot : Node.ofProgram source = .ok root)
    (hfound : Definition.find root = .ok definitions)
    (hcode : Code.ofProgram units root = .ok code) :
    prepare units source = .ok (root, definitions, code) := by
  unfold prepare
  rw [hroot]
  show (Definition.find root >>= _) = _
  rw [hfound]
  show (Code.ofProgram units root >>= _) = _
  rw [hcode]
  rfl

theorem load_eq (source : String) (s : Session σ) :
    load source s = match prepare s.units source with
      | .error e => .error e s
      | .ok (root, definitions, code) =>
        .ok () (s.install source root.form definitions code (s.units + 1)) := by
  show (match prepare s.units source with
    | .error e => throw e
    | .ok (root, definitions, code) =>
      set (s.install source root.form definitions code (s.units + 1)) :
      SessionM σ Unit) s = _
  cases prepare s.units source <;> rfl

theorem load_of_ok {source : String} {root : Node} {definitions : List Definition} {code : Code}
    (h : prepare s.units source = .ok (root, definitions, code)) :
    load source s = .ok () (s.install source root.form definitions code (s.units + 1)) := by
  rw [load_eq, h]

/-- A program that has been loaded was prepared first. -/
theorem load_eq_ok {source : String} {s' : Session σ} (h : load source s = .ok () s') :
    ∃ root definitions code,
    prepare s.units source = .ok (root, definitions, code) ∧
      s' = s.install source root.form definitions code (s.units + 1) := by
  rw [load_eq] at h
  cases hprepare : prepare s.units source with
  | error e =>
    rw [hprepare] at h
    cases h
  | ok prepared =>
    rw [hprepare] at h
    cases h
    exact ⟨_, _, _, rfl, rfl⟩

theorem load_safe (source : String) (hs : s.Sound) :
    SafeUpTo (Error.BenignFor source) (load source) s fun _ _ => True := by
  unfold SafeUpTo
  rw [load_eq]
  cases hprepare : prepare s.units source with
  | error e => exact ⟨hs, (prepare_refuses s.units source).benign hprepare⟩
  | ok prepared =>
    obtain ⟨root, definitions, code⟩ := prepared
    have hcode := Code.sound_ofProgram (prepare_eq_ok hprepare).2.2
    exact ⟨install_sound hs.honest source root.form definitions hcode _, trivial⟩

end Session

end LiveLisp
