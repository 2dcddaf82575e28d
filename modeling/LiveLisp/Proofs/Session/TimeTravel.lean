/-
  Time travel replays exactly. However a host steps, rewinds and returns to kept states, whenever
  the program is at some step it shows what it showed when it first came there, and every step that
 the tape of `Session.OnTape`, carried
  along every journey.
-/
import LiveLisp.Proofs.Session.Consistent
import LiveLisp.Proofs.Session.Tape

namespace LiveLisp

variable {σ : Type}

/-- What can be seen of a program between two steps, and the output of the host. -/
structure Scene where
  pcs : List Nat
  frames : List Code
  printed : List String
  at? : Option Span
  pendingCall? : Option String
  liveScopes : Nat
  output : String

def Scene.of (m : Machine) (output : String) : Scene where
  pcs := m.context.pcs
  frames := m.context.frames
  printed := m.context.values.map Value.render
  at? := m.context.at?
  pendingCall? := m.context.pendingCall?
  liveScopes := m.memory.store.live
  output

def Session.scene? (s : Session σ) (output : σ → String) : Option Scene :=
  s.loaded.map fun loaded => .of loaded.machine (output s.world)

namespace Operation

/-- The operations that move along the run of one program. -/
def Travels : Operation → Prop
  | step => True
  | runBudget _ => True
  | rewindTo _ => True
  | stepBack => True
  | snapshot => True
  | restore _ => True
  | _ => False

/-- The state that an operation gives out, if it does. -/
def given (op : Operation) (s : Session σ) : List Snapshot :=
  match op.run s with
  | .ok answer _ => answer.taken.toList
  | .error _ _ => []

/-- The sessions that an operation goes through, the last one included: a budget comes by where
smaller budgets end, and a rewind by where it would end for an earlier step. -/
def passed (s : Session σ) : Operation → List (Session σ)
  | runBudget budget => (List.range (budget + 1)).map fun j => s.after (runBudget j).run
  | rewindTo target => (List.range (target + 1)).map fun j => s.after (rewindTo j).run
  | op => [s.after op.run]

end Operation

namespace Session

open Capability

/-- The journeys of a host with one program: where it is, the states that it has been given, and the
sessions that it has passed. In between the world may change, but not the states of deterministic
members. -/
inductive Journey (origin : Session σ) : Session σ → List Snapshot → List (Session σ) → Prop where
  | start : Journey origin origin [] [origin]
  | outside {s : Session σ} {taken : List Snapshot} {past : List (Session σ)}
      (h : Journey origin s taken past) {w : σ}
      (hw : ∀ c ∈ s.config.capabilities, c.isDeterministic = true → c.save w = c.save s.world) :
    Journey origin { s with world := w } taken ({ s with world := w } :: past)
  | operate {s : Session σ} {taken : List Snapshot} {past : List (Session σ)}
      (h : Journey origin s taken past)
      {op : Operation} (htravels : op.Travels) (hallowed : op.Allowed taken) :
    Journey origin (s.after op.run) (op.given s ++ taken) (op.passed s ++ past)

variable {config : Config σ} {s t origin : Session σ} {tape : List Moment} {taken : List Snapshot}
  {past : List (Session σ)}

/-! ## The tape of a journey -/

/-- A program that has just been started has one keyframe, that of the start. -/
theorem install_keyframes (s : Session σ) (source : String) (form : Form)
    (definitions : List Definition) (code : Code) (units : Nat) :
      (s.install source form definitions code units).timeline.keyframes =
      [⟨0, .start code, s.config.capabilities.map (·.save s.clearRender.world)⟩] :=
  if_pos (Nat.le_max_right ..)

/-- A program that has just been started is at the first moment of its tape. -/
theorem install_onTape (h : Repeatable s.config.capabilities s.config.render)
    (source : String) (form : Form) (definitions : List Definition) {code : Code}
    (hcode : code.Sound) (units : Nat) :
    OnTape s.config [⟨.start code, recorded s.config.capabilities s.clearRender.world⟩]
      (s.install source form definitions code units) := by
  have hkeyframes := s.install_keyframes source form definitions code units
  refine ⟨install_sound h.honest source form definitions hcode units, h, ⟨rfl, _, rfl, rfl⟩,
    fun k hk => ?_, ?_, ?_⟩
  · rw [hkeyframes, List.mem_singleton] at hk
    subst hk
    exact ⟨_, rfl, rfl, s.clearRender.world, rfl, rfl⟩
  · rw [hkeyframes]
    exact ⟨_, List.mem_singleton_self _, rfl⟩
  · intro i a b _ hb
    cases hb

theorem load_onTape {source : String} (h : Repeatable s.config.capabilities s.config.render)
    (hload : load source s = .ok () t) : ∃ tape, OnTape s.config tape t := by
  obtain ⟨root, definitions, code, hprepare, rfl⟩ := load_eq_ok hload
  exact ⟨_, install_onTape h source _ _ (Code.sound_ofProgram (prepare_eq_ok hprepare).2.2) _⟩

theorem after_bind_pure {α β : Type} (x : SessionM σ α) (f : α → β) (s : Session σ) :
    s.after (x >>= fun a => pure (f a)) = s.after x := by
  cases hx : x s with
  | ok a s' =>
    rw [after_of_ok hx]
    exact after_of_ok (bind_of_ok hx)
  | error e s' =>
    rw [after_of_error hx]
    exact after_of_error (bind_of_error hx)

/-- An operation that answers with no state gives out none. -/
theorem given_eq_nil {α : Type} {op : Operation} {x : SessionM σ α} {f : α → Answer}
    (hop : op.run = x >>= fun a => pure (f a)) (hf : ∀ a, (f a).taken = none)
    (s : Session σ) : op.given s = [] := by
  unfold Operation.given
  rw [hop]
  cases hx : x s with
  | ok a s' =>
    rw [bind_of_ok hx]
    show (f a).taken.toList = []
    rw [hf]
    rfl
  | error e s' => rw [bind_of_error hx]

/-- A state that was kept at a moment of the tape. -/
def KeptOn (config : Config σ) (tape : List Moment) (k : Snapshot) : Prop :=
  k.machine.Sound ∧ ∃ a, tape[k.step]? = some a ∧ KeptAt k config.capabilities a

theorem KeptOn.mono {tape' : List Moment} {k : Snapshot} (h : KeptOn config tape k)
    (hlonger : tape <+: tape') :
    KeptOn config tape' k := by
  obtain ⟨hsound, a, ha, hk⟩ := h
  exact ⟨hsound, a, getElem?_of_longer hlonger ha, hk⟩

/-- The operation goes along the tape: where it ends, all that it passes, and what it gives out. -/
def GoesAlong (config : Config σ) (tape : List Moment) (s : Session σ) (op : Operation) : Prop :=
  ∃ tape', tape <+: tape' ∧ OnTape config tape' (s.after op.run) ∧
    (∀ t ∈ op.passed s, At config tape' t) ∧
    ∀ k ∈ op.given s, KeptOn config tape' k

section Moves

variable {α : Type} {f : α → Answer}

/-- An operation that answers with no state, and passes only the session in which it ends. -/
theorem OnTape.goesAlong {tape' : List Moment} {op : Operation} {x : SessionM σ α}
    (h : OnTape config tape' (s.after x)) (hlonger : tape <+: tape')
    (hop : op.run = x >>= fun a => pure (f a)) (hf : ∀ a, (f a).taken = none)
    (hpassed : op.passed s = [s.after op.run]) : GoesAlong config tape s op := by
  have hafter : s.after op.run = s.after x := by rw [hop, after_bind_pure]
  refine ⟨tape', hlonger, hafter ▸ h, fun t ht => ?_, ?_⟩
  · rw [hpassed, List.mem_singleton, hafter] at ht
    rw [ht]
    exact h.present
  · rw [given_eq_nil hop hf]
    exact nofun

/-- An operation that answers with no state, and passes where it would have ended for smaller
numbers. -/
theorem Along.goesAlong {op : Nat → Operation} {x : Nat → SessionM σ α} {n : Nat}
    (h : Along config tape (fun j => s.after (x j)) n)
    (hop : ∀ j, (op j).run = x j >>= fun a => pure (f a)) (hf : ∀ a, (f a).taken = none)
    (hpassed : (op n).passed s = (List.range (n + 1)).map fun j => s.after (op j).run) :
    GoesAlong config tape s (op n) := by
  have hafter (j : Nat) : s.after (op j).run = s.after (x j) := by rw [hop, after_bind_pure]
  obtain ⟨tape', hlonger, hlast, hall⟩ := h
  refine ⟨tape', hlonger, hafter n ▸ hlast, fun t ht => ?_, ?_⟩
  · rw [hpassed] at ht
    obtain ⟨j, hj, rfl⟩ := List.mem_map.mp ht
    rw [hafter]
    exact hall j (Nat.le_of_lt_succ (List.mem_range.mp hj))
  · rw [given_eq_nil (hop n) hf]
    exact nofun

end Moves

/-- To take a state changes nothing, and the state is one of the present moment. -/
theorem OnTape.goesAlong_snapshot (h : OnTape config tape s) :
    GoesAlong config tape s .snapshot := by
  obtain ⟨loaded, hloaded⟩ := h.program
  obtain ⟨rfl, a, ha, hat⟩ := h.present
  have hrun : Operation.snapshot.run s = .ok { taken := some (s.capture loaded.machine) } s := by
    refine bind_of_ok ?_
    unfold Session.snapshot
    rw [get_bind, hloaded]
    rfl
  have hstays := after_of_ok hrun
  refine ⟨tape, List.prefix_refl tape, hstays.symm ▸ h, fun t ht => ?_, fun k hk => ?_⟩
  · rw [List.mem_singleton.mp ht, hstays]
    exact h.present
  · unfold Operation.given at hk
    rw [hrun] at hk
    rw [List.mem_singleton.mp hk]
    exact ⟨h.sound.machine loaded hloaded, a, hat, capture_keptAt hloaded ha⟩

/-- Whatever moves along the run of the program goes along the tape. -/
theorem OnTape.operate (h : OnTape config tape s) (htaken : ∀ k ∈ taken, KeptOn config tape k)
    {op : Operation} (htravels : op.Travels) (hallowed : op.Allowed taken) :
    GoesAlong config tape s op := by
  cases op with
  | step =>
    obtain ⟨tape', hlonger, h'⟩ := h.step
    exact h'.goesAlong (f := fun _ => {}) hlonger rfl (fun _ => rfl) rfl
  | runBudget budget => exact (h.runBudget budget).goesAlong (fun _ => rfl) (fun _ => rfl) rfl
  | rewindTo target =>
    exact (h.rewindTo target).goesAlong (f := fun _ => {}) (fun _ => rfl) (fun _ => rfl) rfl
  | stepBack =>
    exact h.stepBack.goesAlong (f := fun _ => {}) (List.prefix_refl tape) rfl (fun _ => rfl) rfl
  | snapshot => exact h.goesAlong_snapshot
  | restore k =>
    obtain ⟨hsound, a, hat, hk⟩ := htaken k hallowed
    obtain ⟨s', hrun, h', -⟩ := h.restore hat hk hsound
    rw [← after_of_ok hrun] at h'
    exact h'.goesAlong (f := fun _ => {}) (List.prefix_refl tape) rfl (fun _ => rfl) rfl
  | load source => exact htravels.elim
  | runToCompletion limit => exact htravels.elim
  | update source => exact htravels.elim
  | collectGarbage => exact htravels.elim

theorem Journey.onTape (horigin : OnTape config tape origin) (h : Journey origin s taken past) :
    ∃ tape, OnTape config tape s ∧ (∀ k ∈ taken, KeptOn config tape k) ∧
      ∀ t ∈ past, At config tape t := by
  induction h with
  | start =>
    refine ⟨tape, horigin, nofun, fun t ht => ?_⟩
    rw [List.mem_singleton.mp ht]
    exact horigin.present
  | outside h hw ih =>
    obtain ⟨tape, hs, htaken, hpast⟩ := ih
    have hs' := hs.setWorld (recorded_congr (hs.present.1 ▸ hw))
    refine ⟨tape, hs', htaken, fun t ht => ?_⟩
    rcases List.mem_cons.mp ht with rfl | ht
    · exact hs'.present
    · exact hpast t ht
  | operate h htravels hallowed ih =>
    obtain ⟨tape, hs, htaken, hpast⟩ := ih
    obtain ⟨tape', hlonger, hs', hpassed, hgiven⟩ := hs.operate htaken htravels hallowed
    refine ⟨tape', hs', fun k hk => ?_, fun t ht => ?_⟩
    · rcases List.mem_append.mp hk with hk | hk
      · exact hgiven k hk
      · exact (htaken k hk).mono hlonger
    · rcases List.mem_append.mp ht with ht | ht
      · exact hpassed t ht
      · exact (hpast t ht).mono hlonger

/-! ## What is shown -/

/-- At one moment there is one thing to see. -/
theorem At.scene (h : At config tape s) (ht : At config tape t) (hsteps : t.steps = s.steps)
    {output : σ → String} (houtput : ∀ w w', recorded config.capabilities w =
      recorded config.capabilities w' → output w = output w') :
    ∃ scene, s.scene? output = some scene ∧ t.scene? output = some scene := by
  obtain ⟨rfl, a, ha, hat⟩ := h
  obtain ⟨hconfig, b, hb, hbt⟩ := ht
  rw [hsteps, hat] at hbt
  cases hbt
  obtain ⟨loaded, hloaded, hmachine, hrecorded⟩ := moment?_eq_some_iff.mp ha
  obtain ⟨program, hprogram, hmachine', hrecorded'⟩ := moment?_eq_some_iff.mp hb
  have hworld : output t.world = output s.world := by
    refine houtput _ _ ?_
    rw [hrecorded, ← hrecorded', hconfig]
  refine ⟨.of a.machine (output s.world), ?_, ?_⟩
  · rw [scene?, hloaded, Option.map_some, hmachine]
  · rw [scene?, hprogram, Option.map_some, hmachine', hworld]

/-- After a program has been loaded a host steps, spends budgets, rewinds, steps back, takes states
and returns to them, and lets the clock go on in between. Of the sessions that it passes any two at
the same step show the same counters, frames, printed values, place in the source, call about to be
made, number of live scopes and output; and it can go back to exactly any step up to the furthest
that it has passed, to see that again. -/
theorem replay_exact {s₀ s₁ s : Session σ} {source : String} {taken : List Snapshot}
    {past : List (Session σ)} (hcapabilities : Repeatable s₀.config.capabilities s₀.config.render)
    {output : σ → String} (houtput : ∀ w w', recorded s₀.config.capabilities w =
      recorded s₀.config.capabilities w' → output w = output w')
    (hload : load source s₀ = .ok () s₁) (hjourney : Journey s₁ s taken past) :
    (∀ t ∈ past, ∃ scene, ∀ t' ∈ past, t'.steps = t.steps → t'.scene? output = some scene) ∧
    ∀ t ∈ past, ∀ k ≤ t.steps, ∃ s', rewindTo k s = .ok () s' ∧ s'.steps = k ∧
      ∀ t' ∈ past, t'.steps = k → s'.scene? output = t'.scene? output := by
  obtain ⟨tape, horigin⟩ := load_onTape hcapabilities hload
  obtain ⟨tape, hs, -, hpast⟩ := hjourney.onTape horigin
  constructor
  · intro t ht
    obtain ⟨scene, hscene, -⟩ := (hpast t ht).scene (hpast t ht) rfl houtput
    refine ⟨scene, fun t' ht' hsteps => ?_⟩
    obtain ⟨scene', hscene', hsame⟩ := (hpast t ht).scene (hpast t' ht') hsteps houtput
    rw [hsame, ← hscene', hscene]
  · intro t ht k hk
    obtain ⟨-, a, -, hat⟩ := hpast t ht
    have hlt : k < tape.length := Nat.lt_of_le_of_lt hk (List.getElem?_eq_some_iff.mp hat).1
    obtain ⟨s', hrun, hs', hsteps, -⟩ := hs.rewindTo_reached hlt
    refine ⟨s', hrun, hsteps, fun t' ht' hk' => ?_⟩
    obtain ⟨scene, hscene, hsame⟩ :=
      (hpast t' ht').scene hs'.present (hsteps.trans hk'.symm) houtput
    rw [hscene, hsame]

/-- A program that asks for the time is run, the clock goes on, and the program is wound back. -/
theorem replay_exact_clock : ∃ s₁ :
    Session World, load "(print (now))" (.start playground {}) = .ok () s₁ ∧
    let s₂ := s₁.after (Operation.runBudget 5).run
    let s := Session.after { s₂ with world := s₂.world.advance 16.0 } (Operation.rewindTo 1).run
    ∃ taken past, Journey s₁ s taken past ∧ s₂ ∈ past ∧
      (∀ t ∈ past, ∃ scene, ∀ t' ∈ past, t'.steps = t.steps →
        t'.scene? World.console = some scene) ∧
      ∀ t ∈ past, ∀ k ≤ t.steps, ∃ s', rewindTo k s = .ok () s' ∧ s'.steps = k ∧
        ∀ t' ∈ past, t'.steps = k → s'.scene? World.console = t'.scene? World.console := by
  have hload : (match load "(print (now))" (Session.start playground {}) with
      | .ok _ _ => true
      | .error _ _ => false) = true := by decide +kernel
  split at hload
  · next s₁ hrun =>
    obtain ⟨tape, horigin⟩ := load_onTape playground_repeatable hrun
    have hbudget : (Operation.runBudget 5).Travels := trivial
    have hrewind : (Operation.rewindTo 1).Travels := trivial
    have hfirst : Journey s₁ (s₁.after (Operation.runBudget 5).run) _ _ :=
      Journey.start.operate hbudget trivial
    have hconfig : (s₁.after (Operation.runBudget 5).run).config = playground := by
      obtain ⟨tape, hs, -, -⟩ := hfirst.onTape horigin
      exact hs.present.1
    have hwaited :=
      hfirst.outside (w := (s₁.after (Operation.runBudget 5).run).world.advance 16.0) (by
      rw [hconfig]
      intro c hc hdet
      rcases playground_standard _ hc with rfl | rfl | rfl | rfl <;> rfl)
    have hback := hwaited.operate hrewind trivial
    refine ⟨s₁, hrun, _, _, hback, ?_, replay_exact playground_repeatable ?_ hrun hback⟩
    · refine List.mem_append_right _ (List.mem_cons_of_mem _ (List.mem_append_left _ ?_))
      exact List.mem_map.mpr ⟨5, by decide, rfl⟩
    · exact fun w w' h => recorded_playground_eq_iff.mp h
  · cases hload

/-- A journey passes two sessions at one step whose outputs differ. -/
def Journey.Differs (origin : Session World) : Prop :=
  ∃ s taken past, Journey origin s taken past ∧ ∃ t ∈ past, ∃ t' ∈ past, t'.steps = t.steps ∧
    t'.scene? World.console ≠ t.scene? World.console

/-- A call that fails leaves what it has written, at the step before it. So states that are saved
and taken back exactly, and answers that depend on nothing else, are not enough. -/
theorem replay_inexact_refused :
    let config := terminal.withCapability (scribbler (.error .noArguments) true)
    Answerable config.capabilities config.render ∧ ∃ s₁ : Session World,
      load "(scribble)" (.start config {}) = .ok () s₁ ∧ Journey.Differs s₁ := by
  intro config
  refine ⟨scribbler_answerable (fun v hv => by cases hv) true, ?_⟩
  have hrun : succeedsWith (fun _ s₁ =>
      let t := s₁.after Operation.step.run
      let t' := t.after Operation.step.run
      decide (t'.steps = t.steps) && decide
        ((t'.scene? World.console).map (·.output) ≠ (t.scene? World.console).map (·.output)))
      (load "(scribble)" (Session.start config {})) = true := by decide +kernel
  simp only [succeedsWith_iff, Bool.and_eq_true, decide_eq_true_eq] at hrun
  obtain ⟨_, s₁, hload, hsteps, houtputs⟩ := hrun
  have hstep : Operation.step.Travels := trivial
  have hjourney := (@Journey.start _ s₁).operate hstep trivial |>.operate hstep trivial
  refine ⟨s₁, hload, _, _, _, hjourney, _, ?_, _, ?_, hsteps, fun h => houtputs (by rw [h])⟩
  · exact List.mem_append_right _ (List.mem_append_left _ (List.mem_singleton_self _))
  · exact List.mem_append_left _ (List.mem_singleton_self _)

/-- Neither are they enough if a member that is not asked again writes what another one saves. -/
theorem replay_inexact_unasked :
    let config := terminal.withCapability (scribbler (.ok .null) false)
    Answerable config.capabilities config.render ∧ ∃ s₁ : Session World,
      load "(scribble)" (.start config {}) = .ok () s₁ ∧ Journey.Differs s₁ := by
  intro config
  refine ⟨scribbler_answerable (fun v hv => by cases hv; rfl) false, ?_⟩
  have hrun : succeedsWith (fun _ s₁ =>
      let t := (s₁.after Operation.step.run).after Operation.step.run
      let back := t.after (Operation.rewindTo 0).run
      let t' := (back.after Operation.step.run).after Operation.step.run
      decide (t'.steps = t.steps) && decide
        ((t'.scene? World.console).map (·.output) ≠ (t.scene? World.console).map (·.output)))
      (load "(scribble)" (Session.start config {})) = true := by decide +kernel
  simp only [succeedsWith_iff, Bool.and_eq_true, decide_eq_true_eq] at hrun
  obtain ⟨_, s₁, hload, hsteps, houtputs⟩ := hrun
  have hstep : Operation.step.Travels := trivial
  have hrewind : (Operation.rewindTo 0).Travels := trivial
  have hforth := ((@Journey.start _ s₁).operate hstep trivial).operate hstep trivial
  have hagain := ((hforth.operate hrewind trivial).operate hstep trivial).operate hstep trivial
  refine ⟨s₁, hload, _, _, _, hagain, _, ?_, _, ?_, hsteps, fun h => houtputs (by rw [h])⟩
  · refine List.mem_append_right _ (List.mem_append_right _ (List.mem_append_right _ ?_))
    exact List.mem_append_left _ (List.mem_singleton_self _)
  · exact List.mem_append_left _ (List.mem_singleton_self _)

end Session

end LiveLisp
