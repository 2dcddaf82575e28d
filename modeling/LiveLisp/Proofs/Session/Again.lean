/-
  The same step again. Two sessions at the same moment, with the same machine and the same saved
  states, take the same step (`step_again`), provided that the one that goes second remembers what
  hosts have answered to the other. Returning to a kept state brings back every saved state
  (`restore_kept`).
-/
import LiveLisp.Proofs.Host.Repeatable
import LiveLisp.Proofs.Session.Stepping
import LiveLisp.Proofs.Session.Travel

namespace LiveLisp

variable {σ : Type}

/-! ## Remembered answers -/

/-- All that the first list remembers the second does too. -/
def Remembers (answers later : List (Nat × Value)) : Prop :=
  ∀ step v, answerAt? step answers = some v → answerAt? step later = some v

theorem Remembers.refl (answers : List (Nat × Value)) : Remembers answers answers := fun _ _ h => h

theorem Remembers.trans {a b c : List (Nat × Value)} (h : Remembers a b)
    (h' : Remembers b c) : Remembers a c :=
  fun step v hv => h' step v (h step v hv)

theorem answerAt?_filter {step other : Nat} (h : other ≠ step) (answers : List (Nat × Value)) :
    answerAt? other (answers.filter (·.1 != step)) = answerAt? other answers := by
  induction answers with
  | nil => rfl
  | cons pair answers ih =>
    obtain ⟨at', v⟩ := pair
    by_cases hat : at' = step
    · subst hat
      simp only [List.filter_cons, bne_self_eq_false, Bool.false_eq_true, if_false,
        answerAt?, if_neg h.symm]
      exact ih
    · simp only [List.filter_cons, bne_iff_ne, ne_eq, hat, not_false_eq_true,
        if_true, answerAt?, ih]

theorem answerAt?_recordAnswer (step other : Nat) (v : Value) (answers : List (Nat × Value)) :
    answerAt? other (recordAnswer step v answers) = if other = step then some v
      else answerAt? other answers := by
  rw [recordAnswer, answerAt?]
  by_cases h : other = step
  · rw [if_pos h.symm, if_pos h]
  · rw [if_neg (Ne.symm h), if_neg h, answerAt?_filter h]

/-- An answer that is new at its step is added to those remembered. -/
theorem remembers_recordAnswer {step : Nat} {answers : List (Nat × Value)}
    (h : answerAt? step answers = none) (v : Value) :
    Remembers answers (recordAnswer step v answers) := by
  intro other u hu
  rw [answerAt?_recordAnswer]
  split
  · next heq =>
    rw [heq, h] at hu
    cases hu
  · exact hu

/-! ## Calls -/

namespace Capability

variable {capabilities : List (Capability σ)} {render : Signal σ}
    (h : Repeatable capabilities render)

include h

theorem Repeatable.invokeAt_repeats {owner : Owner}
    (hdet : ((capabilities[owner.slot]?).map (·.isDeterministic)).getD true = true)
    (method : String) (args : List Value) {w w' : σ}
    (hsame : recorded capabilities w = recorded capabilities w') :
    (invokeAt capabilities owner method args w).1 = (invokeAt capabilities owner method args w').1 ∧
    recorded capabilities (invokeAt capabilities owner method args w).2 =
      recorded capabilities (invokeAt capabilities owner method args w').2 := by
  unfold invokeAt
  cases hc : capabilities[owner.slot]? with
  | none => exact ⟨rfl, hsame⟩
  | some c =>
    rw [hc] at hdet
    exact h.repeats c (List.mem_of_getElem? hc) hdet method args w w' hsame

theorem Repeatable.invokeAt_refuses {owner : Owner} {method : String} {args : List Value} {w : σ}
    {problem : HostProblem}
    (hrefused : (invokeAt capabilities owner method args w).1 = .error problem) :
    recorded capabilities (invokeAt capabilities owner method args w).2 =
      recorded capabilities w := by
  unfold invokeAt at *
  cases hc : capabilities[owner.slot]? with
  | none => rfl
  | some c =>
    rw [hc] at hrefused
    exact h.refuses c (List.mem_of_getElem? hc) method args w problem hrefused

theorem Repeatable.invokeAt_keeps {owner : Owner}
    (hdet : ((capabilities[owner.slot]?).map (·.isDeterministic)).getD true = false)
    (method : String) (args : List Value) (w : σ) :
    recorded capabilities (invokeAt capabilities owner method args w).2 =
      recorded capabilities w := by
  unfold invokeAt
  cases hc : capabilities[owner.slot]? with
  | none => rfl
  | some c =>
    rw [hc] at hdet
    exact h.keeps c (List.mem_of_getElem? hc) hdet method args w

end Capability

namespace Session

open Capability

section Calls

variable {capabilities : List (Capability σ)} {render : Signal σ} {step : Nat}
    {owner : Owner} {method : String}
  {args : List Value} {r t : Replay σ}

/-- No answer is forgotten over a call. -/
theorem replayHost_remembers :
    Remembers r.answers ((replayHost capabilities step).invoke owner method args r).2.answers := by
  simp only [replayHost]
  split
  · exact .refl _
  · split
    · exact .refl _
    · next hnone =>
      split
      · exact remembers_recordAnswer hnone _
      · exact .refl _

/-- A call that is refused leaves the saved states. -/
theorem replayHost_refuses (h : Repeatable capabilities render) {problem : HostProblem}
    (hrefused : ((replayHost capabilities step).invoke owner method args r).1 = .error problem) :
    recorded capabilities ((replayHost capabilities step).invoke owner method args r).2.world =
      recorded capabilities r.world := by
  simp only [replayHost] at *
  split at hrefused
  · next hdet =>
    rw [if_pos hdet]
    exact h.invokeAt_refuses hrefused
  · next hdet =>
    have hkeeps := h.invokeAt_keeps (by simpa using hdet) method args r.world
    rw [if_neg hdet]
    split
    · rfl
    · split <;> next hask => rw [hask] at hkeeps; exact hkeeps

/-- A call that was answered is answered the same to one who remembers. -/
theorem replayHost_again (h : Repeatable capabilities render)
    (hsame : recorded capabilities r.world = recorded capabilities t.world) {v : Value}
    (hv : ((replayHost capabilities step).invoke owner method args r).1 = .ok v)
    (hremembers : Remembers ((replayHost capabilities step).invoke owner method args r).2.answers
      t.answers) :
    ((replayHost capabilities step).invoke owner method args t).1 = .ok v ∧
    recorded capabilities ((replayHost capabilities step).invoke owner method args t).2.world =
      recorded capabilities ((replayHost capabilities step).invoke owner method args
        r).2.world := by
  simp only [replayHost] at *
  by_cases hdet : ((capabilities[owner.slot]?).map (·.isDeterministic)).getD true = true
  · simp only [if_pos hdet] at *
    obtain ⟨hanswer, hstates⟩ := h.invokeAt_repeats hdet method args hsame
    exact ⟨hanswer.symm.trans hv, hstates.symm⟩
  · simp only [if_neg hdet] at *
    have hkeeps := h.invokeAt_keeps (by simpa using hdet) method args r.world
    cases hmemory : answerAt? step r.answers with
    | some u =>
      simp only [hmemory] at hv hremembers ⊢
      rw [hremembers step u hmemory]
      exact ⟨hv, hsame.symm⟩
    | none =>
      simp only [hmemory] at hv hremembers ⊢
      cases hask : invokeAt capabilities owner method args r.world with
      | mk answer w =>
        rw [hask] at hkeeps
        simp only [hask] at hv hremembers ⊢
        cases answer with
        | error problem => cases hv
        | ok u =>
          cases hv
          have hknown : answerAt? step t.answers = some v :=
            hremembers step v (by rw [answerAt?_recordAnswer, if_pos rfl])
          rw [hknown]
          exact ⟨rfl, hsame.symm.trans hkeeps.symm⟩

end Calls

variable {s t : Session σ} {loaded program : Loaded}

theorem reply_remembers (s : Session σ) (loaded : Loaded) :
    Remembers s.timeline.answers (s.reply loaded).2.answers := by
  unfold reply Host.reply
  split
  · exact replayHost_remembers (r := ⟨s.world, s.timeline.answers⟩)
  · exact .refl _

/-- An instruction that asks nothing, or is refused, leaves the saved states. -/
theorem reply_refused (h : Repeatable s.config.capabilities s.config.render)
    (hrefused : loaded.machine.context.hostCall? = none ∨
      ∃ problem, (s.reply loaded).1 = .error problem) :
    recorded s.config.capabilities (s.reply loaded).2.world =
      recorded s.config.capabilities s.world := by
  unfold reply Host.reply at *
  split at hrefused
  · next owner method args hcall =>
    rcases hrefused with hnone | ⟨problem, hproblem⟩
    · rw [hnone] at hcall
      cases hcall
    · exact replayHost_refuses h hproblem
  · rfl

theorem reply_again (h : Repeatable s.config.capabilities s.config.render)
    (hconfig : t.config = s.config) (hsteps : t.steps = s.steps)
    (hmachine : program.machine = loaded.machine)
    (hsame : recorded s.config.capabilities s.world = recorded s.config.capabilities t.world)
    {v : Value} (hv : (s.reply loaded).1 = .ok v)
    (hremembers : Remembers (s.reply loaded).2.answers t.timeline.answers) :
    (t.reply program).1 = .ok v ∧ recorded s.config.capabilities (t.reply program).2.world =
      recorded s.config.capabilities (s.reply loaded).2.world := by
  unfold reply Host.reply at *
  rw [hconfig, hsteps, hmachine]
  split
  · next owner method args hcall =>
    simp only [hcall] at hv hremembers
    exact replayHost_again h hsame hv hremembers
  · next hcall =>
    simp only [hcall] at hv
    exact ⟨hv, hsame.symm⟩

/-! ## Moments -/

/-- What the next steps of a program depend on. -/
structure Moment where
  machine : Machine
  recorded : List (Option Json)

/-- The moment that a session is at. -/
def moment? (s : Session σ) : Option Moment :=
  s.loaded.map fun loaded => ⟨loaded.machine, recorded s.config.capabilities s.world⟩

theorem moment?_eq_some_iff {a : Moment} : s.moment? = some a ↔
    ∃ loaded, s.loaded = some loaded ∧ loaded.machine = a.machine ∧
      recorded s.config.capabilities s.world = a.recorded := by
  unfold moment?
  rw [Option.map_eq_some_iff]
  constructor
  · rintro ⟨loaded, hloaded, rfl⟩
    exact ⟨loaded, hloaded, rfl, rfl⟩
  · rintro ⟨loaded, hloaded, hmachine, hrecorded⟩
    exact ⟨loaded, hloaded, by rw [hmachine, hrecorded]⟩

theorem moment?_of_loaded (h : s.loaded = some loaded) :
    s.moment? = some ⟨loaded.machine, recorded s.config.capabilities s.world⟩ := by
  unfold moment?
  rw [h]
  rfl

theorem moment?_advanced (s : Session σ) (loaded : Loaded) (m : Machine) (r : Replay σ) :
    (s.advanced loaded m r).moment? =
      some ⟨m.tidied s.config.settings.gcInterval (s.steps + 1),
        recorded s.config.capabilities r.world⟩ := rfl

/-- A session at the moment where another has taken a step takes the same step, if it remembers the
answers of that one and no error stands in the way. -/
theorem step_again (h : Repeatable s.config.capabilities s.config.render)
    (hs : s.Sound) (ht : t.Sound) (hconfig : t.config = s.config) (hsteps : t.steps = s.steps)
    (hmoment : t.moment? = s.moment?) (hfault : t.fault = none) {s' : Session σ}
    (hstep : Session.step s = .ok () s')
    (hremembers : Remembers s'.timeline.answers t.timeline.answers) :
    ∃ t', Session.step t = .ok () t' ∧ t'.moment? = s'.moment? := by
  obtain ⟨loaded, hs_runs⟩ := runs_of_step hstep
  obtain ⟨program, hprogram, hmachine, hrecorded⟩ :=
    moment?_eq_some_iff.mp (hmoment.trans (moment?_of_loaded hs_runs.program))
  have ht_runs : t.Runs program := ⟨hprogram, hfault, by rw [hmachine]; exact hs_runs.running⟩
  rcases step_of_running hs hs_runs with ⟨m, v, hrun, -, hv, hadvanced⟩ | ⟨e, -, -, herror⟩
  · cases hadvanced.symm.trans hstep
    rw [hconfig] at hrecorded
    obtain ⟨hv', hworld⟩ := reply_again h hconfig hsteps hmachine hrecorded.symm hv hremembers
    have hsame : Exec.outcome (Exec.step (replayHost t.config.capabilities t.steps)
          ⟨program.machine, ⟨t.world, t.timeline.answers⟩⟩) =
        Exec.outcome (Exec.step (replayHost s.config.capabilities s.steps)
          ⟨loaded.machine, ⟨s.world, s.timeline.answers⟩⟩) := by
      rw [hmachine]
      refine Exec.step_of_reply (by rw [hconfig]; rfl) ?_
      rw [← hmachine]
      refine hv'.trans (hv.symm.trans ?_)
      rw [hmachine]
      rfl
    rcases step_of_running ht ht_runs with ⟨m', v', hrun', -, -, hadvanced'⟩ | ⟨e, hrun', -, -⟩
    · rw [hrun, hrun'] at hsame
      cases hsame
      refine ⟨_, hadvanced', ?_⟩
      rw [moment?_advanced, moment?_advanced, hconfig, hsteps, hworld]
    · rw [hrun, hrun'] at hsame
      cases hsame
  · cases herror.symm.trans hstep

/-! ## Kept states -/

theorem savedStates_cons (c : Capability σ) (cs : List (Capability σ)) (w : σ) :
    savedStates (c :: cs) ((c :: cs).map (·.save w)) =
      ((c.save w).map fun state => (c, state)).toList ++ savedStates cs (cs.map (·.save w)) := by
  unfold savedStates
  rw [List.map_cons, List.zip_cons_cons, List.filterMap_cons]
  cases c.save w <;> rfl

section States

variable {capabilities : List (Capability σ)} (h : ∀ c ∈ capabilities, c.Restores capabilities)
    (w : σ)

include h

/-- Capabilities accept what they have saved. -/
theorem checkStates_saved (w' : σ) {cs : List (Capability σ)} (hcs : ∀ c ∈ cs, c ∈ capabilities) :
    checkStates w' (savedStates cs (cs.map (·.save w))) = .ok () := by
  induction cs with
  | nil => rfl
  | cons c cs ih =>
    have hrest := ih fun d hd => hcs d (List.mem_cons_of_mem _ hd)
    rw [savedStates_cons]
    cases hsave : c.save w with
    | none => exact hrest
    | some state =>
      have haccepts := (h c (hcs c (List.mem_cons_self ..))).accepts hsave w'
      simp only [Option.map_some, Option.toList_some, List.cons_append, List.nil_append,
        checkStates, haccepts]
      exact hrest

/-- Handed back what they have saved, all capabilities are as they were then. -/
theorem restoreStates_saved (w' : σ) {cs : List (Capability σ)} (hcs : ∀ c ∈ cs, c ∈ capabilities) :
    ∃ w'', restoreStates (savedStates cs (cs.map (·.save w))) w' = (.ok (), w'') ∧
      (∀ c ∈ cs, c.save w'' = c.save w) ∧ ∀ d ∈ capabilities, d.save w'' = d.save w' ∨
      d.save w'' = d.save w := by
  induction cs generalizing w' with
  | nil => exact ⟨w', rfl, nofun, fun d _ => .inl rfl⟩
  | cons c cs ih =>
    have hc := h c (hcs c (List.mem_cons_self ..))
    have hrest := fun w' => ih w' fun d hd => hcs d (List.mem_cons_of_mem _ hd)
    rw [savedStates_cons]
    cases hsave : c.save w with
    | none =>
      obtain ⟨w'', hrun, hall, hothers⟩ := hrest w'
      refine ⟨w'', hrun, fun d hd => ?_, hothers⟩
      rcases List.mem_cons.mp hd with rfl | hd
      · rw [hsave, hc.always hsave]
      · exact hall d hd
    | some state =>
      -- members before this one have their states, and whoever comes after it does not take them
      -- away
      obtain ⟨w₁, htaken, hsaved, hmine⟩ := hc.takes hsave w'
      obtain ⟨w'', hrun, hall, hothers⟩ := hrest w₁
      refine ⟨w'', ?_, fun d hd => ?_, fun d hd => ?_⟩
      · simp only [Option.map_some, Option.toList_some, List.cons_append, List.nil_append,
          restoreStates, htaken]
        exact hrun
      · rcases List.mem_cons.mp hd with rfl | hd
        · rcases hothers d (hcs d (List.mem_cons_self ..)) with hd | hd
          · exact hd.trans (hsaved.trans hsave.symm)
          · exact hd
        · exact hall d hd
      · rcases hothers d hd with hlater | hlater
        · rw [hlater]
          exact hmine d hd
        · exact .inr hlater

end States

/-- Returning to a state that capabilities saved in some world succeeds, and they are as they were
in that world. -/
theorem restore_saved (h : Restorable s.config.capabilities s.config.render)
    (hloaded : s.loaded = some loaded) {k : Snapshot} {w : σ}
    (hstates : k.states = s.config.capabilities.map (·.save w)) :
    ∃ w', restore k s = .ok () { s with
        world := w', loaded := some { loaded with machine := k.machine }, steps :=
          k.step, fault := none } ∧
      ∀ c ∈ s.config.capabilities, c.save w' = c.save w := by
  obtain ⟨w₁, hrun, hall, -⟩ := restoreStates_saved h.restores w s.world fun c hc => hc
  have hcheck := checkStates_saved h.restores w s.world fun c hc => hc
  refine ⟨s.config.render.set false w₁, ?_, fun c hc => (h.signal c hc false w₁).trans (hall c hc)⟩
  unfold restore
  rw [get_bind, hloaded]
  simp only [hstates, hcheck, hrun]
  rfl

/-- A state kept at a moment: it has the machine of that moment, and what all capabilities saved
then. -/
def KeptAt (k : Snapshot) (capabilities : List (Capability σ)) (a : Moment) : Prop :=
  k.machine = a.machine ∧ ∃ w, k.states = capabilities.map (·.save w) ∧
    recorded capabilities w = a.recorded

theorem capture_keptAt (h : s.loaded = some loaded) {a : Moment} (ha : s.moment? = some a) :
    KeptAt (s.capture loaded.machine) s.config.capabilities a := by
  rw [moment?_of_loaded h] at ha
  cases ha
  exact ⟨rfl, s.world, rfl, rfl⟩

/-- Returning to a state leads to the moment that it was kept at. -/
theorem restore_kept (h : Repeatable s.config.capabilities s.config.render)
    (hloaded : s.loaded = some loaded) {k : Snapshot} {a : Moment}
    (hk : KeptAt k s.config.capabilities a) :
    ∃ s', restore k s = .ok () s' ∧ s'.moment? = some a ∧ s'.steps = k.step ∧ s'.fault = none ∧
      s'.config = s.config ∧ s'.timeline = s.timeline := by
  obtain ⟨hmachine, w, hstates, hrecorded⟩ := hk
  obtain ⟨w', hrun, hall⟩ := restore_saved h.toRestorable hloaded hstates
  refine ⟨_, hrun, ?_, rfl, rfl, rfl, rfl⟩
  rw [moment?_eq_some_iff]
  exact ⟨_, rfl, hmachine, (recorded_congr fun c hc _ => hall c hc).trans hrecorded⟩

end Session

end LiveLisp
