/-
  A run in budgets. The command line gives a program the rest of its steps as a budget, and does so
  again after every redraw request that has cut a budget short. The budgets together are one run to
  completion: the loop ends, it never takes more from the limit than is left of it, and it says how
  that run ends (`run_in_budgets`).
-/
import LiveLisp.CommandLine
import LiveLisp.Proofs.Session.Consistent
import LiveLisp.Proofs.Session.Stepping

namespace LiveLisp

variable {σ : Type} {s s' : Session σ}

/-! ## One budget -/

namespace Session

/-- A sound session with a program that has not failed. -/
structure Going (s : Session σ) : Prop where
  sound : s.Sound
  program : ∃ loaded, s.loaded = some loaded
  fault : s.fault = none

theorem Going.clearRender (h : s.Going) : s.clearRender.Going :=
  ⟨h.sound.clearRender, h.program, h.fault⟩

/-- A program that has not finished takes a step, or fails by an error that is not the interpreter's
own and is put down. -/
theorem Going.step (h : s.Going) (hrunning : s.isFinished = false) :
    (∃ s', Session.step s = .ok () s' ∧ s'.Going) ∨
    ∃ e s', Session.step s = .error e s' ∧ s'.fault = some e ∧ e.isFatal = false := by
  obtain ⟨loaded, hloaded⟩ := h.program
  have hruns : s.Runs loaded := ⟨hloaded, h.fault, (isFinished_eq hloaded).symm.trans hrunning⟩
  have hsafe := step_safe h.sound
  unfold Safe SafeUpTo at hsafe
  rcases step_of_running h.sound hruns with ⟨m, v, -, -, -, hstep⟩ | ⟨e, -, -, hstep⟩
  · rw [hstep] at hsafe
    exact .inl ⟨_, hstep, hsafe.1, ⟨_, rfl⟩, h.fault⟩
  · rw [hstep] at hsafe
    refine .inr ⟨e, _, hstep, rfl, ?_⟩
    cases e with
    | internal problem => exact hsafe.2.elim
    | _ => rfl

/-- A program that has finished has a value, however many steps are left. -/
theorem Going.completeWithin_of_finished (h : s.Going) (hfinished : s.isFinished = true)
    (limit left : Nat) :
    ∃ v, s.result? = some v ∧ completeWithin limit left s = .ok v s := by
  have hsafe := finishedValue_safe h.sound hfinished
  have hcomplete : completeWithin limit left s = finishedValue s := by
    cases left <;> simp [completeWithin, hfinished]
  unfold Safe SafeUpTo finishedValue at hsafe
  rw [hcomplete]
  unfold finishedValue
  cases hresult : s.result? with
  | some v => exact ⟨v, rfl, rfl⟩
  | none =>
    rw [hresult] at hsafe
    exact hsafe.2.elim

theorem completeWithin_succ (limit left : Nat) (hrunning : s.isFinished = false) :
    completeWithin limit (left + 1) s = match Session.step s with
      | .error e s' => .error e s'
      | .ok _ s' => completeWithin limit left s'.clearRender := by
  simp only [completeWithin, hrunning]
  rfl

/-- What a budget of `left` steps, `done` having been taken before, means to a run to completion:
the rest of the run, if the program has asked for a redraw or has finished, and otherwise the end of
the run. -/
def Budgeted (limit done left : Nat) (s : Session σ) (report : BudgetReport)
    (s' : Session σ) : Prop :=
  match report.stop with
  | .renderRequested => s'.Going ∧ done < report.steps ∧ report.steps ≤ done + left ∧
      completeWithin limit left s = completeWithin limit (done + left - report.steps) s'
  | .finished => s'.Going ∧ s'.isFinished = true ∧ report.steps ≤ done + left ∧
      completeWithin limit left s = completeWithin limit (done + left - report.steps) s'
  | .exhausted =>
    s'.fault = none ∧ completeWithin limit left s = .error (.runtime (.outOfSteps limit) none) s'
  | .faulted => ∃ e, s'.fault = some e ∧ completeWithin limit left s = .error e s'

/-- A step that is followed by a budget. -/
theorem Budgeted.succ {limit done left : Nat} {report : BudgetReport} {s₁ : Session σ}
    (h : Budgeted limit (done + 1) left s₁ report s')
    (hcomplete : completeWithin limit (left + 1) s = completeWithin limit left s₁) :
    Budgeted limit done (left + 1) s report s' := by
  unfold Budgeted at h ⊢
  rw [hcomplete, show done + (left + 1) = done + 1 + left by omega]
  split at h
  · exact ⟨h.1, by omega, h.2.2⟩
  · exact h
  · exact h
  · exact h

theorem spend_zero (done : Nat) (s : Session σ) :
    spend done 0 s = .ok ⟨done, if s.isFinished then .finished else .exhausted, none⟩ s := rfl

theorem spend_of_finished (hfinished : s.isFinished = true) (done left : Nat) :
    spend done left s = .ok ⟨done, .finished, none⟩ s := by
  cases left with
  | zero => rw [spend_zero, hfinished, if_pos rfl]
  | succ left => simp only [spend, hfinished, if_true]

theorem spend_budgeted (h : s.Going) (limit done left : Nat) :
    ∃ report s', spend done left s = .ok report s' ∧ Budgeted limit done left s report s' := by
  induction left generalizing s done with
  | zero =>
    cases hfinished : s.isFinished with
    | true => exact ⟨_, s, spend_of_finished hfinished done 0, h, hfinished, Nat.le_refl _, by simp⟩
    | false =>
      refine ⟨_, s, spend_zero done s, ?_⟩
      rw [hfinished]
      refine ⟨h.fault, ?_⟩
      simp only [completeWithin, hfinished]
      rfl
  | succ left ih =>
    cases hfinished : s.isFinished with
    | true => exact ⟨_, s, spend_of_finished hfinished done (left + 1), h, hfinished,
        Nat.le_add_right .., by simp⟩
    | false =>
      have hcomplete := completeWithin_succ limit left hfinished
      rcases h.step hfinished with ⟨s₁, hstep, h₁⟩ | ⟨e, s₁, hstep, hfault, hfatal⟩
      · rw [hstep] at hcomplete
        cases hredraw : s₁.config.render.isRequested s₁.world with
        | true =>
          refine ⟨⟨done + 1, .renderRequested, none⟩, s₁.clearRender, ?_, h₁.clearRender,
            Nat.lt_succ_self done, ?_, ?_⟩
          · simp only [spend, hfinished, hstep, hredraw]
            rfl
          · show done + 1 ≤ done + (left + 1)
            omega
          · rw [hcomplete, show done + (left + 1) - (done + 1) = left by omega]
        | false =>
          obtain ⟨report, s', hspend, hspent⟩ := ih h₁.clearRender (done + 1)
          refine ⟨report, s', ?_, hspent.succ hcomplete⟩
          simp only [spend, hfinished, hstep, hredraw]
          exact hspend
      · rw [hstep] at hcomplete
        refine ⟨⟨done, .faulted, some e⟩, s₁, ?_, e, hfault, hcomplete⟩
        simp only [spend, hfinished, hstep, hfatal]
        rfl

theorem runBudget_budgeted (h : s.Going) (limit budget : Nat) :
    ∃ report s', runBudget budget s = .ok report s' ∧ Budgeted limit 0 budget s report s' := by
  obtain ⟨loaded, hloaded⟩ := h.program
  obtain ⟨report, s', hspend, hspent⟩ := spend_budgeted h limit 0 budget
  refine ⟨report, s', ?_, hspent⟩
  unfold runBudget
  rw [get_bind, hloaded, h.fault]
  exact hspend

theorem load_going {config : Config σ} (honest : ∀ c ∈ config.capabilities, c.Honest)
    {w : σ} {source : String} (hload : load source (.start config w) = .ok () s) : s.Going := by
  have hsafe := load_safe source (start_sound config w honest)
  unfold SafeUpTo at hsafe
  rw [hload] at hsafe
  obtain ⟨root, definitions, code, -, rfl⟩ := load_eq_ok hload
  exact ⟨hsafe.1, ⟨_, rfl⟩, rfl⟩

end Session

/-! ## The loop -/

namespace CommandLine

open Session

/-- What is said of a program that has used up its steps. -/
def unfinished (limit : Nat) : String :=
  s!"program did not finish within {limit} steps"

/-- The loop of a run, turn by turn, with what it says in the end. The steps taken so far are never
more than the limit when they are taken away from it. -/
inductive Loop (file source : String) (limit : Nat) : Nat → Session σ → Except String Unit →
    Session σ → Prop where
  | finished {total : Nat} {s : Session σ} (hfinished : s.isFinished = true) :
    Loop file source limit total s (.ok ()) s
  | resumed {total : Nat} {s s' s'' : Session σ} {report : BudgetReport}
      {result : Except String Unit}
      (hrunning : s.isFinished = false) (hle : total ≤ limit)
        (hspent : runBudget (limit - total) s = .ok report s')
      (hstop : report.stop = .renderRequested ∨ report.stop = .finished)
      (hrest : Loop file source limit (total + report.steps) s' result s'') :
        Loop file source limit total s result s''
  | exhausted {total : Nat} {s s' : Session σ} {report : BudgetReport}
      (hrunning : s.isFinished = false)
      (hle : total ≤ limit) (hspent : runBudget (limit - total) s = .ok report s')
        (hstop : report.stop = .exhausted) :
    Loop file source limit total s (.error (unfinished limit)) s'
  | faulted {total : Nat} {s s' : Session σ} {report : BudgetReport} {e : Error}
      (hrunning : s.isFinished = false)
      (hle : total ≤ limit) (hspent : runBudget (limit - total) s = .ok report s')
        (hstop : report.stop = .faulted)
      (hfault : s'.fault = some e) :
        Loop file source limit total s (.error (Report.render e file source)) s'
  | thrown {total : Nat} {s s' : Session σ} {e : Error} (hrunning : s.isFinished = false)
      (hle : total ≤ limit)
      (hspent : runBudget (limit - total) s = .error e s') :
    Loop file source limit total s (.error (Report.render e file source)) s'

/-- What the loop says of the end of a run to completion. -/
inductive Tells (file source : String) (limit : Nat) :
    EStateM.Result Error (Session σ) Value → Except String Unit → Session σ → Prop where
  | value {v : Value} {s : Session σ} (hresult : s.result? = some v) :
    Tells file source limit (.ok v s) (.ok ()) s
  | fault {e : Error} {s : Session σ} (hfault : s.fault = some e) :
    Tells file source limit (.error e s) (.error (Report.render e file source)) s
  | outOfSteps {s : Session σ} (hfault : s.fault = none) :
    Tells file source limit (.error (.runtime (.outOfSteps limit) none) s)
      (.error (unfinished limit)) s

theorem drive_of_finished (file source : String) (limit rounds total : Nat)
    (hfinished : s.isFinished = true) :
    drive file source limit (rounds + 1) total s = (.ok (), s) := by
  rw [drive, if_pos hfinished]

/-- One turn of the loop. -/
theorem drive_succ (file source : String) (limit rounds total : Nat)
    (hrunning : s.isFinished = false) {report : BudgetReport}
    (hspent : runBudget (limit - total) s = .ok report s') :
    drive file source limit (rounds + 1) total s = match report.stop with
      | .finished => drive file source limit rounds (total + report.steps) s'
      | .renderRequested => drive file source limit rounds (total + report.steps) s'
      | .exhausted => (.error (unfinished limit), s')
      | .faulted =>
        match s'.fault with
        | some e => (.error (Report.render e file source), s')
        | none => (.error "program faulted without an error", s') := by
  simp only [drive, hrunning, hspent]
  rfl

/-- From every state on the way the loop ends, in no more rounds than there are steps left, and as a
run to completion. -/
theorem drive_tells (file source : String) (limit : Nat) (h : s.Going) {total left : Nat}
    (hleft : total + left = limit) :
    ∃ result s', Loop file source limit total s result s' ∧
      (∀ rounds, left + 2 ≤ rounds → drive file source limit rounds total s = (result, s')) ∧
      Tells file source limit (completeWithin limit left s) result s' := by
  induction left using Nat.strongRecOn generalizing s total with
  | _ left ih =>
  cases hfinished : s.isFinished with
  | true =>
    obtain ⟨v, hresult, hcomplete⟩ := h.completeWithin_of_finished hfinished limit left
    refine ⟨.ok (), s, .finished hfinished, fun rounds hrounds => ?_, hcomplete ▸ .value hresult⟩
    obtain ⟨rounds, rfl⟩ : ∃ n, rounds = n + 1 := ⟨rounds - 1, by omega⟩
    exact drive_of_finished file source limit rounds total hfinished
  | false =>
    have hle : total ≤ limit := by omega
    have hrest : limit - total = left := by omega
    obtain ⟨report, s', hspent, hmeans⟩ := runBudget_budgeted h limit left
    rw [← hrest] at hspent
    have hdrive := fun rounds => drive_succ file source limit rounds total hfinished hspent
    unfold Budgeted at hmeans
    cases hstop : report.stop with
    | renderRequested =>
      simp only [hstop] at hmeans hdrive
      obtain ⟨h', hsome, hfew, hcomplete⟩ := hmeans
      have hleft' : total + report.steps + (left - report.steps) = limit := by omega
      obtain ⟨result, s'', hloop, hrounds, htells⟩ := ih (left - report.steps) (by omega) h' hleft'
      rw [Nat.zero_add] at hcomplete
      refine ⟨result, s'', .resumed hfinished hle hspent (.inl hstop) hloop, fun rounds hle => ?_,
        hcomplete ▸ htells⟩
      obtain ⟨rounds, rfl⟩ : ∃ n, rounds = n + 1 := ⟨rounds - 1, by omega⟩
      rw [hdrive]
      exact hrounds rounds (by omega)
    | finished =>
      simp only [hstop] at hmeans hdrive
      obtain ⟨h', hend, hfew, hcomplete⟩ := hmeans
      obtain ⟨v, hresult, hvalue⟩ :=
        h'.completeWithin_of_finished hend limit (0 + left - report.steps)
      refine ⟨.ok (), s', .resumed hfinished hle hspent (.inr hstop) (.finished hend),
        fun rounds hle => ?_, ?_⟩
      · obtain ⟨rounds, rfl⟩ : ∃ n, rounds = n + 2 := ⟨rounds - 2, by omega⟩
        rw [hdrive]
        exact drive_of_finished file source limit rounds _ hend
      · rw [hcomplete, hvalue]
        exact .value hresult
    | exhausted =>
      simp only [hstop] at hmeans hdrive
      obtain ⟨hfault, hcomplete⟩ := hmeans
      refine ⟨.error (unfinished limit), s', .exhausted hfinished hle hspent hstop,
        fun rounds hle => ?_,
        hcomplete ▸ .outOfSteps hfault⟩
      obtain ⟨rounds, rfl⟩ : ∃ n, rounds = n + 1 := ⟨rounds - 1, by omega⟩
      exact hdrive rounds
    | faulted =>
      simp only [hstop] at hmeans hdrive
      obtain ⟨e, hfault, hcomplete⟩ := hmeans
      refine ⟨.error (Report.render e file source), s', .faulted hfinished hle hspent hstop hfault,
        fun rounds hle => ?_,
        hcomplete ▸ .fault hfault⟩
      obtain ⟨rounds, rfl⟩ : ∃ n, rounds = n + 1 := ⟨rounds - 1, by omega⟩
      rw [hdrive, hfault]

/-! ## What is said -/

theorem head?_append {a : String} {c : Char} (h : a.toList.head? = some c) (b : String) :
    (a ++ b).toList.head? = some c := by
  rw [String.toList_append, List.head?_append, h]
  rfl

theorem head?_render (e : Error) (file source : String) :
    (Report.render e file source).toList.head? = some 'e' ∨
    (Report.render e file source).toList.head? = some 'E' := by
  unfold Report.render
  split
  · exact .inl (head?_append (head?_append rfl _) _)
  · refine .inr ?_
    simp only [List.cons_append, List.map_cons, String.join_cons]
    exact head?_append (head?_append (head?_append rfl _) _) _

/-- No report says that the steps have been used up. -/
theorem render_ne_unfinished (e : Error) (file source : String) (limit : Nat) :
    Report.render e file source ≠ unfinished limit := by
  intro heq
  have hunfinished : (unfinished limit).toList.head? = some 'p' :=
    head?_append (head?_append rfl _) _
  rw [← heq] at hunfinished
  rcases head?_render e file source with h | h
  · rw [h] at hunfinished
    cases hunfinished
  · rw [h] at hunfinished
    cases hunfinished

variable {file source : String} {limit : Nat} {end? : EStateM.Result Error (Session σ) Value}
  {result : Except String Unit}

theorem Tells.value_iff (h : Tells file source limit end? result s') (v : Value) :
    result = .ok () ∧ s'.result? = some v ↔ end? = .ok v s' := by
  cases h with
  | value hresult =>
    constructor
    · rintro ⟨-, hv⟩
      cases hresult.symm.trans hv
      rfl
    · rintro ⟨⟩
      exact ⟨rfl, hresult⟩
  | fault hfault => exact ⟨nofun, nofun⟩
  | outOfSteps hfault => exact ⟨nofun, nofun⟩

theorem Tells.fault_iff (h : Tells file source limit end? result s') (e : Error) :
    result = .error (Report.render e file source) ∧ s'.fault = some e ↔ end? = .error e s' ∧
      s'.fault = some e := by
  cases h with
  | value hresult => exact ⟨nofun, nofun⟩
  | fault hfault =>
    refine and_congr_left fun he => ?_
    cases hfault.symm.trans he
    exact ⟨fun _ => rfl, fun _ => rfl⟩
  | outOfSteps hfault =>
    refine and_congr_left fun he => ?_
    cases hfault.symm.trans he

theorem Tells.unfinished_iff (h : Tells file source limit end? result s') :
    result = .error (unfinished limit) ↔ end? = .error (.runtime (.outOfSteps limit) none) s' ∧
      s'.fault = none := by
  cases h with
  | value hresult => exact ⟨nofun, nofun⟩
  | @fault e s' hfault =>
    constructor
    · intro heq
      exact absurd (Except.error.inj heq) (render_ne_unfinished e file source limit)
    · rintro ⟨-, hnone⟩
      cases hfault.symm.trans hnone
  | outOfSteps hfault => exact ⟨fun _ => ⟨rfl, hfault⟩, fun _ => rfl⟩

theorem session_honest (settings : Settings) :
    ∀ c ∈ (session settings).config.capabilities, c.Honest := by
  intro c hc
  have hcases : c = .builtins ∨ c = .frame World.renderSignal ∨ c = .clock ∨ c = .console := by
    simp only [session, Session.start, Config.withCapability, Config.ofSettings] at hc
    split at hc <;> simp at hc <;> tauto
  rcases hcases with rfl | rfl | rfl | rfl
  · exact Capability.builtins_complies.honest
  · exact (Capability.frame_complies _).honest
  · exact Capability.clock_complies.honest
  · exact Capability.console_complies.honest

theorem runSource_of_value {settings : Settings} {s s' : Session World} {v : Value}
    (hload : load source (session settings) = .ok () s)
    (hdrive : drive file source limit (limit + 2) 0 s = (.ok (), s'))
    (hresult : s'.result? = some v) :
    runSource file source settings limit = ⟨0, s'.world.console ++ (v.render ++ "\n"), ""⟩ := by
  simp only [runSource, hload, hdrive, hresult]

theorem runSource_of_error {settings : Settings} {s s' : Session World} {message : String}
    (hload : load source (session settings) = .ok () s)
    (hdrive : drive file source limit (limit + 2) 0 s = (.error message, s')) :
    runSource file source settings limit = failed s'.world.console message := by
  simp only [runSource, hload, hdrive]

/-- A program that has been loaded and is run in budgets, as the command line does it. Its loop ends
and never takes more from the limit than is left of it, and it ends as a run to completion does, in
the same session: with a value if and only if that has this value, with the report of an error if
and only if that has failed with this error, and for want of steps if and only if that has failed
so. The command line prints the output of the program and then what its loop has ended with. -/
theorem run_in_budgets (file source : String) (limit : Nat) :
    (∀ {σ : Type} (config : Config σ) (w : σ)
      (s : Session σ), (∀ c ∈ config.capabilities, c.Honest) →
      load source (.start config w) = .ok () s →
      ∃ result s', Loop file source limit 0 s result s' ∧
        drive file source limit (limit + 2) 0 s = (result, s') ∧
        s.after (runToCompletion limit) = s' ∧
        (∀ v, result = .ok () ∧ s'.result? = some v ↔ runToCompletion limit s = .ok v s') ∧
        (∀ e, result = .error (Report.render e file source) ∧ s'.fault = some e ↔
          runToCompletion limit s = .error e s' ∧ s'.fault = some e) ∧
        (result = .error s!"program did not finish within {limit} steps" ↔
          runToCompletion limit s = .error (.runtime (.outOfSteps limit) none) s' ∧
            s'.fault = none)) ∧
    ∀ (settings : Settings) (s : Session World), load source (session settings) = .ok () s →
      (∀ v s', runToCompletion limit s = .ok v s' →
        runSource file source settings limit = ⟨0, s'.world.console ++ (v.render ++ "\n"), ""⟩) ∧
      ∀ e s', runToCompletion limit s = .error e s' →
        runSource file source settings limit = failed s'.world.console
        (if s'.fault.isSome then Report.render e file source
          else s!"program did not finish within {limit} steps") := by
  constructor
  · intro σ config w s honest hload
    obtain ⟨result, s', hloop, hdrive, htells⟩ :=
      drive_tells file source limit (load_going honest hload) (Nat.zero_add limit)
    refine ⟨result, s', hloop, hdrive _ (Nat.le_refl _), ?_, htells.value_iff, htells.fault_iff,
      htells.unfinished_iff⟩
    unfold after runToCompletion
    generalize completeWithin limit limit s = end? at htells
    cases htells <;> rfl
  · intro settings s hload
    obtain ⟨result, s', -, hdrive, htells⟩ :=
      drive_tells file source limit (load_going (session_honest settings) hload)
        (Nat.zero_add limit)
    have hdrive := hdrive _ (Nat.le_refl _)
    rw [runToCompletion]
    generalize completeWithin limit limit s = end? at htells
    cases htells with
    | value hresult =>
      refine ⟨fun v s' hcomplete => ?_, fun e s' hcomplete => by cases hcomplete⟩
      cases hcomplete
      exact runSource_of_value hload hdrive hresult
    | fault hfault =>
      refine ⟨fun v s' hcomplete => (by cases hcomplete), fun e s' hcomplete => ?_⟩
      cases hcomplete
      rw [hfault]
      exact runSource_of_error hload hdrive
    | outOfSteps hfault =>
      refine ⟨fun v s' hcomplete => (by cases hcomplete), fun e s' hcomplete => ?_⟩
      cases hcomplete
      rw [hfault]
      exact runSource_of_error hload hdrive

/-- The last step that is allowed asks for a redraw: the budget ends for that, the next one has no
steps, and the run has not finished. -/
theorem run_in_budgets_redraw : ∃ s : Session World, load "(render) 1" (session {}) = .ok () s ∧
    succeedsWith (fun report _ => report.steps == 2 && decide (report.stop = .renderRequested))
      (runBudget 2 s) = true ∧
    (∃ s', Loop "<eval>" "(render) 1" 2 0 s (.error "program did not finish within 2 steps") s') ∧
    runSource "<eval>" "(render) 1" {} 2 = ⟨1, "", "program did not finish within 2 steps\n"⟩ := by
  have hcheck : succeedsWith (fun _ s =>
      succeedsWith (fun report _ => report.steps == 2 && decide (report.stop = .renderRequested))
        (runBudget 2 s) &&
      failsWith (fun e s' => decide (e = .runtime (.outOfSteps 2) none) &&
        decide (s'.fault = none) &&
        decide (s'.world.console = "")) (runToCompletion 2 s))
      (load "(render) 1" (session {})) = true := by decide +kernel
  obtain ⟨_, s, hload, hcheck⟩ := succeedsWith_iff.mp hcheck
  rw [Bool.and_eq_true, failsWith_iff] at hcheck
  obtain ⟨hbudget, e, s₁, hcomplete, hends⟩ := hcheck
  simp only [Bool.and_eq_true, decide_eq_true_eq] at hends
  obtain ⟨⟨rfl, hfault⟩, hconsole⟩ := hends
  obtain ⟨hloop, hprinted⟩ := run_in_budgets "<eval>" "(render) 1" 2
  obtain ⟨result, s', hloop, -, hafter, -, -, hunfinished⟩ :=
    hloop (session {}).config {} s (session_honest {}) hload
  rw [after_of_error hcomplete] at hafter
  subst hafter
  have hresult := hunfinished.mpr ⟨hcomplete, hfault⟩
  refine ⟨s, hload, hbudget, ⟨s₁, hresult ▸ hloop⟩, ?_⟩
  rw [(hprinted {} s hload).2 _ _ hcomplete, hfault, hconsole]
  have htext : Text.trimEnd s!"program did not finish within {2} steps" ++ "\n" =
    "program did not finish within 2 steps\n" := by
    decide +kernel
  exact congrArg (Outcome.mk 1 "") htext

end CommandLine

end LiveLisp
