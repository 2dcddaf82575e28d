/-
  A completed program leaves exactly what its result needs. The machine is torn down in the step
  that ends the program, and nothing that a host does after that, a collection, an edit or a return
  to a state of the finished program, brings a scope back; so whenever a session is at the end of
  its program, the records that are left are those that the closures in the result reach, however
  deep in lists they stand (`finished_leaves`).
-/
import LiveLisp.Proofs.Machine.TornDown
import LiveLisp.Proofs.Session.Lasting

namespace LiveLisp

variable {σ : Type}

/-- Tidying up tears down a program that has finished. -/
theorem Machine.tidied_orderly {m : Machine} (hs : m.Sound) (h : m.memory.functions.Distinct)
    (interval steps : Nat) :
    (m.tidied interval steps).Orderly := by
  unfold tidied
  cases hdone : m.context.done with
  | true =>
    obtain ⟨n, m', hrun, hdistinct, htorn⟩ := finish_tornDown hs h
    simp only [if_true, hrun]
    exact ⟨hdistinct, fun _ => htorn⟩
  | false =>
    have horderly : m.Orderly :=
      ⟨h, fun hfinished => absurd (hdone.symm.trans hfinished) Bool.false_ne_true⟩
    cases 0 < interval && steps % interval == 0 with
    | true =>
      obtain ⟨n, m', hrun, horderly'⟩ := collectGarbage_orderly hs horderly
      simp only [Bool.false_eq_true, if_false, if_true, hrun]
      exact horderly'
    | false => exact horderly

theorem Machine.orderly_lasts : Machine.Lasts Machine.Orderly where
  start := Machine.start_orderly
  step := by
    intro σ host w w' m m' hs hhost h hstep interval steps
    have hs' : m'.Sound := by
      rcases Machine.step_sound hs hhost with ⟨m₁, hrun, hs₁⟩ | ⟨e, hrun, -⟩
      · cases hrun.symm.trans hstep
        exact hs₁
      · cases hrun.symm.trans hstep
    exact Machine.tidied_orderly hs' (Machine.step_distinct hs hhost h.distinct hstep) interval
      steps
  collect := Machine.collectGarbage_orderly
  patch := fun name revision h => h.patch name revision

namespace Session

variable {config : Config σ} {s : Session σ} {taken : List Snapshot}

/-- Whatever comes of an operation, the session after it has been reached. -/
theorem Reached.operate (h : Reached config s taken) {op : Operation} (hop : op.Allowed taken) :
    ∃ taken', Reached config (s.after op.run) taken' := by
  cases hrun : op.run s with
  | ok answer s' =>
    rw [after_of_ok hrun]
    exact ⟨_, h.ok hop hrun⟩
  | error e s' =>
    rw [after_of_error hrun]
    exact ⟨_, h.error hop hrun⟩

/-- At the end of a program no environment is left on the stack and none in the function table, and
of the scopes those that the closures in the result reach; so none at all if the result has no
closures. -/
theorem finished_leaves (honest : ∀ c ∈ config.capabilities, c.Honest) (h : Reached config s taken)
    (hfinished : s.isFinished = true) :
    ∃ loaded v, s.loaded = some loaded ∧ s.result? = some v ∧
      loaded.machine.context.environments = [] ∧
      (∀ entry ∈ loaded.machine.memory.functions.entries.values, entry.env = none) ∧
      (∀ t, loaded.machine.memory.store.contains t ↔
        loaded.machine.memory.store.Reaches (v.closures.filterMap (·.scope)) t) ∧
      (s.liveScopes = 0 ↔ v.closures = []) := by
  obtain ⟨hs, -⟩ := h.holds Machine.orderly_lasts honest
  cases hloaded : s.loaded with
  | none =>
    rw [isFinished, context?, hloaded] at hfinished
    cases hfinished
  | some loaded =>
    rw [isFinished_eq hloaded] at hfinished
    obtain ⟨v, hv, henvironments, hretired, hswept, hlive⟩ :=
      (hs.machine loaded hloaded).leaves (hs.sound.machine loaded hloaded) hfinished
    refine ⟨loaded, v, rfl, ?_, henvironments, hretired, hswept, ?_⟩
    · rw [result?, context?, hloaded]
      exact hv
    · rw [liveScopes, hloaded]
      exact hlive

/-- The stacks after a step are those that the instruction has left, also if it was the last one. -/
theorem context?_after_step (hs : s.Sound) {loaded : Loaded} (hruns : s.Runs loaded)
    {m : Machine} {r : Replay σ}
      (hexec : Exec.step (replayHost s.config.capabilities s.steps) ⟨loaded.machine,
        ⟨s.world, s.timeline.answers⟩⟩ =
      .ok () ⟨m, r⟩) : (s.after Session.step).context? = some m.context := by
  rcases step_of_running hs hruns with ⟨m₁, v, hexec', hm, -, hstep⟩ | ⟨e, hexec', -, -⟩
  · cases hexec'.symm.trans hexec
    rw [after_of_ok hstep]
    exact congrArg some (context_tidied hm ..)
  · cases hexec'.symm.trans hexec

/-- A program that is about to end, with a closure in a list in a list. -/
def ending : Session World :=
  ((Session.start playground {}).after
    (Operation.load "(defn make (n) (lambda () n)) (list 1 (list (make 3)))").run).after
      (Operation.runBudget 16).run

theorem reached_ending : ∃ taken, Reached playground ending taken := by
  have hload : (Operation.load "(defn make (n) (lambda () n)) (list 1 (list (make 3)))").Allowed
    [] := trivial
  have hstart : Reached playground (.start playground {}) [] := .start _
  obtain ⟨taken, hbegun⟩ := hstart.operate hload
  have hbudget : (Operation.runBudget 16).Allowed taken := trivial
  exact hbegun.operate hbudget

/-- The closure keeps scopes, and the function that made it has lost its own. -/
theorem finished_leaves_nested :
    ∃ (s : Session World) (taken : List Snapshot), Reached playground s taken ∧
    s.isFinished = true ∧ s.liveScopes ≠ 0 ∧
    ∃ loaded v, s.loaded = some loaded ∧ s.result? = some v ∧
      loaded.machine.context.environments = [] ∧
      (∀ entry ∈ loaded.machine.memory.functions.entries.values, entry.env = none) ∧
      (∀ t, loaded.machine.memory.store.contains t ↔
        loaded.machine.memory.store.Reaches (v.closures.filterMap (·.scope)) t) ∧
      (s.liveScopes = 0 ↔ v.closures = []) := by
  have hrun : (ending.loaded.any fun loaded =>
      ending.fault.isNone && !loaded.machine.context.done &&
      succeedsWith (fun _ r => r.machine.context.done && r.machine.context.values.all fun v =>
        !v.closures.isEmpty)
        (Exec.step (replayHost ending.config.capabilities ending.steps)
          ⟨loaded.machine, ⟨ending.world, ending.timeline.answers⟩⟩)) = true := by decide +kernel
  rw [Option.any_eq_true] at hrun
  obtain ⟨loaded, hloaded, hrun⟩ := hrun
  simp only [Bool.and_eq_true, Option.isNone_iff_eq_none, Bool.not_eq_true',
    succeedsWith_iff, List.all_eq_true, List.isEmpty_eq_false_iff] at hrun
  obtain ⟨⟨hfault, hrunning⟩, _, ⟨m, r⟩, hexec, hdone, hclosures⟩ := hrun
  have honest : ∀ c ∈ playground.capabilities, c.Honest :=
    fun c hc => (playground_complies c hc).honest
  obtain ⟨taken, hbefore⟩ := reached_ending
  have hlast : Operation.step.Allowed taken := trivial
  obtain ⟨taken, hreached⟩ := hbefore.operate hlast
  have hcontext : (Session.after ending Operation.step.run).context? = some m.context := by
    have hafter : Session.after ending Operation.step.run = Session.after ending Session.step :=
      after_bind_pure _ _ _
    rw [hafter]
    exact context?_after_step (hbefore.sound honest).1 ⟨hloaded, hfault, hrunning⟩ hexec
  have hfinished : (Session.after ending Operation.step.run).isFinished = true := by
    rw [isFinished, hcontext]
    exact hdone
  have hleaves := finished_leaves honest hreached hfinished
  obtain ⟨_, v, -, hv, -, -, -, hlive⟩ := hleaves
  refine ⟨_, taken, hreached, hfinished, fun hnone => ?_, finished_leaves honest hreached hfinished⟩
  have hvalue : m.context.values = [v] := by
    rw [result?, hcontext, Option.bind_some, Context.result?] at hv
    split at hv
    · next hvalues =>
      cases hv
      exact hvalues
    · cases hv
  exact hclosures v (hvalue ▸ List.mem_singleton_self v) (hlive.mp hnone)

end Session

end LiveLisp
