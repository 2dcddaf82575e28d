/-
  Rewinding to the present. As long as no edit has been taken up since the program was started,
  going to the step where the program is leaves it as it is, function table included
  (`rewindTo_present`). Keyframes know nothing of later edits: after one, the same rewind brings the
  old bodies back (`edit_lost_at_present`).
-/
import LiveLisp.Proofs.Session.TimeTravel

namespace LiveLisp.Session

open Capability

variable {σ : Type} {config : Config σ} {s s' : Session σ} {taken : List Snapshot}

/-- Sessions whose program runs as it was started, with the states given out since then. The program
has been loaded, or started again for an edit that is not of functions; after that the host has
travelled along its run, has handed in its source again, or has changed the world but for the states
of deterministic members. -/
inductive Unedited (config : Config σ) : Session σ → List Snapshot → Prop where
  | loaded {s s' : Session σ} {source : String} (hconfig : s.config = config)
    (hrun : load source s = .ok () s') :
    Unedited config s' []
  | restarted {s s' : Session σ} {source : String} (hconfig : s.config = config)
      (hrun : update source s = .ok .restarted s') : Unedited config s' []
  | unchanged {s s' : Session σ} {taken : List Snapshot} {source : String}
      (h : Unedited config s taken)
      (hrun : update source s = .ok .unchanged s') : Unedited config s' taken
  | outside {s : Session σ} {taken : List Snapshot} (h : Unedited config s taken) {w : σ}
      (hw : ∀ c ∈ s.config.capabilities, c.isDeterministic = true → c.save w = c.save s.world) :
    Unedited config { s with world := w } taken
  | operate {s : Session σ} {taken : List Snapshot} (h : Unedited config s taken) {op : Operation}
      (htravels : op.Travels) (hallowed : op.Allowed taken) :
    Unedited config (s.after op.run) (op.given s ++ taken)

theorem update_restarted {source : String} (h : update source s = .ok .restarted s') :
    ∃ form definitions code units, code.Sound ∧
      s' = s.install source form definitions code units := by
  obtain ⟨root, hroot⟩ := ofProgram_of_update h
  cases hloaded : s.loaded with
  | none =>
    rw [update_of_unloaded hroot hloaded] at h
    split at h
    · next hload =>
      cases h
      obtain ⟨root, definitions, code, hprepare, rfl⟩ := load_eq_ok hload
      exact ⟨_, _, _, _, Code.sound_ofProgram (prepare_eq_ok hprepare).2.2, rfl⟩
    · cases h
  | some loaded =>
    rw [update_eq hroot hloaded] at h
    split at h
    · cases h
    · split at h
      · cases h
      · next edit hedit =>
        split at h
        · cases h
          exact ⟨_, _, _, _, (edit_sound hedit).1, rfl⟩
        · exact absurd rfl (adopt_outcome h).1

theorem update_unchanged {source : String} (h : update source s = .ok .unchanged s') :
    ∃ loaded, s.loaded = some loaded ∧ s' = { s with loaded := some { loaded with source } } := by
  obtain ⟨root, hroot⟩ := ofProgram_of_update h
  cases hloaded : s.loaded with
  | none =>
    rw [update_of_unloaded hroot hloaded] at h
    split at h <;> cases h
  | some loaded =>
    rw [update_eq hroot hloaded] at h
    split at h
    · cases h
      exact ⟨loaded, rfl, rfl⟩
    · split at h
      · cases h
      · split at h
        · cases h
        · exact absurd rfl (adopt_outcome h).2

theorem Unedited.onTape (hcapabilities : Repeatable config.capabilities config.render)
    (h : Unedited config s taken) :
    ∃ tape, OnTape config tape s ∧ ∀ k ∈ taken, KeptOn config tape k := by
  induction h with
  | loaded hconfig hrun =>
    subst hconfig
    obtain ⟨tape, h⟩ := load_onTape hcapabilities hrun
    exact ⟨tape, h, nofun⟩
  | restarted hconfig hrun =>
    subst hconfig
    obtain ⟨form, definitions, code, units, hcode, rfl⟩ := update_restarted hrun
    exact ⟨_, install_onTape hcapabilities _ form definitions hcode units, nofun⟩
  | unchanged h hrun ih =>
    obtain ⟨tape, hs, htaken⟩ := ih
    obtain ⟨loaded, hloaded, rfl⟩ := update_unchanged hrun
    have hsound := (update_safe _ hs.sound).sound_of_ok hrun
    obtain ⟨rfl, a, ha, hat⟩ := hs.present
    refine ⟨tape, ⟨hsound, hs.repeatable, ⟨rfl, a, ?_, hat⟩, hs.kept, hs.first, hs.leads⟩, htaken⟩
    rw [← ha, moment?_of_loaded hloaded]
    rfl
  | outside h hw ih =>
    obtain ⟨tape, hs, htaken⟩ := ih
    exact ⟨tape, hs.setWorld (recorded_congr (hs.present.1 ▸ hw)), htaken⟩
  | operate h htravels hallowed ih =>
    obtain ⟨tape, hs, htaken⟩ := ih
    obtain ⟨tape', hlonger, hs', -, hgiven⟩ := hs.operate htaken htravels hallowed
    refine ⟨tape', hs', fun k hk => ?_⟩
    rcases List.mem_append.mp hk with hk | hk
    · exact hgiven k hk
    · exact (htaken k hk).mono hlonger

/-- Going to the step where an unedited program is leaves its machine as it is, with all stacks and
all functions, and the output. -/
theorem rewindTo_present (hcapabilities : Repeatable config.capabilities config.render)
    (h : Unedited config s taken) {output : σ → String}
    (houtput : ∀ w w', recorded config.capabilities w = recorded config.capabilities w' →
      output w = output w') :
    ∃ s', rewindTo s.steps s = .ok () s' ∧ s'.steps = s.steps ∧ s'.fault = none ∧
      s'.loaded.map (·.machine) = s.loaded.map (·.machine) ∧ output s'.world = output s.world := by
  obtain ⟨tape, hs, -⟩ := h.onTape hcapabilities
  obtain ⟨s', hrun, hs', hsteps, hfault⟩ := hs.rewindTo_reached hs.steps_lt
  obtain ⟨rfl, a, ha, hat⟩ := hs.present
  obtain ⟨hconfig, b, hb, hbt⟩ := hs'.present
  rw [hsteps, hat] at hbt
  cases hbt
  obtain ⟨loaded, hloaded, hmachine, hrecorded⟩ := moment?_eq_some_iff.mp ha
  obtain ⟨program, hprogram, hmachine', hrecorded'⟩ := moment?_eq_some_iff.mp hb
  refine ⟨s', hrun, hsteps, hfault, ?_, houtput _ _ ?_⟩
  · rw [hloaded, hprogram, Option.map_some, Option.map_some, hmachine, hmachine']
  · rw [hrecorded, ← hrecorded', hconfig]

/-- A program that has printed once and is to print again. -/
theorem rewindTo_present_printing : ∃ (s s' : Session World)
    (taken : List Snapshot), Unedited playground s taken ∧
    s.steps = 4 ∧ rewindTo s.steps s = .ok () s' ∧ s'.steps = s.steps ∧ s'.fault = none ∧
      s'.loaded.map (·.machine) = s.loaded.map (·.machine) ∧
        s'.world.console = s.world.console := by
  have hrun : (match load "(print \"a\") (print \"b\")" (.start playground {}) with
      | .ok _ s => (s.after (Operation.runBudget 4).run).steps == 4
      | .error _ _ => false) = true := by decide +kernel
  split at hrun
  · next s hload =>
    have hloaded : Unedited playground s [] := .loaded rfl hload
    have hbudget : (Operation.runBudget 4).Travels := trivial
    have hstepped := hloaded.operate hbudget trivial
    have houtput : ∀ w w' :
        World, recorded playground.capabilities w = recorded playground.capabilities w' →
        w.console = w'.console := fun w w' h => recorded_playground_eq_iff.mp h
    obtain ⟨s', hback⟩ := rewindTo_present playground_repeatable hstepped houtput
    exact ⟨_, s', _, hstepped, beq_iff_eq.mp hrun, hback⟩
  · cases hrun

/-- The parameters and the body that a name has in the function table. -/
def body? (s : Session σ) (name : String) : Option (List String × Code) :=
  s.loaded.bind fun loaded =>
    (loaded.machine.memory.functions.entries.get? name).map fun function =>
      (function.params, function.code)

/-- An edit of a function before its first call is taken up at once; going to the step where the
program is, it is lost again. -/
theorem edit_lost_at_present : ∃ s s' : Session World,
    (do load "(defn f () 1) (f)"; step; step; step; update "(defn f () (+ 1 1)) (f)" : SessionM
          World UpdateOutcome)
      (.start playground {}) = .ok (.patched ["f"]) s ∧
    s.fault = none ∧ rewindTo s.steps s = .ok () s' ∧ s'.body? "f" ≠ s.body? "f" := by
  have hrun : (match (do
        load "(defn f () 1) (f)"; step; step; step; update "(defn f () (+ 1 1)) (f)" :
          SessionM World UpdateOutcome)
        (.start playground {}) with
      | .ok outcome s =>
        decide (outcome = .patched ["f"]) && s.fault.isNone &&
          (s.body? "f").map (·.2.length) == some 5 &&
          match rewindTo s.steps s with
          | .ok _ s' => (s'.body? "f").map (·.2.length) == some 2
          | .error _ _ => false
      | .error _ _ => false) = true := by decide +kernel
  split at hrun
  · next outcome s hedited =>
    simp only [Bool.and_eq_true, decide_eq_true_eq, Option.isNone_iff_eq_none, beq_iff_eq] at hrun
    obtain ⟨⟨⟨rfl, hfault⟩, hnew⟩, hrewound⟩ := hrun
    split at hrewound
    · next s' hback =>
      refine ⟨s, s', hedited, hfault, hback, fun hsame => ?_⟩
      rw [hsame, hnew] at hrewound
      cases hrewound
    · cases hrewound
  · cases hrun

end LiveLisp.Session
