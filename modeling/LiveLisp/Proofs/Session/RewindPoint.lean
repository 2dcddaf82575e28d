/-
  Where an edit goes back to. A checkpoint is the state before the last call of a function
  (`checkpoint?_forward`), so an edit of functions takes the program to the earliest of their last
  calls, as the run was there, and forgets what came after; if none of them has been called, their
  bodies are replaced in place (`update_rewinds`).
-/
import Mathlib.Data.List.Induction
import LiveLisp.Proofs.Session.Again

namespace LiveLisp

variable {σ : Type}

/-! ## The earliest checkpoint -/

namespace Timeline

/-- What `earliest?` makes of its names: nothing if none of them has a checkpoint, and otherwise one
whose checkpoint no other's is before. -/
theorem earliest?_spec (t : Timeline) (names : List String) :
    match t.earliest? names with
    | none => ∀ name ∈ names, t.checkpoint? name = none
    | some (name, step) => name ∈ names ∧ (∃ k, t.checkpoint? name = some k ∧ k.step = step) ∧
        ∀ other ∈ names, ∀ k, t.checkpoint? other = some k → step ≤ k.step := by
  induction names using List.reverseRecOn with
  | nil => exact nofun
  | append_singleton names last ih =>
    unfold earliest? at *
    rw [List.foldl_append, List.foldl_cons, List.foldl_nil]
    generalize names.foldl _ none = best at ih
    cases hlast : t.checkpoint? last with
    | none =>
      cases best with
      | none =>
        intro name hname
        rcases List.mem_append.mp hname with hname | hname
        · exact ih name hname
        · rw [List.mem_singleton.mp hname, hlast]
      | some found =>
        obtain ⟨hmem, hfound, hleast⟩ := ih
        refine ⟨List.mem_append_left _ hmem, hfound, fun other hother k hk => ?_⟩
        rcases List.mem_append.mp hother with hother | hother
        · exact hleast other hother k hk
        · rw [List.mem_singleton.mp hother, hlast] at hk
          cases hk
    | some k =>
      have hself : last ∈ names ++ [last] := List.mem_append_right _ (List.mem_singleton_self _)
      cases best with
      | none =>
        refine ⟨hself, ⟨k, hlast, rfl⟩, fun other hother k' hk' => ?_⟩
        rcases List.mem_append.mp hother with hother | hother
        · rw [ih other hother] at hk'
          cases hk'
        · rw [List.mem_singleton.mp hother, hlast] at hk'
          cases hk'
          exact Nat.le_refl _
      | some found =>
        obtain ⟨first, step⟩ := found
        obtain ⟨hmem, hfound, hleast⟩ := ih
        by_cases hle : step ≤ k.step
        · simp only [if_pos hle]
          refine ⟨List.mem_append_left _ hmem, hfound, fun other hother k' hk' => ?_⟩
          rcases List.mem_append.mp hother with hother | hother
          · exact hleast other hother k' hk'
          · rw [List.mem_singleton.mp hother, hlast] at hk'
            cases hk'
            exact hle
        · simp only [if_neg hle]
          refine ⟨hself, ⟨k, hlast, rfl⟩, fun other hother k' hk' => ?_⟩
          rcases List.mem_append.mp hother with hother | hother
          · have := hleast other hother k' hk'
            omega
          · rw [List.mem_singleton.mp hother, hlast] at hk'
            cases hk'
            exact Nat.le_refl _

end Timeline

namespace Session

open Capability

variable {s s₁ : Session σ} {loaded : Loaded} {f : String}

/-! ## Forward runs -/

/-- The session when so many steps have been taken or tried. -/
def forward (s : Session σ) : Nat → Session σ
  | 0 => s
  | n + 1 => (s.forward n).after Session.step

/-- The program is about to call a function by its name. -/
def Calls (s : Session σ) (f : String) : Prop :=
  ∃ loaded, s.Runs loaded ∧ loaded.machine.context.pendingCall? = some f

/-- The last of the first `n` steps at which the function is called. -/
structure LastCall (s : Session σ) (n : Nat) (f : String) (j : Nat) : Prop where
  before : j < n
  calls : (s.forward j).Calls f
  last : ∀ i, j < i → i < n → ¬ (s.forward i).Calls f

/-- The same session but for its machine, its world and the remembered answers. -/
structure Kept (s : Session σ) (loaded : Loaded) (s' : Session σ) : Prop where
  config : s'.config = s.config
  checkpoints : s'.timeline.checkpoints = s.timeline.checkpoints
  keyframes : s'.timeline.keyframes = s.timeline.keyframes
  steps : s'.steps = s.steps
  program : ∃ machine, s'.loaded = some { loaded with machine }

theorem Kept.trans {s₂ : Session σ} (h : s.Kept loaded s₁) {machine : Machine}
    (h' : s₁.Kept { loaded with machine } s₂) : s.Kept loaded s₂ :=
  ⟨h'.config.trans h.config, h'.checkpoints.trans h.checkpoints, h'.keyframes.trans h.keyframes,
    h'.steps.trans h.steps,
    h'.program⟩

theorem onRunning_kept {α : Type} (x : Exec (Replay σ) α) (h : s.loaded = some loaded) :
    s.Kept loaded (s.after (onRunning x)) := by
  have hrun := onRunning_eq x h
  split at hrun
  · rw [after_of_ok hrun]
    exact ⟨rfl, rfl, rfl, rfl, _, rfl⟩
  · rw [after_of_error hrun]
    exact ⟨rfl, rfl, rfl, rfl, _, rfl⟩

theorem tidy_kept (h : s.loaded = some loaded) : s.Kept loaded (s.after tidy) := by
  have hmachine (x : MachineM Nat) :
    s.Kept loaded (s.after (onMachine x >>= fun _ => pure ())) := by
    have hkept : s.Kept loaded (s.after (onMachine x)) := onRunning_kept (Exec.onMachine x) h
    cases hx : onMachine x s with
    | ok n s' =>
      have hrun : (onMachine x >>= fun _ => pure ()) s = .ok () s' := bind_of_ok hx
      rwa [after_of_ok hrun, ← after_of_ok hx]
    | error e s' =>
      have hrun : (onMachine x >>= fun _ => pure ()) s = .error e s' := bind_of_error hx
      rwa [after_of_error hrun, ← after_of_error hx]
  have htidy : tidy s = (if s.isFinished then onMachine Machine.finish >>= fun _ => pure ()
      else if 0 < s.config.settings.gcInterval && s.steps % s.config.settings.gcInterval == 0 then
        onMachine Machine.collectGarbage >>= fun _ => pure ()
      else pure ()) s := rfl
  unfold after at hmachine ⊢
  rw [htidy]
  split_ifs
  · exact hmachine Machine.finish
  · exact hmachine Machine.collectGarbage
  · exact ⟨rfl, rfl, rfl, rfl, loaded.machine, h⟩

/-- A step of a program that runs. Until a keyframe is added, or an error is put down, only the
machine, the world, the remembered answers and the number of steps have changed, and the call that
was noted. -/
theorem step_kept (h : s.Runs loaded) :
    match Session.step s with
    | .ok _ s' => ∃ t machine, Kept { s.noted loaded.machine with steps := s.steps + 1 } loaded t ∧
        t.loaded = some { loaded with machine } ∧ s' = t.framed machine
    | .error e s' => ∃ t steps, Kept { s.noted loaded.machine with steps } loaded t ∧ s' = { t
        with fault := some e } := by
  have hloaded : (s.noted loaded.machine).loaded = some loaded := h.program
  have hkept := onRunning_kept (Exec.step (replayHost s.config.capabilities s.steps)) hloaded
  rw [step_eq h]
  cases hrun : onRunning (Exec.step (replayHost s.config.capabilities s.steps))
    (s.noted loaded.machine) with
  | error e s₁ =>
    rw [after_of_error hrun] at hkept
    have hfailed : runInstruction (s.noted loaded.machine) = .error e s₁ :=
      (get_bind _ _).trans (bind_of_error hrun)
    rw [bind_of_error (orFault_of_error hfailed)]
    exact ⟨s₁, s.steps, hkept, rfl⟩
  | ok _ s₁ =>
    rw [after_of_ok hrun] at hkept
    have hran : runInstruction (s.noted loaded.machine) = .ok ()
      { s₁ with steps := s₁.steps + 1 } :=
      (get_bind _ _).trans (bind_of_ok hrun)
    have hcounted : Kept { s.noted loaded.machine with steps := s.steps + 1 } loaded
      { s₁ with steps := s₁.steps + 1 } :=
      ⟨hkept.config, hkept.checkpoints, hkept.keyframes,
        congrArg (· + 1) hkept.steps, hkept.program⟩
    obtain ⟨machine, hprogram⟩ := hkept.program
    have htidied := tidy_kept (s := { s₁ with steps := s₁.steps + 1 }) hprogram
    rw [bind_of_ok (orFault_of_ok hran)]
    cases htidy : tidy { s₁ with steps := s₁.steps + 1 } with
    | error e s₂ =>
      rw [after_of_error htidy] at htidied
      rw [bind_of_error (orFault_of_error htidy)]
      exact ⟨s₂, s.steps + 1, hcounted.trans htidied, rfl⟩
    | ok _ s₂ =>
      rw [after_of_ok htidy] at htidied
      obtain ⟨tidied, htidied_loaded⟩ := htidied.program
      rw [bind_of_ok (orFault_of_ok htidy), recordKeyframe_eq htidied_loaded]
      exact ⟨s₂, tidied, hcounted.trans htidied, htidied_loaded, rfl⟩

/-- What a step of a program that runs leaves behind, whether or not it succeeds. -/
structure Passed (s : Session σ) (loaded : Loaded) (s' : Session σ) : Prop where
  config : s'.config = s.config
  program : ∃ machine, s'.loaded = some { loaded with machine }
  checkpoints : s'.timeline.checkpoints = s.calls loaded.machine
  steps : s'.fault = none → s'.steps = s.steps + 1

theorem after_step_of_running (h : s.Runs loaded) : s.Passed loaded (s.after Session.step) := by
  have hstep := step_kept h
  cases hrun : Session.step s with
  | error e s' =>
    rw [hrun] at hstep
    rw [after_of_error hrun]
    obtain ⟨t, steps, hkept, rfl⟩ := hstep
    exact ⟨hkept.config, hkept.program, hkept.checkpoints, nofun⟩
  | ok _ s' =>
    rw [hrun] at hstep
    rw [after_of_ok hrun]
    obtain ⟨t, machine, hkept, hprogram, rfl⟩ := hstep
    exact ⟨hkept.config, ⟨machine, hprogram⟩, hkept.checkpoints, fun _ => hkept.steps⟩

theorem after_step_of_resting (hloaded : s.loaded = some loaded)
    (h : ¬ s.Runs loaded) : s.after Session.step = s := by
  obtain ⟨e, he⟩ := step_of_resting hloaded h
  exact after_of_error he

theorem after_step_program (h : s.loaded = some loaded) :
    (s.after Session.step).config = s.config ∧
    ∃ machine, (s.after Session.step).loaded = some { loaded with machine } := by
  by_cases hruns : s.Runs loaded
  · have hpassed := after_step_of_running hruns
    exact ⟨hpassed.config, hpassed.program⟩
  · rw [after_step_of_resting h hruns]
    exact ⟨rfl, loaded.machine, h⟩

/-- Steps change nothing of a program but its machine. -/
theorem forward_program (h : s.loaded = some loaded) (n : Nat) :
    (s.forward n).config = s.config ∧ ∃ machine, (s.forward n).loaded =
    some { loaded with machine } := by
  induction n with
  | zero => exact ⟨rfl, loaded.machine, h⟩
  | succ n ih =>
    obtain ⟨hconfig, machine, hn⟩ := ih
    obtain ⟨hconfig', hstep⟩ := after_step_program hn
    exact ⟨hconfig'.trans hconfig, hstep⟩

/-- A program that still runs has taken every step. -/
theorem forward_steps (h : s.loaded = some loaded) {n : Nat} {program : Loaded}
    (hruns : (s.forward n).Runs program) :
    (s.forward n).steps = s.steps + n := by
  induction n generalizing program with
  | zero => rfl
  | succ n ih =>
    obtain ⟨-, machine, hn⟩ := forward_program h n
    by_cases hrunning : (s.forward n).Runs { loaded with machine }
    · have hsteps : (s.forward (n + 1)).steps = (s.forward n).steps + 1 :=
        (after_step_of_running hrunning).steps hruns.fault
      rw [hsteps, ih hrunning]
      omega
    · have hsame : s.forward (n + 1) = s.forward n := after_step_of_resting hn hrunning
      rw [hsame] at hruns
      cases hn.symm.trans hruns.program
      exact absurd hruns hrunning

/-- A loaded program in a session that keeps checkpoints. -/
structure Recording (s : Session σ) : Prop where
  program : ∃ loaded, s.loaded = some loaded
  records : s.config.settings.recordCheckpoints = true

theorem Recording.forward (h : s.Recording) (n : Nat) : (s.forward n).Recording ∧
    (s.forward n).config = s.config := by
  obtain ⟨loaded, hloaded⟩ := h.program
  obtain ⟨hconfig, machine, hn⟩ := forward_program hloaded n
  exact ⟨⟨⟨_, hn⟩, hconfig ▸ h.records⟩, hconfig⟩

/-! ## Checkpoints -/

theorem calls_cases (h : s.config.settings.recordCheckpoints = true)
    (machine : Machine) (f : String) :
    (s.calls machine).get? f =
      if machine.context.pendingCall? = some f then some (s.capture machine)
        else s.timeline.checkpoint? f := by
  unfold calls Timeline.checkpoint?
  cases machine.context.pendingCall? with
  | none => rfl
  | some name =>
    simp only [h, if_true, NameMap.get?_put, Option.some.injEq]

/-- A step keeps the state before it as the last call of the function that it calls, and no other.
-/
theorem checkpoint?_after_step (h : s.Recording) (hloaded : s.loaded = some loaded) (f : String) :
    (s.Calls f → (s.after Session.step).timeline.checkpoint? f = some (s.capture loaded.machine)) ∧
    (¬ s.Calls f → (s.after Session.step).timeline.checkpoint? f = s.timeline.checkpoint? f) := by
  by_cases hruns : s.Runs loaded
  · have hget : (s.after Session.step).timeline.checkpoint? f = (s.calls loaded.machine).get? f :=
      congrArg (NameMap.get? f) (after_step_of_running hruns).checkpoints
    rw [hget, calls_cases h.records]
    constructor
    · rintro ⟨program, hprogram, hcall⟩
      cases hloaded.symm.trans hprogram.program
      rw [if_pos hcall]
    · intro hnone
      rw [if_neg fun hcall => hnone ⟨loaded, hruns, hcall⟩]
  · rw [after_step_of_resting hloaded hruns]
    refine ⟨?_, fun _ => rfl⟩
    rintro ⟨program, hprogram, -⟩
    cases hloaded.symm.trans hprogram.program
    exact absurd hprogram hruns

/-- The checkpoint of a function is the state before its last call. -/
theorem checkpoint?_forward (h : s.Recording) (hempty : s.timeline.checkpoints = [])
    (n : Nat) (f : String) :
    match (s.forward n).timeline.checkpoint? f with
    | some k => ∃ j loaded, LastCall s n f j ∧ (s.forward j).loaded = some loaded ∧
        k = (s.forward j).capture loaded.machine
    | none => ∀ j < n, ¬ (s.forward j).Calls f := by
  induction n with
  | zero =>
    have hnone : (s.forward 0).timeline.checkpoint? f = none := congrArg (NameMap.get? f) hempty
    rw [hnone]
    exact nofun
  | succ n ih =>
    have hn := (h.forward n).1
    obtain ⟨loaded, hloaded⟩ := hn.program
    obtain ⟨hcalled, huncalled⟩ := checkpoint?_after_step hn hloaded f
    have hstep : s.forward (n + 1) = (s.forward n).after Session.step := rfl
    rw [hstep]
    by_cases hcalls : (s.forward n).Calls f
    · rw [hcalled hcalls]
      exact ⟨n, loaded, ⟨Nat.lt_succ_self n, hcalls, fun i hi hi' => by omega⟩, hloaded, rfl⟩
    · rw [huncalled hcalls]
      split at ih
      · obtain ⟨j, program, hlast, hprogram, rfl⟩ := ih
        refine ⟨j, program, ⟨by have := hlast.before; omega, hlast.calls, fun i hi hi' => ?_⟩,
          hprogram, rfl⟩
        rcases Nat.lt_succ_iff_lt_or_eq.mp hi' with hi' | rfl
        · exact hlast.last i hi hi'
        · exact hcalls
      · intro j hj
        rcases Nat.lt_succ_iff_lt_or_eq.mp hj with hj | rfl
        · exact ih j hj
        · exact hcalls

theorem LastCall.eq {n : Nat} {i j : Nat} (hi : LastCall s n f i)
    (hj : LastCall s n f j) : i = j := by
  rcases Nat.lt_trichotomy i j with hlt | heq | hlt
  · exact absurd hj.calls (hi.last j hlt hj.before)
  · exact heq
  · exact absurd hi.calls (hj.last i hlt hi.before)

/-- The earliest checkpoint of some functions is at the earliest of their last calls. -/
theorem earliest?_forward (h : s.Recording) (hempty : s.timeline.checkpoints = [])
    (hzero : s.steps = 0) (n : Nat) (names : List String) :
    match (s.forward n).timeline.earliest? names with
    | none => ∀ f ∈ names, ∀ j < n, ¬ (s.forward j).Calls f
    | some (f, j) => f ∈ names ∧ LastCall s n f j ∧ (∀ g ∈ names, ∀ i, LastCall s n g i → j ≤ i) ∧
        ∃ loaded, (s.forward j).loaded = some loaded ∧ (s.forward j).steps = j ∧
          (s.forward n).timeline.checkpoint? f = some ((s.forward j).capture loaded.machine) := by
  have hsteps {g : String} {i : Nat} (hi : LastCall s n g i) : (s.forward i).steps = i := by
    obtain ⟨_, hloaded⟩ := h.program
    obtain ⟨loaded, hruns, -⟩ := hi.calls
    rw [forward_steps hloaded hruns, hzero, Nat.zero_add]
  have hspec := (s.forward n).timeline.earliest?_spec names
  split at hspec
  · next hnone =>
    intro f hf j hj
    have hf_kept := checkpoint?_forward h hempty n f
    rw [hspec f hf] at hf_kept
    exact hf_kept j hj
  · next f target hsome =>
    obtain ⟨hf, ⟨k, hk, rfl⟩, hleast⟩ := hspec
    have hf_kept := checkpoint?_forward h hempty n f
    rw [hk] at hf_kept
    obtain ⟨j, loaded, hlast, hloaded, rfl⟩ := hf_kept
    have htarget : ((s.forward j).capture loaded.machine).step = j := hsteps hlast
    simp only [htarget] at hleast ⊢
    refine ⟨hf, hlast, fun g hg i hi => ?_, loaded, hloaded, hsteps hlast, hk⟩
    have hg_kept := checkpoint?_forward h hempty n g
    cases hkept : (s.forward n).timeline.checkpoint? g with
    | none =>
      rw [hkept] at hg_kept
      exact absurd hi.calls (hg_kept i hi.before)
    | some k' =>
      rw [hkept] at hg_kept
      obtain ⟨i', program, hlast', -, rfl⟩ := hg_kept
      have hle : j ≤ (s.forward i').steps := hleast g hg _ hkept
      rw [hsteps hlast', hlast'.eq hi] at hle
      exact hle

/-! ## Taking up an edit -/

/-- The program with an edit of its functions, run on from this machine. -/
def Edit.applied (edit : Edit) (source : String) (loaded : Loaded) (m : Machine) : Loaded :=
  let sites := edit.definitions.map fun d => (d.name, sitesAfter loaded edit.fresh d)
  { source, form := edit.root.form, definitions := edit.definitions, sites
    machine := { m with memory :=
      { m.memory with functions := patchAll sites m.memory.functions edit.fresh } } }

section Adopting

variable (source : String) (edit : Edit) {changed : List String} (hloaded : s.loaded = some loaded)

include hloaded

theorem adopt_of_uncalled (hnone : s.timeline.earliest? changed = none) :
    adopt source loaded edit changed s = .ok (.patched changed) { s with
      loaded := some (edit.applied source loaded loaded.machine)
      fault := none, units := s.units + 1 + edit.fresh.length } := by
  have hrewind : rewindForEdit changed s = .ok (.patched changed) { s with fault := none } := by
    unfold rewindForEdit
    rw [get_bind, hnone]
    rfl
  unfold adopt
  rw [bind_of_ok hrewind, get_bind]
  simp only [hloaded]
  rfl

theorem adopt_of_called (h : Restorable s.config.capabilities s.config.render) {target : Nat}
    {k : Snapshot} {w : σ} (hearliest : s.timeline.earliest? changed = some (f, target))
    (hk : s.timeline.checkpoint? f = some k)
    (hstates : k.states = s.config.capabilities.map (·.save w)) :
    ∃ w', (∀ c ∈ s.config.capabilities, c.save w' = c.save w) ∧
      adopt source loaded edit changed s = .ok (.rewound f target) { s with
        world := w'
        loaded := some (edit.applied source loaded k.machine)
        timeline := s.timeline.pruneAfter target
        steps := k.step, fault := none, units := s.units + 1 + edit.fresh.length } := by
  obtain ⟨w', hrestore, hsaves⟩ := restore_saved h hloaded hstates
  refine ⟨w', hsaves, ?_⟩
  have hrewind : rewindForEdit changed s = .ok (.rewound f target) { s with
      world := w'
      loaded := some { loaded with machine := k.machine }
      timeline := s.timeline.pruneAfter target
      steps := k.step, fault := none } := by
    unfold rewindForEdit
    rw [get_bind, hearliest]
    simp only [hk]
    exact bind_of_ok hrestore
  unfold adopt
  rw [bind_of_ok hrewind, get_bind]
  rfl

end Adopting

theorem load_recording {s₀ : Session σ} {source : String}
    (hrecords : s₀.config.settings.recordCheckpoints = true) (hload : load source s₀ = .ok () s) :
    s.Recording ∧ s.config = s₀.config ∧ s.timeline.checkpoints = [] ∧ s.steps = 0 := by
  obtain ⟨root, definitions, code, -, rfl⟩ := load_eq_ok hload
  exact ⟨⟨⟨_, rfl⟩, hrecords⟩, rfl, rfl, rfl⟩

end Session

end LiveLisp
