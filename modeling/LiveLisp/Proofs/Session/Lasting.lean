/-
  What holds of every machine that a session has. A property of machines that a program has when it
  starts, and that a step with the tidying up after it, a collection and a new body keep
  (`Machine.Lasts`), holds of the running machine, of every keyframe, of every last call and of
  every state that was given out, whatever a host does with the session (`Reached.holds`). So a fact
  about machines is proved without a word about sessions.
-/
import LiveLisp.Proofs.Session.Furthest

namespace LiveLisp

variable {σ : Type} {P : Machine → Prop}

/-- A machine keeps the property whatever a session does with it. -/
structure Machine.Lasts (P : Machine → Prop) : Prop where
  start : ∀ code, P (.start code)
  step : ∀ {σ : Type} {host : Host σ} {w w' : σ} {m m' : Machine}, m.Sound → host.HonestIn w → P m →
    Exec.step host ⟨m, w⟩ = .ok () ⟨m', w'⟩ → ∀ interval steps, P (m'.tidied interval steps)
  collect : ∀ {m : Machine}, m.Sound → P m → ∃ n m', collectGarbage m = .ok n m' ∧ P m'
  patch : ∀ {m : Machine} (name : String) (revision : Revision), P m → P (m.patch name revision)

theorem Machine.Lasts.patchAll (h : Machine.Lasts P) (sites : NameMap (List CodeId))
    (fresh : List Session.Fresh) {m : Machine} (hm : P m) :
    P { m with memory :=
      { m.memory with functions := Session.patchAll sites m.memory.functions fresh } } := by
  induction fresh generalizing m with
  | nil => exact hm
  | cons f fresh ih =>
    exact ih (h.patch f.definition.name ⟨f.definition.params, f.code,
      (sites.get? f.definition.name).getD []⟩ hm)

namespace Session

/-- A sound session whose machines all have the property: the one that runs and those that can be
returned to. -/
structure Holds (P : Machine → Prop) (s : Session σ) : Prop where
  sound : s.Sound
  machine : ∀ loaded, s.loaded = some loaded → P loaded.machine
  keyframes : ∀ k ∈ s.timeline.keyframes, P k.machine
  checkpoints : ∀ k ∈ s.timeline.checkpoints.values, P k.machine

/-- Whatever comes of it, after `x` the machines of the session still have the property. -/
abbrev Preserves {α : Type} (P : Machine → Prop) (x : SessionM σ α) : Prop :=
  Moves (fun s s' : Session σ => s.Holds P → s'.Holds P) x

variable {s s' : Session σ}

section Rules

variable {α β : Type} {x : SessionM σ α}

theorem Preserves.bind {f : α → SessionM σ β} (hx : Preserves P x) (hf : ∀ a, Preserves P (f a)) :
    Preserves P (x >>= f) :=
  moves_bind (fun _ _ _ h h' hs => h' (h hs)) hx hf

theorem preserves_pure (a : α) : Preserves P (pure a : SessionM σ α) := fun _ hs => hs

theorem Holds.setWorld (hs : s.Holds P) (w : σ) : Holds P { s with world := w } :=
  ⟨hs.sound.setWorld w, hs.machine, hs.keyframes, hs.checkpoints⟩

theorem preserves_clearRender : Preserves P (modify clearRender : SessionM σ PUnit) :=
    fun _ hs => hs.setWorld _

end Rules

variable (hP : Machine.Lasts P)

include hP

/-! ## Steps -/

theorem preserves_step : Preserves P (Session.step : SessionM σ Unit) := by
  intro s hs
  have hsound := (step_safe hs.sound).after_sound
  cases hloaded : s.loaded with
  | none =>
    obtain ⟨e, he⟩ := step_of_unloaded hloaded
    rwa [after_of_error he]
  | some loaded =>
    by_cases hruns : s.Runs loaded
    case neg => rwa [after_step_of_resting hloaded hruns]
    have hm := hs.machine loaded hloaded
    have hcalls : ∀ k ∈ (s.calls loaded.machine).values, P k.machine := by
      intro k hk
      rcases mem_calls hk with hk | hk
      · exact hk ▸ hm
      · exact hs.checkpoints k hk
    have hhost : (replayHost s.config.capabilities s.steps).HonestIn ⟨s.world,
      s.timeline.answers⟩ :=
      replayHost_honest hs.sound.honest hs.sound.answers
    rcases step_of_running hs.sound hruns with ⟨m, v, hexec, -, -, hstep⟩ | ⟨e, -, -, hstep⟩
    · have hnext := hP.step (hs.sound.machine loaded hloaded) hhost hm hexec
        s.config.settings.gcInterval (s.steps + 1)
      rw [after_of_ok hstep] at hsound ⊢
      refine ⟨hsound, ?_, fun k hk => ?_, hcalls⟩
      · rintro _ ⟨⟩
        exact hnext
      · rcases mem_framesWith hk with rfl | hk
        · exact hnext
        · exact hs.keyframes k hk
    · rw [after_of_error hstep] at hsound ⊢
      exact ⟨hsound, hs.machine, hs.keyframes, hcalls⟩

theorem preserves_runBudget (budget : Nat) :
    Preserves P (runBudget budget : SessionM σ BudgetReport) :=
  moves_runBudget (fun _ hs => hs) (fun _ _ _ h h' hs => h' (h hs)) (preserves_step hP)
    (fun _ hs => hs.setWorld _) budget

theorem preserves_runToCompletion (limit : Nat) :
    Preserves P (runToCompletion limit : SessionM σ Value) :=
  moves_runToCompletion (fun _ hs => hs) (fun _ _ _ h h' hs => h' (h hs)) (preserves_step hP)
    (fun _ hs => hs.setWorld _)
    limit

theorem preserves_collectGarbage : Preserves P (Session.collectGarbage : SessionM σ Nat) := by
  intro s hs
  have hsound := (collectGarbage_safe hs.sound).after_sound
  cases hloaded : s.loaded with
  | none =>
    have hnothing : Session.collectGarbage s = .ok 0 s := by
      unfold Session.collectGarbage
      rw [get_bind, hloaded]
      rfl
    rwa [after_of_ok hnothing]
  | some loaded =>
    obtain ⟨n, m, hrun, hm⟩ :=
      hP.collect (hs.sound.machine loaded hloaded) (hs.machine loaded hloaded)
    have hcollected :
      Session.collectGarbage s = .ok n { s with loaded := some { loaded with machine := m } } := by
      unfold Session.collectGarbage
      rw [get_bind, hloaded]
      exact onMachine_of_ok hloaded hrun
    rw [after_of_ok hcollected] at hsound ⊢
    refine ⟨hsound, ?_, hs.keyframes, hs.checkpoints⟩
    rintro _ ⟨⟩
    exact hm

/-! ## Returning -/

omit hP in
/-- A state that is returned to has to have the property itself. -/
theorem Holds.restore (hs : s.Holds P) {k : Snapshot} (hk : k.machine.Sound) (hPk : P k.machine) :
    (s.after (Session.restore k)).Holds P := by
  have hsound := (restore_safe hs.sound hk).after_sound
  cases hrestore : Session.restore k s with
  | ok _ s' =>
    obtain ⟨loaded, w, -, rfl⟩ := restore_eq_ok hrestore
    rw [after_of_ok hrestore] at hsound ⊢
    refine ⟨hsound, ?_, hs.keyframes, hs.checkpoints⟩
    rintro _ ⟨⟩
    exact hPk
  | error e s' =>
    obtain ⟨w, rfl⟩ := restore_eq_error hrestore
    rw [after_of_error hrestore]
    exact hs.setWorld w

theorem preserves_replayTo (target left : Nat) :
    Preserves P (replayTo target left : SessionM σ Unit) :=
  moves_replayTo (fun _ hs => hs) (fun _ _ _ h h' hs => h' (h hs)) (preserves_step hP) target left

theorem preserves_rewindTo (target : Nat) : Preserves P (rewindTo target : SessionM σ Unit) := by
  intro s hs
  unfold after rewindTo
  rw [get_bind]
  cases hkeyframe : s.timeline.keyframeBefore? target with
  | none => exact hs
  | some k =>
    have hkept : k ∈ s.timeline.keyframes := List.mem_of_find?_eq_some hkeyframe
    have hrestored := hs.restore (hs.sound.keyframes k hkept) (hs.keyframes k hkept)
    simp only
    cases hrestore : Session.restore k s with
    | error e s₁ =>
      rw [after_of_error hrestore] at hrestored
      rwa [bind_of_error hrestore]
    | ok _ s₁ =>
      rw [after_of_ok hrestore] at hrestored
      rw [bind_of_ok hrestore]
      have hreplayed : Preserves P (replayTo target (target - k.step) >>= fun _ =>
        modify clearRender : SessionM σ PUnit) :=
        (preserves_replayTo hP target (target - k.step)).bind fun _ => preserves_clearRender
      exact hreplayed s₁ hrestored

theorem preserves_stepBack : Preserves P (stepBack : SessionM σ Unit) := by
  intro s hs
  unfold after stepBack
  rw [get_bind]
  cases s.steps with
  | zero => exact hs
  | succ previous => exact preserves_rewindTo hP previous s hs

/-! ## Sources -/

theorem Holds.install (hs : s.Holds P) (source : String) (form : Form)
    (definitions : List Definition) {code : Code} (hcode : code.Sound)
    (units : Nat) : (s.install source form definitions code units).Holds P := by
  refine ⟨install_sound hs.sound.honest source form definitions hcode units, ?_,
    fun k hk => ?_, fun k hk => ?_⟩
  · rintro _ ⟨⟩
    exact hP.start code
  · rcases mem_recordKeyframe hk with rfl | hk
    · exact hP.start code
    · cases hk
  · cases hk

theorem preserves_load (source : String) : Preserves P (Session.load source : SessionM σ Unit) := by
  intro s hs
  cases hload : Session.load source s with
  | ok _ s' =>
    obtain ⟨root, definitions, code, hprepare, rfl⟩ := load_eq_ok hload
    rw [after_of_ok hload]
    exact hs.install hP source root.form definitions
      (Code.sound_ofProgram (prepare_eq_ok hprepare).2.2) _
  | error e s' =>
    rw [after_of_error hload, load_eq_error hload]
    exact hs

theorem preserves_update (source : String) :
    Preserves P (update source : SessionM σ UpdateOutcome) := by
  intro s hs
  have hsound := (update_safe source hs.sound).after_sound
  cases hupdate : update source s with
  | error e s' =>
    rw [after_of_error hupdate]
    rcases update_eq_error hupdate with rfl | ⟨k, hrestore⟩
    · exact hs
    · obtain ⟨w, rfl⟩ := restore_eq_error hrestore
      exact hs.setWorld w
  | ok outcome s' =>
    rw [after_of_ok hupdate] at hsound ⊢
    cases update_eq_ok hupdate with
    | @unchanged root loaded hroot hloaded halike =>
      refine ⟨hsound, ?_, hs.keyframes, hs.checkpoints⟩
      rintro _ ⟨⟩
      exact hs.machine loaded hloaded
    | restarted hroot hdefinitions hcode =>
      exact hs.install hP source _ _ (Code.sound_ofProgram hcode) _
    | patched hroot hloaded hedit huncalled =>
      refine ⟨hsound, ?_, hs.keyframes, hs.checkpoints⟩
      rintro _ ⟨⟩
      exact hP.patchAll _ _ (hs.machine _ hloaded)
    | rewound hroot hloaded hedit hearliest hk =>
      refine ⟨hsound, ?_, fun k' hk' => ?_, fun k' hk' => ?_⟩
      · rintro _ ⟨⟩
        exact hP.patchAll _ _ (hs.checkpoints _ (NameMap.mem_values_of_get? hk))
      · exact hs.keyframes k' (List.mem_filter.mp hk').1
      · obtain ⟨entry, hentry, rfl⟩ := List.mem_map.mp hk'
        exact hs.checkpoints _ (List.mem_map_of_mem (List.mem_filter.mp hentry).1)

/-! ## Whole sessions -/

variable {taken : List Snapshot}

theorem Holds.run (hs : s.Holds P) (htaken : ∀ k ∈ taken, k.machine.Sound ∧ P k.machine)
    {op : Operation} (hop : op.Allowed taken) : (s.after op.run).Holds P := by
  have hquiet {α : Type} {x : SessionM σ α} {f : α → Answer} (hx : Preserves P x) :
      (s.after (x >>= fun a => pure (f a))).Holds P := (hx.bind fun a => preserves_pure (f a)) s hs
  cases op with
  | load source => exact hquiet (preserves_load hP source)
  | step => exact hquiet (preserves_step hP)
  | runBudget budget => exact hquiet (preserves_runBudget hP budget)
  | runToCompletion limit => exact hquiet (preserves_runToCompletion hP limit)
  | snapshot =>
    have hsame : s.after Session.snapshot = s := by
      unfold after Session.snapshot
      rw [get_bind]
      cases s.loaded <;> rfl
    have hafter : s.after Operation.snapshot.run = s.after Session.snapshot := after_bind_pure _ _ s
    rw [hafter, hsame]
    exact hs
  | restore k =>
    have hafter : s.after (Operation.restore k).run = s.after (Session.restore k) :=
      after_bind_pure _ _ s
    rw [hafter]
    exact hs.restore (htaken k hop).1 (htaken k hop).2
  | rewindTo target => exact hquiet (preserves_rewindTo hP target)
  | stepBack => exact hquiet (preserves_stepBack hP)
  | update source => exact hquiet (preserves_update hP source)
  | collectGarbage => exact hquiet (preserves_collectGarbage hP)

omit hP in
/-- A state that is given out is the present one. -/
theorem Holds.given (hs : s.Holds P) (op : Operation) : ∀ k ∈ op.given s, P k.machine := by
  intro k hk
  have hnothing {α : Type} {x : SessionM σ α} {f : α → Answer}
    (hrun : op.run = x >>= fun a => pure (f a))
      (hf : ∀ a, (f a).taken = none) : P k.machine := by
    rw [given_eq_nil hrun hf] at hk
    cases hk
  cases op with
  | snapshot =>
    cases hloaded : s.loaded with
    | none =>
      have hrefused : Session.snapshot s = .error noProgram s := by
        unfold Session.snapshot
        rw [get_bind, hloaded]
        rfl
      rw [Operation.given, Operation.run, bind_of_error hrefused] at hk
      cases hk
    | some loaded =>
      have hgiven : Session.snapshot s = .ok (s.capture loaded.machine) s := by
        unfold Session.snapshot
        rw [get_bind, hloaded]
        rfl
      rw [Operation.given, Operation.run, bind_of_ok hgiven] at hk
      cases List.mem_singleton.mp hk
      exact hs.machine loaded hloaded
  | _ => exact hnothing rfl fun _ => rfl

theorem Reached.holds {config : Config σ} (honest : ∀ c ∈ config.capabilities, c.Honest)
    (h : Reached config s taken) :
    s.Holds P ∧ ∀ k ∈ taken, P k.machine := by
  induction h with
  | start w => exact ⟨⟨start_sound config w honest, nofun, nofun, nofun⟩, nofun⟩
  | outside h w ih => exact ⟨ih.1.setWorld w, ih.2⟩
  | @ok s s' taken op answer h hop hrun ih =>
    obtain ⟨hs, htaken⟩ := ih
    refine ⟨after_of_ok hrun ▸ hs.run hP (fun k hk => ⟨(h.sound honest).2 k hk, htaken k hk⟩) hop,
      fun k hk => ?_⟩
    have hgiven : op.given s = answer.taken.toList := by
      unfold Operation.given
      rw [hrun]
    rcases List.mem_append.mp hk with hk | hk
    · exact hs.given op k (hgiven ▸ hk)
    · exact htaken k hk
  | error h hop hrun ih =>
    obtain ⟨hs, htaken⟩ := ih
    exact ⟨after_of_error hrun ▸ hs.run hP (fun k hk => ⟨(h.sound honest).2 k hk, htaken k hk⟩) hop,
      htaken⟩

end Session

end LiveLisp
