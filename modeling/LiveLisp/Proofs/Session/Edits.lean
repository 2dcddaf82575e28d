/-
  What returning to a kept state and taking up an edit come to, said once. A return changes the
  machine, the step, the error and the world, and if it fails at most the world (`restore_eq`); a
  source that is taken up is one of the four cases of `Taken` (`update_eq_ok`), and one that is
  refused fails before anything is changed, or where the program would return to a call
  (`update_eq_error`). Later modules derive all they say about edits from these.
-/
import LiveLisp.Proofs.Session.RewindPoint

namespace LiveLisp.Session

variable {σ : Type} {s s' : Session σ} {loaded : Loaded}

/-! ## Returning -/

/-- What returning to a state comes to, case by case. -/
theorem restore_eq (k : Snapshot) (s : Session σ) : restore k s =
    match s.loaded with
    | none => .error noProgram s
    | some loaded =>
      match checkStates s.world (savedStates s.config.capabilities k.states) with
      | .error e => .error e s
      | .ok _ =>
        match restoreStates (savedStates s.config.capabilities k.states) s.world with
        | (.error e, w) => .error e { s with world := w }
        | (.ok _, w) => .ok () { s with
            world := s.config.render.set false w, loaded :=
              some { loaded with machine := k.machine }
            steps := k.step, fault := none } := by
  unfold restore
  rw [get_bind]
  cases hloaded : s.loaded with
  | none => rfl
  | some loaded =>
    simp only
    cases checkStates s.world (savedStates s.config.capabilities k.states) with
    | error e => rfl
    | ok _ =>
      cases restoreStates (savedStates s.config.capabilities k.states) s.world with
      | mk result w => cases result <;> rfl

/-- A state that has been returned to. -/
theorem restore_eq_ok {k : Snapshot} (h : restore k s = .ok () s') :
    ∃ loaded w, s.loaded = some loaded ∧ s' = { s with
    world := w, loaded := some { loaded with machine := k.machine }, steps :=
      k.step, fault := none } := by
  rw [restore_eq] at h
  split at h
  · cases h
  · next loaded hloaded =>
    split at h
    · cases h
    · split at h
      · cases h
      · cases h
        exact ⟨loaded, _, hloaded, rfl⟩

/-- A return that fails may have changed the world, and nothing else. -/
theorem restore_eq_error {k : Snapshot} {e : Error} (h : restore k s = .error e s') :
    ∃ w, s' = { s with world := w } := by
  rw [restore_eq] at h
  split at h
  · cases h
    exact ⟨s.world, rfl⟩
  · split at h
    · cases h
      exact ⟨s.world, rfl⟩
    · split at h
      · cases h
        exact ⟨_, rfl⟩
      · cases h

theorem after_restore_timeline (k : Snapshot) (s : Session σ) :
    (s.after (restore k)).timeline = s.timeline := by
  cases hrestore : restore k s with
  | ok _ s' =>
    obtain ⟨loaded, w, -, rfl⟩ := restore_eq_ok hrestore
    rw [after_of_ok hrestore]
  | error e s' =>
    obtain ⟨w, rfl⟩ := restore_eq_error hrestore
    rw [after_of_error hrestore]

/-! ## Sources that are taken up -/

/-- Where the program is before the new bodies are put in: where it was, or at the earliest of the
last calls. -/
theorem rewindForEdit_eq_ok {changed : List String} {outcome : UpdateOutcome}
    (hloaded : s.loaded = some loaded) (h : rewindForEdit changed s = .ok outcome s') :
    (s.timeline.earliest? changed = none ∧ outcome = .patched changed ∧
      s' = { s with fault := none }) ∨
    ∃ f k w, s.timeline.earliest? changed = some (f, k.step) ∧ s.timeline.checkpoint? f = some k ∧
      outcome = .rewound f k.step ∧ s' = { s with
        world := w, loaded := some { loaded with machine := k.machine }
        timeline := s.timeline.pruneAfter k.step, steps := k.step, fault := none } := by
  unfold rewindForEdit at h
  rw [get_bind] at h
  have hspec := s.timeline.earliest?_spec changed
  cases hearliest : s.timeline.earliest? changed with
  | none =>
    rw [hearliest] at h
    cases h
    exact .inl ⟨rfl, rfl, rfl⟩
  | some found =>
    obtain ⟨f, target⟩ := found
    rw [hearliest] at h hspec
    obtain ⟨-, ⟨k, hk, rfl⟩, -⟩ := hspec
    simp only [hk] at h
    cases hrestore : restore k s with
    | error e s₁ =>
      rw [bind_of_error hrestore] at h
      cases h
    | ok _ s₁ =>
      obtain ⟨program, w, hprogram, rfl⟩ := restore_eq_ok hrestore
      cases hloaded.symm.trans hprogram
      rw [bind_of_ok hrestore] at h
      cases h
      exact .inr ⟨f, k, w, rfl, hk, rfl, rfl⟩

/-- The ways in which a source is taken up. -/
inductive Taken (source : String) (s : Session σ) : UpdateOutcome → Session σ → Prop where
  /-- The same program, still running. -/
  | unchanged {root : Node} {loaded : Loaded} (hroot : Node.ofProgram source = .ok root)
      (hloaded : s.loaded = some loaded) (halike : root.form.alike loaded.form = true) :
    Taken source s .unchanged { s with loaded := some { loaded with source } }
  /-- The program starts afresh. -/
  | restarted {root : Node} {definitions : List Definition} {code : Code}
      (hroot : Node.ofProgram source = .ok root)
      (hdefinitions : Definition.find root = .ok definitions)
        (hcode : Code.ofProgram s.units root = .ok code) :
    Taken source s .restarted (s.install source root.form definitions code (s.units + 1))
  /-- None of the changed functions has been called, and the new bodies are put in where the program
  is. -/
  | patched {root : Node} {loaded : Loaded} {edit : Edit} {changed : List String}
      (hroot : Node.ofProgram source = .ok root) (hloaded : s.loaded = some loaded)
      (hedit : Edit.prepare s.units root = .ok edit)
        (huncalled : s.timeline.earliest? changed = none) :
    Taken source s (.patched changed) { s with
      loaded := some (edit.applied source loaded loaded.machine)
      fault := none, units := s.units + 1 + edit.fresh.length }
  /-- The program is taken to the earliest of the last calls, and the new bodies are put in there.
  -/
  | rewound {root : Node} {loaded : Loaded} {edit : Edit} {changed : List String} {f : String}
      {k : Snapshot} {w : σ}
      (hroot : Node.ofProgram source = .ok root) (hloaded : s.loaded = some loaded)
      (hedit : Edit.prepare s.units root = .ok edit)
      (hearliest : s.timeline.earliest? changed = some (f, k.step))
        (hk : s.timeline.checkpoint? f = some k) :
    Taken source s (.rewound f k.step) { s with
      world := w, loaded := some (edit.applied source loaded k.machine)
      timeline := s.timeline.pruneAfter k.step
      steps := k.step, fault := none, units := s.units + 1 + edit.fresh.length }

theorem adopt_eq_ok {source : String} {root : Node} {edit : Edit} {changed : List String}
    {outcome : UpdateOutcome} (hroot : Node.ofProgram source = .ok root)
    (hloaded : s.loaded = some loaded) (hedit : Edit.prepare s.units root = .ok edit)
    (h : adopt source loaded edit changed s = .ok outcome s') :
    Taken source s outcome s' := by
  cases hrewind : rewindForEdit changed s with
  | error e s₁ =>
    rw [adopt, bind_of_error hrewind] at h
    cases h
  | ok led s₁ =>
    rw [adopt, bind_of_ok hrewind, get_bind] at h
    rcases rewindForEdit_eq_ok hloaded hrewind
      with ⟨huncalled, rfl, rfl⟩ | ⟨f, k, w, hearliest, hk, rfl, rfl⟩
    · simp only [hloaded] at h
      cases h
      exact .patched hroot hloaded hedit huncalled
    · cases h
      exact .rewound hroot hloaded hedit hearliest hk

/-- What an update that succeeds has done. -/
theorem update_eq_ok {source : String} {outcome : UpdateOutcome}
    (h : update source s = .ok outcome s') :
    Taken source s outcome s' := by
  obtain ⟨root, hroot⟩ := ofProgram_of_update h
  cases hloaded : s.loaded with
  | none =>
    rw [update_of_unloaded hroot hloaded] at h
    split at h
    · next hload =>
      cases h
      obtain ⟨root', definitions, code, hprepare, rfl⟩ := load_eq_ok hload
      obtain ⟨hroot', hdefinitions, hcode⟩ := prepare_eq_ok hprepare
      exact .restarted hroot' hdefinitions hcode
    · cases h
  | some loaded =>
    rw [update_eq hroot hloaded] at h
    split at h
    · next hsame =>
      cases h
      exact .unchanged hroot hloaded (Bool.and_eq_true_iff.mp hsame).1
    · split at h
      · cases h
      · next edit hedit =>
        split at h
        · cases h
          obtain ⟨definitions, hdefinitions, hedit⟩ := except_bind_eq_ok hedit
          obtain ⟨code, hcode, hedit⟩ := except_bind_eq_ok hedit
          obtain ⟨fresh, hfresh, hedit⟩ := except_bind_eq_ok hedit
          cases hedit
          exact .restarted hroot hdefinitions hcode
        · exact adopt_eq_ok hroot hloaded hedit h

/-! ## Sources that are refused -/

theorem load_eq_error {source : String} {e : Error} (h : load source s = .error e s') : s' = s := by
  rw [load_eq] at h
  cases hprepare : prepare s.units source with
  | error refusal =>
    rw [hprepare] at h
    cases h
    rfl
  | ok prepared =>
    rw [hprepare] at h
    cases h

theorem rewindForEdit_eq_error {changed : List String} {e : Error}
    (h : rewindForEdit changed s = .error e s') :
    ∃ k, restore k s = .error e s' := by
  unfold rewindForEdit at h
  rw [get_bind] at h
  cases hearliest : s.timeline.earliest? changed with
  | none =>
    rw [hearliest] at h
    cases h
  | some found =>
    obtain ⟨k, hk⟩ := checkpoint?_of_earliest? hearliest
    rw [hearliest] at h
    simp only [hk] at h
    cases hrestore : restore k s with
    | ok _ s₁ =>
      rw [bind_of_ok hrestore] at h
      cases h
    | error e₁ s₁ =>
      rw [bind_of_error hrestore] at h
      cases h
      exact ⟨k, hrestore⟩

/-- Once the program is back where an edit takes it, nothing can fail any more. -/
theorem adopt_eq_error {source : String} {edit : Edit} {changed : List String} {e : Error}
    (hloaded : s.loaded = some loaded) (h : adopt source loaded edit changed s = .error e s') :
    ∃ k, restore k s = .error e s' := by
  cases hrewind : rewindForEdit changed s with
  | error e₁ s₁ =>
    rw [adopt, bind_of_error hrewind] at h
    cases h
    exact rewindForEdit_eq_error hrewind
  | ok outcome s₁ =>
    rw [adopt, bind_of_ok hrewind, get_bind] at h
    rcases rewindForEdit_eq_ok hloaded hrewind with ⟨-, -, rfl⟩ | ⟨f, k, w, -, -, -, rfl⟩
    · simp only [hloaded] at h
      cases h
    · cases h

/-- An update that fails has changed nothing, unless it has tried to return to a call. -/
theorem update_eq_error {source : String} {e : Error} (h : update source s = .error e s') :
    s' = s ∨ ∃ k, restore k s = .error e s' := by
  cases hroot : Node.ofProgram source with
  | error refusal =>
    unfold update at h
    rw [get_bind, hroot] at h
    cases h
    exact .inl rfl
  | ok root =>
    cases hloaded : s.loaded with
    | none =>
      rw [update_of_unloaded hroot hloaded] at h
      split at h
      · cases h
      · next hload =>
        cases h
        exact .inl (load_eq_error hload)
    | some loaded =>
      rw [update_eq hroot hloaded] at h
      split at h
      · cases h
      · split at h
        · cases h
          exact .inl rfl
        · split at h
          · cases h
          · exact .inr (adopt_eq_error hloaded h)

end LiveLisp.Session
