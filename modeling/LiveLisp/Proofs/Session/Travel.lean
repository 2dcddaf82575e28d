/-
  Going back in time and taking up an edit are safe. What is gone back to was kept from a sound
  machine, and new bodies go into the function table only when they are compiled, so the session
  stays sound whichever of the two is done and however far it gets.
-/
import LiveLisp.Proofs.Session.Sound

namespace LiveLisp

namespace Session

variable {σ : Type} {s : Session σ} {k : Snapshot}

theorem SafeUpTo.weaken {α : Type} {E : Error → Prop} {x : SessionM σ α}
    {Q R : α → Session σ → Prop} (h : SafeUpTo E x s Q)
    (hQ : ∀ a s', Q a s' → R a s') : SafeUpTo E x s R := by
  unfold SafeUpTo at *
  split at h
  · exact ⟨h.1, hQ _ _ h.2⟩
  · exact h

/-! ## Kept states -/

/-- A state that is taken can be returned to. -/
theorem snapshot_safe (hs : s.Sound) : Safe snapshot s fun k _ => k.machine.Sound := by
  refine SafeUpTo.get_bind ?_
  split
  · next loaded hloaded => exact .pure hs (hs.machine loaded hloaded)
  · exact .throw hs noProgram_benign

theorem notRestored_benign (c : Capability σ) (problem : HostProblem) :
    (notRestored c problem).Benign := by
  unfold notRestored
  exact nofun

theorem checkStates_benign {w : σ} {saved : List (Capability σ × Json)} {e : Error}
    (h : checkStates w saved = .error e) : e.Benign := by
  induction saved with
  | nil => cases h
  | cons pair rest ih =>
    obtain ⟨c, state⟩ := pair
    unfold checkStates at h
    split at h
    · exact ih h
    · cases h
      exact notRestored_benign c _

theorem restoreStates_benign {w w' : σ} {saved : List (Capability σ × Json)} {e : Error}
    (h : restoreStates saved w = (.error e, w')) : e.Benign := by
  induction saved generalizing w with
  | nil => cases h
  | cons pair rest ih =>
    obtain ⟨c, state⟩ := pair
    unfold restoreStates at h
    split at h
    · exact ih h
    · cases h
      exact notRestored_benign c _

/-- Whatever the capabilities say to their saved states, the session can be gone on with. -/
theorem restore_safe (hs : s.Sound) (hk : k.machine.Sound) :
    Safe (restore k) s fun _ s' => s'.loaded.isSome = true := by
  refine SafeUpTo.get_bind ?_
  split
  · exact .throw hs noProgram_benign
  · next loaded hloaded =>
    simp only
    split
    · next e he => exact .throw hs (checkStates_benign he)
    · have hs' := hs.setWorld (restoreStates (savedStates s.config.capabilities k.states) s.world).2
      refine SafeUpTo.bind (Q := fun _ s' => s' = _) ⟨hs', rfl⟩ ?_
      rintro _ _ - rfl
      cases hresult : restoreStates (savedStates s.config.capabilities k.states) s.world with
      | mk result w =>
        rw [hresult] at hs'
        cases result with
        | error e => exact .throw hs' (restoreStates_benign hresult)
        | ok done =>
          refine ⟨Sound.clearRender ⟨hs.honest, ?_, hs.keyframes, hs.checkpoints, hs.answers,
            nofun⟩, rfl⟩
          rintro _ ⟨⟩
          exact hk

/-! ## Rewinding -/

theorem replayTo_safe (target left : Nat) (hs : s.Sound) :
    Safe (replayTo target left) s fun _ _ => True := by
  induction left generalizing s with
  | zero => exact .pure hs trivial
  | succ left ih =>
    refine SafeUpTo.get_bind ?_
    split
    · exact SafeUpTo.bind (step_safe hs) fun _ s' hs' _ => ih hs'
    · exact .pure hs trivial

theorem rewindTo_safe (target : Nat) (hs : s.Sound) : Safe (rewindTo target) s fun _ _ => True := by
  refine SafeUpTo.get_bind ?_
  split
  · exact .throw hs nofun
  · next k hk =>
    refine SafeUpTo.bind (restore_safe hs (hs.keyframes k (List.mem_of_find?_eq_some hk)))
      fun _ s₁ hs₁ _ => ?_
    refine SafeUpTo.bind (replayTo_safe target _ hs₁) fun _ s₂ hs₂ _ => ?_
    exact .modify hs₂.clearRender

theorem stepBack_safe (hs : s.Sound) : Safe stepBack s fun _ _ => True := by
  refine SafeUpTo.get_bind ?_
  split
  · exact .throw hs nofun
  · exact rewindTo_safe _ hs

/-! ## Edits -/

theorem freshBodies_refuses {source : String} {root : Node}
    (hroot : Node.ofProgram source = .ok root) (unit : Nat) {ds : List Definition}
    (hds : ds ⊆ root.definitions) : Refuses source.utf8ByteSize (freshBodies unit ds) := by
  induction ds generalizing unit with
  | nil => exact .ok _
  | cons d ds ih =>
    obtain ⟨hd, hds⟩ := List.cons_subset.mp hds
    exact .bind (Code.ofDefinition_refuses unit hroot hd) fun _ _ =>
      .bind (ih (unit + 1) hds) fun _ _ => .ok _

theorem freshBodies_sound {unit : Nat} {ds : List Definition} {fresh : List Fresh}
    (h : freshBodies unit ds = .ok fresh) : ∀ f ∈ fresh, f.code.Sound := by
  induction ds generalizing unit fresh with
  | nil =>
    cases h
    exact nofun
  | cons d ds ih =>
    obtain ⟨code, hcode, h⟩ := except_bind_eq_ok h
    obtain ⟨rest, hrest, h⟩ := except_bind_eq_ok h
    cases h
    intro f hf
    rcases List.mem_cons.mp hf with rfl | hf
    · exact Code.sound_ofDefinition hcode
    · exact ih hrest f hf

theorem edit_refuses {source : String} {root : Node} (hroot : Node.ofProgram source = .ok root)
    (units : Nat) : Refuses source.utf8ByteSize (Edit.prepare units root) :=
  .bind (find_refuses root) fun _ hfind => .bind (Code.ofProgram_refuses units hroot) fun _ _ =>
    .bind (freshBodies_refuses hroot (units + 1) (Definition.find_eq_ok hfind).2) fun _ _ => .ok _

/-- Everything in an edit is compiled. -/
theorem edit_sound {units : Nat} {root : Node} {edit : Edit}
    (h : Edit.prepare units root = .ok edit) :
    edit.code.Sound ∧ ∀ f ∈ edit.fresh, f.code.Sound := by
  obtain ⟨definitions, -, h⟩ := except_bind_eq_ok h
  obtain ⟨code, hcode, h⟩ := except_bind_eq_ok h
  obtain ⟨fresh, hfresh, h⟩ := except_bind_eq_ok h
  cases h
  exact ⟨Code.sound_ofProgram hcode, freshBodies_sound hfresh⟩

theorem patchAll_sound (sites : NameMap (List CodeId)) {fresh : List Fresh}
    (hfresh : ∀ f ∈ fresh, f.code.Sound) {m : Machine} (hm : m.Sound) :
    Machine.Sound { m with memory :=
      { m.memory with functions := patchAll sites m.memory.functions fresh } } := by
  induction fresh generalizing m with
  | nil => exact hm
  | cons f fresh ih =>
    let revision : Revision := ⟨f.definition.params, f.code, (sites.get? f.definition.name).getD []⟩
    have hpatched : (m.patch f.definition.name revision).Sound :=
      Machine.patch_sound hm f.definition.name (hfresh f (List.mem_cons_self ..))
    exact ih (fun g hg => hfresh g (List.mem_cons_of_mem _ hg)) hpatched

/-- The earliest checkpoint is one that is there. -/
theorem checkpoint?_of_earliest? {t : Timeline} {names : List String} {name : String} {step : Nat}
    (h : t.earliest? names = some (name, step)) : ∃ k, t.checkpoint? name = some k := by
  refine List.foldlRecOn names _ (motive := fun best => ∀ name step, best = some (name, step) →
    ∃ k, t.checkpoint? name = some k) (by rintro _ _ ⟨⟩) (fun best hbest other _ => ?_) name step h
  intro name step h
  split at h
  · exact hbest name step h
  · next k hk =>
    cases h
    exact ⟨k, hk⟩
  · next k earlier first hk =>
    split at h
    · exact hbest name step h
    · cases h
      exact ⟨k, hk⟩

theorem Sound.pruneAfter (hs : s.Sound) (step : Nat) :
    Sound { s with timeline := s.timeline.pruneAfter step } := by
  refine ⟨hs.honest, hs.machine, fun k hk => ?_, fun k hk => ?_, fun pair hpair => ?_, hs.fault⟩
  · exact hs.keyframes k (List.mem_filter.mp hk).1
  · obtain ⟨entry, hentry, rfl⟩ := List.mem_map.mp hk
    exact hs.checkpoints _ (List.mem_map_of_mem (List.mem_filter.mp hentry).1)
  · exact hs.answers pair (List.mem_filter.mp hpair).1

theorem rewindForEdit_safe (hs : s.Sound) (hloaded : s.loaded.isSome = true)
    (changed : List String) :
    Safe (rewindForEdit changed) s fun _ s' => s'.loaded.isSome = true := by
  refine SafeUpTo.get_bind ?_
  split
  · next name target hearliest =>
    obtain ⟨k, hk⟩ := checkpoint?_of_earliest? hearliest
    rw [hk]
    simp only
    refine SafeUpTo.bind (restore_safe hs (hs.checkpoints k (NameMap.mem_values_of_get? hk)))
      fun _ s₁ hs₁ h₁ => ?_
    exact ⟨hs₁.pruneAfter target, h₁⟩
  · exact ⟨⟨hs.honest, hs.machine, hs.keyframes, hs.checkpoints, hs.answers, nofun⟩, hloaded⟩

theorem adopt_safe (source : String) (hs : s.Sound) (hloaded : s.loaded.isSome = true)
    (loaded : Loaded) {edit : Edit} (hfresh : ∀ f ∈ edit.fresh, f.code.Sound)
    (changed : List String) :
    Safe (adopt source loaded edit changed) s fun _ _ => True := by
  refine SafeUpTo.bind (rewindForEdit_safe hs hloaded changed) fun outcome s₁ hs₁ h₁ =>
    SafeUpTo.get_bind ?_
  split
  · next hnone =>
    rw [hnone] at h₁
    cases h₁
  · next current hcurrent =>
    refine ⟨⟨hs₁.honest, ?_, hs₁.keyframes, hs₁.checkpoints, hs₁.answers, hs₁.fault⟩, trivial⟩
    rintro _ ⟨⟩
    exact patchAll_sound _ hfresh (hs₁.machine current hcurrent)

/-- An edit of functions is answered with where it has led. -/
theorem adopt_outcome {source : String} {loaded : Loaded} {edit : Edit} {changed : List String}
    {outcome : UpdateOutcome} {s' : Session σ}
    (h : adopt source loaded edit changed s = .ok outcome s') :
    outcome ≠ .restarted ∧ outcome ≠ .unchanged := by
  cases hrewind : rewindForEdit changed s with
  | error e s₁ =>
    rw [adopt, bind_of_error hrewind] at h
    cases h
  | ok led s₁ =>
    have hled : outcome = led := by
      rw [adopt, bind_of_ok hrewind, get_bind] at h
      cases hloaded : s₁.loaded with
      | none =>
        rw [hloaded] at h
        cases h
      | some current =>
        rw [hloaded] at h
        cases h
        rfl
    rw [hled]
    unfold rewindForEdit at hrewind
    rw [get_bind] at hrewind
    cases hearliest : s.timeline.earliest? changed with
    | none =>
      rw [hearliest] at hrewind
      cases hrewind
      exact ⟨nofun, nofun⟩
    | some found =>
      obtain ⟨k, hk⟩ := checkpoint?_of_earliest? hearliest
      rw [hearliest] at hrewind
      simp only [hk] at hrewind
      cases hrestore : restore k s with
      | error e s₂ =>
        rw [bind_of_error hrestore] at hrewind
        cases hrewind
      | ok _ s₂ =>
        rw [bind_of_ok hrestore] at hrewind
        cases hrewind
        exact ⟨nofun, nofun⟩

/-- What an update comes to, case by case. -/
theorem update_eq {source : String} {root : Node} {loaded : Loaded}
    (hroot : Node.ofProgram source = .ok root) (hloaded : s.loaded = some loaded) :
      update source s =
      if root.form.alike loaded.form && !s.isFinished then
        .ok .unchanged { s with loaded := some { loaded with source } }
      else
        match Edit.prepare s.units root with
        | .error e => .error e s
        | .ok edit =>
          match Definition.changed loaded.definitions edit.definitions with
          | [] => .ok .restarted (s.install source root.form edit.definitions edit.code
              (s.units + 1))
          | name :: names => adopt source loaded edit (name :: names) s := by
  unfold update
  rw [get_bind, hroot, hloaded]
  simp only
  cases root.form.alike loaded.form && !s.isFinished with
  | true => rfl
  | false =>
    cases Edit.prepare s.units root with
    | error e => rfl
    | ok edit =>
      simp only [Bool.false_eq_true, if_false]
      cases Definition.changed loaded.definitions edit.definitions <;> rfl

theorem update_of_unloaded {source : String} {root : Node}
    (hroot : Node.ofProgram source = .ok root) (hloaded : s.loaded = none) :
    update source s = match load source s with
      | .ok _ s' => .ok .restarted s'
      | .error e s' => .error e s' := by
  unfold update
  rw [get_bind, hroot, hloaded]
  cases hload : load source s with
  | ok _ s' => exact bind_of_ok hload
  | error e s' => exact bind_of_error hload

/-- A source that is taken up can be read. -/
theorem ofProgram_of_update {source : String} {outcome : UpdateOutcome} {s' : Session σ}
    (h : update source s = .ok outcome s') : ∃ root, Node.ofProgram source = .ok root := by
  unfold update at h
  rw [get_bind] at h
  cases hroot : Node.ofProgram source with
  | ok root => exact ⟨root, rfl⟩
  | error e =>
    rw [hroot] at h
    cases h

theorem update_safe (source : String) (hs : s.Sound) :
    SafeUpTo (Error.BenignFor source) (update source) s fun _ _ => True := by
  refine SafeUpTo.get_bind ?_
  split
  · next e he => exact .throw hs ((ofProgram_refuses source).benign he)
  · next root hroot =>
    split
    · exact SafeUpTo.bind (load_safe source hs) fun _ s' hs' _ => .pure hs' trivial
    · next loaded hloaded =>
      split
      · refine ⟨⟨hs.honest, ?_, hs.keyframes, hs.checkpoints, hs.answers, hs.fault⟩, trivial⟩
        rintro _ ⟨⟩
        exact hs.machine loaded hloaded
      · split
        · next e he => exact .throw hs ((edit_refuses hroot s.units).benign he)
        · next edit hedit =>
          obtain ⟨hcode, hfresh⟩ := edit_sound hedit
          split
          · exact ⟨install_sound hs.honest source root.form edit.definitions hcode _, trivial⟩
          · exact (adopt_safe source hs (by rw [hloaded]; rfl) loaded hfresh _).mono fun _ => .inl

end Session

end LiveLisp
