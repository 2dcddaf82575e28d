/-
  Edits and restores that fail. A source is read and compiled in full, and every saved state is put
  to its capability, before anything is changed. So a load, an update or a restore that fails has
  changed nothing: the session is the same in every part, the world included (`failure_harmless`).
-/
import LiveLisp.Proofs.Session.Edits

namespace LiveLisp

variable {σ : Type}

namespace Capability

/-- The world when capabilities have been handed states, one after the other. -/
def handed (w : σ) (states : List (Capability σ × Json)) : σ :=
  states.foldl (fun w pair => (pair.1.restore pair.2 w).2) w

/-- Capabilities that keep their word: a state that one of them accepts it also takes, whatever
states they have been handed in between. -/
def KeepWord (capabilities : List (Capability σ)) : Prop :=
  ∀ c ∈ capabilities, ∀ state w, c.check state w = .ok () →
    ∀ states : List (Capability σ × Json), (∀ pair ∈ states, pair.1 ∈ capabilities) →
      (c.restore state (handed w states)).1 = .ok ()

theorem handed_append (w : σ) (states : List (Capability σ × Json))
    (c : Capability σ) (state : Json) :
    handed w (states ++ [(c, state)]) = (c.restore state (handed w states)).2 := by
  unfold handed
  rw [List.foldl_append]
  rfl

end Capability

namespace Session

open Capability

variable {s s' : Session σ} {e : Error}

/-! ## Saved states -/

theorem checkStates_eq_ok {w : σ} {saved : List (Capability σ × Json)}
    (h : checkStates w saved = .ok ()) :
    ∀ pair ∈ saved, pair.1.check pair.2 w = .ok () := by
  induction saved with
  | nil => exact nofun
  | cons pair rest ih =>
    obtain ⟨c, state⟩ := pair
    unfold checkStates at h
    split at h
    · next hcheck =>
      intro other hother
      rcases List.mem_cons.mp hother with rfl | hother
      · exact hcheck
      · exact ih h other hother
    · cases h

theorem mem_savedStates {capabilities : List (Capability σ)} {states : List (Option Json)}
    {pair : Capability σ × Json} (h : pair ∈ savedStates capabilities states) :
    pair.1 ∈ capabilities := by
  obtain ⟨⟨c, state?⟩, hmem, hstate⟩ := List.mem_filterMap.mp h
  obtain ⟨state, -, rfl⟩ := Option.map_eq_some_iff.mp hstate
  exact (List.of_mem_zip hmem).1

/-- States that were accepted are taken, also after others. -/
theorem restoreStates_of_accepted {capabilities : List (Capability σ)}
    (hword : KeepWord capabilities) {w : σ} {saved : List (Capability σ × Json)}
    (hsaved : ∀ pair ∈ saved, pair.1 ∈ capabilities)
    (haccepted : ∀ pair ∈ saved, pair.1.check pair.2 w = .ok ()) :
    ∀ before : List (Capability σ × Json), (∀ pair ∈ before, pair.1 ∈ capabilities) →
      (restoreStates saved (handed w before)).1 = .ok () := by
  induction saved with
  | nil => exact fun _ _ => rfl
  | cons pair rest ih =>
    obtain ⟨c, state⟩ := pair
    intro before hbefore
    have hc : c ∈ capabilities := hsaved _ (List.mem_cons_self ..)
    have htakes := hword c hc state w (haccepted _ (List.mem_cons_self ..)) before hbefore
    have hrest := ih (fun other hother => hsaved other (List.mem_cons_of_mem _ hother))
      (fun other hother => haccepted other (List.mem_cons_of_mem _ hother)) (before ++ [(c, state)])
      (fun other hother => by
        rcases List.mem_append.mp hother with hother | hother
        · exact hbefore other hother
        · rw [List.mem_singleton.mp hother]
          exact hc)
    rw [handed_append] at hrest
    unfold restoreStates
    cases hrestore : c.restore state (handed w before) with
    | mk result w' =>
      rw [hrestore] at htakes hrest
      cases htakes
      exact hrest

/-- A session returns to a saved state in full, or refuses before it has changed anything. -/
theorem restore_harmless (hword : KeepWord s.config.capabilities) {k : Snapshot}
    (h : restore k s = .error e s') :
    s' = s := by
  rw [restore_eq] at h
  split at h
  · cases h
    rfl
  · split at h
    · cases h
      rfl
    · next hcheck =>
      have htaken := restoreStates_of_accepted hword (fun _ => mem_savedStates)
        (checkStates_eq_ok hcheck) [] nofun
      split at h
      · next refusal w hresult =>
        have hrefused :
          (restoreStates (savedStates s.config.capabilities k.states) s.world).1 = .error refusal :=
          congrArg Prod.fst hresult
        cases hrefused.symm.trans htaken
      · cases h

theorem update_harmless (hword : KeepWord s.config.capabilities) {source : String}
    (h : update source s = .error e s') : s' = s := by
  rcases update_eq_error h with hsame | ⟨k, hrestore⟩
  · exact hsame
  · exact restore_harmless hword hrestore

/-- A load, an update or a restore that fails leaves the session as it was: its source, definitions
and sites, the machine, the step and the error, the keyframes, the checkpoints and the remembered
answers, and the world with the states of all capabilities. -/
theorem failure_harmless (hword : KeepWord s.config.capabilities) :
    (∀ source, load source s = .error e s' → s' = s) ∧
    (∀ source, update source s = .error e s' → s' = s) ∧
    ∀ k, restore k s = .error e s' → s' = s :=
  ⟨fun _ => load_eq_error, fun _ => update_harmless hword, fun _ => restore_harmless hword⟩

/-- A console, and a capability that saves a state and never accepts one. -/
def guarded : Config World :=
  ((Config.ofSettings {} World.renderSignal).withCapability .console).withCapability .picky

theorem guarded_keepWord : KeepWord guarded.capabilities := by
  intro c hc state w haccepts states _
  simp only [guarded, Config.withCapability, Config.ofSettings, if_true,
    List.cons_append, List.nil_append, List.mem_cons, List.not_mem_nil, or_false] at hc
  rcases hc with rfl | rfl | rfl | rfl
  · rfl
  · rfl
  · simp only [console] at haccepts ⊢
    cases hsaved : savedOutput state with
    | error problem =>
      rw [hsaved] at haccepts
      cases haccepts
    | ok output => rfl
  · cases haccepts

/-- A function has been called and has returned. A source that cannot be read, an edit that would go
back to the call, and a return to the start are refused, the last two by a capability that comes
after the console. -/
theorem failure_harmless_refused : ∃ (s : Session World) (k : Snapshot), s.steps = 9 ∧
    (∃ e, load "(f" s = .error e s) ∧ (∃ e, update "(defn f () (print \"b\")) (f)" s = .error e s) ∧
    ∃ e, restore k s = .error e s := by
  have hrun : succeedsWith (fun _ s₁ => decide ((s₁.forward 9).steps = 9) &&
      failsWith (fun _ _ => true) (load "(f" (s₁.forward 9)) &&
      failsWith (fun _ _ => true) (update "(defn f () (print \"b\")) (f)" (s₁.forward 9)) &&
      (s₁.timeline.keyframes.head?.any fun k =>
        failsWith (fun _ _ => true) (restore k (s₁.forward 9))))
      (load "(defn f () (print \"a\")) (f)" (.start guarded {})) = true := by decide +kernel
  obtain ⟨_, s₁, hstart, hrun⟩ := succeedsWith_iff.mp hrun
  simp only [Bool.and_eq_true, decide_eq_true_eq, failsWith_iff, Option.any_eq_true, and_true]
    at hrun
  obtain ⟨⟨⟨hsteps, e₁, s₂, hload⟩, e₂, s₃, hupdate⟩, k, -, e₃, s₄, hrestore⟩ := hrun
  obtain ⟨hrecording, hconfig, -, -⟩ := load_recording rfl hstart
  have hword : KeepWord (s₁.forward 9).config.capabilities := by
    rw [(hrecording.forward 9).2, hconfig]
    exact guarded_keepWord
  cases (failure_harmless hword).1 _ hload
  cases (failure_harmless hword).2.1 _ hupdate
  cases (failure_harmless hword).2.2 _ hrestore
  exact ⟨s₁.forward 9, k, hsteps, ⟨e₁, hload⟩, ⟨e₂, hupdate⟩, e₃, hrestore⟩

end Session

end LiveLisp
