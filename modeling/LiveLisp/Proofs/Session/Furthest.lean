/-
  How far an edit can take a program. Every checkpoint is of a step that the program has come to, so
  an edit goes to no step beyond the furthest one since the program was started, or since an edit
  last took it back (`rewound_le_furthest`). It may still go forward: going back in time forgets no
  checkpoint, and an edit after that goes to a call that the present has not come to yet
  (`edit_moves_forward`).
-/
import LiveLisp.Proofs.Session.Edits
import LiveLisp.Proofs.Session.TimeTravel

namespace LiveLisp

namespace Session

variable {σ : Type} {s s' s'' : Session σ}

/-! ## What an operation leads along -/

/-- From every session `R` leads to the one after `x`, whatever comes of it. -/
def Moves {α : Type} (R : Session σ → Session σ → Prop) (x : SessionM σ α) : Prop :=
  ∀ s, R s (s.after x)

section Moves

variable {R : Session σ → Session σ → Prop}

theorem moves_bind (htrans : ∀ a b c, R a b → R b c → R a c) {α β : Type} {x : SessionM σ α}
    {f : α → SessionM σ β} (hx : Moves R x) (hf : ∀ a, Moves R (f a)) : Moves R (x >>= f) := by
  intro s
  have hfirst := hx s
  cases hrun : x s with
  | error e s' =>
    rw [after_of_error hrun] at hfirst
    rwa [after_of_error (bind_of_error hrun)]
  | ok a s' =>
    rw [after_of_ok hrun] at hfirst
    have hsecond : s.after (x >>= f) = s'.after (f a) := by
      unfold after
      rw [bind_of_ok hrun]
    rw [hsecond]
    exact htrans _ _ _ hfirst (hf a s')

variable (hrefl : ∀ s, R s s) (htrans : ∀ a b c, R a b → R b c → R a c)
    (hstep : Moves R (Session.step : SessionM σ Unit))

include hrefl htrans hstep

theorem moves_replayTo (target left : Nat) : Moves R (replayTo target left : SessionM σ Unit) := by
  induction left with
  | zero => exact hrefl
  | succ left ih =>
    intro s
    unfold after replayTo
    rw [get_bind]
    split_ifs
    · exact moves_bind htrans hstep (fun _ => ih) s
    · exact hrefl s

variable (hclear : ∀ s, R s s.clearRender)

include hclear

theorem moves_spend (done left : Nat) : Moves R (spend done left : SessionM σ BudgetReport) := by
  induction left generalizing done with
  | zero => exact hrefl
  | succ left ih =>
    intro s
    have hnext := hstep s
    rw [after_spend_succ]
    split
    · exact hrefl s
    · split
      · next e s' hrun => rwa [after_of_error hrun] at hnext
      · next s' hrun =>
        rw [after_of_ok hrun] at hnext
        have hcleared : R s s'.clearRender := htrans _ _ _ hnext (hclear s')
        split
        · exact hcleared
        · exact htrans _ _ _ hcleared (ih (done + 1) s'.clearRender)

theorem moves_runBudget (budget : Nat) : Moves R (runBudget budget : SessionM σ BudgetReport) := by
  intro s
  unfold after runBudget
  rw [get_bind]
  split_ifs
  · exact hrefl s
  · exact hrefl s
  · exact moves_spend hrefl htrans hstep hclear 0 budget s

theorem moves_runToCompletion (limit : Nat) :
    Moves R (runToCompletion limit : SessionM σ Value) := by
  have hvalue : Moves R (finishedValue : SessionM σ Value) := by
    intro s
    unfold after finishedValue
    cases s.result? <;> exact hrefl s
  have hwithin (left : Nat) : Moves R (completeWithin limit left : SessionM σ Value) := by
    induction left with
    | zero =>
      intro s
      unfold after completeWithin
      split_ifs
      · exact hvalue s
      · exact hrefl s
    | succ left ih =>
      intro s
      have hnext := hstep s
      unfold after completeWithin
      split_ifs
      · exact hvalue s
      · cases hrun : Session.step s with
        | error e s' => rwa [after_of_error hrun] at hnext
        | ok _ s' =>
          rw [after_of_ok hrun] at hnext
          exact htrans _ _ _ (htrans _ _ _ hnext (hclear s')) (ih s'.clearRender)
  exact hwithin limit

end Moves

/-! ## Going on -/

/-- From one session on to another: no step has been taken back, and every call that is kept was
kept before or is of a step that has been come to. -/
structure Onward (s s' : Session σ) : Prop where
  steps : s.steps ≤ s'.steps
  calls : ∀ k ∈ s'.timeline.checkpoints.values, k ∈ s.timeline.checkpoints.values ∨
    k.step ≤ s'.steps

theorem Onward.refl (s : Session σ) : Onward s s := ⟨Nat.le_refl _, fun _ hk => .inl hk⟩

theorem Onward.trans (h : Onward s s') (h' : Onward s' s'') : Onward s s'' := by
  refine ⟨Nat.le_trans h.steps h'.steps, fun k hk => ?_⟩
  rcases h'.calls k hk with hk | hk
  · rcases h.calls k hk with hk | hk
    · exact .inl hk
    · exact .inr (Nat.le_trans hk h'.steps)
  · exact .inr hk

/-- The same steps and the same checkpoints. -/
theorem Onward.of_same (hsteps : s'.steps = s.steps)
    (hcalls : s'.timeline.checkpoints = s.timeline.checkpoints) :
    Onward s s' :=
  ⟨Nat.le_of_eq hsteps.symm, fun _ hk => .inl (hcalls ▸ hk)⟩

/-- Whatever comes of it, `x` leads onward. -/
def GoesOn {α : Type} (x : SessionM σ α) : Prop :=
  ∀ s, Onward s (s.after x)

theorem GoesOn.bind {α β : Type} {x : SessionM σ α} {f : α → SessionM σ β} (hx : GoesOn x)
    (hf : ∀ a, GoesOn (f a)) :
    GoesOn (x >>= f) :=
  moves_bind (R := Onward) (fun _ _ _ => Onward.trans) hx hf

theorem goesOn_pure {α : Type} (a : α) : GoesOn (pure a : SessionM σ α) := Onward.refl

theorem goesOn_orFault {α : Type} {x : SessionM σ α} (h : GoesOn x) : GoesOn (orFault x) := by
  intro s
  have hx := h s
  cases hrun : x s with
  | ok a s' =>
    rw [after_of_ok (orFault_of_ok hrun)]
    rwa [after_of_ok hrun] at hx
  | error e s' =>
    rw [after_of_error (orFault_of_error hrun)]
    rw [after_of_error hrun] at hx
    exact ⟨hx.steps, hx.calls⟩

theorem goesOn_clearRender : GoesOn (modify clearRender : SessionM σ PUnit) :=
  fun _ => .of_same rfl rfl

theorem goesOn_onRunning {α : Type} (x : Exec (Replay σ) α) : GoesOn (onRunning x) := by
  intro s
  cases hloaded : s.loaded with
  | none =>
    rw [after_of_error (onRunning_of_unloaded x hloaded)]
    exact .refl s
  | some loaded =>
    have hkept := onRunning_kept x hloaded
    exact .of_same hkept.steps hkept.checkpoints

/-- The call that is noted is of the present step. -/
theorem goesOn_recordCall : GoesOn (recordCall : SessionM σ Unit) := by
  intro s
  cases hloaded : s.loaded with
  | none =>
    have hnothing : recordCall s = .ok () s := by
      unfold recordCall
      rw [get_bind, hloaded]
      split <;> rfl
    rw [after_of_ok hnothing]
    exact .refl s
  | some loaded =>
    rw [after_of_ok (recordCall_eq hloaded)]
    refine ⟨Nat.le_refl _, fun k hk => ?_⟩
    simp only [noted, Session.calls] at hk
    split at hk
    · split at hk
      · rcases NameMap.mem_values_put hk with rfl | hk
        · exact .inr (Nat.le_refl _)
        · exact .inl hk
      · exact .inl hk
    · exact .inl hk

theorem goesOn_runInstruction : GoesOn (runInstruction : SessionM σ Unit) := by
  intro s
  have hstep : GoesOn (onRunning (Exec.step (replayHost s.config.capabilities s.steps)) >>= fun _ =>
      modify fun s : Session σ => { s with steps := s.steps + 1 }) :=
    (goesOn_onRunning _).bind fun _ _ => ⟨Nat.le_succ _, fun _ hk => .inl hk⟩
  have hrun := hstep s
  unfold after at hrun ⊢
  unfold runInstruction
  rwa [get_bind]

theorem goesOn_tidy : GoesOn (tidy : SessionM σ Unit) := by
  intro s
  cases hloaded : s.loaded with
  | some loaded =>
    have hkept := tidy_kept hloaded
    exact .of_same hkept.steps hkept.checkpoints
  | none =>
    have hfinished : s.isFinished = false := by simp [isFinished, context?, hloaded]
    have hmachine :
      GoesOn (onMachine Machine.collectGarbage >>= fun _ => pure () : SessionM σ Unit) :=
      (goesOn_onRunning _).bind fun _ => goesOn_pure ()
    have htidy : tidy s = (if 0 < s.config.settings.gcInterval &&
      s.steps % s.config.settings.gcInterval == 0 then
        onMachine Machine.collectGarbage >>= fun _ => pure () else pure ()) s := by
      unfold tidy
      rw [get_bind, hfinished]
      rfl
    unfold after
    rw [htidy]
    split_ifs
    · exact hmachine s
    · exact .refl s

theorem goesOn_recordKeyframe : GoesOn (recordKeyframe : SessionM σ Unit) := by
  intro s
  cases hloaded : s.loaded with
  | some loaded =>
    rw [after_of_ok (recordKeyframe_eq hloaded)]
    exact .of_same rfl rfl
  | none =>
    have hnothing : recordKeyframe s = .ok () s := by
      unfold recordKeyframe
      rw [get_bind, hloaded]
      split <;> rfl
    rw [after_of_ok hnothing]
    exact .refl s

theorem goesOn_step : GoesOn (Session.step : SessionM σ Unit) := by
  intro s
  cases hloaded : s.loaded with
  | none =>
    obtain ⟨e, he⟩ := step_of_unloaded hloaded
    rw [after_of_error he]
    exact .refl s
  | some loaded =>
    by_cases hruns : s.Runs loaded
    · have hparts : GoesOn (recordCall >>= fun _ =>
        orFault runInstruction >>= fun _ => orFault tidy >>= fun _ =>
          recordKeyframe : SessionM σ Unit) :=
        goesOn_recordCall.bind fun _ => (goesOn_orFault goesOn_runInstruction).bind fun _ =>
          (goesOn_orFault goesOn_tidy).bind fun _ => goesOn_recordKeyframe
      have hstep : Session.step s = (recordCall >>= fun _ => orFault runInstruction >>= fun _ =>
        orFault tidy >>= fun _ =>
          recordKeyframe) s := by
        rw [step_eq hruns, bind_of_ok (recordCall_eq hloaded)]
      unfold after
      rw [hstep]
      exact hparts s
    · rw [after_step_of_resting hloaded hruns]
      exact .refl s

theorem goesOn_runBudget (budget : Nat) : GoesOn (runBudget budget : SessionM σ BudgetReport) :=
  moves_runBudget Onward.refl (fun _ _ _ => Onward.trans) goesOn_step
    (fun _ => .of_same rfl rfl) budget

theorem goesOn_replayTo (target left : Nat) : GoesOn (replayTo target left : SessionM σ Unit) :=
  moves_replayTo Onward.refl (fun _ _ _ => Onward.trans) goesOn_step target left

/-! ## Kept calls -/

/-- No call that is kept is after a step. -/
def CallsWithin (s : Session σ) (furthest : Nat) : Prop :=
  ∀ k ∈ s.timeline.checkpoints.values, k.step ≤ furthest

theorem Onward.callsWithin (h : Onward s s') {furthest : Nat} (hs : s.CallsWithin furthest) :
    s'.CallsWithin (max furthest s'.steps) := by
  intro k hk
  rcases h.calls k hk with hk | hk
  · exact Nat.le_trans (hs k hk) (Nat.le_max_left ..)
  · exact Nat.le_trans hk (Nat.le_max_right ..)

/-- Going to a step keeps the calls that were kept, and those that are come by on the way. -/
theorem rewindTo_callsWithin (target : Nat) {furthest : Nat} (hs : s.CallsWithin furthest) :
    (s.after (rewindTo target)).CallsWithin (max furthest (s.after (rewindTo target)).steps) := by
  have hstay : s.CallsWithin (max furthest s.steps) := (Onward.refl s).callsWithin hs
  unfold after rewindTo
  rw [get_bind]
  cases s.timeline.keyframeBefore? target with
  | none => exact hstay
  | some k =>
    have htimeline := after_restore_timeline k s
    simp only
    cases hrestore : restore k s with
    | error e s₁ =>
      rw [after_of_error hrestore] at htimeline
      rw [bind_of_error hrestore]
      refine (Onward.refl s₁).callsWithin ?_
      unfold CallsWithin
      rwa [htimeline]
    | ok _ s₁ =>
      rw [after_of_ok hrestore] at htimeline
      rw [bind_of_ok hrestore]
      have hreplayed : GoesOn (replayTo target (target - k.step) >>= fun _ =>
        modify clearRender : SessionM σ PUnit) :=
        (goesOn_replayTo target (target - k.step)).bind fun _ => goesOn_clearRender
      refine (hreplayed s₁).callsWithin ?_
      unfold CallsWithin
      rwa [htimeline]

theorem travel_callsWithin {op : Operation} (hop : op.Travels) {furthest : Nat}
    (hs : s.CallsWithin furthest) :
    (s.after op.run).CallsWithin (max furthest (s.after op.run).steps) := by
  cases op with
  | step => exact (goesOn_step.bind fun _ => goesOn_pure _) s |>.callsWithin hs
  | runBudget budget =>
    exact ((goesOn_runBudget budget).bind fun _ => goesOn_pure _) s |>.callsWithin hs
  | rewindTo target =>
    have hafter : s.after (Operation.rewindTo target).run = s.after (rewindTo target) :=
      after_bind_pure _ _ s
    rw [hafter]
    exact rewindTo_callsWithin target hs
  | stepBack =>
    have hafter : s.after Operation.stepBack.run = s.after stepBack := after_bind_pure _ _ s
    rw [hafter]
    unfold after stepBack
    rw [get_bind]
    cases s.steps with
    | zero => exact (Onward.refl s).callsWithin hs
    | succ previous => exact rewindTo_callsWithin previous hs
  | snapshot =>
    have hafter : s.after Operation.snapshot.run = s := by
      have hsnapshot : s.after Operation.snapshot.run = s.after snapshot := after_bind_pure _ _ s
      rw [hsnapshot]
      unfold after snapshot
      rw [get_bind]
      cases s.loaded <;> rfl
    rw [hafter]
    exact (Onward.refl s).callsWithin hs
  | restore k =>
    have hafter : s.after (Operation.restore k).run = s.after (restore k) := after_bind_pure _ _ s
    rw [hafter]
    refine (Onward.refl _).callsWithin ?_
    unfold CallsWithin
    rwa [after_restore_timeline]
  | _ => exact hop.elim

/-! ## Edits -/

/-- The furthest step of the program as an update leaves it: one that starts afresh has come nowhere
yet, and one that is taken to a call is as if it had come no further. -/
def UpdateOutcome.furthest (before : Nat) : UpdateOutcome → Nat
  | .unchanged => before
  | .restarted => 0
  | .rewound _ step => step
  | .patched _ => before

/-- The sessions of a host, each with the furthest step that its program has come to. In between the
host may do anything to the world; what fails may have changed the session too. -/
inductive Explored (config : Config σ) : Session σ → Nat → Prop where
  | start (w : σ) : Explored config (.start config w) 0
  | outside {s : Session σ} {furthest : Nat} (h : Explored config s furthest) (w : σ) :
    Explored config { s with world := w } furthest
  | travel {s : Session σ} {furthest : Nat} (h : Explored config s furthest) {op : Operation}
      (htravels : op.Travels) :
    Explored config (s.after op.run) (max furthest (s.after op.run).steps)
  | load {s s' : Session σ} {furthest : Nat} {source : String} (h : Explored config s furthest)
      (hrun : load source s = .ok () s') : Explored config s' 0
  | update {s s' : Session σ} {furthest : Nat} {source : String} {outcome : UpdateOutcome}
      (h : Explored config s furthest) (hrun : update source s = .ok outcome s') :
    Explored config s' (outcome.furthest furthest)
  | refused {s s' : Session σ} {furthest : Nat} {source : String} {e : Error}
      (h : Explored config s furthest)
      (hrun : Session.load source s = .error e s' ∨ Session.update source s = .error e s') :
        Explored config s' furthest

theorem install_callsWithin (source : String) (form : Form) (definitions : List Definition)
    (code : Code) (units : Nat) (furthest : Nat) :
    (s.install source form definitions code units).CallsWithin furthest := nofun

/-- Whether an edit takes the program to a call or not, no call after the furthest step is kept. -/
theorem Taken.callsWithin {source : String} {outcome : UpdateOutcome} {furthest : Nat}
    (h : Taken source s outcome s') (hs : s.CallsWithin furthest) :
    s'.CallsWithin (outcome.furthest furthest) := by
  cases h with
  | unchanged hroot hloaded halike => exact hs
  | restarted hroot hdefinitions hcode => exact install_callsWithin _ _ _ _ _ _
  | patched hroot hloaded hedit huncalled => exact hs
  | rewound hroot hloaded hedit hearliest hk =>
    intro k' hk'
    obtain ⟨entry, hentry, rfl⟩ := List.mem_map.mp hk'
    exact decide_eq_true_eq.mp (List.mem_filter.mp hentry).2

theorem Taken.steps_le {source : String} {outcome : UpdateOutcome} {furthest : Nat}
    (h : Taken source s outcome s') (hs : s.steps ≤ furthest) :
    s'.steps ≤ outcome.furthest furthest := by
  cases h with
  | unchanged hroot hloaded halike => exact hs
  | restarted hroot hdefinitions hcode => exact Nat.le_refl 0
  | patched hroot hloaded hedit huncalled => exact hs
  | rewound hroot hloaded hedit hearliest hk => exact Nat.le_refl _

/-- The program is nowhere beyond its furthest step, and neither is a call that is kept. -/
theorem Explored.within {config : Config σ} {furthest : Nat} (h : Explored config s furthest) :
    s.steps ≤ furthest ∧ s.CallsWithin furthest := by
  induction h with
  | start w => exact ⟨Nat.le_refl 0, nofun⟩
  | outside h w ih => exact ih
  | travel h htravels ih => exact ⟨Nat.le_max_right .., travel_callsWithin htravels ih.2⟩
  | @load s s' furthest source h hrun ih =>
    obtain ⟨root, definitions, code, -, rfl⟩ := load_eq_ok hrun
    exact ⟨Nat.le_refl 0, install_callsWithin _ _ _ _ _ _⟩
  | update h hrun ih =>
    have htaken := update_eq_ok hrun
    exact ⟨htaken.steps_le ih.1, htaken.callsWithin ih.2⟩
  | refused h hrun ih =>
    rcases hrun with hrun | hrun
    · rw [load_eq_error hrun]
      exact ih
    · rcases update_eq_error hrun with rfl | ⟨k, hrestore⟩
      · exact ih
      · obtain ⟨w, rfl⟩ := restore_eq_error hrestore
        exact ih

/-- An edit that takes the program to a call takes it to a step where it has been: no further than
the furthest step since the program was started or was last taken to a call, and so forward only if
it had gone back from there. -/
theorem rewound_le_furthest {config : Config σ} {furthest : Nat}
    (h : Explored config s furthest) {source f : String} {step : Nat}
    (hupdate : update source s = .ok (.rewound f step) s') :
    step ≤ furthest ∧ s'.steps = step := by
  cases update_eq_ok hupdate with
  | rewound hroot hloaded hedit hearliest hk =>
    exact ⟨h.within.2 _ (NameMap.mem_values_of_get? hk), rfl⟩

/-- A function is called at step 5, the program goes on to step 6 and back to step 3, and the
function is edited. -/
theorem rewound_le_furthest_ahead : ∃ s s' : Session World, Explored playground s 6 ∧ s.steps = 3 ∧
    update "(defn f () (+ 1 1)) (f)" s = .ok (.rewound "f" 5) s' ∧
    5 ≤ 6 ∧ s'.steps = 5 := by
  have hrun : (match load "(defn f () 1) (f)" (.start playground {}) with
      | .ok _ s₁ =>
        decide ((s₁.after (Operation.runBudget 6).run).steps = 6) &&
        decide (((s₁.after (Operation.runBudget 6).run).after (Operation.rewindTo 3).run).steps =
          3) &&
        match update "(defn f () (+ 1 1)) (f)"
          ((s₁.after (Operation.runBudget 6).run).after (Operation.rewindTo 3).run) with
        | .ok outcome _ => decide (outcome = .rewound "f" 5)
        | .error _ _ => false
      | .error _ _ => false) = true := by decide +kernel
  split at hrun
  case h_2 => cases hrun
  next s₁ hload =>
  simp only [Bool.and_eq_true, decide_eq_true_eq] at hrun
  obtain ⟨⟨hsix, hthree⟩, hrun⟩ := hrun
  have hbudget : (Operation.runBudget 6).Travels := trivial
  have hback : (Operation.rewindTo 3).Travels := trivial
  have hstart : Explored playground (.start playground {}) 0 := Explored.start _
  have hexplored := ((hstart.load hload).travel hbudget).travel hback
  rw [hthree, hsix] at hexplored
  split at hrun
  case h_2 => cases hrun
  next outcome s' hupdate =>
  cases decide_eq_true_eq.mp hrun
  exact ⟨_, s', hexplored, hthree, hupdate, rewound_le_furthest hexplored hupdate⟩

/-- A function is called at step 5. When the program has gone on to step 6 and back to step 3, an
edit of the function takes it to the call, two steps ahead. -/
theorem edit_moves_forward : ∃ s s' : Session World,
    (do load "(defn f () 1) (f)"; step; step; step; step; step; step; rewindTo
          3 : SessionM World Unit)
      (.start playground {}) = .ok () s ∧
    s.steps = 3 ∧ update "(defn f () (+ 1 1)) (f)" s = .ok (.rewound "f" 5) s' ∧ s'.steps = 5 := by
  have hrun : (match (do
        load "(defn f () 1) (f)"; step; step; step; step; step; step; rewindTo 3 :
          SessionM World Unit)
        (.start playground {}) with
      | .ok _ s =>
        decide (s.steps = 3) &&
        match update "(defn f () (+ 1 1)) (f)" s with
        | .ok outcome s' => decide (outcome = .rewound "f" 5) && decide (s'.steps = 5)
        | .error _ _ => false
      | .error _ _ => false) = true := by decide +kernel
  split at hrun
  case h_2 => cases hrun
  next s hpresent =>
  simp only [Bool.and_eq_true, decide_eq_true_eq] at hrun
  obtain ⟨hsteps, hrun⟩ := hrun
  split at hrun
  case h_2 => cases hrun
  next outcome s' hupdate =>
  simp only [Bool.and_eq_true, decide_eq_true_eq] at hrun
  obtain ⟨rfl, hsteps'⟩ := hrun
  exact ⟨s, s', hpresent, hsteps, hupdate, hsteps'⟩

end Session

end LiveLisp
