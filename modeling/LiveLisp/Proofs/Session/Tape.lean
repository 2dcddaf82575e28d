/-
  The tape of a program: the moments it has been at, step by step, each written when its step is
  first reached. Whatever a host does with a loaded program, stepping, rewinding and returning to
  kept states, the session is at the moment that the tape has for its step, every keyframe was kept
  at one, and from each moment the next can be reached again (`OnTape`). So moments are only ever
  added at the end, and the tape can be wound back to every one of them (`OnTape.rewindTo`).
-/
import LiveLisp.Proofs.Session.Again

namespace LiveLisp

variable {σ : Type}

/-! ## The first keyframe -/

namespace Timeline

theorem first_insertKeyframe {keyframes : List Snapshot}
    (h : ∃ k ∈ keyframes, k.step = 0) (new : Snapshot) :
    ∃ k ∈ insertKeyframe new keyframes, k.step = 0 := by
  induction keyframes with
  | nil => obtain ⟨k, hk, -⟩ := h; cases hk
  | cons other rest ih =>
    unfold insertKeyframe
    obtain ⟨k, hk, hzero⟩ := h
    split
    · exact ⟨k, List.mem_cons_of_mem _ hk, hzero⟩
    · split
      · next hsame =>
        rcases List.mem_cons.mp hk with rfl | hk
        · exact ⟨new, List.mem_cons_self .., hsame.symm.trans hzero⟩
        · exact ⟨k, List.mem_cons_of_mem _ hk, hzero⟩
      · rcases List.mem_cons.mp hk with rfl | hk
        · exact ⟨k, List.mem_cons_self .., hzero⟩
        · obtain ⟨k', hk', hzero'⟩ := ih ⟨k, hk, hzero⟩
          exact ⟨k', List.mem_cons_of_mem _ hk', hzero'⟩

/-- The keyframe at the start is never forgotten. -/
theorem first_recordKeyframe {t : Timeline} (h : ∃ k ∈ t.keyframes, k.step = 0)
    (new : Snapshot) (limit : Nat) :
    ∃ k ∈ (t.recordKeyframe new limit).keyframes, k.step = 0 := by
  obtain ⟨k, hk, hzero⟩ := first_insertKeyframe h new
  unfold recordKeyframe evict
  simp only
  split
  · exact ⟨k, hk, hzero⟩
  · exact ⟨k, List.mem_append_right _ (List.mem_filter.mpr ⟨hk, by simp [hzero]⟩), hzero⟩

/-- With a keyframe at the start there is one before every step. -/
theorem keyframeBefore?_of_first {t : Timeline} (h : ∃ k ∈ t.keyframes, k.step = 0) (step : Nat) :
    ∃ k, t.keyframeBefore? step = some k ∧ k ∈ t.keyframes ∧ k.step ≤ step := by
  obtain ⟨k, hk, hzero⟩ := h
  cases hfind : t.keyframeBefore? step with
  | none =>
    have hnone := List.find?_eq_none.mp hfind k hk
    simp [hzero] at hnone
  | some k' =>
    refine ⟨k', rfl, List.mem_of_find?_eq_some hfind, ?_⟩
    have hle := List.find?_some hfind
    simpa using hle

/-- Before a step that no keyframe is after stands the latest of all. -/
theorem keyframeBefore?_of_all {t : Timeline} {step : Nat} (h : ∀ k ∈ t.keyframes, k.step ≤ step) :
    t.keyframeBefore? step = t.keyframes.head? := by
  unfold keyframeBefore?
  cases hkeyframes : t.keyframes with
  | nil => rfl
  | cons k rest =>
    have hk := h k (by rw [hkeyframes]; exact List.mem_cons_self ..)
    simp [hk]

end Timeline

namespace Session

open Capability

variable {config : Config σ} {s s' t : Session σ} {loaded : Loaded} {tape : List Moment}

theorem mem_framesWith {machine : Machine} {k : Snapshot} (h : k ∈ s.framesWith machine) :
    k = s.capture machine ∨ k ∈ s.timeline.keyframes := by
  unfold framesWith at h
  simp only at h
  split at h
  · exact mem_recordKeyframe h
  · exact .inr h

theorem first_framesWith (h : ∃ k ∈ s.timeline.keyframes, k.step = 0) (machine : Machine) :
    ∃ k ∈ s.framesWith machine, k.step = 0 := by
  unfold framesWith
  simp only
  split
  · exact Timeline.first_recordKeyframe h _ _
  · exact h

theorem keyframes_advanced (s : Session σ) (loaded : Loaded) (m : Machine) (r : Replay σ) :
    (s.advanced loaded m r).timeline.keyframes = framesWith { s with
      world := r.world, steps :=
        s.steps + 1 } (m.tidied s.config.settings.gcInterval (s.steps + 1)) := rfl

/-! ## The tape -/

/-- From the first moment the next step leads to the second, whichever session takes it. -/
def Leads (config : Config σ) (answers : List (Nat × Value)) (step : Nat) (a b : Moment) : Prop :=
  ∀ t : Session σ, t.Sound → t.config = config → t.steps = step →
    t.moment? = some a → t.fault = none →
    Remembers answers t.timeline.answers → ∃ t', Session.step t = .ok () t' ∧ t'.moment? = some b

/-- The session is at the moment that the tape has for its step. -/
def At (config : Config σ) (tape : List Moment) (s : Session σ) : Prop :=
  s.config = config ∧ ∃ a, s.moment? = some a ∧ tape[s.steps]? = some a

/-- The session has come to where it is along the tape, and can go along it again. -/
structure OnTape (config : Config σ) (tape : List Moment) (s : Session σ) : Prop where
  sound : s.Sound
  repeatable : Repeatable config.capabilities config.render
  present : At config tape s
  kept : ∀ k ∈ s.timeline.keyframes, ∃ a, tape[k.step]? = some a ∧ KeptAt k config.capabilities a
  first : ∃ k ∈ s.timeline.keyframes, k.step = 0
  leads : ∀ i a b, tape[i]? = some a → tape[i + 1]? = some b → Leads config s.timeline.answers i a b

theorem Leads.mono {answers later : List (Nat × Value)} {step : Nat} {a b : Moment}
    (h : Leads config answers step a b) (hlater : Remembers answers later) :
    Leads config later step a b :=
  fun t ht hconfig hsteps hmoment hfault hremembers =>
    h t ht hconfig hsteps hmoment hfault (hlater.trans hremembers)

theorem getElem?_of_longer {tape tape' : List Moment} (h : tape <+: tape') {i : Nat} {a : Moment}
    (ha : tape[i]? = some a) : tape'[i]? = some a := by
  obtain ⟨more, rfl⟩ := h
  rw [List.getElem?_append_left (List.getElem?_eq_some_iff.mp ha).1]
  exact ha

theorem At.mono {tape tape' : List Moment} (h : At config tape s) (hlonger : tape <+: tape') :
    At config tape' s := by
  obtain ⟨hconfig, a, ha, hat⟩ := h
  exact ⟨hconfig, a, ha, getElem?_of_longer hlonger hat⟩

theorem OnTape.steps_lt (h : OnTape config tape s) : s.steps < tape.length := by
  obtain ⟨-, a, -, ha⟩ := h.present
  exact (List.getElem?_eq_some_iff.mp ha).1

theorem OnTape.program (h : OnTape config tape s) : ∃ loaded, s.loaded = some loaded := by
  obtain ⟨-, a, ha, -⟩ := h.present
  obtain ⟨loaded, hloaded, -⟩ := moment?_eq_some_iff.mp ha
  exact ⟨loaded, hloaded⟩

/-- What the host does to the world makes no difference if it keeps the saved states. -/
theorem OnTape.setWorld (h : OnTape config tape s) {w : σ}
    (hw : recorded config.capabilities w = recorded config.capabilities s.world) :
    OnTape config tape { s with world := w } := by
  refine ⟨h.sound.setWorld w, h.repeatable, ?_, h.kept, h.first, h.leads⟩
  obtain ⟨rfl, a, ha, hat⟩ := h.present
  refine ⟨rfl, a, ?_, hat⟩
  rw [← ha]
  unfold moment?
  simp only [hw]

theorem At.clearRender (h : At config tape s)
    (hrepeatable : Repeatable config.capabilities config.render) :
    At config tape s.clearRender := by
  obtain ⟨rfl, a, ha, hat⟩ := h
  refine ⟨rfl, a, ?_, hat⟩
  rw [← ha]
  unfold moment? Session.clearRender
  simp only [hrepeatable.recorded_signal]

theorem OnTape.clearRender (h : OnTape config tape s) : OnTape config tape s.clearRender := by
  refine h.setWorld ?_
  rw [h.present.1]
  exact h.repeatable.recorded_signal false s.world

/-! ## Steps along the tape -/

/-- After a step, on a tape that has the moment it has led to, what was kept before is as it was. -/
theorem OnTape.advanced (h : OnTape config tape s) {tape' : List Moment} {m : Machine}
    (hlonger : tape <+: tape') (hsound : (s.advanced loaded m (s.reply loaded).2).Sound)
    (hpresent : At config tape' (s.advanced loaded m (s.reply loaded).2))
    (hleads : ∀ i a b, tape'[i]? = some a → tape'[i + 1]? = some b →
      Leads config (s.reply loaded).2.answers i a b) :
    OnTape config tape' (s.advanced loaded m (s.reply loaded).2) := by
  have hfirst : ∃ k ∈ (s.advanced loaded m (s.reply loaded).2).timeline.keyframes, k.step = 0 := by
    rw [keyframes_advanced]
    refine first_framesWith ?_ _
    exact h.first
  refine ⟨hsound, h.repeatable, hpresent, fun k hk => ?_, hfirst, hleads⟩
  rw [keyframes_advanced] at hk
  rcases mem_framesWith hk with rfl | hk
  · obtain ⟨rfl, b, hb, hbat⟩ := hpresent
    exact ⟨b, hbat, capture_keptAt (s := s.advanced loaded m (s.reply loaded).2) rfl hb⟩
  · obtain ⟨b, hb, hkept⟩ := h.kept k hk
    exact ⟨b, getElem?_of_longer hlonger hb, hkept⟩

/-- Where the tape goes on, so can the program. -/
theorem OnTape.step_along (h : OnTape config tape s) (hfault : s.fault = none)
    (hlt : s.steps + 1 < tape.length) :
    ∃ s', Session.step s = .ok () s' ∧ OnTape config tape s' ∧ s'.steps = s.steps + 1 ∧
      s'.fault = none := by
  obtain ⟨hconfig, a, ha, hat⟩ := h.present
  obtain ⟨s', hstep, hmoment⟩ :=
    h.leads s.steps a _ hat (List.getElem?_eq_getElem hlt) s h.sound hconfig rfl ha hfault
    (.refl _)
  obtain ⟨loaded, m, v, -, -, -, rfl⟩ := step_eq_ok h.sound hstep
  refine ⟨_, hstep, ?_, rfl, hfault⟩
  refine h.advanced (List.prefix_refl tape)
    ((step_safe h.sound).sound_of_ok hstep) ?_ fun i a b hi hi' => ?_
  · exact ⟨hconfig, _, hmoment, List.getElem?_eq_getElem hlt⟩
  · exact (h.leads i a b hi hi').mono (reply_remembers s loaded)

/-- A step that succeeds goes along the tape, or adds a moment to its end. -/
theorem OnTape.step_ok (h : OnTape config tape s) (hstep : Session.step s = .ok () s') :
    ∃ tape', tape <+: tape' ∧ OnTape config tape' s' := by
  obtain ⟨loaded, m, v, hruns, -, -, rfl⟩ := step_eq_ok h.sound hstep
  by_cases hlt : s.steps + 1 < tape.length
  · obtain ⟨s', hs', h', -⟩ := h.step_along hruns.fault hlt
    cases hs'.symm.trans hstep
    exact ⟨tape, List.prefix_refl tape, h'⟩
  · obtain ⟨rfl, a, ha, hat⟩ := h.present
    have hlength : tape.length = s.steps + 1 := by
      have := h.steps_lt
      omega
    let b : Moment := ⟨m.tidied s.config.settings.gcInterval (s.steps + 1),
      recorded s.config.capabilities (s.reply loaded).2.world⟩
    have hlonger : tape <+: tape ++ [b] := List.prefix_append ..
    have hsound := (step_safe h.sound).sound_of_ok hstep
    refine ⟨tape ++ [b], hlonger, h.advanced hlonger hsound ⟨rfl, b, rfl, ?_⟩ fun i c d hi hi' =>
      ?_⟩
    · show (tape ++ [b])[s.steps + 1]? = some b
      rw [← hlength, List.getElem?_concat_length]
    · by_cases hi_lt : i + 1 < tape.length
      · rw [List.getElem?_append_left (by omega)] at hi hi'
        exact (h.leads i c d hi hi').mono (reply_remembers s loaded)
      · have hi_eq : i = s.steps := by
          have := (List.getElem?_eq_some_iff.mp hi').1
          simp only [List.length_append, List.length_singleton] at this
          omega
        subst hi_eq
        rw [getElem?_of_longer hlonger hat] at hi
        rw [← hlength, List.getElem?_concat_length] at hi'
        cases hi
        cases hi'
        intro t ht hconfig hsteps hmoment hfault hanswers
        exact step_again h.repeatable h.sound ht hconfig hsteps
          (hmoment.trans ha.symm) hfault hstep hanswers

/-- A step that fails leaves the session where it is. -/
theorem OnTape.step_error (h : OnTape config tape s) {e : Error}
    (hstep : Session.step s = .error e s') :
    OnTape config tape s' := by
  obtain ⟨loaded, hloaded⟩ := h.program
  by_cases hruns : s.Runs loaded
  · rcases step_of_running h.sound hruns with ⟨m, v, -, -, -, hadvanced⟩ | ⟨e', -, hrefused, herror⟩
    · cases hadvanced.symm.trans hstep
    · have hsound : (s.stopped loaded e' (s.reply loaded).2).Sound := by
        have hsafe := (step_safe h.sound).after_sound
        rwa [after_of_error herror] at hsafe
      cases herror.symm.trans hstep
      have hremembers := reply_remembers s loaded
      refine ⟨hsound, h.repeatable, ?_, h.kept, h.first, fun i a b hi hi' =>
        (h.leads i a b hi hi').mono hremembers⟩
      obtain ⟨rfl, a, ha, hat⟩ := h.present
      refine ⟨rfl, a, ?_, hat⟩
      rw [← ha]
      unfold moment?
      show s.loaded.map _ = _
      simp only [stopped, reply_refused h.repeatable hrefused]
  · obtain ⟨e', he'⟩ := step_of_resting hloaded hruns
    cases he'.symm.trans hstep
    exact h

theorem OnTape.step (h : OnTape config tape s) : ∃ tape', tape <+: tape' ∧
    OnTape config tape' (s.after Session.step) := by
  cases hstep : Session.step s with
  | ok _ s' =>
    rw [after_of_ok hstep]
    exact h.step_ok hstep
  | error e s' =>
    rw [after_of_error hstep]
    exact ⟨tape, List.prefix_refl tape, h.step_error hstep⟩

/-! ## Loops of steps -/

/-- The first `left` stations of a walk are all on one tape, and the last of them has come along it.
-/
def Along (config : Config σ) (tape : List Moment) (walk : Nat → Session σ) (left : Nat) : Prop :=
  ∃ tape', tape <+: tape' ∧ OnTape config tape' (walk left) ∧ ∀ j ≤ left, At config tape' (walk j)

theorem OnTape.along (h : OnTape config tape s) (left : Nat) :
    Along config tape (fun _ => s) left :=
  ⟨tape, List.prefix_refl tape, h, fun _ _ => h.present⟩

theorem Along.nil {walk : Nat → Session σ} (h : OnTape config tape (walk 0)) :
    Along config tape walk 0 := by
  refine ⟨tape, List.prefix_refl tape, h, fun j hj => ?_⟩
  rw [Nat.le_zero.mp hj]
  exact h.present

/-- One more station before the others. -/
theorem Along.cons {tape' : List Moment} {walk : Nat → Session σ} {left : Nat}
    (h : OnTape config tape (walk 0)) (hlonger : tape <+: tape')
    (hrest : Along config tape' (fun j => walk (j + 1)) left) :
    Along config tape walk (left + 1) := by
  obtain ⟨tape'', hlonger', hlast, hall⟩ := hrest
  refine ⟨tape'', hlonger.trans hlonger', hlast, fun j hj => ?_⟩
  cases j with
  | zero => exact h.present.mono (hlonger.trans hlonger')
  | succ j => exact hall j (Nat.le_of_succ_le_succ hj)

theorem after_spend_succ (done left : Nat) (s : Session σ) : s.after (spend done (left + 1)) =
    if s.isFinished then s
    else
      match Session.step s with
      | .error _ s' => s'
      | .ok _ s' =>
        if s'.config.render.isRequested s'.world then s'.clearRender
        else s'.clearRender.after (spend (done + 1) left) := by
  unfold after
  simp only [spend]
  cases s.isFinished with
  | true => rfl
  | false =>
    simp only [Bool.false_eq_true, if_false]
    cases Session.step s with
    | error e s' =>
      simp only
      cases e.isFatal <;> rfl
    | ok _ s' =>
      simp only
      cases s'.config.render.isRequested s'.world <;> rfl

/-- A budget is spent along the tape; a smaller one would have ended on the way. -/
theorem OnTape.spend (h : OnTape config tape s) (done left : Nat) :
    Along config tape (fun j => s.after (spend done j)) left := by
  induction left generalizing s tape done with
  | zero => exact .nil h
  | succ left ih =>
    cases hstep : Session.step s with
    | error e s' =>
      refine Along.cons h (List.prefix_refl tape) ?_
      simp only [after_spend_succ, hstep]
      cases s.isFinished with
      | true => exact h.along left
      | false => exact (h.step_error hstep).along left
    | ok _ s' =>
      obtain ⟨tape', hlonger, h'⟩ := h.step_ok hstep
      cases hfinished : s.isFinished with
      | true =>
        refine Along.cons h (List.prefix_refl tape) ?_
        simp only [after_spend_succ, hfinished, if_true]
        exact h.along left
      | false =>
        refine Along.cons h hlonger ?_
        simp only [after_spend_succ, hfinished, hstep, Bool.false_eq_true, if_false]
        cases s'.config.render.isRequested s'.world with
        | true => exact h'.clearRender.along left
        | false => exact ih h'.clearRender (done + 1)

theorem after_replayTo_succ (target left : Nat) (s : Session σ) :
    s.after (replayTo target (left + 1)) =
    if s.steps < target && !s.isFinished then
      match Session.step s with
      | .error _ s' => s'
      | .ok _ s' => s'.after (replayTo target left)
    else s := by
  unfold after
  rw [replayTo, get_bind]
  cases s.steps < target && !s.isFinished with
  | false => rfl
  | true =>
    simp only [if_true]
    cases hstep : Session.step s with
    | error e s' => rw [bind_of_error hstep]
    | ok _ s' => rw [bind_of_ok hstep]

/-- Replaying goes along the tape, however far. -/
theorem OnTape.replayTo (h : OnTape config tape s) (target left : Nat) :
    Along config tape (fun j => s.after (replayTo target j)) left := by
  induction left generalizing s tape with
  | zero => exact .nil h
  | succ left ih =>
    cases hgoes : s.steps < target && !s.isFinished with
    | false =>
      refine Along.cons h (List.prefix_refl tape) ?_
      simp only [after_replayTo_succ, hgoes]
      exact h.along left
    | true =>
      cases hstep : Session.step s with
      | error e s' =>
        refine Along.cons h (List.prefix_refl tape) ?_
        simp only [after_replayTo_succ, hgoes, hstep]
        exact (h.step_error hstep).along left
      | ok _ s' =>
        obtain ⟨tape', hlonger, h'⟩ := h.step_ok hstep
        refine Along.cons h hlonger ?_
        simp only [after_replayTo_succ, hgoes, hstep]
        exact ih h'

/-- As far as the tape goes, replaying reaches the step that it is meant to. -/
theorem OnTape.replayTo_reached (h : OnTape config tape s) (hfault : s.fault = none) {left : Nat}
    (hlt : s.steps + left < tape.length) :
    ∃ s', Session.replayTo (s.steps + left) left s = .ok () s' ∧ OnTape config tape s' ∧
      s'.steps = s.steps + left ∧
      s'.fault = none := by
  induction left generalizing s with
  | zero => exact ⟨s, rfl, h, rfl, hfault⟩
  | succ left ih =>
    obtain ⟨s', hstep, h', hsteps, hfault'⟩ := h.step_along hfault (by omega)
    obtain ⟨loaded, hruns⟩ := runs_of_step hstep
    have hgoes : (s.steps < s.steps + (left + 1) && !s.isFinished) = true := by
      rw [isFinished_eq hruns.program, hruns.running]
      simp
    have htarget : s'.steps + left = s.steps + (left + 1) := by omega
    obtain ⟨s'', hrun, h'', hreached, hfault''⟩ := ih h' hfault' (by omega)
    rw [htarget] at hrun hreached
    refine ⟨s'', ?_, h'', hreached, hfault''⟩
    rw [Session.replayTo, get_bind, if_pos hgoes, bind_of_ok hstep, hrun]

/-! ## Travel -/

/-- Returning to a state that was kept on the tape. -/
theorem OnTape.restore (h : OnTape config tape s) {k : Snapshot} {a : Moment}
    (hat : tape[k.step]? = some a) (hk : KeptAt k config.capabilities a)
    (hsound : k.machine.Sound) :
    ∃ s', Session.restore k s = .ok () s' ∧ OnTape config tape s' ∧ s'.steps = k.step ∧
      s'.fault = none := by
  obtain ⟨loaded, hloaded⟩ := h.program
  obtain rfl := h.present.1
  obtain ⟨s', hrun, hmoment, hsteps, hfault, hconfig, htimeline⟩ :=
    restore_kept h.repeatable hloaded hk
  have hs' := (restore_safe h.sound hsound).sound_of_ok hrun
  refine ⟨s', hrun, ⟨hs', h.repeatable, ⟨hconfig, a, hmoment, by rw [hsteps]; exact hat⟩, ?_, ?_,
    ?_⟩, hsteps, hfault⟩
  · rw [htimeline]
    exact h.kept
  · rw [htimeline]
    exact h.first
  · rw [htimeline]
    exact h.leads

/-- Every moment of the tape can be gone back to. -/
theorem OnTape.rewindTo_reached (h : OnTape config tape s) {target : Nat}
    (hlt : target < tape.length) :
    ∃ s', rewindTo target s = .ok () s' ∧ OnTape config tape s' ∧ s'.steps = target ∧
      s'.fault = none := by
  obtain ⟨k, hfind, hmem, hle⟩ := Timeline.keyframeBefore?_of_first h.first target
  obtain ⟨a, hat, hk⟩ := h.kept k hmem
  obtain ⟨s₁, hrestore, h₁, hsteps, hfault⟩ := h.restore hat hk (h.sound.keyframes k hmem)
  have htarget : s₁.steps + (target - k.step) = target := by omega
  have hwithin : s₁.steps + (target - k.step) < tape.length := by omega
  obtain ⟨s₂, hreplay, h₂, hreached, hfault₂⟩ := h₁.replayTo_reached hfault hwithin
  rw [htarget] at hreplay hreached
  refine ⟨s₂.clearRender, ?_, h₂.clearRender, hreached, hfault₂⟩
  unfold Session.rewindTo
  rw [get_bind, hfind]
  show (Session.restore k >>= fun _ => Session.replayTo target (target - k.step) >>= fun _ =>
    modify Session.clearRender) s = _
  rw [bind_of_ok hrestore, bind_of_ok hreplay]
  rfl

/-- Up to a later target the same steps are taken first. -/
theorem replayTo_of_le (hs : s.Sound) {target later left : Nat} (hle : target ≤ later)
    (hleft : s.steps + left ≤ target) : replayTo target left s = replayTo later left s := by
  induction left generalizing s with
  | zero => rfl
  | succ left ih =>
    have hbefore : (s.steps < target) = (s.steps < later) := by
      rw [eq_iff_iff]
      omega
    rw [replayTo, replayTo, get_bind, get_bind]
    simp only [hbefore]
    cases s.steps < later && !s.isFinished with
    | false => rfl
    | true =>
      cases hstep : Session.step s with
      | error e s' =>
        simp only [if_true]
        rw [bind_of_error hstep, bind_of_error hstep]
      | ok _ s' =>
        simp only [if_true]
        rw [bind_of_ok hstep, bind_of_ok hstep]
        obtain ⟨loaded, m, v, -, -, -, rfl⟩ := step_eq_ok hs hstep
        have hsteps : (s.advanced loaded m (s.reply loaded).2).steps = s.steps + 1 := rfl
        exact ih ((step_safe hs).sound_of_ok hstep) (by omega)

theorem after_rewindTo {target : Nat} {k : Snapshot}
    (hfind : s.timeline.keyframeBefore? target = some k)
      (hrestore : Session.restore k s = .ok () s') : s.after (rewindTo target) =
      match Session.replayTo target (target - k.step) s' with
      | .ok _ s'' => s''.clearRender
      | .error _ s'' => s'' := by
  have hrewind : rewindTo target s =
      (Session.replayTo target (target - k.step) >>= fun _ => modify Session.clearRender) s' := by
    unfold rewindTo
    rw [get_bind, hfind]
    exact bind_of_ok hrestore
  cases hreplay : Session.replayTo target (target - k.step) s' with
  | ok _ s'' =>
    rw [bind_of_ok hreplay] at hrewind
    exact after_of_ok hrewind
  | error e s'' =>
    rw [bind_of_error hreplay] at hrewind
    exact after_of_error hrewind

/-- Rewinding goes along the tape, also when it is meant to go beyond the end. -/
theorem OnTape.rewindTo (h : OnTape config tape s) (target : Nat) :
    Along config tape (fun j => s.after (rewindTo j)) target := by
  have hinside {j : Nat} (hj : j < tape.length) :
    OnTape config tape (s.after (Session.rewindTo j)) := by
    obtain ⟨s', hrun, h', -⟩ := h.rewindTo_reached hj
    rw [after_of_ok hrun]
    exact h'
  by_cases hlt : target < tape.length
  · exact ⟨tape, List.prefix_refl tape, hinside hlt, fun j hj => (hinside (by omega)).present⟩
  · obtain ⟨k, hfind, hmem, hle⟩ := Timeline.keyframeBefore?_of_first h.first target
    obtain ⟨a, hat, hk⟩ := h.kept k hmem
    obtain ⟨s₁, hrestore, h₁, hsteps, -⟩ := h.restore hat hk (h.sound.keyframes k hmem)
    obtain ⟨tape', hlonger, hlast, hall⟩ := h₁.replayTo target (target - k.step)
    refine ⟨tape', hlonger, ?_, fun j hj => ?_⟩
    · simp only [after_rewindTo hfind hrestore]
      simp only [after] at hlast
      cases hreplay : Session.replayTo target (target - k.step) s₁ with
      | ok _ s₂ =>
        rw [hreplay] at hlast
        exact hlast.clearRender
      | error e s₂ =>
        rw [hreplay] at hlast
        exact hlast
    · by_cases hj_lt : j < tape.length
      · exact (hinside hj_lt).present.mono hlonger
      · -- beyond the tape the way starts from the last keyframe, whatever the target
        have hbefore : ∀ k' ∈ s.timeline.keyframes, k'.step < tape.length := by
          intro k' hk'
          obtain ⟨a', ha', -⟩ := h.kept k' hk'
          exact (List.getElem?_eq_some_iff.mp ha').1
        have hfind_j : s.timeline.keyframeBefore? j = some k := by
          rw [← hfind, Timeline.keyframeBefore?_of_all, Timeline.keyframeBefore?_of_all]
          · exact fun k' hk' => by have := hbefore k' hk'; omega
          · exact fun k' hk' => by have := hbefore k' hk'; omega
        have hk_lt := hbefore k hmem
        have hstation := hall (j - k.step) (by omega)
        simp only [after_rewindTo hfind_j hrestore,
          replayTo_of_le h₁.sound hj (show s₁.steps + (j - k.step) ≤ j by omega)]
        simp only [after] at hstation
        cases hreplay : Session.replayTo target (j - k.step) s₁ with
        | ok _ s₂ =>
          rw [hreplay] at hstation
          exact hstation.clearRender h.repeatable
        | error e s₂ =>
          rw [hreplay] at hstation
          exact hstation

theorem OnTape.stepBack (h : OnTape config tape s) : OnTape config tape (s.after stepBack) := by
  cases hsteps : s.steps with
  | zero =>
    have hfails : Session.stepBack s = .error (.runtime .atFirstStep none) s := by
      unfold Session.stepBack
      rw [get_bind, hsteps]
      rfl
    rw [after_of_error hfails]
    exact h
  | succ previous =>
    have hback : Session.stepBack s = Session.rewindTo previous s := by
      unfold Session.stepBack
      rw [get_bind, hsteps]
    have hlt : previous < tape.length := by
      have := h.steps_lt
      omega
    obtain ⟨s', hrun, h', -⟩ := h.rewindTo_reached hlt
    rw [after_of_ok (hback.trans hrun)]
    exact h'

theorem OnTape.runBudget (h : OnTape config tape s) (budget : Nat) :
    Along config tape (fun j => s.after (runBudget j)) budget := by
  obtain ⟨loaded, hloaded⟩ := h.program
  have hbudget (j : Nat) : Session.runBudget j s =
      if s.fault.isSome then .ok ⟨0, .faulted, none⟩ s else Session.spend 0 j s := by
    unfold Session.runBudget
    rw [get_bind, hloaded]
    cases s.fault.isSome <;> rfl
  unfold after
  simp only [hbudget]
  cases s.fault.isSome with
  | true => exact h.along budget
  | false => exact h.spend 0 budget

end Session

end LiveLisp
