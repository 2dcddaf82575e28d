/-
  Which states are kept to go back to. Besides the state at the start there are those at the latest
  multiples of the interval, as many as the limit leaves room for. On a run without detours these
  are all the latest ones; whatever else a host does after a program has been loaded, the start
  stays, the limit holds and all other keyframes are at multiples of the interval, so there is a
  keyframe to rewind from to any step (`keyframes_newest`).
-/
import Mathlib.Data.List.DropRight
import LiveLisp.Proofs.Session.Furthest

namespace LiveLisp

/-! ## Lists of keyframes -/

namespace Timeline

variable {keyframes later : List Snapshot} {first k : Snapshot}

theorem insertKeyframe_append (hfirst : first.step = 0) (hk : 0 < k.step) :
    insertKeyframe k (later ++ [first]) = insertKeyframe k later ++ [first] := by
  induction later with
  | nil => simp [insertKeyframe, hfirst, hk]
  | cons other later ih =>
    simp only [List.cons_append, insertKeyframe]
    split
    · rfl
    · split
      · rfl
      · rw [ih, List.cons_append]

theorem insertKeyframe_sorted (h : (keyframes.map (·.step)).Pairwise (· > ·)) :
    ((insertKeyframe k keyframes).map (·.step)).Pairwise (· > ·) := by
  induction keyframes with
  | nil => exact List.pairwise_singleton ..
  | cons other rest ih =>
    obtain ⟨hother, hrest⟩ := List.pairwise_cons.mp h
    unfold insertKeyframe
    split
    · next hlt =>
      refine List.pairwise_cons.mpr ⟨fun step hstep => ?_, h⟩
      rcases List.mem_cons.mp hstep with rfl | hstep
      · exact hlt
      · exact Nat.lt_trans (hother step hstep) hlt
    · split
      · next hsame =>
        refine List.pairwise_cons.mpr ⟨fun step hstep => ?_, hrest⟩
        have hlt : step < other.step := hother step hstep
        show step < k.step
        omega
      · next hle hne =>
        refine List.pairwise_cons.mpr ⟨fun step hstep => ?_, ih hrest⟩
        obtain ⟨k', hk', rfl⟩ := List.mem_map.mp hstep
        rcases Session.mem_insertKeyframe hk' with rfl | hk'
        · show k'.step < other.step
          omega
        · exact hother _ (List.mem_map_of_mem hk')

theorem insertKeyframe_latest (h : ∀ other ∈ keyframes, other.step < k.step) :
    insertKeyframe k keyframes = k :: keyframes := by
  cases keyframes with
  | nil => rfl
  | cons other rest => rw [insertKeyframe, if_pos (h other (List.mem_cons_self ..))]

/-- The oldest keyframes go first, but never the one at the start. -/
theorem evict_append (hfirst : first.step = 0) (hlater : ∀ k ∈ later, 0 < k.step) (limit : Nat) :
    evict limit (later ++ [first]) = later.take (max limit 1 - 1) ++ [first] := by
  have hstart : (later ++ [first]).filter (·.step == 0) = [first] := by
    rw [List.filter_append, List.filter_eq_nil_iff.mpr fun k hk => ?_]
    · simp [hfirst]
    · have := hlater k hk
      simp only [beq_iff_eq]
      omega
  have hothers : (later ++ [first]).filter (·.step != 0) = later := by
    rw [List.filter_append, List.filter_eq_self.mpr fun k hk => ?_]
    · simp [hfirst]
    · have := hlater k hk
      simp only [bne_iff_ne]
      omega
  unfold evict
  rw [hstart, hothers]
  split
  · next hle =>
    rw [List.length_append, List.length_singleton] at hle
    rw [List.take_of_length_le (by omega)]
  · rfl

/-- Latest first, keyframes at multiples of the interval and then the one at the start, together no
more than the limit. -/
structure Spaced (settings : Settings) (keyframes later : List Snapshot)
    (first : Snapshot) : Prop where
  split : keyframes = later ++ [first]
  start : first.step = 0
  sorted : (later.map (·.step)).Pairwise (· > ·)
  few : later.length < max settings.keyframeLimit 1
  regular : ∀ k ∈ later, 0 < k.step ∧ settings.keyframeInterval ∣ k.step

variable {settings : Settings}

theorem Spaced.singleton (h : first.step = 0) : Spaced settings [first] [] first :=
  ⟨rfl, h, .nil, by rw [List.length_nil]; omega, nofun⟩

/-- One more keyframe, for which the oldest may have to go. -/
theorem Spaced.record (h : Spaced settings keyframes later first) (hk : 0 < k.step)
    (hregular : settings.keyframeInterval ∣ k.step) :
    Spaced settings (evict settings.keyframeLimit (insertKeyframe k keyframes))
      ((insertKeyframe k later).take (max settings.keyframeLimit 1 - 1)) first := by
  have hlater : ∀ k' ∈ insertKeyframe k later, 0 < k'.step ∧
    settings.keyframeInterval ∣ k'.step := by
    intro k' hk'
    rcases Session.mem_insertKeyframe hk' with rfl | hk'
    · exact ⟨hk, hregular⟩
    · exact h.regular k' hk'
  refine ⟨?_, h.start, ?_, ?_, fun k' hk' => hlater k' (List.mem_of_mem_take hk')⟩
  · rw [h.split, insertKeyframe_append h.start hk, evict_append h.start fun k' hk' =>
      (hlater k' hk').1]
  · rw [List.map_take]
    exact (insertKeyframe_sorted h.sorted).sublist (List.take_sublist ..)
  · rw [List.length_take]
    omega

theorem Spaced.pruned (h : Spaced settings keyframes later first) (step : Nat) :
    Spaced settings (keyframes.filter (·.step ≤ step)) (later.filter (·.step ≤ step)) first := by
  refine ⟨?_, h.start, ?_, ?_, fun k hk => h.regular k (List.mem_filter.mp hk).1⟩
  · rw [h.split, List.filter_append]
    simp [h.start]
  · exact h.sorted.sublist (List.filter_sublist.map _)
  · exact Nat.lt_of_le_of_lt (List.length_filter_le ..) h.few

theorem Spaced.keyframeSteps {t : Timeline} (h : Spaced settings t.keyframes later first) :
    t.keyframeSteps = 0 :: (later.map (·.step)).reverse := by
  rw [Timeline.keyframeSteps, h.split, List.map_append, List.reverse_append]
  simp [h.start]

end Timeline

namespace Session

open Timeline

variable {σ : Type} {s s' : Session σ} {later : List Snapshot} {first : Snapshot}

/-! ## What an operation does to the keyframes -/

/-- The present is kept at every multiple of the interval, unless it has been kept before. -/
theorem framesWith_eq (hsteps : 0 < s.steps) (machine : Machine) : s.framesWith machine =
    if s.config.settings.keyframeInterval ∣ s.steps ∧ s.timeline.hasKeyframe s.steps = false then
      evict s.config.settings.keyframeLimit
        (insertKeyframe (s.capture machine) s.timeline.keyframes)
    else s.timeline.keyframes := by
  have htime : (0 < s.config.settings.keyframeInterval &&
      s.steps % s.config.settings.keyframeInterval == 0 &&
      !s.timeline.hasKeyframe s.steps) = true ↔
      s.config.settings.keyframeInterval ∣ s.steps ∧ s.timeline.hasKeyframe s.steps = false := by
    simp only [Bool.and_eq_true, decide_eq_true_eq, beq_iff_eq,
      Bool.not_eq_true', ← Nat.dvd_iff_mod_eq_zero]
    exact and_congr_left fun _ => and_iff_right_of_imp fun hdvd => Nat.pos_of_dvd_of_pos hdvd hsteps
  unfold framesWith
  simp only [htime]
  rfl

/-- The keyframes of the session are spaced as its settings say. -/
def Spaced (s : Session σ) : Prop :=
  ∃ later first, Timeline.Spaced s.config.settings s.timeline.keyframes later first

theorem Spaced.framed (h : s.Spaced) (hsteps : 0 < s.steps) (machine : Machine) :
    (s.framed machine).Spaced := by
  obtain ⟨later, first, h⟩ := h
  show ∃ later first, Timeline.Spaced s.config.settings (s.framesWith machine) later first
  rw [framesWith_eq hsteps]
  split
  · next htime => exact ⟨_, first, h.record (k := s.capture machine) hsteps htime.1⟩
  · exact ⟨later, first, h⟩

/-- From one session on to another with the same settings, whose keyframes are still spaced as these
say. -/
structure KeepsSpacing (s s' : Session σ) : Prop where
  config : s'.config = s.config
  spaced : s.Spaced → s'.Spaced

theorem KeepsSpacing.refl (s : Session σ) : KeepsSpacing s s := ⟨rfl, id⟩

theorem KeepsSpacing.trans {s'' : Session σ} (h : KeepsSpacing s s')
    (h' : KeepsSpacing s' s'') : KeepsSpacing s s'' :=
  ⟨h'.config.trans h.config, h'.spaced ∘ h.spaced⟩

theorem KeepsSpacing.of_same (hconfig : s'.config = s.config)
    (hkeyframes : s'.timeline.keyframes = s.timeline.keyframes) :
    KeepsSpacing s s' := by
  refine ⟨hconfig, fun h => ?_⟩
  unfold Session.Spaced
  rwa [hconfig, hkeyframes]

/-- Whatever comes of it, `x` keeps the keyframes spaced. -/
abbrev Spaces {α : Type} (x : SessionM σ α) : Prop :=
  Moves KeepsSpacing x

theorem Spaces.bind {α β : Type} {x : SessionM σ α} {f : α → SessionM σ β} (hx : Spaces x)
    (hf : ∀ a, Spaces (f a)) :
    Spaces (x >>= f) :=
  moves_bind (R := KeepsSpacing) (fun _ _ _ => .trans) hx hf

theorem spaces_step : Spaces (Session.step : SessionM σ Unit) := by
  intro s
  cases hloaded : s.loaded with
  | none =>
    obtain ⟨e, he⟩ := step_of_unloaded hloaded
    rw [after_of_error he]
    exact .refl s
  | some loaded =>
    by_cases hruns : s.Runs loaded
    case neg =>
      rw [after_step_of_resting hloaded hruns]
      exact .refl s
    have hstep := step_kept hruns
    cases hrun : Session.step s with
    | error e s' =>
      rw [hrun] at hstep
      rw [after_of_error hrun]
      obtain ⟨t, steps, hkept, rfl⟩ := hstep
      exact .of_same hkept.config hkept.keyframes
    | ok _ s' =>
      rw [hrun] at hstep
      rw [after_of_ok hrun]
      obtain ⟨t, machine, hkept, -, rfl⟩ := hstep
      have hcounted : KeepsSpacing s t := .of_same hkept.config hkept.keyframes
      have hsteps : 0 < t.steps := hkept.steps ▸ Nat.succ_pos _
      exact hcounted.trans ⟨rfl, fun h => h.framed hsteps machine⟩

theorem spaces_clearRender : Spaces (modify clearRender : SessionM σ PUnit) :=
    fun _ => .of_same rfl rfl

theorem spaces_restore (k : Snapshot) : Spaces (restore k : SessionM σ Unit) := by
  intro s
  cases hrestore : restore k s with
  | ok _ s' =>
    obtain ⟨loaded, w, -, rfl⟩ := restore_eq_ok hrestore
    rw [after_of_ok hrestore]
    exact .of_same rfl rfl
  | error e s' =>
    obtain ⟨w, rfl⟩ := restore_eq_error hrestore
    rw [after_of_error hrestore]
    exact .of_same rfl rfl

theorem spaces_rewindTo (target : Nat) : Spaces (rewindTo target : SessionM σ Unit) := by
  intro s
  unfold after rewindTo
  rw [get_bind]
  cases s.timeline.keyframeBefore? target with
  | none => exact .refl s
  | some k =>
    have hreplayed : Spaces (replayTo target (target - k.step) : SessionM σ Unit) :=
      moves_replayTo .refl (fun _ _ _ => .trans) spaces_step target (target - k.step)
    exact ((spaces_restore k).bind fun _ => hreplayed.bind fun _ => spaces_clearRender) s

theorem spaces_stepBack : Spaces (stepBack : SessionM σ Unit) := by
  intro s
  unfold after stepBack
  rw [get_bind]
  cases s.steps with
  | zero => exact .refl s
  | succ previous => exact spaces_rewindTo previous s

theorem spaces_collectGarbage : Spaces (Session.collectGarbage : SessionM σ Nat) := by
  intro s
  unfold after Session.collectGarbage
  rw [get_bind]
  cases hloaded : s.loaded with
  | none => exact .refl s
  | some loaded =>
    have hkept := onRunning_kept (Exec.onMachine Machine.collectGarbage) hloaded
    exact .of_same hkept.config hkept.keyframes

theorem install_spaced (s : Session σ) (source : String) (form : Form)
    (definitions : List Definition) (code : Code) (units : Nat) :
    (s.install source form definitions code units).Spaced := by
  unfold Session.Spaced
  rw [install_keyframes]
  exact ⟨[], _, .singleton rfl⟩

theorem spaces_load (source : String) : Spaces (load source : SessionM σ Unit) := by
  intro s
  cases hload : load source s with
  | ok _ s' =>
    obtain ⟨root, definitions, code, -, rfl⟩ := load_eq_ok hload
    rw [after_of_ok hload]
    exact ⟨rfl, fun _ => install_spaced ..⟩
  | error e s' =>
    rw [after_of_error hload, load_eq_error hload]
    exact .refl s

theorem spaces_update (source : String) : Spaces (update source : SessionM σ UpdateOutcome) := by
  intro s
  cases hupdate : update source s with
  | error e s' =>
    rw [after_of_error hupdate]
    rcases update_eq_error hupdate with rfl | ⟨k, hrestore⟩
    · exact .refl s'
    · obtain ⟨w, rfl⟩ := restore_eq_error hrestore
      exact .of_same rfl rfl
  | ok outcome s' =>
    rw [after_of_ok hupdate]
    cases update_eq_ok hupdate with
    | unchanged hroot hloaded halike => exact .of_same rfl rfl
    | restarted hroot hdefinitions hcode => exact ⟨rfl, fun _ => install_spaced ..⟩
    | patched hroot hloaded hedit huncalled => exact .of_same rfl rfl
    | rewound hroot hloaded hedit hearliest hk =>
      exact ⟨rfl, fun ⟨later, first, h⟩ => ⟨_, first, h.pruned _⟩⟩

theorem spaces_operation (op : Operation) : Spaces (op.run : SessionM σ Answer) := by
  have hquiet {α : Type} {x : SessionM σ α} {f : α → Answer} (hx : Spaces x) :
    Spaces (x >>= fun a => pure (f a)) :=
    hx.bind fun _ => KeepsSpacing.refl
  cases op with
  | load source => exact hquiet (spaces_load source)
  | step => exact hquiet spaces_step
  | runBudget budget =>
    exact hquiet (moves_runBudget .refl (fun _ _ _ => .trans) spaces_step
      (fun _ => .of_same rfl rfl) budget)
  | runToCompletion limit =>
    exact hquiet (moves_runToCompletion .refl (fun _ _ _ => .trans) spaces_step
      (fun _ => .of_same rfl rfl) limit)
  | snapshot =>
    refine hquiet fun s => ?_
    unfold after Session.snapshot
    rw [get_bind]
    cases s.loaded <;> exact .refl s
  | restore k => exact hquiet (spaces_restore k)
  | rewindTo target => exact hquiet (spaces_rewindTo target)
  | stepBack => exact hquiet spaces_stepBack
  | update source => exact hquiet (spaces_update source)
  | collectGarbage => exact hquiet spaces_collectGarbage

/-! ## Whole runs -/

/-- The sessions that a host can come to from one, by any operations on it, whatever comes of them,
and with any states to return to. In between it may do anything to the world. -/
inductive Since (origin : Session σ) : Session σ → Prop where
  | here : Since origin origin
  | outside {s : Session σ} (h : Since origin s) (w : σ) : Since origin { s with world := w }
  | operate {s : Session σ} (h : Since origin s) (op : Operation) : Since origin (s.after op.run)

theorem Since.keepsSpacing {origin : Session σ} (h : Since origin s) : KeepsSpacing origin s := by
  induction h with
  | here => exact .refl _
  | outside h w ih => exact ih.trans (.of_same rfl rfl)
  | operate h op ih => exact ih.trans (spaces_operation op _)

/-- The positive multiples of the interval up to a step. -/
def multiples (interval n : Nat) : List Nat :=
  (List.range' 1 n).filter (interval ∣ ·)

theorem multiples_succ (interval n : Nat) :
    multiples interval (n + 1) = multiples interval n ++ if interval ∣ n + 1
      then [n + 1] else [] := by
  unfold multiples
  rw [List.range'_1_concat, List.filter_append, Nat.add_comm 1 n, List.filter_singleton]
  simp

/-- Of a list with an item added in front, the first few need only the first few of the list. -/
theorem take_cons_take {α : Type} (n : Nat) (a : α) (items : List α) :
    (a :: items.take n).take n = (a :: items).take n := by
  cases n with
  | zero => rfl
  | succ n => rw [List.take_succ_cons, List.take_succ_cons, List.take_take,
      Nat.min_eq_left (Nat.le_succ n)]

/-- Without detours the keyframes are those at the latest multiples that have been come to. -/
structure Newest (s : Session σ) (settings : Settings) (n : Nat) : Prop where
  tuned : s.config.settings = settings
  steps : s.steps = n
  latest : ∃ later first, Timeline.Spaced settings s.timeline.keyframes later first ∧
    later.map (·.step) = ((multiples settings.keyframeInterval n).reverse.take
      (max settings.keyframeLimit 1 - 1))

theorem Newest.le {settings : Settings} {n limit : Nat} (hlater : later.map (·.step) =
    (multiples settings.keyframeInterval n).reverse.take limit) : ∀ k ∈ later, k.step ≤ n := by
  intro k hk
  have hmem : k.step ∈ (multiples settings.keyframeInterval n).reverse.take limit :=
    hlater ▸ List.mem_map_of_mem hk
  have hrange := (List.mem_filter.mp (List.mem_reverse.mp (List.mem_of_mem_take hmem))).1
  have := List.mem_range'_1.mp hrange
  omega

theorem Newest.step {settings : Settings} {n : Nat} (h : s.Newest settings n)
    (hstep : Session.step s = .ok () s') :
    s'.Newest settings (n + 1) := by
  obtain ⟨loaded, hruns⟩ := runs_of_step hstep
  have hkept := step_kept hruns
  rw [hstep] at hkept
  obtain ⟨t, machine, hkept, -, rfl⟩ := hkept
  have hsettings : t.config.settings = settings :=
    (congrArg Config.settings hkept.config).trans h.tuned
  have hsteps : t.steps = n + 1 := hkept.steps.trans (congrArg (· + 1) h.steps)
  have hkeyframes : t.timeline.keyframes = s.timeline.keyframes := hkept.keyframes
  obtain ⟨later, first, hspaced, hlater⟩ := h.latest
  rw [← hkeyframes] at hspaced
  have hle := Newest.le hlater
  have hnew : t.timeline.hasKeyframe t.steps = false := by
    rw [Timeline.hasKeyframe, hspaced.split, hsteps]
    refine List.any_eq_false.mpr fun k hk => ?_
    rcases List.mem_append.mp hk with hk | hk
    · have := hle k hk
      simp only [beq_iff_eq]
      omega
    · rw [List.mem_singleton.mp hk, hspaced.start]
      simp
  refine ⟨hsettings, hsteps, ?_⟩
  show ∃ later first, Timeline.Spaced settings (t.framesWith machine) later first ∧ _
  rw [framesWith_eq (by omega), hsettings, hsteps, multiples_succ]
  by_cases htime : settings.keyframeInterval ∣ n + 1
  · rw [if_pos ⟨htime, hsteps ▸ hnew⟩, if_pos htime]
    have hk : (t.capture machine).step = n + 1 := hsteps
    refine ⟨_, first, hspaced.record (by omega) (hk ▸ htime), ?_⟩
    rw [insertKeyframe_latest fun k hk' => by
      have := hle k hk'; omega, List.map_take, List.map_cons, hlater, hk, take_cons_take,
        List.reverse_append]
    rfl
  · rw [if_neg fun h => htime h.1, if_neg htime, List.append_nil]
    exact ⟨later, first, hspaced, hlater⟩

theorem load_newest {source : String} (hload : load source s = .ok () s') :
    s'.Newest s.config.settings 0 := by
  obtain ⟨root, definitions, code, -, rfl⟩ := load_eq_ok hload
  refine ⟨rfl, rfl, ?_⟩
  rw [install_keyframes]
  exact ⟨[], _, .singleton rfl, List.take_nil.symm⟩

theorem forward_newest {settings : Settings} (h : s.Newest settings 0) {n : Nat}
    (hsteps : ∀ i < n, ∃ t, Session.step (s.forward i) = .ok () t) :
    (s.forward n).Newest settings n := by
  induction n with
  | zero => exact h
  | succ n ih =>
    obtain ⟨t, ht⟩ := hsteps n (Nat.lt_succ_self n)
    have hnext := (ih fun i hi => hsteps i (Nat.lt_succ_of_lt hi)).step ht
    rwa [← after_of_ok ht] at hnext

/-- When a program has been loaded and has taken `n` steps, the keyframes are those at the start and
at the latest positive multiples of the interval up to `n`, as many as the limit leaves room for.
And whatever a host does with a session after it has loaded a program, the start is among the
keyframes, they are no more than the limit, all others are at positive multiples of the interval,
and a rewind finds one to run on from. -/
theorem keyframes_newest {s₀ : Session σ} {source : String} (hload : load source s = .ok () s₀) :
    (∀ n, (∀ i < n, ∃ t, Session.step (s₀.forward i) = .ok () t) →
      (s₀.forward n).timeline.keyframeSteps =
      0 :: (multiples s.config.settings.keyframeInterval n).rtake
        (max s.config.settings.keyframeLimit 1 - 1)) ∧
    ∀ t, Since s₀ t →
      0 ∈ t.timeline.keyframeSteps ∧ t.timeline.keyframeSteps.length ≤
        max s.config.settings.keyframeLimit 1 ∧
      (∀ step ∈ t.timeline.keyframeSteps, step = 0 ∨ 0 < step ∧
        s.config.settings.keyframeInterval ∣ step) ∧
      t.timeline.keyframeSteps.Pairwise (· < ·) ∧
      ∀ target, ∃ k, t.timeline.keyframeBefore? target = some k ∧ k.step ≤ target ∧
        rewindTo target t = (do restore k; replayTo target (target - k.step); modify clearRender)
          t := by
  have hnewest := load_newest hload
  constructor
  · intro n hsteps
    obtain ⟨later, first, hspaced, hlater⟩ := (forward_newest hnewest hsteps).latest
    rw [hspaced.keyframeSteps, hlater, List.rtake_eq_reverse_take_reverse]
  · intro t ht
    obtain ⟨later, first, hspaced, -⟩ := hnewest.latest
    have hkeeps := ht.keepsSpacing
    have hsettings : t.config.settings = s.config.settings := by rw [hkeeps.config, hnewest.tuned]
    obtain ⟨later, first, hspaced⟩ := hkeeps.spaced ⟨later, first, hnewest.tuned ▸ hspaced⟩
    rw [hsettings] at hspaced
    have hfew := hspaced.few
    rw [hspaced.keyframeSteps]
    refine ⟨List.mem_cons_self .., ?_, fun step hstep => ?_, ?_, fun target => ?_⟩
    · rw [List.length_cons, List.length_reverse, List.length_map]
      omega
    · rcases List.mem_cons.mp hstep with rfl | hstep
      · exact .inl rfl
      · obtain ⟨k, hk, rfl⟩ := List.mem_map.mp (List.mem_reverse.mp hstep)
        exact .inr (hspaced.regular k hk)
    · refine List.pairwise_cons.mpr ⟨fun step hstep => ?_, List.pairwise_reverse.mpr hspaced.sorted⟩
      obtain ⟨k, hk, rfl⟩ := List.mem_map.mp (List.mem_reverse.mp hstep)
      exact (hspaced.regular k hk).1
    · have hfirst : ∃ k ∈ t.timeline.keyframes, k.step = 0 := by
        refine ⟨first, ?_, hspaced.start⟩
        rw [hspaced.split]
        exact List.mem_append_right _ (List.mem_singleton_self first)
      obtain ⟨k, hfind, -, hle⟩ := keyframeBefore?_of_first hfirst target
      refine ⟨k, hfind, hle, ?_⟩
      unfold rewindTo
      rw [get_bind, hfind]

/-- With a keyframe every two steps and room for three, a run of nine steps keeps the start and the
states at 6 and 8. When the program has then gone back to step 3 and on to step 7, the keyframe at 8
is still there. -/
theorem keyframes_newest_nine : ∃ s₀ : Session World,
    load "(do 1 2 3 4 5 6)"
      (.start { playground with settings := { keyframeInterval := 2, keyframeLimit := 3 } } {}) =
      .ok () s₀ ∧
    (∀ i < 9, ∃ t, Session.step (s₀.forward i) = .ok () t) ∧
    (s₀.forward 9).timeline.keyframeSteps = [0, 6, 8] ∧
    ∃ t, Since s₀ t ∧ t.steps = 7 ∧ 0 ∈ t.timeline.keyframeSteps ∧
      t.timeline.keyframeSteps.length ≤ 3 ∧
      ∀ step ∈ t.timeline.keyframeSteps, step = 0 ∨ 0 < step ∧ 2 ∣ step := by
  have hrun : succeedsWith (fun _ s₀ => ((List.range 9).all fun i =>
        succeedsWith (fun _ _ => true) (Session.step (s₀.forward i))) &&
      decide ((((s₀.forward 9).after (Operation.rewindTo 3).run).after
        (Operation.runBudget 4).run).steps = 7))
      (load "(do 1 2 3 4 5 6)"
        (.start { playground with settings := { keyframeInterval := 2, keyframeLimit := 3 } } {})) =
      true := by decide +kernel
  obtain ⟨_, s₀, hload, hrun⟩ := succeedsWith_iff.mp hrun
  simp only [Bool.and_eq_true, List.all_eq_true, List.mem_range, decide_eq_true_eq] at hrun
  obtain ⟨hsteps, hseven⟩ := hrun
  have hsteps : ∀ i < 9, ∃ t, Session.step (s₀.forward i) = .ok () t := by
    intro i hi
    obtain ⟨_, t, ht, -⟩ := succeedsWith_iff.mp (hsteps i hi)
    exact ⟨t, ht⟩
  have hspaced := keyframes_newest hload
  have hforward (n : Nat) : Since s₀ (s₀.forward n) := by
    induction n with
    | zero => exact .here
    | succ n ih =>
      have hafter : (s₀.forward n).after Operation.step.run = s₀.forward (n + 1) :=
        after_bind_pure _ _ _
      exact hafter ▸ ih.operate .step
  have ht := ((hforward 9).operate (.rewindTo 3)).operate (.runBudget 4)
  obtain ⟨hzero, hfew, hregular, -⟩ := hspaced.2 _ ht
  exact ⟨s₀, hload, hsteps, hspaced.1 9 hsteps, _, ht, hseven, hzero, hfew, hregular⟩

end Session

end LiveLisp
