/-
  Sessions over records in different orders. Two sessions resemble each other when they differ only
  in their machines, the running one and those that were kept, and these resemble each other pair by
  pair. Every operation leaves such sessions resembling each other, and comes to the same result or
  the same error in both; that is `Agree`, with one lemma for each operation.
-/
import LiveLisp.Proofs.Machine.Order
import LiveLisp.Proofs.Session.Invisible
import LiveLisp.Proofs.Session.Revisions

namespace LiveLisp

variable {σ : Type} {R S T : Machine → Machine → Prop}

theorem forall₂_comp {α : Type} {P Q O : α → α → Prop} (hcomp : ∀ a b c, P a b → Q b c → O a c)
    {as bs cs : List α} (h : List.Forall₂ P as bs) (h' : List.Forall₂ Q bs cs) :
    List.Forall₂ O as cs := by
  induction h generalizing cs with
  | nil =>
    cases h'
    exact .nil
  | cons hab _ ih =>
    cases h' with
    | cons hbc hrest => exact .cons (hcomp _ _ _ hab hbc) (ih hrest)

/-! ## Up to the machines -/

/-- The same but for the machine that was kept. -/
structure Snapshot.UpTo (R : Machine → Machine → Prop) (k k' : Snapshot) : Prop where
  step : k.step = k'.step
  states : k.states = k'.states
  machine : R k.machine k'.machine

theorem Snapshot.UpTo.comp (hcomp : ∀ m m' m'', R m m' → S m' m'' → T m m'')
    {k k' k'' : Snapshot} (h : k.UpTo R k') (h' : k'.UpTo S k'') : k.UpTo T k'' :=
  ⟨h.step.trans h'.step, h.states.trans h'.states, hcomp _ _ _ h.machine h'.machine⟩

/-- The same but for the machine. -/
structure Loaded.UpTo (R : Machine → Machine → Prop) (l l' : Loaded) : Prop where
  source : l.source = l'.source
  form : l.form = l'.form
  definitions : l.definitions = l'.definitions
  sites : l.sites = l'.sites
  machine : R l.machine l'.machine

namespace Timeline

/-- The same but for the machines that were kept. -/
structure UpTo (R : Machine → Machine → Prop) (t t' : Timeline) : Prop where
  keyframes : List.Forall₂ (Snapshot.UpTo R) t.keyframes t'.keyframes
  checkpoints : t.checkpoints.Alike (Snapshot.UpTo R) t'.checkpoints
  answers : t.answers = t'.answers

variable {t t' t'' : Timeline} {k k' : Snapshot}

theorem UpTo.comp (hcomp : ∀ m m' m'', R m m' → S m' m'' → T m m'') (h : t.UpTo R t')
    (h' : t'.UpTo S t'') : t.UpTo T t'' := by
  refine ⟨?_, ?_, h.answers.trans h'.answers⟩
  · exact forall₂_comp (fun _ _ _ => .comp hcomp) h.keyframes h'.keyframes
  · refine forall₂_comp (fun a b c hab hbc => ?_) h.checkpoints h'.checkpoints
    exact ⟨hab.1.trans hbc.1, hab.2.comp hcomp hbc.2⟩

theorem UpTo.empty : UpTo R .empty .empty :=
  ⟨.nil, .nil, rfl⟩

theorem filter_upTo {p : Nat → Bool} {ks ks' : List Snapshot}
    (h : List.Forall₂ (Snapshot.UpTo R) ks ks') :
    List.Forall₂ (Snapshot.UpTo R) (ks.filter fun k => p k.step)
      (ks'.filter fun k => p k.step) :=
  List.rel_filter (fun _ _ hk => by simp only [hk.step]) h

theorem insertKeyframe_upTo (hk : k.UpTo R k') {ks ks' : List Snapshot}
    (h : List.Forall₂ (Snapshot.UpTo R) ks ks') :
    List.Forall₂ (Snapshot.UpTo R) (insertKeyframe k ks) (insertKeyframe k' ks') := by
  induction h with
  | nil => exact .cons hk .nil
  | @cons other other' rest rest' hother hrest ih =>
    unfold insertKeyframe
    rw [← hk.step, ← hother.step]
    split
    · exact .cons hk (.cons hother hrest)
    · split
      · exact .cons hk hrest
      · exact .cons hother ih

theorem evict_upTo (limit : Nat) {ks ks' : List Snapshot}
    (h : List.Forall₂ (Snapshot.UpTo R) ks ks') :
    List.Forall₂ (Snapshot.UpTo R) (evict limit ks) (evict limit ks') := by
  have hstart : List.Forall₂ (Snapshot.UpTo R) (ks.filter (·.step == 0))
      (ks'.filter (·.step == 0)) := filter_upTo (p := (· == 0)) h
  have hothers : List.Forall₂ (Snapshot.UpTo R) (ks.filter (·.step != 0))
      (ks'.filter (·.step != 0)) := filter_upTo (p := (· != 0)) h
  unfold evict
  simp only [← h.length_eq, ← hstart.length_eq]
  split
  · exact h
  · exact List.rel_append (List.forall₂_take _ hothers) hstart

theorem UpTo.recordKeyframe (h : t.UpTo R t') (hk : k.UpTo R k') (limit : Nat) :
    (t.recordKeyframe k limit).UpTo R (t'.recordKeyframe k' limit) :=
  ⟨evict_upTo limit (insertKeyframe_upTo hk h.keyframes), h.checkpoints, h.answers⟩

theorem UpTo.recordCheckpoint (h : t.UpTo R t') (hk : k.UpTo R k') (name : String) :
    (t.recordCheckpoint name k).UpTo R (t'.recordCheckpoint name k') :=
  ⟨h.keyframes, h.checkpoints.put name hk, h.answers⟩

theorem UpTo.pruneAfter (h : t.UpTo R t') (step : Nat) :
    (t.pruneAfter step).UpTo R (t'.pruneAfter step) := by
  refine ⟨filter_upTo (p := (· ≤ step)) h.keyframes, ?_, ?_⟩
  · exact List.rel_filter (fun _ _ hk => by simp only [hk.2.step]) h.checkpoints
  · unfold Timeline.pruneAfter
    rw [h.answers]

theorem UpTo.steps (h : t.UpTo R t') :
    t.keyframes.map (·.step) = t'.keyframes.map (·.step) := by
  have hsteps : List.Forall₂ (· = ·) (t.keyframes.map (·.step)) (t'.keyframes.map (·.step)) :=
    List.rel_map (fun _ _ hk => hk.step) h.keyframes
  rwa [List.forall₂_eq_eq_eq] at hsteps

theorem UpTo.hasKeyframe (h : t.UpTo R t') (step : Nat) :
    t.hasKeyframe step = t'.hasKeyframe step := by
  have hany (t : Timeline) :
      t.hasKeyframe step = (t.keyframes.map (·.step)).any (· == step) := by
    rw [List.any_map]
    rfl
  rw [hany, hany, h.steps]

theorem UpTo.keyframeBefore? (h : t.UpTo R t') (step : Nat) :
    Option.Rel (Snapshot.UpTo R) (t.keyframeBefore? step) (t'.keyframeBefore? step) := by
  have hfind {ks ks' : List Snapshot} (h : List.Forall₂ (Snapshot.UpTo R) ks ks') :
      Option.Rel (Snapshot.UpTo R) (ks.find? (·.step ≤ step)) (ks'.find? (·.step ≤ step)) := by
    induction h with
    | nil => exact .none
    | cons hk _ ih =>
      rw [List.find?_cons, List.find?_cons, ← hk.step]
      split
      · exact .some hk
      · exact ih
  exact hfind h.keyframes

/-- The last calls are at the same steps. -/
theorem UpTo.earliest? (h : t.UpTo R t') (names : List String) :
    t.earliest? names = t'.earliest? names := by
  unfold Timeline.earliest?
  congr 1
  funext best name
  unfold checkpoint?
  rcases h.checkpoints.get? name with ⟨hnone, hnone'⟩ | ⟨k, k', hk, hk', hkept⟩
  · rw [hnone, hnone']
  · rw [hk, hk']
    cases best with
    | none => exact congrArg (fun step => some (name, step)) hkept.step
    | some earlier => simp only [hkept.step]

end Timeline

namespace Session

/-- The same but for the machines, the running one and those that were kept. -/
structure UpTo (R : Machine → Machine → Prop) (s s' : Session σ) : Prop where
  config : s.config = s'.config
  world : s.world = s'.world
  loaded : Option.Rel (Loaded.UpTo R) s.loaded s'.loaded
  timeline : s.timeline.UpTo R s'.timeline
  steps : s.steps = s'.steps
  fault : s.fault = s'.fault
  units : s.units = s'.units

/-- The same session with bindings in other orders, in the running machine and in those that were
kept. -/
abbrev Reorders : Session σ → Session σ → Prop :=
  UpTo Machine.Reorders

/-- The same session, up to what the order of bindings leads to in its machines. Its capabilities
are honest and blind, and no closure is in a remembered answer. -/
structure Resembles (s s' : Session σ) : Prop extends UpTo Machine.Resembles s s' where
  honest : ∀ c ∈ s.config.capabilities, c.Honest
  blind : ∀ c ∈ s.config.capabilities, c.Blind
  plain : ∀ pair ∈ s.timeline.answers, pair.2.closures = []

namespace Resembles

variable {s s' s'' : Session σ} {l l' : Loaded} {m m' : Machine}

theorem reorder (h : s.Resembles s') (horder : s'.Reorders s'') : s.Resembles s'' := by
  have hmachines (m m' m'' : Machine) : m.Resembles m' → m'.Reorders m'' → m.Resembles m'' :=
    Machine.Resembles.reorder
  have hloaded : Option.Rel (Loaded.UpTo Machine.Resembles) s.loaded s''.loaded := by
    have h₁ := h.loaded
    have h₂ := horder.loaded
    generalize s.loaded = a, s'.loaded = b, s''.loaded = c at h₁ h₂
    cases h₁ with
    | none =>
      cases h₂
      exact .none
    | some hl =>
      cases h₂ with
      | some hl' =>
        exact .some ⟨hl.source.trans hl'.source, hl.form.trans hl'.form,
          hl.definitions.trans hl'.definitions, hl.sites.trans hl'.sites,
          hl.machine.reorder hl'.machine⟩
  exact ⟨⟨h.config.trans horder.config, h.world.trans horder.world, hloaded,
    h.timeline.comp hmachines horder.timeline, h.steps.trans horder.steps,
    h.fault.trans horder.fault, h.units.trans horder.units⟩, h.honest, h.blind, h.plain⟩

theorem loaded_cases (h : s.Resembles s') : (s.loaded = none ∧ s'.loaded = none) ∨
    ∃ l l', s.loaded = some l ∧ s'.loaded = some l' ∧ l.UpTo Machine.Resembles l' := by
  have hloaded := h.loaded
  generalize s.loaded = a, s'.loaded = b at hloaded
  cases hloaded with
  | none => exact .inl ⟨rfl, rfl⟩
  | some hl => exact .inr ⟨_, _, rfl, rfl, hl⟩

/-- The other session differs in two fields. -/
theorem eq_with (h : s.Resembles s') : ∃ loaded timeline, s' = { s with loaded, timeline } := by
  refine ⟨s'.loaded, s'.timeline, ?_⟩
  rw [h.config, h.world, h.steps, h.fault, h.units]

theorem isNone (h : s.Resembles s') : s.loaded.isNone = s'.loaded.isNone := by
  rcases h.loaded_cases with ⟨hnone, hnone'⟩ | ⟨l, l', hl, hl', -⟩
  · rw [hnone, hnone']
  · rw [hl, hl']
    rfl

theorem isFinished (h : s.Resembles s') : s.isFinished = s'.isFinished := by
  unfold Session.isFinished context?
  rcases h.loaded_cases with ⟨hnone, hnone'⟩ | ⟨l, l', hl, hl', hmachines⟩
  · rw [hnone, hnone']
  · rw [hl, hl']
    exact hmachines.machine.done

theorem setWorld (h : s.Resembles s') {w w' : σ} (hw : w = w') :
    Resembles { s with world := w } { s' with world := w' } :=
  ⟨⟨h.config, hw, h.loaded, h.timeline, h.steps, h.fault, h.units⟩, h.honest, h.blind, h.plain⟩

theorem clearRender (h : s.Resembles s') : s.clearRender.Resembles s'.clearRender := by
  refine h.setWorld ?_
  rw [h.config, h.world]

theorem setFault (h : s.Resembles s') (fault : Option Error) :
    Resembles { s with fault } { s' with fault } :=
  ⟨⟨h.config, h.world, h.loaded, h.timeline, h.steps, rfl, h.units⟩, h.honest, h.blind, h.plain⟩

theorem setLoaded (h : s.Resembles s') (hl : l.UpTo Machine.Resembles l') :
    Resembles { s with loaded := some l } { s' with loaded := some l' } :=
  ⟨⟨h.config, h.world, .some hl, h.timeline, h.steps, h.fault, h.units⟩, h.honest, h.blind,
    h.plain⟩

theorem capture (h : s.Resembles s') (hm : m.Resembles m') :
    (s.capture m).UpTo Machine.Resembles (s'.capture m') := by
  refine ⟨h.steps, ?_, hm⟩
  simp only [Session.capture, h.config, h.world]

theorem recordCheckpoint (h : s.Resembles s') (hm : m.Resembles m') (name : String) :
    Resembles { s with timeline := s.timeline.recordCheckpoint name (s.capture m) }
      { s' with timeline := s'.timeline.recordCheckpoint name (s'.capture m') } :=
  ⟨⟨h.config, h.world, h.loaded, h.timeline.recordCheckpoint (h.capture hm) name, h.steps,
    h.fault, h.units⟩, h.honest, h.blind, h.plain⟩

theorem recordKeyframe (h : s.Resembles s') (hm : m.Resembles m') (limit : Nat) :
    Resembles { s with timeline := s.timeline.recordKeyframe (s.capture m) limit }
      { s' with timeline := s'.timeline.recordKeyframe (s'.capture m') limit } :=
  ⟨⟨h.config, h.world, h.loaded, h.timeline.recordKeyframe (h.capture hm) limit, h.steps,
    h.fault, h.units⟩, h.honest, h.blind, h.plain⟩

theorem pruneAfter (h : s.Resembles s') (step : Nat) :
    Resembles { s with timeline := s.timeline.pruneAfter step }
      { s' with timeline := s'.timeline.pruneAfter step } :=
  ⟨⟨h.config, h.world, h.loaded, h.timeline.pruneAfter step, h.steps, h.fault, h.units⟩,
    h.honest, h.blind, fun pair hpair => h.plain pair (List.mem_filter.mp hpair).1⟩

/-- As many scopes are there in both. -/
theorem liveScopes (h : s.Resembles s') : s.liveScopes = s'.liveScopes := by
  unfold Session.liveScopes
  rcases h.loaded_cases with ⟨hnone, hnone'⟩ | ⟨l, l', hl, hl', hmachines⟩
  · rw [hnone, hnone']
  · rw [hl, hl']
    exact hmachines.machine.live

/-- What is shown of the two is the same. -/
theorem observe (h : s.Resembles s') : s.observe = s'.observe := by
  unfold Session.observe context?
  rcases h.loaded_cases with ⟨hnone, hnone'⟩ | ⟨l, l', hl, hl', hmachines⟩
  · rw [hnone, hnone']
    rfl
  · obtain ⟨ρ, ρ', hcontext⟩ := hmachines.machine.context
    rw [hl, hl', h.fault, h.world]
    show some (Observation.of l.machine.context s'.fault s'.world) =
      some (Observation.of l'.machine.context s'.fault s'.world)
    rw [← Observation.of_rename ρ, hcontext, Observation.of_rename]

end Resembles

/-! ## Operations that agree -/

/-- The two end in sessions that resemble each other, with results that `Q` relates or with the same
error. -/
def Agree {α : Type} (Q : α → α → Prop) :
    EStateM.Result Error (Session σ) α → EStateM.Result Error (Session σ) α → Prop
  | .ok a t, .ok a' t' => t.Resembles t' ∧ Q a a'
  | .error e t, .error e' t' => t.Resembles t' ∧ e = e'
  | _, _ => False

section Rules

variable {α β : Type} {P : β → β → Prop} {Q : α → α → Prop} {x x' : SessionM σ α}
  {f f' : α → SessionM σ β} {s s' : Session σ}

theorem Agree.cases {r r' : EStateM.Result Error (Session σ) α} (h : Agree Q r r') :
    (∃ a a' t t', r = .ok a t ∧ r' = .ok a' t' ∧ t.Resembles t' ∧ Q a a') ∨
    ∃ e t t', r = .error e t ∧ r' = .error e t' ∧ t.Resembles t' := by
  cases r with
  | ok a t =>
    cases r' with
    | ok a' t' => exact .inl ⟨a, a', t, t', rfl, rfl, h.1, h.2⟩
    | error e' t' => exact h.elim
  | error e t =>
    cases r' with
    | ok a' t' => exact h.elim
    | error e' t' =>
      obtain ⟨ht, rfl⟩ := h
      exact .inr ⟨e, t, t', rfl, rfl, ht⟩

theorem Agree.bind (h : Agree Q (x s) (x' s'))
    (hf : ∀ a a' t t', t.Resembles t' → Q a a' → Agree P (f a t) (f' a' t')) :
    Agree P ((x >>= f) s) ((x' >>= f') s') := by
  rcases h.cases with ⟨a, a', t, t', hx, hx', ht, ha⟩ | ⟨e, t, t', hx, hx', ht⟩
  · rw [bind_of_ok hx, bind_of_ok hx']
    exact hf a a' t t' ht ha
  · rw [bind_of_error hx, bind_of_error hx']
    exact ⟨ht, rfl⟩

/-- One operation after another that has no result. -/
theorem Agree.andThen {x x' : SessionM σ PUnit} {f f' : PUnit → SessionM σ β}
    (h : Agree Eq (x s) (x' s')) (hf : ∀ t t', t.Resembles t' → Agree P (f () t) (f' () t')) :
    Agree P ((x >>= f) s) ((x' >>= f') s') :=
  h.bind fun _ _ t t' ht _ => hf t t' ht

theorem Agree.set {t t' : Session σ} (h : t.Resembles t') :
    Agree Eq ((set t : SessionM σ PUnit) s) ((set t' : SessionM σ PUnit) s') :=
  ⟨h, rfl⟩

theorem Agree.modify {g g' : Session σ → Session σ} (h : (g s).Resembles (g' s')) :
    Agree Eq ((modify g : SessionM σ PUnit) s) ((modify g' : SessionM σ PUnit) s') :=
  ⟨h, rfl⟩

end Rules

variable {s s' : Session σ}

/-! ## Steps -/

/-- Scopes may have any names: remembered answers have no closures, and neither have those that are
remembered next. -/
theorem replayHost_blind {capabilities : List (Capability σ)} {r : Replay σ} (step : Nat)
    (honest : ∀ c ∈ capabilities, c.Honest) (blind : ∀ c ∈ capabilities, c.Blind)
    (hr : ∀ pair ∈ r.answers, pair.2.closures = []) :
    (replayHost capabilities step).BlindIn r := by
  intro ρ owner method args
  have hask := Host.direct_blind blind ρ owner method args r.world
  simp only [Host.direct] at hask
  simp only [replayHost, hask]
  split
  · rfl
  · next hdet =>
    cases hmemory : answerAt? step r.answers with
    | some v =>
      obtain ⟨pair, hpair, rfl⟩ := answerAt?_mem hmemory
      show (Except.ok _, _) = (Except.ok _, _)
      rw [Value.rename_of_closures_nil ρ _ (hr pair hpair)]
    | none =>
      cases hanswer : Capability.invokeAt capabilities owner method args r.world with
      | mk answer w =>
        cases answer with
        | error problem => rfl
        | ok v =>
          have hv : v.closures = [] :=
            (invokeAt_honest honest (by rw [hanswer])).2 (by simpa using hdet)
          show (Except.ok _, Replay.mk w _) = (Except.ok _, Replay.mk w _)
          rw [Value.rename_of_closures_nil ρ v hv]

theorem recordCall_agree (h : s.Resembles s') : Agree Eq (recordCall s) (recordCall s') := by
  obtain ⟨loaded, timeline, rfl⟩ := h.eq_with
  unfold recordCall
  rw [get_bind, get_bind]
  dsimp only
  split
  · rcases h.loaded_cases with ⟨hnone, ⟨⟩⟩ | ⟨l, l', hl, ⟨⟩, hmachines⟩
    · rw [hnone]
      exact ⟨h, rfl⟩
    · rw [hl]
      simp only [← hmachines.machine.pendingCall?]
      cases l.machine.context.pendingCall? with
      | none => exact ⟨h, rfl⟩
      | some name =>
        have hnoted := h.recordCheckpoint hmachines.machine name
        rw [hl] at hnoted
        exact ⟨hnoted, rfl⟩
  · exact ⟨h, rfl⟩

theorem resume_resembles (h : s.Resembles s') {l l' : Loaded} (hl : l.UpTo Machine.Resembles l')
    {m m' : Machine} (hm : m.Resembles m') {r : Replay σ}
    (hr : ∀ pair ∈ r.answers, pair.2.closures = []) :
    (s.resume l ⟨m, r⟩).Resembles (s'.resume l' ⟨m', r⟩) :=
  ⟨⟨h.config, rfl, .some ⟨hl.source, hl.form, hl.definitions, hl.sites, hm⟩,
    ⟨h.timeline.keyframes, h.timeline.checkpoints, rfl⟩, h.steps, h.fault, h.units⟩,
    h.honest, h.blind, hr⟩

theorem runInstruction_agree (h : s.Resembles s') :
    Agree Eq (runInstruction s) (runInstruction s') := by
  unfold runInstruction
  rw [get_bind, get_bind, ← h.config, ← h.steps]
  refine Agree.andThen ?_ fun t t' ht => ?_
  · rcases h.loaded_cases with ⟨hnone, hnone'⟩ | ⟨l, l', hl, hl', hmachines⟩
    · rw [onRunning_of_unloaded _ hnone, onRunning_of_unloaded _ hnone']
      exact ⟨h, rfl⟩
    · have honest : (replayHost s.config.capabilities s.steps).HonestIn
          ⟨s.world, s.timeline.answers⟩ := replayHost_honest h.honest h.plain
      have hblind := replayHost_blind (r := ⟨s.world, s.timeline.answers⟩) s.steps h.honest h.blind
        h.plain
      have hanswers := reply_answers s.steps (r := ⟨s.world, s.timeline.answers⟩) h.honest h.plain
        l.machine.context
      rw [onRunning_eq _ hl, onRunning_eq _ hl', ← h.world, ← h.timeline.answers]
      rcases hmachines.machine.step honest hblind with
        ⟨n, n', hrun, hrun', hn⟩ | ⟨e, hrun, hrun'⟩
      · rw [hrun, hrun']
        exact ⟨resume_resembles h hmachines hn hanswers, rfl⟩
      · rw [hrun, hrun']
        exact ⟨resume_resembles h hmachines hmachines.machine hanswers, rfl⟩
  · exact ⟨⟨⟨ht.config, ht.world, ht.loaded, ht.timeline, congrArg (· + 1) ht.steps, ht.fault,
      ht.units⟩, ht.honest, ht.blind, ht.plain⟩, rfl⟩

/-- An operation on the machine that keeps machines resembling each other. -/
theorem onMachine_agree {α : Type} {x : MachineM α}
    (hx : ∀ m m', m.Resembles m' → ∃ n n' a, x m = .ok a n ∧ x m' = .ok a n' ∧ n.Resembles n')
    (h : s.Resembles s') : Agree Eq (onMachine x s) (onMachine x s') := by
  rcases h.loaded_cases with ⟨hnone, hnone'⟩ | ⟨l, l', hl, hl', hmachines⟩
  · unfold onMachine
    rw [onRunning_of_unloaded _ hnone, onRunning_of_unloaded _ hnone']
    exact ⟨h, rfl⟩
  · obtain ⟨n, n', a, hrun, hrun', hn⟩ := hx _ _ hmachines.machine
    rw [onMachine_of_ok hl hrun, onMachine_of_ok hl' hrun']
    exact ⟨h.setLoaded ⟨hmachines.source, hmachines.form, hmachines.definitions,
      hmachines.sites, hn⟩, rfl⟩

theorem orFault_agree {α : Type} {Q : α → α → Prop} {x : SessionM σ α}
    (h : Agree Q (x s) (x s')) : Agree Q (orFault x s) (orFault x s') := by
  rcases h.cases with ⟨a, a', t, t', hx, hx', ht, ha⟩ | ⟨e, t, t', hx, hx', ht⟩
  · rw [orFault_of_ok hx, orFault_of_ok hx']
    exact ⟨ht, ha⟩
  · rw [orFault_of_error hx, orFault_of_error hx']
    exact ⟨ht.setFault _, rfl⟩

theorem tidy_agree (h : s.Resembles s') : Agree Eq (tidy s) (tidy s') := by
  unfold tidy
  rw [get_bind, get_bind]
  simp only [← h.config, ← h.steps, ← h.isFinished]
  split
  · exact (onMachine_agree (fun _ _ => Machine.Resembles.finish) h).bind
      fun _ _ _ _ ht _ => ⟨ht, rfl⟩
  · split
    · exact (onMachine_agree (fun _ _ => Machine.Resembles.collectGarbage) h).bind
        fun _ _ _ _ ht _ => ⟨ht, rfl⟩
    · exact ⟨h, rfl⟩

theorem recordKeyframe_agree (h : s.Resembles s') :
    Agree Eq (recordKeyframe s) (recordKeyframe s') := by
  obtain ⟨loaded, timeline, rfl⟩ := h.eq_with
  unfold recordKeyframe
  rw [get_bind, get_bind]
  simp only [h.timeline.hasKeyframe]
  split
  · rcases h.loaded_cases with ⟨hnone, ⟨⟩⟩ | ⟨l, l', hl, ⟨⟩, hmachines⟩
    · rw [hnone]
      exact ⟨h, rfl⟩
    · have hframed := h.recordKeyframe hmachines.machine s.config.settings.keyframeLimit
      rw [hl] at hframed ⊢
      exact ⟨hframed, rfl⟩
  · exact ⟨h, rfl⟩

theorem step_agree (h : s.Resembles s') : Agree Eq (Session.step s) (Session.step s') := by
  unfold Session.step
  rw [get_bind, get_bind, ← h.fault, ← h.isNone, ← h.isFinished]
  cases s.fault with
  | some e => exact ⟨h, rfl⟩
  | none =>
    simp only
    split
    · exact ⟨h, rfl⟩
    · split
      · exact ⟨h, rfl⟩
      · refine (recordCall_agree h).andThen fun t₁ t₁' h₁ => ?_
        refine (orFault_agree (runInstruction_agree h₁)).andThen fun t₂ t₂' h₂ => ?_
        refine (orFault_agree (tidy_agree h₂)).andThen fun t₃ t₃' h₃ => ?_
        exact recordKeyframe_agree h₃

/-! ## Runs -/

theorem spend_agree (done left : Nat) (h : s.Resembles s') :
    Agree Eq (spend done left s) (spend done left s') := by
  induction left generalizing done s s' with
  | zero =>
    unfold spend
    rw [get_bind, get_bind, h.isFinished]
    exact ⟨h, rfl⟩
  | succ left ih =>
    simp only [spend, ← h.isFinished]
    split
    · exact ⟨h, rfl⟩
    · rcases (step_agree h).cases with
        ⟨_, _, t, t', hstep, hstep', ht, -⟩ | ⟨e, t, t', hstep, hstep', ht⟩
      · simp only [hstep, hstep', ← ht.config, ← ht.world]
        split
        · exact ⟨ht.clearRender, rfl⟩
        · exact ih (done + 1) ht.clearRender
      · simp only [hstep, hstep']
        split
        · exact ⟨ht, rfl⟩
        · exact ⟨ht, rfl⟩

theorem runBudget_agree (budget : Nat) (h : s.Resembles s') :
    Agree Eq (runBudget budget s) (runBudget budget s') := by
  unfold runBudget
  rw [get_bind, get_bind, ← h.isNone, ← h.fault]
  split
  · exact ⟨h, rfl⟩
  · split
    · exact ⟨h, rfl⟩
    · exact spend_agree 0 budget h

/-- The values that programs end with are shown alike. -/
theorem finishedValue_agree (h : s.Resembles s') :
    Agree (fun v v' => v.render = v'.render) s.finishedValue s'.finishedValue := by
  have hresult : s.result?.map Value.render = s'.result?.map Value.render := by
    have hshown := congrArg (Option.bind · Observation.result) h.observe
    have hobserved (s : Session σ) :
        s.observe.bind Observation.result = s.result?.map Value.render := by
      unfold Session.observe result?
      cases s.context? <;> rfl
    rwa [hobserved, hobserved] at hshown
  unfold finishedValue
  cases hv : s.result? with
  | none =>
    cases hv' : s'.result? with
    | none => exact ⟨h, rfl⟩
    | some v' =>
      rw [hv, hv'] at hresult
      cases hresult
  | some v =>
    cases hv' : s'.result? with
    | none =>
      rw [hv, hv'] at hresult
      cases hresult
    | some v' =>
      rw [hv, hv'] at hresult
      exact ⟨h, Option.some.inj hresult⟩

theorem completeWithin_agree (limit left : Nat) (h : s.Resembles s') :
    Agree (fun v v' => v.render = v'.render) (completeWithin limit left s)
      (completeWithin limit left s') := by
  induction left generalizing s s' with
  | zero =>
    simp only [completeWithin, ← h.isFinished]
    split
    · exact finishedValue_agree h
    · exact ⟨h, rfl⟩
  | succ left ih =>
    simp only [completeWithin, ← h.isFinished]
    split
    · exact finishedValue_agree h
    · rcases (step_agree h).cases with
        ⟨_, _, t, t', hstep, hstep', ht, -⟩ | ⟨e, t, t', hstep, hstep', ht⟩
      · simp only [hstep, hstep']
        exact ih ht.clearRender
      · simp only [hstep, hstep']
        exact ⟨ht, rfl⟩

theorem collectGarbage_agree (h : s.Resembles s') :
    Agree Eq (Session.collectGarbage s) (Session.collectGarbage s') := by
  unfold Session.collectGarbage
  rw [get_bind, get_bind, ← h.isNone]
  split
  · exact ⟨h, rfl⟩
  · exact onMachine_agree (fun _ _ => Machine.Resembles.collectGarbage) h

/-! ## Time travel -/

theorem snapshot_agree (h : s.Resembles s') :
    Agree (Snapshot.UpTo Machine.Resembles) (snapshot s) (snapshot s') := by
  unfold snapshot
  rw [get_bind, get_bind]
  rcases h.loaded_cases with ⟨hnone, hnone'⟩ | ⟨l, l', hl, hl', hmachines⟩
  · rw [hnone, hnone']
    exact ⟨h, rfl⟩
  · rw [hl, hl']
    exact ⟨h, h.capture hmachines.machine⟩

theorem restore_agree (h : s.Resembles s') {k k' : Snapshot}
    (hk : k.UpTo Machine.Resembles k') : Agree Eq (restore k s) (restore k' s') := by
  obtain ⟨loaded, timeline, rfl⟩ := h.eq_with
  unfold restore
  rw [get_bind, get_bind, ← hk.states]
  rcases h.loaded_cases with ⟨hnone, ⟨⟩⟩ | ⟨l, l', hl, ⟨⟩, hmachines⟩
  · rw [hnone]
    exact ⟨h, rfl⟩
  · rw [hl]
    dsimp only
    cases checkStates s.world (savedStates s.config.capabilities k.states) with
    | error e => exact ⟨h, rfl⟩
    | ok =>
      have hworld := h.setWorld (w := (restoreStates (savedStates s.config.capabilities k.states)
        s.world).2) rfl
      rw [hl] at hworld
      refine Agree.andThen (.set hworld) fun t t' ht => ?_
      cases (restoreStates (savedStates s.config.capabilities k.states) s.world).1 with
      | error e => exact ⟨ht, rfl⟩
      | ok =>
        refine Agree.andThen (.modify ?_) fun t t' ht => .modify ht.clearRender
        exact ⟨⟨ht.config, ht.world, .some ⟨hmachines.source, hmachines.form,
          hmachines.definitions, hmachines.sites, hk.machine⟩, ht.timeline, hk.step, rfl,
          ht.units⟩, ht.honest, ht.blind, ht.plain⟩

theorem replayTo_agree (target left : Nat) (h : s.Resembles s') :
    Agree Eq (replayTo target left s) (replayTo target left s') := by
  induction left generalizing s s' with
  | zero => exact ⟨h, rfl⟩
  | succ left ih =>
    unfold replayTo
    rw [get_bind, get_bind, ← h.steps, ← h.isFinished]
    split
    · exact (step_agree h).andThen fun t t' ht => ih ht
    · exact ⟨h, rfl⟩

theorem rewindTo_agree (target : Nat) (h : s.Resembles s') :
    Agree Eq (rewindTo target s) (rewindTo target s') := by
  have hbefore := h.timeline.keyframeBefore? target
  unfold rewindTo
  rw [get_bind, get_bind]
  generalize s.timeline.keyframeBefore? target = k?,
    s'.timeline.keyframeBefore? target = k?' at hbefore
  cases hbefore with
  | none => exact ⟨h, rfl⟩
  | @some k k' hk =>
    simp only [← hk.step]
    refine (restore_agree h hk).andThen fun t t' ht => ?_
    refine (replayTo_agree target _ ht).andThen fun t t' ht => ?_
    exact .modify ht.clearRender

theorem stepBack_agree (h : s.Resembles s') : Agree Eq (stepBack s) (stepBack s') := by
  unfold stepBack
  rw [get_bind, get_bind, ← h.steps]
  cases s.steps with
  | zero => exact ⟨h, rfl⟩
  | succ previous => exact rewindTo_agree previous h

/-! ## Sources -/

theorem install_resembles (h : s.Resembles s') (source : String) (form : Form)
    (definitions : List Definition) {code : Code} (hcode : code.Sound) (units : Nat) :
    (s.install source form definitions code units).Resembles
      (s'.install source form definitions code units) := by
  have hmachine := Machine.start_resembles hcode
  obtain ⟨loaded, timeline, rfl⟩ := h.eq_with
  have hstarted : Resembles { s.clearRender with
        loaded := some ⟨source, form, definitions, sitesOf code definitions, Machine.start code⟩
        timeline := .empty, steps := 0, fault := none, units }
      { s.clearRender with
        loaded := some ⟨source, form, definitions, sitesOf code definitions, Machine.start code⟩
        timeline := .empty, steps := 0, fault := none, units } :=
    ⟨⟨rfl, rfl, .some ⟨rfl, rfl, rfl, rfl, hmachine⟩, .empty, rfl, rfl, rfl⟩, h.honest, h.blind,
      nofun⟩
  exact hstarted.recordKeyframe hmachine _

theorem load_agree (source : String) (h : s.Resembles s') :
    Agree Eq (load source s) (load source s') := by
  rw [load_eq, load_eq, ← h.units]
  cases hprepare : prepare s.units source with
  | error e => exact ⟨h, rfl⟩
  | ok prepared =>
    obtain ⟨root, definitions, code⟩ := prepared
    have hcode := Code.sound_ofProgram (prepare_eq_ok hprepare).2.2
    exact ⟨install_resembles h source root.form definitions hcode _, rfl⟩

theorem rewindForEdit_agree (changed : List String) (h : s.Resembles s') :
    Agree Eq (rewindForEdit changed s) (rewindForEdit changed s') := by
  unfold rewindForEdit
  rw [get_bind, get_bind, ← h.timeline.earliest?]
  cases s.timeline.earliest? changed with
  | none => exact ⟨h.setFault none, rfl⟩
  | some earliest =>
    obtain ⟨name, target⟩ := earliest
    simp only [Timeline.checkpoint?]
    rcases h.timeline.checkpoints.get? name with ⟨hnone, hnone'⟩ | ⟨k, k', hk, hk', hkept⟩
    · rw [hnone, hnone']
      exact ⟨h, rfl⟩
    · rw [hk, hk']
      refine (restore_agree h hkept).andThen fun t t' ht => ?_
      exact .andThen (.modify (ht.pruneAfter target)) fun u u' hu => ⟨hu, rfl⟩

/-- New bodies in the function tables of machines that resemble each other. -/
theorem patchAll_resembles (sites : NameMap (List CodeId)) {fresh : List Fresh}
    (hfresh : ∀ f ∈ fresh, f.code.Sound) {m m' : Machine} (h : m.Resembles m') :
    Machine.Resembles
      { m with memory :=
        { m.memory with functions := patchAll sites m.memory.functions fresh } }
      { m' with memory :=
        { m'.memory with functions := patchAll sites m'.memory.functions fresh } } := by
  obtain ⟨swept, r, r', hm, hm', hr, hsame⟩ := h.follow
  refine ⟨⟨swept, _, _, patchAll_followsSince sites fresh hm, patchAll_followsSince sites fresh hm',
    patchAll_ideal_sound sites hfresh hr, ?_⟩, h.counted, h.counted'⟩
  exact ⟨hsame.context, congrArg (patchAll sites · fresh) hsame.functions, hsame.scopes,
    hsame.built⟩

theorem adopt_agree (source : String) {l l' : Loaded} (hl : l.UpTo Machine.Resembles l')
    {edit : Edit} (hfresh : ∀ f ∈ edit.fresh, f.code.Sound) (changed : List String)
    (h : s.Resembles s') :
    Agree Eq (adopt source l edit changed s) (adopt source l' edit changed s') := by
  have hsites : sitesAfter l edit.fresh = sitesAfter l' edit.fresh := by
    funext d
    unfold sitesAfter
    rw [hl.definitions, hl.sites]
  unfold adopt
  simp only [← hsites]
  refine (rewindForEdit_agree changed h).bind fun outcome _ t t' ht houtcome => ?_
  cases houtcome
  rw [get_bind, get_bind]
  rcases ht.loaded_cases with ⟨hnone, hnone'⟩ | ⟨now, now', hnow, hnow', hmachines⟩
  · rw [hnone, hnone']
    exact ⟨ht, rfl⟩
  · rw [hnow, hnow']
    refine Agree.andThen (.set ?_) fun t t' ht => ⟨ht, rfl⟩
    exact ⟨⟨ht.config, ht.world,
      .some ⟨rfl, rfl, rfl, rfl, patchAll_resembles _ hfresh hmachines.machine⟩, ht.timeline,
      ht.steps, ht.fault, by rw [ht.units]⟩, ht.honest, ht.blind, ht.plain⟩

theorem update_agree (source : String) (h : s.Resembles s') :
    Agree Eq (update source s) (update source s') := by
  cases hroot : Node.ofProgram source with
  | error e =>
    unfold update
    rw [get_bind, get_bind, hroot]
    exact ⟨h, rfl⟩
  | ok root =>
    rcases h.loaded_cases with ⟨hnone, hnone'⟩ | ⟨l, l', hl, hl', hmachines⟩
    · unfold update
      rw [get_bind, get_bind, hroot, hnone, hnone']
      exact (load_agree source h).andThen fun t t' ht => ⟨ht, rfl⟩
    · have halike : (root.form.alike l.form && !s.isFinished) =
          (root.form.alike l'.form && !s'.isFinished) := by rw [hmachines.form, h.isFinished]
      have hedit : Edit.prepare s.units root = Edit.prepare s'.units root := by rw [h.units]
      rw [update_eq hroot hl, update_eq hroot hl', ← halike, ← hedit]
      split
      · exact ⟨h.setLoaded ⟨rfl, hmachines.form, hmachines.definitions, hmachines.sites,
          hmachines.machine⟩, rfl⟩
      · cases hprepared : Edit.prepare s.units root with
        | error e => exact ⟨h, rfl⟩
        | ok edit =>
          obtain ⟨hcode, hfresh⟩ := edit_sound hprepared
          simp only [← hmachines.definitions, ← h.units]
          cases Definition.changed l.definitions edit.definitions with
          | nil => exact ⟨install_resembles h source root.form edit.definitions hcode _, rfl⟩
          | cons name names => exact adopt_agree source hmachines hfresh (name :: names) h

end Session

end LiveLisp
