/-
  The order of bindings does not show. A copy of a machine may list the bindings of its scopes in
  other orders than the machine that was copied; so what is kept, and every run that goes on from
  there, may release scopes in another order and give out other tickets. A host that asks the same
  of two sessions is shown the same by both, and finds as many scopes in them, however often
  bindings come to be in other orders in one of them (`order_invisible`).
-/
import LiveLisp.Proofs.Session.Consistent
import LiveLisp.Proofs.Session.Resembling

namespace LiveLisp

variable {σ : Type}

namespace Operation

/-- The same operation in two sessions. A state to return to was given out by both at one time. -/
inductive Paired (taken : List (Snapshot × Snapshot)) : Operation → Operation → Prop where
  | same {op : Operation} (h : op.Allowed []) : Paired taken op op
  | restore {k k' : Snapshot} (h : (k, k') ∈ taken) : Paired taken (.restore k) (.restore k')

end Operation

/-- The state that an operation gave out. -/
def takenBy : EStateM.Result Error (Session σ) Answer → Option Snapshot
  | .ok answer _ => answer.taken
  | .error _ _ => none

/-- The result or the error of an operation. -/
def outcomeOf {α : Type} : EStateM.Result Error (Session σ) α → Except Error α
  | .ok a _ => .ok a
  | .error e _ => .error e

namespace Session

/-- Two sessions of a host that asks the same of both, with the states that they have given out. The
host may do anything to both worlds between operations, and in the right session the running program
and the states that were kept may come to list bindings in other orders. -/
inductive Disordered (config : Config σ) :
    Session σ → Session σ → List (Snapshot × Snapshot) → Prop where
  | start (w : σ) : Disordered config (.start config w) (.start config w) []
  | outside {s s' : Session σ} {taken : List (Snapshot × Snapshot)}
      (h : Disordered config s s' taken) (change : σ → σ) :
    Disordered config { s with world := change s.world } { s' with world := change s'.world } taken
  | disorder {s s' s'' : Session σ} {taken : List (Snapshot × Snapshot)}
      (h : Disordered config s s' taken) (hs : s'.Reorders s'') :
    Disordered config s s'' taken
  | operate {s s' : Session σ} {taken : List (Snapshot × Snapshot)} {op op' : Operation}
      (h : Disordered config s s' taken) (hop : op.Paired taken op') :
    Disordered config (s.after op.run) (s'.after op'.run)
      ((takenBy (op.run s)).toList.zip (takenBy (op'.run s')).toList ++ taken)

variable {s s' : Session σ} {taken : List (Snapshot × Snapshot)}

theorem start_resembles {config : Config σ} (w : σ)
    (h : ∀ c ∈ config.capabilities, c.Honest ∧ c.Blind) :
    (Session.start config w).Resembles (.start config w) :=
  ⟨⟨rfl, rfl, .none, .empty, rfl, rfl, rfl⟩, fun c hc => (h c hc).1, fun c hc => (h c hc).2, nofun⟩

/-! ## Operations -/

/-- Answers with states that resemble each other, or without any, and with the same error. -/
def Answer.Resembles (a a' : Answer) : Prop :=
  Option.Rel (Snapshot.UpTo Machine.Resembles) a.taken a'.taken ∧ a.reported = a'.reported

theorem Answer.resembles_quiet : Answer.Resembles {} {} :=
  ⟨.none, rfl⟩

/-- An operation of which only the error is told. -/
theorem Agree.quiet {α : Type} {Q : α → α → Prop} {x x' : SessionM σ α}
    (h : Agree Q (x s) (x' s')) :
    Agree Answer.Resembles ((x >>= fun _ => return ({} : Answer)) s)
      ((x' >>= fun _ => return ({} : Answer)) s') :=
  h.bind fun _ _ _ _ ht _ => ⟨ht, Answer.resembles_quiet⟩

theorem run_agree (h : s.Resembles s')
    (htaken : ∀ pair ∈ taken, pair.1.UpTo Machine.Resembles pair.2) {op op' : Operation}
    (hop : op.Paired taken op') : Agree Answer.Resembles (op.run s) (op'.run s') := by
  cases hop with
  | restore hk => exact (restore_agree h (htaken _ hk)).quiet
  | same hallowed =>
    cases op with
    | load source => exact (load_agree source h).quiet
    | step => exact (step_agree h).quiet
    | runBudget budget =>
      refine (runBudget_agree budget h).bind fun report _ t t' ht hreport => ?_
      cases hreport
      exact ⟨ht, .none, rfl⟩
    | runToCompletion limit => exact (completeWithin_agree limit limit h).quiet
    | snapshot =>
      exact (snapshot_agree h).bind fun k k' t t' ht hk => ⟨ht, .some hk, rfl⟩
    | restore k => exact absurd hallowed List.not_mem_nil
    | rewindTo target => exact (rewindTo_agree target h).quiet
    | stepBack => exact (stepBack_agree h).quiet
    | update source => exact (update_agree source h).quiet
    | collectGarbage => exact (collectGarbage_agree h).quiet

theorem Agree.after {α : Type} {Q : α → α → Prop} {x x' : SessionM σ α}
    (h : Agree Q (x s) (x' s')) : (s.after x).Resembles (s'.after x') := by
  rcases h.cases with ⟨a, a', t, t', hx, hx', ht, -⟩ | ⟨e, t, t', hx, hx', ht⟩
  · rwa [after_of_ok hx, after_of_ok hx']
  · rwa [after_of_error hx, after_of_error hx']

theorem Agree.takenBy {r r' : EStateM.Result Error (Session σ) Answer}
    (h : Agree Answer.Resembles r r') :
    ∀ pair ∈ (takenBy r).toList.zip (LiveLisp.takenBy r').toList,
      pair.1.UpTo Machine.Resembles pair.2 := by
  rcases h.cases with ⟨a, a', t, t', rfl, rfl, -, ha⟩ | ⟨e, t, t', rfl, rfl, -⟩
  · have htaken := ha.1
    intro pair hpair
    simp only [LiveLisp.takenBy] at hpair
    generalize a.taken = k, a'.taken = k' at hpair htaken
    cases htaken with
    | none => cases hpair
    | some hk =>
      cases List.mem_singleton.mp hpair
      exact hk
  · exact nofun

theorem Agree.errorOf {r r' : EStateM.Result Error (Session σ) Answer}
    (h : Agree Answer.Resembles r r') : errorOf r = LiveLisp.errorOf r' := by
  rcases h.cases with ⟨a, a', t, t', rfl, rfl, -, ha⟩ | ⟨e, t, t', rfl, rfl, -⟩
  · exact ha.2
  · rfl

theorem Agree.outcomeOf {α : Type} {r r' : EStateM.Result Error (Session σ) α}
    (h : Agree Eq r r') : outcomeOf r = LiveLisp.outcomeOf r' := by
  rcases h.cases with ⟨a, _, t, t', rfl, rfl, -, rfl⟩ | ⟨e, t, t', rfl, rfl, -⟩
  · rfl
  · rfl

theorem Agree.shown {r r' : EStateM.Result Error (Session σ) Value}
    (h : Agree (fun v v' => v.render = v'.render) r r') :
    (LiveLisp.outcomeOf r).map Value.render = (LiveLisp.outcomeOf r').map Value.render := by
  rcases h.cases with ⟨v, v', t, t', rfl, rfl, -, hv⟩ | ⟨e, t, t', rfl, rfl, -⟩
  · exact congrArg Except.ok hv
  · rfl

/-! ## Whole runs -/

theorem Disordered.resembles {config : Config σ}
    (hcapabilities : ∀ c ∈ config.capabilities, c.Honest ∧ c.Blind)
    (h : Disordered config s s' taken) :
    s.Resembles s' ∧ ∀ pair ∈ taken, pair.1.UpTo Machine.Resembles pair.2 := by
  induction h with
  | start w => exact ⟨start_resembles w hcapabilities, nofun⟩
  | outside h change ih => exact ⟨ih.1.setWorld (congrArg change ih.1.world), ih.2⟩
  | disorder h hs ih => exact ⟨ih.1.reorder hs, ih.2⟩
  | operate h hop ih =>
    have hagree := run_agree ih.1 ih.2 hop
    refine ⟨hagree.after, fun pair hpair => ?_⟩
    rcases List.mem_append.mp hpair with hpair | hpair
    · exact hagree.takenBy pair hpair
    · exact ih.2 pair hpair

/-- Whatever a host asks of two sessions, the two show the same, with as many scopes, and are at the
same step with keyframes of the same steps, wherever bindings have come to be in other orders in one
of them; and whatever it asks next, both answer the same: the same error if any, the same report on
a budget, the same outcome of an update, as many scopes collected, and a value that is shown alike.
-/
theorem order_invisible {config : Config σ}
    (hcapabilities : ∀ c ∈ config.capabilities, c.Honest ∧ c.Blind)
    (h : Disordered config s s' taken) :
    (s.observe = s'.observe ∧ s.liveScopes = s'.liveScopes ∧ s.steps = s'.steps ∧
      s.timeline.keyframeSteps = s'.timeline.keyframeSteps) ∧
    (∀ op op' : Operation, op.Paired taken op' → errorOf (op.run s) = errorOf (op'.run s')) ∧
    (∀ budget, outcomeOf (runBudget budget s) = outcomeOf (runBudget budget s')) ∧
    (∀ source, outcomeOf (update source s) = outcomeOf (update source s')) ∧
    outcomeOf (collectGarbage s) = outcomeOf (collectGarbage s') ∧
    ∀ limit, (outcomeOf (runToCompletion limit s)).map Value.render =
      (outcomeOf (runToCompletion limit s')).map Value.render := by
  obtain ⟨hs, htaken⟩ := h.resembles hcapabilities
  refine ⟨⟨hs.observe, hs.liveScopes, hs.steps, congrArg List.reverse hs.timeline.steps⟩,
    fun op op' hop => ?_, fun budget => (runBudget_agree budget hs).outcomeOf,
    fun source => (update_agree source hs).outcomeOf, (collectGarbage_agree hs).outcomeOf,
    fun limit => (completeWithin_agree limit limit hs).shown⟩
  exact (run_agree hs htaken hop).errorOf

end Session

end LiveLisp
