/-
  Marks of tail position show nowhere. A program is compiled with marks and run, and run again with
  every tail call, in all function bodies, made an ordinary call: what can be seen of the one run
  can be seen of the other (`sees_unmarked`). That is how it ends, with a value as it displays or
  with an error and its place, and every state of the world that it passes through, whether it ends
  or not.

  Nothing is said of how long a run takes or how deep its stack gets, in which the two differ. Of
  capabilities it is assumed that they do not look into functions (`Capability.Parametric`): one
  that did could tell the two by their code.
-/
import LiveLisp.Proofs.Ideal.Lingering
import LiveLisp.Proofs.Session.Invisible
import LiveLisp.Proofs.Tree.Faithful

namespace LiveLisp

variable {σ : Type}

theorem Value.eq_text_of_equals {v : Value} {content : String}
    (h : v.equals (.text content) = true) :
    v = .text content := by
  cases v with
  | text content' => rw [beq_iff_eq.mp h]
  | _ => cases h

/-- What can be seen of a run: the value it ends with, the error it ends with, or only the world
after some steps. -/
inductive Sight where
  | value (text : String)
  | error (e : Error)
  | world

/-- This is what a run has come to, with this world. -/
def Sight.Of (sight : Sight) (w' : σ) (result : EStateM.Result Error (Running σ) (Option Value)) :
    Prop :=
  match sight, result with
  | .value text, .ok (some v) s => v.render = text ∧ s.world = w'
  | .error e, .error e' s => e' = e ∧ s.world = w'
  | .world, .ok _ s => s.world = w'
  | .world, .error _ s => s.world = w'
  | _, _ => False

/-- A run of this machine, with some limit of steps, comes to this. -/
def Machine.Sees (host : Host σ) (m : Machine) (w : σ) (sight : Sight) (w' : σ) : Prop :=
  ∃ limit, sight.Of w' (Exec.run host limit ⟨m, w⟩)

/-! ## Capabilities -/

/-- Who does not look into closures can at most hand them on. -/
theorem Capability.Parametric.handsOn {c : Capability σ} (h : c.Parametric) {method : String}
    {args : List Value} {w : σ} {v : Value} (hv : (c.invoke method args w).1 = .ok v) :
    ∀ cl ∈ v.closures, ∃ arg ∈ args, cl ∈ arg.closures := by
  -- closures are related to themselves, if they are among the arguments
  let R : Closure → Closure → Prop := fun cl cl' => cl = cl' ∧ ∃ arg ∈ args, cl ∈ arg.closures
  have hR : Closure.Lookalikes R := by
    rintro cl _ ⟨rfl, -⟩
    exact ⟨rfl, rfl⟩
  have hargs : List.Forall₂ (Value.Related R) args args := by
    rw [List.forall₂_same]
    exact fun arg harg => Value.related_same fun cl hcl => ⟨rfl, arg, harg, hcl⟩
  obtain ⟨hreply, -⟩ := h R hR method args args w hargs
  rw [hv] at hreply
  intro cl hcl
  obtain ⟨cl', -, harg⟩ := Value.Related.closures hreply cl hcl
  exact harg

section Direct

variable {capabilities : List (Capability σ)} (hparametric : ∀ c ∈ capabilities, c.Parametric)

include hparametric

theorem Host.direct_blind_of_parametric : (Host.direct capabilities).Blind :=
  Host.direct_blind fun c hc => (hparametric c hc).blind

theorem Host.direct_honestIn_of_parametric (w : σ) : (Host.direct capabilities).HonestIn w := by
  intro owner method args v hv
  simp only [Host.direct, Capability.invokeAt] at hv
  split at hv
  · next c hc => exact (hparametric c (List.mem_of_getElem? hc)).handsOn hv
  · cases hv

end Direct

/-! ## Runs of the ideal machine -/

namespace Ideal

/-- The same of a run of the ideal machine. -/
inductive Sees (host : Host σ) : Ideal → σ → Sight → σ → Prop where
  | here {r : Ideal} {w : σ} : Sees host r w .world w
  | value {r : Ideal} {w : σ} {v : Value} (hdone : r.context.done = true)
      (hvalues : r.context.values = [v]) :
    Sees host r w (.value v.render) w
  | error {r : Ideal} {w w' : σ} {e : Error} {sight : Sight} (hdone : r.context.done = false)
      (hadvance : advance host r w = (.error e, w')) (hsight : sight = .error e ∨ sight = .world) :
    Sees host r w sight w'
  | step {r r' : Ideal} {w w' w'' : σ} {sight : Sight} (hadvance : advance host r w = (.ok r', w'))
      (hrest : Sees host r' w' sight w'') : Sees host r w sight w''

theorem advance_unasked {host : Host σ} {r r' : Ideal} (hcall : r.context.hostCall? = none)
    (hstep : ∀ owner? reply, r.step owner? reply = .ok r') (w : σ) :
    advance host r w = (.ok r', w) := by
  have hreply : host.reply r.context w = (.ok .null, w) := by
    unfold Host.reply
    rw [hcall]
  rw [advance_of_reply hreply, hstep]

theorem Sees.of_quiet {host : Host σ} {r r' : Ideal} {w w' : σ} {sight : Sight} (h : Quiet r r')
    (hsees : Sees host r' w sight w') : Sees host r w sight w' := by
  induction h with
  | refl => exact hsees
  | step hcall hstep _ ih => exact .step (advance_unasked hcall hstep w) (ih hsees)

section Lingering

variable {P : Option String → List String → Code → Prop} {capabilities : List (Capability σ)}
  (hparametric : ∀ c ∈ capabilities, c.Parametric)

include hparametric

/-- One step of both machines, with the host. -/
theorem Lingers.advance {l r : Ideal} (h : Lingers P l r) (w : σ) :
    match Ideal.advance (.direct capabilities) l w with
    | (.ok l', w') => ∃ r₁ r', Ideal.advance (.direct capabilities) r w = (.ok r₁,
      w') ∧ Quiet r₁ r' ∧ Lingers P l' r'
    | (.error e, w') => Ideal.advance (.direct capabilities) r w = (.error e, w') := by
  have hcalls := Context.hostCall?_related h.context.argc?
  obtain ⟨hreply, hworld⟩ :=
    Host.direct_reply_related hparametric Closure.unmarks_lookalikes hcalls w
  have hstep : LingeringOutcomes P (l.step (Host.direct capabilities).owner? _)
      (r.step (Host.direct capabilities).owner? _) := h.step hreply
  unfold Ideal.advance
  simp only
  rw [← hworld]
  generalize l.step _ _ = outcome at hstep
  generalize r.step _ _ = outcome' at hstep
  cases outcome with
  | ok l' =>
    cases outcome' with
    | ok r₁ =>
      obtain ⟨r', hquiet, hlingers⟩ := hstep
      exact ⟨r₁, r', rfl, hquiet, hlingers⟩
    | error e => exact hstep.elim
  | error e =>
    cases outcome' with
    | ok r₁ => exact hstep.elim
    | error e' =>
      cases hstep
      rfl

/-- What is seen of the machine that leaves frames at once is seen of the one that lingers. -/
theorem Lingers.sees {l r : Ideal} (h : Lingers P l r) {w w' : σ} {sight : Sight}
    (hsees : Sees (.direct capabilities) l w sight w') :
    Sees (.direct capabilities) r w sight w' := by
  induction hsees generalizing r with
  | here => exact .here
  | @value l w v hdone hvalues =>
    have hrelated := h.context.values_of_done hdone
    rw [hvalues] at hrelated
    obtain ⟨v', rest, hv, hnil, hr⟩ := List.forall₂_cons_left_iff.mp hrelated
    rw [List.forall₂_nil_left_iff.mp hnil] at hr
    rw [(hv.shownAlike Closure.unmarks_lookalikes).1]
    exact .value (h.context.done_eq ▸ hdone) hr
  | @error l w w' e sight hdone hadvance hsight =>
    have hstep := h.advance hparametric w
    rw [hadvance] at hstep
    exact .error (h.context.done_eq ▸ hdone) hstep hsight
  | @step l l' w w₁ w' sight hadvance hrest ih =>
    have hstep := h.advance hparametric w
    rw [hadvance] at hstep
    obtain ⟨r₁, r', hadvance', hquiet, hlingers⟩ := hstep
    exact .step hadvance' (.of_quiet hquiet (ih hlingers))

/-- And the other way round, from wherever the second machine is on its way out of frames that it
has kept. -/
theorem Lingers.seen {l r r' : Ideal} (hquiet : Quiet r r') (h : Lingers P l r')
    {w w' : σ} {sight : Sight} (hsees : Sees (.direct capabilities) r w sight w') :
    Sees (.direct capabilities) l w sight w' := by
  induction hsees generalizing l r' with
  | here => exact .here
  | @value r w v hdone hvalues =>
    cases hquiet with
    | refl =>
      have hrelated := h.context.values_of_done (h.context.done_eq.trans hdone)
      rw [hvalues] at hrelated
      obtain ⟨v', rest, hv, hnil, hl⟩ := List.forall₂_cons_right_iff.mp hrelated
      rw [List.forall₂_nil_right_iff.mp hnil] at hl
      rw [← (hv.shownAlike Closure.unmarks_lookalikes).1]
      exact .value (h.context.done_eq.trans hdone) hl
    | step hcall hstep _ =>
      have hadvance : Ideal.advance (.direct capabilities) r w = _ := advance_unasked hcall hstep w
      have hended := Machine.done_of_advance hadvance
      cases hdone.symm.trans hended
  | @error r w w' e sight hdone hadvance hsight =>
    cases hquiet with
    | refl =>
      have hstep := h.advance hparametric w
      cases hl : Ideal.advance (.direct capabilities) l w with
      | mk outcome w₁ =>
        rw [hl] at hstep
        cases outcome with
        | ok l' =>
          obtain ⟨r₁, -, hok, -⟩ := hstep
          cases hok.symm.trans hadvance
        | error e' =>
          cases hstep.symm.trans hadvance
          exact .error (h.context.done_eq.trans hdone) hl hsight
    | step hcall hstep _ => cases (advance_unasked hcall hstep w).symm.trans hadvance
  | @step r r₁ w w₁ w' sight hadvance hrest ih =>
    cases hquiet with
    | refl =>
      have hstep := h.advance hparametric w
      cases hl : Ideal.advance (.direct capabilities) l w with
      | mk outcome w₂ =>
        rw [hl] at hstep
        cases outcome with
        | ok l' =>
          obtain ⟨_, r'', hok, hquiet, hlingers⟩ := hstep
          cases hok.symm.trans hadvance
          exact .step hl (ih hquiet hlingers)
        | error e' => cases hstep.symm.trans hadvance
    | step hcall hstep hquiet =>
      cases (advance_unasked hcall hstep w).symm.trans hadvance
      exact ih hquiet h

end Lingering

end Ideal

/-! ## Runs of the machine -/

namespace Machine

variable {host : Host σ} {m : Machine} {r : Ideal}

/-- A step of the ideal machine is a step of every machine that follows it, if the host cannot tell
the two. -/
theorem advance_follows_blind (hblind : host.Blind) {w : σ} (hhonest : host.HonestIn w)
    (h : m.Follows r) (hr : r.Sound) :
    match Ideal.advance host r w with
    | (.ok r', w') => ∃ m', Exec.step host ⟨m, w⟩ = .ok () ⟨m', w'⟩ ∧ m'.Follows r' ∧ r'.Sound
    | (.error e, w') => Exec.step host ⟨m, w⟩ = .error e ⟨m, w'⟩ := by
  obtain ⟨swept, hx, ρ, scopes, hm, rfl⟩ := h
  have hstep := step_image hx hm hr fun v hv => hhonest.reply hv
  rw [Ideal.advance_image hblind]
  split at hstep
  · next hideal =>
    rw [hideal]
    obtain ⟨m', hrun, hfollows, hr'⟩ := hstep
    exact ⟨m', hrun, ⟨swept, hfollows⟩, hr'⟩
  · next hideal =>
    rw [hideal]
    exact hstep.1

/-- Nothing more happens to a program that is done. -/
theorem run_eq_of_done (hdone : m.context.done = true) (w : σ) (limit : Nat) :
    Exec.run host limit ⟨m, w⟩ = Exec.run host 0 ⟨m, w⟩ := by
  cases limit with
  | zero => rfl
  | succ limit =>
    rw [Exec.run, Exec.run, Exec.context_bind, Exec.context_bind, hdone]
    rfl

/-- What is seen of a machine that is done, and of the one that it follows. -/
theorem sight_of_done (h : m.Follows r) (hr : r.Sound) (hdone : r.context.done = true)
    {w w' : σ} {sight : Sight} (limit : Nat) : sight.Of w' (Exec.run host limit ⟨m, w⟩) ↔
    r.Sees host w sight w' := by
  obtain ⟨v, hv⟩ := hr.stacked.result hdone
  have hdone' : m.context.done = true := h.done_eq.trans hdone
  obtain ⟨u, hu, hrender⟩ : ∃ u, m.context.values = [u] ∧ v.render = u.render := by
    obtain ⟨_, -, ρ, scopes, -, rfl⟩ := h
    obtain ⟨u, hu, rfl⟩ := List.map_eq_singleton_iff.mp hv
    exact ⟨u, hu, Value.render_rename ρ u⟩
  rw [run_eq_of_done hdone', run_of_done hdone' hu]
  constructor
  · intro hsight
    cases sight with
    | value text =>
      obtain ⟨rfl, rfl⟩ := hsight
      rw [← hrender]
      exact .value hdone hv
    | error e => exact hsight.elim
    | world =>
      cases hsight
      exact .here
  · intro hsees
    cases hsees with
    | here => rfl
    | value _ hvalues =>
      cases hv.symm.trans hvalues
      exact ⟨hrender.symm, rfl⟩
    | error hrunning => cases hdone.symm.trans hrunning
    | step hadvance => cases hdone.symm.trans (done_of_advance hadvance)

section Sees

variable (hblind : host.Blind) (hhonest : ∀ w, host.HonestIn w)

include hblind hhonest

theorem sees_ideal (h : m.Follows r) (hr : r.Sound) {w w' : σ} {sight : Sight} (limit : Nat)
    (hsight : sight.Of w' (Exec.run host limit ⟨m, w⟩)) : r.Sees host w sight w' := by
  induction limit generalizing m r w with
  | zero =>
    cases hdone : r.context.done with
    | true => exact (sight_of_done h hr hdone 0).mp hsight
    | false =>
      rw [Exec.run, Exec.context_bind, h.done_eq.trans hdone] at hsight
      cases sight with
      | value text => exact hsight.elim
      | error e => exact hsight.elim
      | world =>
        cases hsight
        exact .here
  | succ limit ih =>
    cases hdone : r.context.done with
    | true => exact (sight_of_done h hr hdone (limit + 1)).mp hsight
    | false =>
      have hrunning := h.done_eq.trans hdone
      have hstep := advance_follows_blind hblind (hhonest w) h hr
      cases hadvance : Ideal.advance host r w with
      | mk outcome w₁ =>
        rw [hadvance] at hstep
        cases outcome with
        | ok r₁ =>
          obtain ⟨m₁, hstep, h₁, hr₁⟩ := hstep
          rw [run_of_step hrunning hstep] at hsight
          exact .step hadvance (ih h₁ hr₁ hsight)
        | error e =>
          rw [run_of_error hrunning hstep] at hsight
          cases sight with
          | value text => exact hsight.elim
          | error e' =>
            obtain ⟨rfl, rfl⟩ := hsight
            exact .error hdone hadvance (.inl rfl)
          | world =>
            cases hsight
            exact .error hdone hadvance (.inr rfl)

theorem sees_of_ideal (h : m.Follows r) (hr : r.Sound) {w w' : σ} {sight : Sight}
    (hsees : r.Sees host w sight w') :
    m.Sees host w sight w' := by
  induction hsees generalizing m with
  | @here r w =>
    cases hdone : r.context.done with
    | true => exact ⟨0, (sight_of_done h hr hdone 0).mpr .here⟩
    | false =>
      refine ⟨0, ?_⟩
      rw [Exec.run, Exec.context_bind, h.done_eq.trans hdone]
      rfl
  | value hdone hvalues => exact ⟨0, (sight_of_done h hr hdone 0).mpr (.value hdone hvalues)⟩
  | @error r w w' e sight hdone hadvance hsight =>
    have hstep := advance_follows_blind hblind (hhonest w) h hr
    rw [hadvance] at hstep
    refine ⟨1, ?_⟩
    rw [run_of_error (h.done_eq.trans hdone) hstep]
    rcases hsight with rfl | rfl
    · exact ⟨rfl, rfl⟩
    · rfl
  | @step r r₁ w w₁ w' sight hadvance hrest ih =>
    have hstep := advance_follows_blind hblind (hhonest w) h hr
    rw [hadvance] at hstep
    obtain ⟨m₁, hstep, h₁, hr₁⟩ := hstep
    obtain ⟨limit, hsight⟩ := ih h₁ hr₁
    refine ⟨limit + 1, ?_⟩
    rw [run_of_step (h.done_eq.trans (done_of_advance hadvance)) hstep]
    exact hsight

/-- The same is seen of a machine and of the ideal one that it follows. -/
theorem sees_iff (h : m.Follows r) (hr : r.Sound) {w w' : σ} {sight : Sight} :
    m.Sees host w sight w' ↔ r.Sees host w sight w' :=
  ⟨fun ⟨limit, hsight⟩ => sees_ideal hblind hhonest h hr limit hsight,
    sees_of_ideal hblind hhonest h hr⟩

end Sees

/-- For every program that compiles: what can be seen of its run, with a value or an error at its
end or on the way, can be seen of the run of its code without marks, and conversely; the world is
the same, with all that has been printed. -/
theorem sees_unmarked {capabilities : List (Capability σ)}
    (hparametric : ∀ c ∈ capabilities, c.Parametric) {unit : Nat} {root : Node} {code : Code}
    (hcode : Code.ofProgram unit root = .ok code) (w w' : σ) (sight : Sight) :
    (Machine.start code).Sees (.direct capabilities) w sight w' ↔
      (Machine.start code.unmarked).Sees (.direct capabilities) w sight w' := by
  have hblind := Host.direct_blind_of_parametric hparametric
  have hhonest := Host.direct_honestIn_of_parametric hparametric
  have hsound := Code.sound_ofProgram hcode
  have hlingers := Ideal.lingers_start (unmarks_of_ofProgram hcode)
  rw [sees_iff hblind hhonest (start_follows code) (Ideal.start_sound hsound),
    sees_iff hblind hhonest (start_follows code.unmarked) (Ideal.start_sound hsound.unmarked)]
  exact ⟨hlingers.sees hparametric, hlingers.seen hparametric (.refl _)⟩

/-- `((lambda (f) (f)) (lambda () "hello"))`. -/
def handover : Node :=
  let here : Span := ⟨0, 0, 1, 1⟩
  .list [.list [.identifier "lambda" here, .list [.identifier "f" here] here,
    .list [.identifier "f" here] here] here,
      .list [.identifier "lambda" here, .list [] here, .text "hello" here] here] here

/-- Its one tail call is made an ordinary call, and it still comes to its greeting and prints
nothing. -/
theorem sees_unmarked_handover : ∃ code, Code.ofProgram 0 handover = .ok code ∧
    ∃ w' : World, w'.console = "" ∧
    (Machine.start code.unmarked).Sees (.direct [.builtins, .console]) {} (.value "hello") w' := by
  have hparametric : ∀ c ∈ [Capability.builtins, Capability.console], c.Parametric := by
    simp only [List.mem_cons, List.not_mem_nil, or_false]
    rintro c (rfl | rfl)
    · exact Capability.builtins_parametric
    · exact Capability.console_parametric
  have hrun : yields (fun code => succeedsWith
        (fun v? s => v?.any (·.equals (.text "hello")) && decide (s.world.console = ""))
        (Exec.run (.direct [Capability.builtins, .console]) 12 ⟨Machine.start code, {}⟩))
      (Code.ofProgram 0 handover) = true := by decide +kernel
  obtain ⟨code, hcode, hrun⟩ := yields_iff.mp hrun
  obtain ⟨v?, s, hends, hchecked⟩ := succeedsWith_iff.mp hrun
  rw [Bool.and_eq_true, decide_eq_true_eq, Option.any_eq_true] at hchecked
  obtain ⟨⟨v, rfl, hvalue⟩, hconsole⟩ := hchecked
  obtain rfl := Value.eq_text_of_equals hvalue
  refine ⟨code, hcode, s.world, hconsole,
    (sees_unmarked hparametric hcode {} s.world (.value "hello")).mp ⟨12, ?_⟩⟩
  rw [hends]
  exact ⟨by rw [Value.render], rfl⟩

end Machine

end LiveLisp
