/-
  Compiled programs mean what their trees mean. Without named functions, a program that is compiled
  and run on the machine comes to what a walk of its tree comes to: the same value, or the same
  error at the same place, with the world in the same state (`run_faithful`). Capabilities may not
  make up functions for that: only the machine knows functions by their names
  (`run_unfaithful_made`).

  That the code does so on the ideal machine is known; here it is carried over to the machine with
  its store. No host is asked to be blind for that, since only calls without functions among the
  arguments are made.
-/
import LiveLisp.Proofs.Machine.Sound
import LiveLisp.Proofs.Tree.Agreement

namespace LiveLisp

variable {σ : Type}

/-! ## Plain values have one name -/

/-- A value that is plain under other names is the same under its own. -/
theorem Value.rename_of_isPlain {ρ : Ticket → Ticket} {v : Value}
    (h : (v.rename ρ).isPlain = true) :
    v.rename ρ = v := by
  have hclosures := Value.closures_of_isPlain _ h
  rw [Value.closures_rename, List.map_eq_nil_iff] at hclosures
  exact Value.rename_of_closures_nil ρ v hclosures

/-- A plain call is the same call under all names, and has a plain answer. -/
theorem Host.Plain.reply {host : Host σ} (hhost : host.Plain) {ρ : Ticket → Ticket} {c : Context}
    (hplain : (c.rename ρ).CallsPlainly) (w : σ) :
    host.reply (c.rename ρ) w = host.reply c w ∧ ∀ v, (host.reply c w).1 = .ok v →
      v.isPlain = true := by
  unfold Host.reply
  have hrenamed := Context.hostCall?_rename ρ c
  cases hcall : c.hostCall? with
  | none =>
    rw [hcall] at hrenamed
    rw [hrenamed]
    refine ⟨rfl, ?_⟩
    rintro _ ⟨⟩
    rfl
  | some call =>
    obtain ⟨owner, method, args⟩ := call
    rw [hcall] at hrenamed
    have hplainArgs : ∀ v ∈ args.map (Value.rename ρ), v.isPlain = true :=
      hplain owner method _ hrenamed
    have hargs : args.map (Value.rename ρ) = args := by
      refine (List.map_congr_left fun v hv => ?_).trans (List.map_id args)
      exact Value.rename_of_isPlain (hplainArgs _ (List.mem_map_of_mem hv))
    rw [hargs] at hplainArgs
    rw [hrenamed]
    refine ⟨?_, fun v hv => hhost owner method args w v hplainArgs hv⟩
    show host.invoke owner method (args.map (Value.rename ρ)) w = host.invoke owner method args w
    rw [hargs]

/-! ## From the ideal machine to the machine -/

namespace Machine

variable {host : Host σ} {m : Machine} {r r' : Ideal} {w w' : σ}

/-- A plain step of the ideal machine is a step of every machine that follows it. -/
theorem advance_follows (hhost : host.Plain) (h : m.Follows r) (hr : r.Sound)
    (hplain : r.context.CallsPlainly) (w : σ) :
    match Ideal.advance host r w with
    | (.ok r', w') => ∃ m', Exec.step host ⟨m, w⟩ = .ok () ⟨m', w'⟩ ∧ m'.Follows r' ∧ r'.Sound
    | (.error e, w') => Exec.step host ⟨m, w⟩ = .error e ⟨m, w'⟩ := by
  obtain ⟨swept, hx, ρ, scopes, hm, rfl⟩ := h
  obtain ⟨hsame, hanswer⟩ := hhost.reply hplain w
  have hclosures : ∀ v, (host.reply m.context w).1 = .ok v → v.closures = [] :=
    fun v hv => v.closures_of_isPlain (hanswer v hv)
  have hstep := step_image hx hm hr fun v hv cl hcl => by
    rw [hclosures v hv] at hcl
    cases hcl
  have hrenamed : (host.reply m.context w).1.map (Value.rename ρ) = (host.reply m.context w).1 := by
    cases hreply : (host.reply m.context w).1 with
    | error problem => rfl
    | ok v => exact congrArg Except.ok (Value.rename_of_closures_nil ρ v (hclosures v hreply))
  rw [hrenamed] at hstep
  have hadvance : Ideal.advance host (m.image ρ scopes) w =
      ((m.image ρ scopes).step host.owner? (host.reply m.context w).1,
        (host.reply m.context w).2) := by
    have hcontext : host.reply (m.image ρ scopes).context w = host.reply m.context w := hsame
    exact Ideal.advance_of_reply hcontext
  rw [hadvance]
  cases hideal : (m.image ρ scopes).step host.owner? (host.reply m.context w).1 with
  | ok r' =>
    rw [hideal] at hstep
    obtain ⟨m', hrun, hfollows, hr'⟩ := hstep
    exact ⟨m', hrun, ⟨swept, hfollows⟩, hr'⟩
  | error e =>
    rw [hideal] at hstep
    exact hstep.1

theorem Follows.done_eq (h : m.Follows r) : m.context.done = r.context.done := by
  obtain ⟨_, -, ρ, scopes, -, rfl⟩ := h
  rfl

theorem done_of_advance (h : Ideal.advance host r w = (.ok r', w')) : r.context.done = false := by
  cases hdone : r.context.done with
  | false => rfl
  | true =>
    unfold Ideal.advance Ideal.step at h
    simp [hdone] at h

theorem run_of_step (hdone : m.context.done = false) {m' : Machine}
    (hstep : Exec.step host ⟨m, w⟩ = .ok () ⟨m', w'⟩) (limit : Nat) :
    Exec.run host (limit + 1) ⟨m, w⟩ = Exec.run host limit ⟨m', w'⟩ := by
  rw [Exec.run, Exec.context_bind, hdone]
  exact bind_of_ok hstep

theorem run_of_error (hdone : m.context.done = false) {e : Error} {s : Running σ}
    (hstep : Exec.step host ⟨m, w⟩ = .error e s) (limit : Nat) :
    Exec.run host (limit + 1) ⟨m, w⟩ = .error e s := by
  rw [Exec.run, Exec.context_bind, hdone]
  exact bind_of_error hstep

theorem run_of_done (hdone : m.context.done = true) {v : Value} (hvalues : m.context.values = [v]) :
    Exec.run host 0 ⟨m, w⟩ = .ok (some v) ⟨m, w⟩ := by
  rw [Exec.run, Exec.context_bind, hdone]
  have hresult : Exec.theResult (⟨m, w⟩ : Running σ) = .ok v ⟨m, w⟩ := by
    unfold Exec.theResult
    rw [Exec.context_bind, hvalues]
    rfl
  exact bind_of_ok hresult

/-- As many steps as the ideal machine takes lead to a machine that follows where it has got to. -/
theorem run_follows (hhost : host.Plain) (hrun : r.Runs host w r' w')
    (h : m.Follows r) (hr : r.Sound) :
    ∃ n m', m'.Follows r' ∧ r'.Sound ∧
      ∀ limit, Exec.run host (limit + n) ⟨m, w⟩ = Exec.run host limit ⟨m', w'⟩ := by
  induction hrun generalizing m with
  | refl r w => exact ⟨0, m, h, hr, fun limit => rfl⟩
  | @step r r₁ r₂ w w₁ w₂ hplain hadvance hrest ih =>
    have hstep := advance_follows hhost h hr hplain w
    rw [hadvance] at hstep
    obtain ⟨m₁, hstep, h₁, hr₁⟩ := hstep
    obtain ⟨n, m', h', hr', hrun⟩ := ih h₁ hr₁
    refine ⟨n + 1, m', h', hr', fun limit => ?_⟩
    have hdone : m.context.done = false := h.done_eq.trans (done_of_advance hadvance)
    rw [← Nat.add_assoc, run_of_step hdone hstep, hrun]

end Machine

namespace Meaning

/-- For a program that compiles and has no named functions: if the walk of its tree has a value, the
compiled program ends with that value; if the walk fails, other than by a limit of its own, then the
compiled program fails at the same place with the same problem, except that it tells an unbound name
at the head of a call as a missing function. Both leave the world in the same state. -/
theorem run_faithful {capabilities : List (Capability σ)}
    (hplain : ∀ c ∈ capabilities, c.Plain) {unit : Nat} {root : Node} {code : Code}
    (hcode : Code.ofProgram unit root = .ok code)
    (hdefn : ∀ head ∈ root.heads, head.keyword? ≠ some .defn) (w : σ) :
    (∀ v w', evaluate (.direct capabilities) root w = (.ok v, w') →
      ∃ limit m, Exec.run (.direct capabilities) limit ⟨.start code, w⟩ = .ok (some v) ⟨m, w'⟩) ∧
    ∀ e w', evaluate (.direct capabilities) root w = (.error e, w') → ¬ IsLimit e →
      ∃ limit m e', Exec.run (.direct capabilities) limit ⟨.start code, w⟩ = .error e' ⟨m, w'⟩ ∧
        SameError root.heads e e' := by
  have hhost := Host.direct_plain hplain
  have hsound : (Ideal.start code).Sound := Ideal.start_sound (Code.sound_ofProgram hcode)
  have hfollows := Machine.start_follows code
  have hagrees := agrees_program hhost hdefn hcode w
  unfold evaluate EStateM.run
  cases hwalk : eval (.direct capabilities) (callWithin (.direct capabilities) maxCallDepth) 0 root
      ⟨#[⟨[], none⟩], w⟩ with
  | ok d st =>
    rw [hwalk] at hagrees
    obtain ⟨_, hrun, v, scopes, built, hmeans, rfl⟩ := hagrees
    cases hmeans with
    | lambda hbody hheads =>
      refine ⟨nofun, ?_⟩
      rintro e w' ⟨⟩ hlimit
      exact absurd ⟨root.span, .inr (.inr rfl)⟩ hlimit
    | value hv =>
      refine ⟨?_, nofun⟩
      rintro v' w' ⟨⟩
      obtain ⟨n, m, ⟨_, -, ρ, scopes', -, himage⟩, -, hsteps⟩ :=
        Machine.run_follows hhost hrun hfollows hsound
      have hcontext := congrArg Ideal.context himage
      have hvalues : [v] = m.context.values.map (Value.rename ρ) := congrArg Context.values hcontext
      have hdone : true = m.context.done := congrArg Context.done hcontext
      obtain ⟨u, hu, hrename⟩ := List.map_eq_singleton_iff.mp hvalues.symm
      have hsame : u = v := by
        rw [← hrename] at hv ⊢
        exact (Value.rename_of_isPlain hv).symm
      rw [hsame] at hu
      exact ⟨0 + n, m, (hsteps 0).trans (Machine.run_of_done hdone.symm hu)⟩
  | error e st =>
    rw [hwalk] at hagrees
    refine ⟨nofun, ?_⟩
    rintro e' w' ⟨⟩ hlimit
    rcases hagrees with hisLimit | ⟨e', ⟨r, w₁, hrun, hdone, hplainCall, hadvance⟩, hsame⟩
    · exact absurd hisLimit hlimit
    · obtain ⟨n, m, hm, hr, hsteps⟩ := Machine.run_follows hhost hrun hfollows hsound
      have hstep := Machine.advance_follows hhost hm hr hplainCall w₁
      rw [hadvance] at hstep
      exact ⟨0 + 1 + n, m, e',
        (hsteps (0 + 1)).trans (Machine.run_of_error (hm.done_eq.trans hdone) hstep 0), hsame⟩

/-- `((lambda (x) "hello") null)`. -/
def greeting : Node :=
  let here : Span := ⟨0, 0, 1, 1⟩
  .list [.list [.identifier "lambda" here, .list [.identifier "x" here] here,
    .text "hello" here] here, .identifier "null" here] here

/-- The walk of it ends with its greeting, and so does the machine. -/
theorem run_faithful_greeting : ∃ code, Code.ofProgram 0 greeting = .ok code ∧
    ∃ limit m, Exec.run (.direct [.builtins, .console]) limit ⟨.start code, ({} : World)⟩ =
      .ok (some (.text "hello")) ⟨m, {}⟩ := by
  have hplain : ∀ c ∈ [Capability.builtins, Capability.console], c.Plain := by
    simp only [List.mem_cons, List.not_mem_nil, or_false]
    rintro c (rfl | rfl)
    · exact Capability.builtins_complies.plain
    · exact Capability.console_complies.plain
  have hdefn : ∀ head ∈ greeting.heads, head.keyword? ≠ some .defn := by decide
  exact ⟨_, rfl, (run_faithful hplain rfl hdefn {}).1 _ _ rfl⟩

/-- A member that makes up the name of a function. -/
def namer : Capability Unit where
  label := "namer"
  hasMethod := (· == "make")
  invoke := fun _ _ w => (.ok (.named "f"), w)

/-- `((make))` as it is read. -/
def callOfMade : Node :=
  .list [.identifier "do" ⟨0, 0, 1, 1⟩,
    .list [.list [.identifier "make" ⟨2, 6, 1, 3⟩] ⟨1, 7, 1, 2⟩] ⟨0, 8, 1, 1⟩] ⟨0, 8, 1, 1⟩

theorem ofProgram_callOfMade : Node.ofProgram "((make))" = .ok callOfMade := by
  with_unfolding_all rfl

/-- Nothing is bound, so the name stands for the method. -/
theorem eval_make (call : Caller Unit) (span : Span) :
    eval (.direct [namer]) call 0 (.identifier "make" span) ⟨#[⟨[], none⟩], ()⟩ =
      .ok (.value (.host ⟨0, "namer"⟩ "make")) ⟨#[⟨[], none⟩], ()⟩ := by
  have hlookup : lookup? #[⟨[], none⟩] 0 "make" = none := by
    rw [lookup?, ownerOf]
    rfl
  have hkeyword : Keyword.ofName? "make" = none := rfl
  rw [eval_identifier, identifier, hkeyword]
  simp only [get_bind, hlookup]
  rfl

/-- The walk has the name that was made up for what it calls. -/
theorem evaluate_callOfMade : evaluate (.direct [namer]) callOfMade () =
    (.error (.runtime (.notCallable "function" (Value.named "f").inspect) (some ⟨0, 8, 1, 1⟩)),
      ()) := by
  have hmade : eval (.direct [namer]) (callWithin (.direct [namer]) maxCallDepth) 0
      (.list [.identifier "make" ⟨2, 6, 1, 3⟩] ⟨1, 7, 1, 2⟩) ⟨#[⟨[], none⟩], ()⟩ =
        .ok (.value (.named "f")) ⟨#[⟨[], none⟩], ()⟩ := bind_of_ok (eval_make _ _)
  have hcall : eval (.direct [namer]) (callWithin (.direct [namer]) maxCallDepth) 0 callOfMade
      ⟨#[⟨[], none⟩], ()⟩ =
        .error (.runtime (.notCallable "function" (Value.named "f").inspect) (some ⟨0, 8, 1, 1⟩))
          ⟨#[⟨[], none⟩], ()⟩ := bind_of_ok hmade
  unfold evaluate EStateM.run
  rw [hcall]

/-- The walk takes a name that has been made up for nothing that can be called, and the machine
misses a function of that name. -/
theorem run_unfaithful_made : namer.isDeterministic = true ∧
    Node.ofProgram "((make))" = .ok callOfMade ∧
    (∀ head ∈ callOfMade.heads, head.keyword? ≠ some .defn) ∧
    ∃ code e, Code.ofProgram 0 callOfMade = .ok code ∧
      evaluate (.direct [namer]) callOfMade () = (.error e, ()) ∧ ¬ IsLimit e ∧
      ¬ ∃ limit m e', Exec.run (.direct [namer]) limit ⟨.start code, ()⟩ = .error e' ⟨m, ()⟩ ∧
        SameError callOfMade.heads e e' := by
  have hdefn : ∀ head ∈ callOfMade.heads, head.keyword? ≠ some .defn := by decide
  refine ⟨rfl, ofProgram_callOfMade, hdefn, _, _, rfl, evaluate_callOfMade, ?_, ?_⟩
  · rintro ⟨span, h | h | h⟩ <;> cases h
  · rintro ⟨limit, m, e', hrun, problem, problem', span, he, rfl, hsame⟩
    cases he
    -- the machine fails at the second call, if it gets so far
    rcases limit with _ | _ | _ | limit
    · cases hrun
    · cases hrun
    · cases hrun
    · cases hrun
      rcases hsame with h | ⟨name, h, -⟩ <;> cases h

end Meaning

end LiveLisp
