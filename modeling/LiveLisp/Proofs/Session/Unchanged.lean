/-
  Sources that are taken for the same program. An update that answers `unchanged` has compared
  forms, in which number literals are compared as floats; if the literals of the two sources agree
  on being negative zeros, the sources have one form, and a program started from the one cannot be
  told from a program started from the other (`unchanged_displays`). Without that they can: `0` and
  `-0` compare equal and display differently (`unchanged_shows`).
-/
import LiveLisp.Proofs.Code.Placement
import LiveLisp.Proofs.Session.Edits
import LiveLisp.Proofs.Session.HotReload

namespace LiveLisp

open Capability

variable {σ : Type} {revisions active : NameMap Revision} {edited : String → Prop}

/-! ## What is on display -/

/-- What can be seen of a program at any time: its program counters, its values as they display by
themselves and inside others, whether it has ended and with what, and the output. -/
structure Display where
  pcs : List Nat
  stack : List String
  inspected : List String
  finished : Bool
  result : Option String
  failure : Option String
  output : String

namespace Session

def display (output : σ → String) (s : Session σ) : Option Display :=
  s.context?.map fun c => ⟨c.pcs, c.values.map Value.render, c.values.map Value.inspect, c.done,
    c.result?.map Value.render, s.fault.map Error.message, output s.world⟩

end Session

theorem Twins.length_eq {is js : List Instruction} (h : Twins revisions edited is js) :
    is.length = js.length := by
  induction h with
  | ret => rfl
  | plain _ _ _ _ ih => rw [List.length_cons, List.length_cons, ih]
  | function _ _ _ _ _ _ _ ih => simp only [List.length_cons, ih]

theorem Value.displays_of_shownAlike {values values' : List Value}
    (h : List.Forall₂ Value.ShownAlike values values') :
    values.map render = values'.map render ∧ values.map inspect = values'.map inspect := by
  induction h with
  | nil => exact ⟨rfl, rfl⟩
  | cons hv _ ih => simp only [List.map_cons, hv.1, hv.2, ih, and_self]

/-- Machines that run the same code in step have values that display alike. -/
theorem Context.Twin.shownAlike {c c' : Context} (h : Context.Twin [] (fun _ => False) c c') :
    c.pcs = c'.pcs ∧ List.Forall₂ Value.ShownAlike c.values c'.values := by
  have hvalues {values values' : List Value}
    (h : List.Forall₂ (Value.Twin [] fun _ => False) values values') :
      List.Forall₂ Value.ShownAlike values values' :=
    h.imp fun _ _ hv => hv.shownAlike Closure.twin_lookalikes
  cases h with
  | finished h => exact ⟨rfl, hvalues h⟩
  | running htop hbelow =>
    refine ⟨rfl, ?_⟩
    generalize List.drop _ _ = is at htop
    generalize List.drop _ _ = js at htop
    cases htop with
    | between _ h => exact hvalues h
    | params hoperands _ h =>
      cases hoperands.ownParams fun _ _ => id
      exact .cons ⟨rfl, rfl⟩ (hvalues h)
    | code hoperands _ h =>
      cases hoperands.ownParams fun _ _ => id
      have hlength := (hoperands.ownCode fun _ _ => id).length_eq
      refine .cons ?_ (.cons ⟨rfl, rfl⟩ (hvalues h))
      simp only [Value.ShownAlike, Value.inspect, Value.render, Code.length, hlength, and_self]

namespace Session

variable {s t : Session σ} {loaded : Loaded} {output : σ → String}

theorem InStep.display_eq (h : InStep [] (fun _ => False) [] s t)
    (hfault : s.fault.map Error.message = t.fault.map Error.message)
    (houtput : output s.world = output t.world) :
    s.display output = t.display output := by
  have hdisplay (u : Session σ) : u.display output = u.observe.map fun o =>
      ⟨o.pcs, o.printed, o.inspected, o.done, o.result, o.fault.map Error.message,
        output o.world⟩ := by
    unfold Session.display Session.observe
    rw [Option.map_map]
    rfl
  obtain ⟨l, r, hl, hr, htwin⟩ := h.machines
  obtain ⟨hpcs, hvalues⟩ := htwin.context.shownAlike
  obtain ⟨hprinted, hinspected⟩ := Value.displays_of_shownAlike hvalues
  rw [hdisplay, hdisplay, hl.observe, hr.observe]
  simp only [Reference.observe, Observation.of, Option.map_some, hpcs, hprinted,
    hinspected, hfault, houtput, htwin.context.done_eq, htwin.context.result?]

/-! ## Runs in step -/

/-- Sessions in step take a step or fail to, and are in step after it, with errors of one message.
-/
theorem InStep.after_step (hcapabilities : Determined s.config.capabilities s.config.render)
    (h : InStep revisions edited revisions s t)
    (hfault : s.fault.map Error.message = t.fault.map Error.message) :
    InStep revisions edited revisions (s.after Session.step) (t.after Session.step) ∧
      (s.after Session.step).config = s.config ∧
      (s.after Session.step).fault.map Error.message =
      (t.after Session.step).fault.map Error.message := by
  obtain ⟨l, r, hl, hr, htwin⟩ := h.machines
  obtain ⟨program, _, hprogram, -⟩ := hl.machine
  obtain ⟨program', _, hprogram', -⟩ := hr.machine
  by_cases hruns : s.Runs program
  · have ht : t.fault = none := by
      rw [hruns.fault] at hfault
      exact Option.map_eq_none_iff.mp hfault.symm
    rcases h.step hcapabilities hruns ht fun _ _ => .inl rfl with
      ⟨s', t', hstep, hstep', h', hconfig, -, hs', ht'⟩ | ⟨e, e', s', t', hstep, hstep', hmessage,
        h', hconfig, hs', ht'⟩
    · rw [after_of_ok hstep, after_of_ok hstep', hs', ht']
      exact ⟨h', hconfig, rfl⟩
    · rw [after_of_error hstep, after_of_error hstep', hs', ht']
      exact ⟨h', hconfig, congrArg some hmessage⟩
  · have hruns' : ¬ t.Runs program' := by
      rintro ⟨-, ht, hrunning⟩
      refine hruns ⟨hprogram, ?_, ?_⟩
      · rw [ht] at hfault
        exact Option.map_eq_none_iff.mp hfault
      · rw [← isFinished_eq hprogram, h.isFinished, isFinished_eq hprogram', hrunning]
    rw [after_step_of_resting hprogram hruns, after_step_of_resting hprogram' hruns']
    exact ⟨h, rfl, hfault⟩

theorem InStep.forward_both (hcapabilities : Determined s.config.capabilities s.config.render)
    (h : InStep revisions edited revisions s t)
    (hfault : s.fault.map Error.message = t.fault.map Error.message) (n : Nat) :
    InStep revisions edited revisions (s.forward n) (t.forward n) ∧
      (s.forward n).config = s.config ∧
      (s.forward n).fault.map Error.message = (t.forward n).fault.map Error.message := by
  induction n with
  | zero => exact ⟨h, rfl, hfault⟩
  | succ n ih =>
    obtain ⟨h', hconfig, hfault'⟩ := ih
    obtain ⟨h'', hconfig', hfault''⟩ := h'.after_step (hconfig ▸ hcapabilities) hfault'
    exact ⟨h'', hconfig'.trans hconfig, hfault''⟩

/-- Programs with the same code display the same after every number of steps, and come to the same
end. -/
theorem InStep.displays (h : InStep [] (fun _ => False) [] s t)
    (hcapabilities : Determined s.config.capabilities s.config.render) (hs : s.fault = none)
    (ht : t.fault = none) (houtput : ∀ w w', recorded s.config.capabilities w =
      recorded s.config.capabilities w' → output w = output w') :
    (∀ i, (s.forward i).display output = (t.forward i).display output) ∧
      ∀ limit, EndsAlike output (runToCompletion limit s) (runToCompletion limit t) := by
  refine ⟨fun i => ?_, fun limit => h.complete hcapabilities hs ht houtput limit limit limit⟩
  obtain ⟨h', hconfig, hfault⟩ := h.forward_both hcapabilities (by rw [hs, ht]) i
  refine h'.display_eq hfault (houtput _ _ ?_)
  have hstates := h'.states
  rwa [hconfig] at hstates

/-! ## Sources of one form -/

/-- What a load makes of a source of a certain form, it makes of every source of that form, up to
places. -/
theorem load_same {s₀ s₁ : Session σ} {source source' : String} {root root' : Node}
    (hroot : Node.ofProgram source = .ok root) (hroot' : Node.ofProgram source' = .ok root')
    (h : root.form = root'.form) (hload : load source s₀ = .ok () s₁)
      (t : Session σ) : ∃ definitions code, Code.ofProgram t.units root' = .ok code ∧
      load source' t = .ok () (t.install source' root'.form definitions code (t.units + 1)) := by
  obtain ⟨root₀, definitions₀, code₀, hprepare, -⟩ := load_eq_ok hload
  obtain ⟨hroot₀, hfind, hcode⟩ := prepare_eq_ok hprepare
  cases hroot.symm.trans hroot₀
  obtain ⟨definitions, hfind', -⟩ := (Definition.find_concurs h).of_ok hfind
  obtain ⟨code, hcode', -⟩ := (Code.ofProgram_concurs s₀.units t.units h).of_ok hcode
  exact ⟨definitions, code, hcode', load_of_ok (prepare_of_ok hroot' hfind' hcode')⟩

/-- A program is loaded and steps forward, and another source is handed in and answered to be no
change. If the literals of the two sources agree on being negative zeros, then programs started from
the two, by sessions with the same determined capabilities, display the same after every number of
steps, and come to the same end. -/
theorem unchanged_displays {s₀ s₁ s' : Session σ} (t₀ u₀ : Session σ)
    {source source' : String} {root root' : Node} (hload : load source s₀ = .ok () s₁) (n : Nat)
    (hupdate : update source' (s₁.forward n) = .ok .unchanged s')
    (hroot : Node.ofProgram source = .ok root) (hroot' : Node.ofProgram source' = .ok root')
    (hzeros : root'.form.zerosAgree root.form = true)
    (hcapabilities : Determined t₀.config.capabilities t₀.config.render)
    (hsame : u₀.config.capabilities = t₀.config.capabilities)
    (hrender : u₀.config.render = t₀.config.render)
    (hstates : recorded t₀.config.capabilities u₀.world = recorded t₀.config.capabilities t₀.world)
    (houtput : ∀ w w', recorded t₀.config.capabilities w = recorded t₀.config.capabilities w' →
      output w = output w') :
    ∃ t₁ u₁, load source t₀ = .ok () t₁ ∧ load source' u₀ = .ok () u₁ ∧
      (∀ i, (t₁.forward i).display output = (u₁.forward i).display output) ∧
      ∀ limit, EndsAlike output (runToCompletion limit t₁) (runToCompletion limit u₁) := by
  have hform : root.form = root'.form := by
    obtain ⟨definitions, code, -, hload'⟩ := load_same hroot hroot rfl hload s₀
    cases hload.symm.trans hload'
    obtain ⟨-, machine, hprogram⟩ :=
      forward_program (s := s₀.install source root.form definitions code (s₀.units + 1)) rfl n
    cases update_eq_ok hupdate with
    | unchanged hroot₁ hloaded halike =>
      cases hroot'.symm.trans hroot₁
      cases hprogram.symm.trans hloaded
      exact (Form.eq_of_alike halike hzeros).symm
  obtain ⟨definitions, code, hcode, hload₁⟩ := load_same hroot hroot rfl hload t₀
  obtain ⟨definitions', code', hcode', hload₂⟩ := load_same hroot hroot' hform hload u₀
  refine ⟨_, _, hload₁, hload₂, ?_⟩
  obtain ⟨_, hcode'', htwins⟩ := (Code.ofProgram_concurs t₀.units u₀.units hform).of_ok hcode
  cases hcode'.symm.trans hcode''
  have hstart :=
    install_inStep root.form root'.form definitions definitions' hcapabilities hsame hrender hstates
    (Code.sound_ofProgram hcode) (Code.sound_ofProgram hcode') htwins source source' (t₀.units + 1)
      (u₀.units + 1)
  exact hstart.displays hcapabilities rfl rfl houtput

/-- White space and a comment, put in while the program runs. -/
theorem unchanged_displays_comment : ∃ s₁ s' t₁ u₁ : Session World,
    load "(print \"x\") (+ 1 2)" (.start terminal {}) = .ok () s₁ ∧
    update "(print \"x\") ; greets\n(+ 1  2)" (s₁.forward 2) = .ok .unchanged s' ∧
    load "(print \"x\") (+ 1 2)" (.start terminal {}) = .ok () t₁ ∧
    load "(print \"x\") ; greets\n(+ 1  2)" (.start terminal {}) = .ok () u₁ ∧
    (∀ i, (t₁.forward i).display World.console = (u₁.forward i).display World.console) ∧
    ∀ limit, EndsAlike World.console (runToCompletion limit t₁) (runToCompletion limit u₁) := by
  have hrun : yields (fun root => yields (fun root' => root'.form.zerosAgree root.form &&
        succeedsWith (fun _ s₁ => succeedsWith (fun outcome _ => decide (outcome = .unchanged))
          (update "(print \"x\") ; greets\n(+ 1  2)" (s₁.forward 2)))
          (load "(print \"x\") (+ 1 2)" (.start terminal {})))
        (Node.ofProgram "(print \"x\") ; greets\n(+ 1  2)"))
      (Node.ofProgram "(print \"x\") (+ 1 2)") = true := by decide +kernel
  obtain ⟨root, hroot, hrun⟩ := yields_iff.mp hrun
  obtain ⟨root', hroot', hrun⟩ := yields_iff.mp hrun
  simp only [Bool.and_eq_true, decide_eq_true_eq, succeedsWith_iff] at hrun
  obtain ⟨hzeros, _, s₁, hload, _, s', hupdate, rfl⟩ := hrun
  have houtput : ∀ w w' :
      World, recorded terminal.capabilities w = recorded terminal.capabilities w' →
      w.console = w'.console :=
        fun w w' => console_of_recorded (by simp [terminal, Config.withCapability])
  obtain ⟨t₁, u₁, hload₁, hload₂, hdisplays, hends⟩ :=
    unchanged_displays (.start terminal {}) (.start terminal {}) hload 2
    hupdate hroot hroot' hzeros terminal_determined rfl rfl rfl houtput
  exact ⟨s₁, s', t₁, u₁, hload, hupdate, hload₁, hload₂, hdisplays, hends⟩

/-- The source `-0` is answered to be no change of a program that says `0`. One step on, they
display different values. -/
theorem unchanged_shows : ∃ s₁ s' u₁ : Session World, load "0" (.start terminal {}) = .ok () s₁ ∧
    update "-0" s₁ = .ok .unchanged s' ∧ load "-0" (.start terminal {}) = .ok () u₁ ∧
    ((s₁.forward 1).display World.console).map Display.stack = some ["0"] ∧
    ((u₁.forward 1).display World.console).map Display.stack = some ["-0"] := by
  have hrun : succeedsWith (fun _ s₁ =>
    succeedsWith (fun outcome _ => decide (outcome = .unchanged)) (update "-0" s₁) &&
        decide ((s₁.forward 1).context?.map (·.values.map Value.number?) = some [some 0]) &&
        succeedsWith (fun _ u₁ =>
          decide ((u₁.forward 1).context?.map (·.values.map Value.number?) = some [some (-0)]))
          (load "-0" (.start terminal {})))
      (load "0" (.start terminal {})) = true := by decide +kernel
  simp only [Bool.and_eq_true, decide_eq_true_eq, succeedsWith_iff] at hrun
  obtain ⟨_, s₁, hload, ⟨⟨_, s', hupdate, rfl⟩, hvalues⟩, _, u₁, hload', hvalues'⟩ := hrun
  have hstack {s : Session World} {x : Float}
    (h : s.context?.map (·.values.map Value.number?) = some [some x]) :
      (s.display World.console).map Display.stack = some [Decimal.render x] := by
    obtain ⟨c, hc, hnumbers⟩ := Option.map_eq_some_iff.mp h
    obtain ⟨v, hvalues, hv⟩ := List.map_eq_singleton_iff.mp hnumbers
    unfold Session.display
    rw [hc, Option.map_some, Option.map_some, hvalues]
    cases v with
    | number y =>
      cases hv
      rw [List.map_singleton, Value.render]
    | _ => cases hv
  refine ⟨s₁, s', u₁, hload, hupdate, hload', ?_, ?_⟩
  · rw [hstack hvalues]
    decide +kernel
  · rw [hstack hvalues']
    decide +kernel

end Session

end LiveLisp
