/-
  What going back in time asks of capabilities. A member that saves a state takes it back exactly;
  one that is said to be deterministic answers from its arguments and from saved states alone; the
  others leave those states to their owners. A call that fails has done nothing. The standard
  capabilities, with a console and a clock, are such (`repeatable_of_standard`).
-/
import LiveLisp.Proofs.Session.Sound

namespace LiveLisp

variable {σ : Type}

namespace Capability

/-- The saved states of the members that answer the same again. -/
def recorded (capabilities : List (Capability σ)) (w : σ) : List (Option Json) :=
  (capabilities.filter (·.isDeterministic)).map (·.save w)

/-- Every state that `c` saves it accepts and takes back exactly. No other member loses its state by
that: what it would save is what it would have saved before, or when `c` did. -/
structure Restores (capabilities : List (Capability σ)) (c : Capability σ) : Prop where
  accepts : ∀ {w : σ} {state : Json}, c.save w = some state → ∀ w', c.check state w' = .ok ()
  takes : ∀ {w : σ} {state : Json}, c.save w = some state →
    ∀ w', ∃ w'', c.restore state w' = (.ok (), w'') ∧
    c.save w'' = some state ∧ ∀ d ∈ capabilities, d.save w'' = d.save w' ∨ d.save w'' = d.save w
  always : ∀ {w : σ}, c.save w = none → ∀ w', c.save w' = none

/-- Capabilities with which a program can be taken back. -/
structure Restorable (capabilities : List (Capability σ)) (render : Signal σ) : Prop where
  restores : ∀ c ∈ capabilities, c.Restores capabilities
  /-- Asking for a redraw, and forgetting about it, changes no state. -/
  signal : ∀ c ∈ capabilities, ∀ flag w, c.save (render.set flag w) = c.save w

/-- Capabilities that can be taken back, and whose answers are as good as saved. -/
structure Answerable (capabilities : List (Capability σ)) (render : Signal σ) : Prop
    extends Restorable capabilities render where
  honest : ∀ c ∈ capabilities, c.Honest
  /-- A deterministic member answers from its arguments and from saved states. -/
  repeats : ∀ c ∈ capabilities, c.isDeterministic = true → ∀ method args w w',
    recorded capabilities w = recorded capabilities w' →
    (c.invoke method args w).1 = (c.invoke method args w').1 ∧
      recorded capabilities (c.invoke method args w).2 =
        recorded capabilities (c.invoke method args w').2

/-- Capabilities with which a program can be taken back and run again. -/
structure Repeatable (capabilities : List (Capability σ)) (render : Signal σ) : Prop
    extends Answerable capabilities render where
  /-- A call that fails has changed no state. -/
  refuses : ∀ c ∈ capabilities, ∀ method args w problem, (c.invoke method args w).1 =
    .error problem →
    recorded capabilities (c.invoke method args w).2 = recorded capabilities w
  /-- The other members leave the states of the deterministic ones alone. -/
  keeps : ∀ c ∈ capabilities, c.isDeterministic = false → ∀ method args w,
    recorded capabilities (c.invoke method args w).2 = recorded capabilities w

variable {capabilities : List (Capability σ)} {render : Signal σ}

/-- What is recorded depends on what deterministic members would save. -/
theorem recorded_congr {w w' : σ}
    (h : ∀ c ∈ capabilities, c.isDeterministic = true → c.save w = c.save w') :
    recorded capabilities w = recorded capabilities w' :=
  List.map_congr_left fun c hc => h c (List.mem_filter.mp hc).1 (List.mem_filter.mp hc).2

theorem Repeatable.recorded_signal (h : Repeatable capabilities render) (flag : Bool) (w : σ) :
    recorded capabilities (render.set flag w) = recorded capabilities w :=
  recorded_congr fun c hc _ => h.signal c hc flag w

/-! ## The standard capabilities -/

/-- A member without a state has nothing to take back. -/
theorem restores_of_stateless {c : Capability σ} (h : ∀ w, c.save w = none) :
    c.Restores capabilities where
  accepts := fun hsave => by rw [h] at hsave; cases hsave
  takes := fun hsave => by rw [h] at hsave; cases hsave
  always := fun _ => h

theorem savedOutput_save (output : String) :
    savedOutput (.object [("output", .text output)]) = .ok output := by
  simp [savedOutput, Json.get?, Json.text?]

/-- All that is saved of a member is the output: it is the console, or it has no state. -/
def SavesOutput (c : Capability World) : Prop :=
  c = console ∨ ∀ w, c.save w = none

/-- The console saves all that has been printed, and the others need none of it. -/
theorem console_restores {capabilities : List (Capability World)}
    (h : ∀ d ∈ capabilities, d.SavesOutput) :
    console.Restores capabilities where
  accepts := by
    rintro w state hsave w'
    cases hsave
    simp only [console, savedOutput_save]
    rfl
  takes := by
    rintro w state hsave w'
    cases hsave
    refine ⟨{ w' with console := w.console }, ?_, rfl, fun d hd => ?_⟩
    · simp only [console, savedOutput_save]
    · rcases h d hd with rfl | hnone
      · exact .inr rfl
      · exact .inl ((hnone _).trans (hnone _).symm)
  always := fun hsave => by cases hsave

/-- The members that hosts of their own are made of. -/
def Standard (c : Capability World) : Prop :=
  c = builtins ∨ c = frame World.renderSignal ∨ c = console ∨ c = clock

theorem Standard.savesOutput {c : Capability World} (h : c.Standard) : c.SavesOutput := by
  rcases h with rfl | rfl | rfl | rfl
  · exact .inr fun _ => rfl
  · exact .inr fun _ => rfl
  · exact .inl rfl
  · exact .inr fun _ => rfl

section Outputs

variable {capabilities : List (Capability World)}

/-- All that is recorded of such members is the output. -/
theorem recorded_of_console (h : ∀ c ∈ capabilities, c.SavesOutput) {w w' : World}
    (hw : w.console = w'.console) :
    recorded capabilities w = recorded capabilities w' := by
  refine recorded_congr fun c hc _ => ?_
  rcases h c hc with rfl | hnone
  · show some (Json.object [("output", .text w.console)]) =
      some (Json.object [("output", .text w'.console)])
    rw [hw]
  · rw [hnone, hnone]

theorem console_of_recorded (h : console ∈ capabilities) {w w' : World}
    (hw : recorded capabilities w = recorded capabilities w') : w.console = w'.console := by
  have hsaved : ∀ c ∈ capabilities.filter (·.isDeterministic), c.save w = c.save w' :=
    List.map_inj_left.mp hw
  have hconsole := hsaved console (List.mem_filter.mpr ⟨h, rfl⟩)
  simp only [console, Option.some.injEq, Json.object.injEq, List.cons.injEq, Prod.mk.injEq,
    Json.text.injEq] at hconsole
  exact hconsole.1.2

/-- Members of which the output is all that is saved can be taken back. -/
theorem restorable_of_savesOutput (h : ∀ c ∈ capabilities, c.SavesOutput) :
    Restorable capabilities World.renderSignal where
  restores := by
    intro c hc
    rcases h c hc with rfl | hnone
    · exact console_restores h
    · exact restores_of_stateless hnone
  signal := by
    intro c hc flag w
    rcases h c hc with rfl | hnone
    · rfl
    · rw [hnone, hnone]

/-- A standard deterministic member answers from its arguments and from the output. -/
theorem Standard.repeats (h : ∀ c ∈ capabilities, c.SavesOutput) {c : Capability World}
    (hc : c ∈ capabilities) (hstandard : c.Standard) (hdet : c.isDeterministic = true)
    (method : String) (args : List Value) {w w' : World}
    (hsame : recorded capabilities w = recorded capabilities w') :
    (c.invoke method args w).1 = (c.invoke method args w').1 ∧
      recorded capabilities (c.invoke method args w).2 =
        recorded capabilities (c.invoke method args w').2 := by
  rcases hstandard with rfl | rfl | rfl | rfl
  · exact ⟨rfl, hsame⟩
  · have hkept (w : World) :
      recorded capabilities ((frame World.renderSignal).invoke method args w).2 =
        recorded capabilities w := by
      refine recorded_of_console h ?_
      simp only [frame]
      split <;> rfl
    refine ⟨?_, by rw [hkept, hkept, hsame]⟩
    simp only [frame]
    split <;> rfl
  · have hconsole := console_of_recorded hc hsame
    simp only [console]
    cases printed method args with
    | ok line => exact ⟨rfl, recorded_of_console h (by simp only [hconsole])⟩
    | error problem => exact ⟨rfl, hsame⟩
  · cases hdet

theorem repeatable_of_standard (h : ∀ c ∈ capabilities, c.Standard)
    (hhonest : ∀ c ∈ capabilities, c.Honest) :
    Repeatable capabilities World.renderSignal where
  toRestorable := restorable_of_savesOutput fun c hc => (h c hc).savesOutput
  honest := hhonest
  repeats := fun c hc hdet method args _ _ =>
    (h c hc).repeats (fun d hd => (h d hd).savesOutput) hc hdet method args
  refuses := by
    intro c hc method args w problem hproblem
    refine recorded_of_console (fun d hd => (h d hd).savesOutput) ?_
    rcases h c hc with rfl | rfl | rfl | rfl
    · rfl
    · simp only [frame]
      split <;> rfl
    · simp only [console] at hproblem ⊢
      cases hprinted : printed method args with
      | ok line =>
        rw [hprinted] at hproblem
        cases hproblem
      | error problem => rfl
    · simp only [clock]
      split
      · rfl
      · split <;> rfl
  keeps := by
    intro c hc hdet method args w
    refine recorded_of_console (fun d hd => (h d hd).savesOutput) ?_
    rcases h c hc with rfl | rfl | rfl | rfl
    · cases hdet
    · cases hdet
    · cases hdet
    · simp only [clock]
      split
      · rfl
      · split <;> rfl

end Outputs

end Capability

namespace Session

open Capability

theorem playground_standard : ∀ c ∈ playground.capabilities, c.Standard := by
  simp [playground, Config.withCapability, Config.ofSettings, Standard]

theorem playground_repeatable : Repeatable playground.capabilities playground.render :=
  repeatable_of_standard playground_standard fun c hc => (playground_complies c hc).honest

/-- What the standard capabilities record is the output. -/
theorem recorded_playground_eq_iff {w w' : World} :
    recorded playground.capabilities w = recorded playground.capabilities w' ↔
      w.console = w'.console :=
  ⟨console_of_recorded (by simp [playground, Config.withCapability]),
    recorded_of_console fun c hc => (playground_standard c hc).savesOutput⟩

/-- The standard capabilities with a console. -/
def terminal : Config World :=
  (Config.ofSettings {} World.renderSignal).withCapability .console

theorem terminal_standard : ∀ c ∈ terminal.capabilities, c.Standard ∧ c.Complies := by
  simp [terminal, Config.withCapability, Config.ofSettings, Standard, builtins_complies,
    frame_complies, console_complies]

/-- A terminal with one more member. The member has no state of its own: it answers from its
arguments and from what is printed. -/
theorem terminal_answerable {c : Capability World} (hnone : ∀ w, c.save w = none)
    (hhonest : c.Honest)
    (hrepeats : ∀ method args w w', w.console = w'.console →
      (c.invoke method args w).1 = (c.invoke method args w').1 ∧
        (c.invoke method args w).2.console = (c.invoke method args w').2.console) :
    Answerable (terminal.withCapability c).capabilities (terminal.withCapability c).render := by
  have hmem : ∀ d ∈ (terminal.withCapability c).capabilities,
      d ∈ terminal.capabilities ∨ d = c := by
    simp [Config.withCapability]
  have hsaves : ∀ d ∈ (terminal.withCapability c).capabilities, d.SavesOutput := by
    intro d hd
    rcases hmem d hd with hd | rfl
    · exact (terminal_standard d hd).1.savesOutput
    · exact .inr hnone
  refine ⟨restorable_of_savesOutput hsaves, fun d hd => ?_, fun d hd hdet method args w w' hw => ?_⟩
  · rcases hmem d hd with hd | rfl
    · exact (terminal_standard d hd).2.honest
    · exact hhonest
  · rcases hmem d hd with hstandard | rfl
    · exact (terminal_standard d hstandard).1.repeats hsaves hd hdet method args hw
    · have hconsole : w.console = w'.console :=
        console_of_recorded (by simp [terminal, Config.withCapability]) hw
      obtain ⟨hanswer, hprinted⟩ := hrepeats method args w w' hconsole
      exact ⟨hanswer, recorded_of_console hsaves hprinted⟩

/-- A member that writes to the console, whatever it answers. -/
def scribbler (answer : Except HostProblem Value) (isDeterministic : Bool) : Capability World where
  label := "scribbler"
  hasMethod := (· == "scribble")
  invoke := fun _ _ world => (answer, { world with console := world.console ++ "scribbled\n" })
  isDeterministic := isDeterministic

theorem scribbler_answerable {answer : Except HostProblem Value}
    (hanswer : ∀ v, answer = .ok v → v.closures = []) (isDeterministic : Bool) :
    Answerable (terminal.withCapability (scribbler answer isDeterministic)).capabilities
      (terminal.withCapability (scribbler answer isDeterministic)).render := by
  refine terminal_answerable (fun _ => rfl) (fun method args w v hv => ?_)
    fun method args w w' hw => ?_
  · rw [hanswer v hv]
    exact ⟨nofun, fun _ => rfl⟩
  · simp only [scribbler, hw, and_self]

end Session

end LiveLisp
