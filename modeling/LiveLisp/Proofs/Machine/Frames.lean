/-
  How deep the stack of frames gets. A call leaves the frame that it is made in, which waits at the
  call; a call in tail position replaces it. So every frame below the top one is at an ordinary
  call, and as functions make those only where they do not end in them, a program whose functions
  call each other in tail position only never has more than two frames (`tail_calls_bound_frames`):
  the one of the program, and the one of the function that runs.

  What one step does to the frames is said once, of the ideal machine (`Ideal.step_moves`). Which
  functions a machine can call is known because it keeps track of where they come from
  (`Machine.Tracks`).
-/
import LiveLisp.Proofs.Code.TailPosition
import LiveLisp.Proofs.Machine.Registered
import LiveLisp.Proofs.Machine.TailCalls

namespace LiveLisp

variable {σ : Type}

/-- A function that is run by the machine, and not by the host. -/
def Value.interpreted : Value → Bool
  | .closure _ _ _ _ => true
  | .named _ => true
  | _ => false

/-- Where the call stands that the next instruction makes, if it is one of an interpreted function.
-/
def Context.entering? (c : Context) : Option Span := do
  let i ← c.instruction?
  let argc ← i.op.argc?
  let callee ← c.values[argc]?
  if callee.interpreted then some i.origin else none

/-- The instruction there is an ordinary call. -/
def Code.CallsAt (code : Code) (pc : Nat) : Prop :=
  ∃ argc origin, code.instructions[pc]? = some ⟨.call argc, origin⟩

/-- If the body of a function is about to call an interpreted function, it ends in this call. -/
def Context.EndsInCalls (root : Node) (c : Context) : Prop :=
  ∀ code ∈ c.frames.head?, ∀ function ∈ code.id.form, ∀ place ∈
    c.entering?, root.TailCallAt function place

/-- The state after so many steps. Those that fail count too. -/
def Exec.after (host : Host σ) : Nat → Running σ → Running σ
  | 0, s => s
  | n + 1, s =>
    match step host s with
    | .ok _ s' => after host n s'
    | .error _ s' => after host n s'

/-- The stacks after so many steps of a program. -/
def Code.stacksAfter (code : Code) (host : Host σ) (w : σ) (n : Nat) : Context :=
  (Exec.after host n ⟨.start code, w⟩).machine.context

/-! ## What a step does to the frames -/

/-- Goes on in the top frame, returns from it, enters a body above it or replaces it by one. -/
inductive Context.Moves (c c' : Context) : Prop where
  | within (hframes : c'.frames = c.frames) (hpcs : c'.pcs.tail = c.pcs.tail)
  | returned (hframes : c'.frames = c.frames.tail) (hpcs : c'.pcs.tail = c.pcs.tail.tail)
  | entered {argc : Nat} {place : Span} {body : Code}
      (hcall : c.instruction? = some ⟨.call argc, place⟩)
      (hentering : c.entering? = some place) (hframes : c'.frames = body :: c.frames)
        (hpcs : c'.pcs = 0 :: c.pcs)
  | replaced {body : Code} (hframes : c'.frames = body :: c.frames.tail)
      (hpcs : c'.pcs = 0 :: c.pcs.tail)

namespace Ideal

theorem follow_frames (c : Context) (flow : Flow) : (c.follow flow).frames = c.frames := by
  cases flow <;> rfl

theorem follow_pcs_tail (c : Context) (flow : Flow) : (c.follow flow).pcs.tail = c.pcs.tail := by
  cases flow with
  | advance => exact List.tail_modifyHead
  | jump target => exact List.tail_modifyHead
  | stay => rfl

section Steps

variable {owner? : String → Option Owner} {reply : Except HostProblem Value} {m m' : Ideal}
    {flow : Flow} {pc : Nat}
  {env : Environment} {origin : Span}

/-- With the same frames, apart from the counter of the top one. -/
theorem moves_within {c c' : Context} (hframes : c'.frames = c.frames)
    (hpcs : c'.pcs = c.pcs) (flow : Flow) :
    c.Moves (c'.follow flow) :=
  .within ((follow_frames c' flow).trans hframes) (by rw [follow_pcs_tail, hpcs])

/-- What neither calls nor returns leaves all frames where they are. -/
theorem execute_frames {op : Op} (h : m.execute owner? reply pc env origin op = .ok (flow, m'))
    (hcall : op.argc? = none) (hret : op ≠ .ret) :
    m'.context.frames = m.context.frames ∧ m'.context.pcs = m.context.pcs := by
  by_cases hmakes : ∃ f, op = .buildFunction f
  · obtain ⟨f, rfl⟩ := hmakes
    rcases buildFunction_eq_ok h with ⟨_, _, _, _, -, rfl⟩ | ⟨_, _, _, rfl⟩ <;> exact ⟨rfl, rfl⟩
  · rcases execute_eq_ok h hcall hret (not_exists.mp hmakes)
      with ⟨_, rfl⟩ | ⟨_, _, _, rfl⟩ <;> exact ⟨rfl, rfl⟩

theorem call_moves (tail : Bool) {argc : Nat}
    (hcall : m.context.instruction? = some ⟨Compile.invocation tail argc, origin⟩)
    (h : m.call reply tail argc origin = .ok (flow, m')) :
    m.context.Moves (m'.context.follow flow) := by
  rcases call_eq_ok h with ⟨values, rfl, rfl⟩ | ⟨callee, rest, params, code, closed,
    hdrop, hkind, rfl, rfl⟩
  · exact .within (follow_frames _ _) (follow_pcs_tail _ _)
  · have hinterpreted : callee.interpreted = true := by
      rcases hkind with ⟨_, _, _, _, rfl⟩ | ⟨_, rfl⟩ <;> rfl
    cases tail with
    | true => exact .replaced rfl rfl
    | false =>
      refine .entered hcall ?_ rfl rfl
      simp [Context.entering?, hcall, getElem?_of_drop hdrop, hinterpreted,
        Compile.invocation, Op.argc?]

theorem leave_moves (h : m.leave = (flow, m')) : m.context.Moves (m'.context.follow flow) := by
  unfold leave at h
  dsimp only at h
  split at h
  · cases h
    exact .returned rfl rfl
  · cases h
    exact .returned (follow_frames _ _) (follow_pcs_tail _ _)

theorem step_moves (h : m.step owner? reply = .ok m') : m.context.Moves m'.context := by
  obtain ⟨⟨op, origin⟩, pc, env, flow, after, hinstruction, hexecute, rfl⟩ := step_eq_ok h
  cases op with
  | call argc => exact call_moves false hinstruction hexecute
  | tailCall argc => exact call_moves true hinstruction hexecute
  | ret => exact leave_moves (Except.ok.inj hexecute)
  | _ =>
    obtain ⟨hframes, hpcs⟩ := execute_frames hexecute rfl nofun
    exact moves_within hframes hpcs _

end Steps

end Ideal

/-! ## Frames that wait, and how many there are -/

namespace Context

variable {c c' : Context} {ρ ρ' : Ticket → Ticket}

theorem entering?_rename (ρ : Ticket → Ticket) (c : Context) :
    (c.rename ρ).entering? = c.entering? := by
  have hinterpreted (v : Value) : (v.rename ρ).interpreted = v.interpreted := by
    cases v <;> rfl
  have hinstruction : (c.rename ρ).instruction? = c.instruction? := rfl
  have hvalues (argc : Nat) : (c.rename ρ).values[argc]? = (c.values[argc]?).map (Value.rename ρ) :=
    List.getElem?_map ..
  unfold entering?
  rw [hinstruction]
  simp only [hvalues, Option.bind_eq_bind, Option.bind_map, Function.comp_def, hinterpreted]

/-- Numbers of scopes have nothing to do with frames. -/
theorem Moves.of_rename (h : (c.rename ρ).Moves (c'.rename ρ')) : c.Moves c' := by
  cases h with
  | within hframes hpcs => exact .within hframes hpcs
  | returned hframes hpcs => exact .returned hframes hpcs
  | entered hcall hentering hframes hpcs =>
    exact .entered hcall ((entering?_rename ρ c).symm.trans hentering) hframes hpcs
  | replaced hframes hpcs => exact .replaced hframes hpcs

/-- The frame on top, and its counter, are there to run an instruction. -/
theorem exists_of_instruction? {i : Instruction} (h : c.instruction? = some i) :
    ∃ code frames pc pcs,
    c.frames = code :: frames ∧ c.pcs = pc :: pcs ∧ code.instructions[pc]? = some i := by
  unfold instruction? at h
  split at h
  · next code frames pc pcs hframes hpcs => exact ⟨code, frames, pc, pcs, hframes, hpcs, h⟩
  · cases h

/-- What waits below the top frame waits at a call. -/
def Waits (c : Context) : Prop :=
  List.Forall₂ Code.CallsAt c.frames.tail c.pcs.tail

theorem Moves.waits (h : c.Moves c') (hwaits : c.Waits) : c'.Waits := by
  unfold Waits at hwaits ⊢
  cases h with
  | within hframes hpcs =>
    rw [hframes, hpcs]
    exact hwaits
  | returned hframes hpcs =>
    rw [hframes, hpcs]
    generalize c.frames.tail = frames at hwaits
    generalize c.pcs.tail = pcs at hwaits
    cases hwaits with
    | nil => exact .nil
    | cons _ hbelow => exact hbelow
  | entered hcall _ hframes hpcs =>
    obtain ⟨code, frames, pc, pcs, hcode, hpc, hi⟩ := exists_of_instruction? hcall
    rw [hcode, hpc] at hwaits
    rw [hframes, hpcs, List.tail_cons, List.tail_cons, hcode, hpc]
    exact .cons ⟨_, _, hi⟩ hwaits
  | replaced hframes hpcs =>
    rw [hframes, hpcs]
    exact hwaits

/-- A second frame is a function's, and that makes no call that would need a third. -/
theorem Moves.depth_le {source : String} {root : Node} {unit : Nat}
    (hroot : Node.ofProgram source = .ok root) (h : c.Moves c') (hends : c.EndsInCalls root)
    (hcalled : ∀ code ∈ c.frames.dropLast, code.FunctionIn root unit)
    (hdepth : c.frames.length ≤ 2) : c'.frames.length ≤ 2 := by
  cases h with
  | within hframes _ => rwa [hframes]
  | returned hframes _ =>
    rw [hframes, List.length_tail]
    omega
  | @entered argc place body hcall hentering hframes _ =>
    obtain ⟨code, frames, pc, pcs, hcode, -, hi⟩ := exists_of_instruction? hcall
    rw [hcode] at hdepth hcalled
    rw [hframes, hcode]
    cases frames with
    | nil => exact Nat.le_refl 2
    | cons below frames =>
      have hbody : code.FunctionIn root unit := hcalled code (List.mem_cons_self ..)
      obtain ⟨function, hfunction⟩ := hbody.form
      have htail : root.TailCallAt function place :=
        hends code (by rw [hcode]; rfl) function hfunction place hentering
      cases (hbody.tailCallAt_iff hroot hfunction (List.mem_of_getElem? hi) rfl).mp htail
  | replaced hframes _ =>
    rw [hframes, List.length_cons, List.length_tail]
    omega

end Context

namespace Machine

variable {m m' : Machine} {host : Host σ} {w w' : σ}

theorem step_moves (h : m.Sound) (hhost : host.HonestIn w)
    (hstep : Exec.step host ⟨m, w⟩ = .ok () ⟨m', w'⟩) :
    m.context.Moves m'.context := by
  obtain ⟨r, ⟨swept, hx, ρ, scopes, hm, rfl⟩, hsound⟩ := h
  have himage := step_image hx hm hsound fun v hv => hhost.reply hv
  split at himage
  · next r' hr' =>
    obtain ⟨m₁, hrun, ⟨-, ρ', scopes', -, rfl⟩, -⟩ := himage
    cases hrun.symm.trans hstep
    exact .of_rename (Ideal.step_moves hr')
  · cases himage.1.symm.trans hstep

/-- What every step that succeeds keeps, as long as something else holds of the machines that run,
is kept for good: a step that fails leaves the machine as it was. -/
theorem after_keeps {I E : Machine → Prop} (hhonest : ∀ w, host.HonestIn w)
    (hsound : ∀ m, I m → m.Sound) (hstep : ∀ m m' w w', I m → E m →
      Exec.step host ⟨m, w⟩ = .ok () ⟨m', w'⟩ → I m') (h : I m) (w : σ)
    (hE : ∀ n, E (Exec.after host n ⟨m, w⟩).machine) (n : Nat) :
    I (Exec.after host n ⟨m, w⟩).machine := by
  induction n generalizing m w with
  | zero => exact h
  | succ n ih =>
    rcases step_sound (hsound m h) (hhonest w) with ⟨m', hok, -⟩ | ⟨e, herror, -⟩
    · have hafter (k : Nat) :
        Exec.after host (k + 1) ⟨m, w⟩ = Exec.after host k ⟨m', (host.reply m.context w).2⟩ := by
        rw [Exec.after, hok]
      rw [hafter]
      exact ih (hstep m m' w _ h (hE 0) hok) _ fun k => hafter k ▸ hE (k + 1)
    · have hafter (k : Nat) :
        Exec.after host (k + 1) ⟨m, w⟩ = Exec.after host k ⟨m, (host.reply m.context w).2⟩ := by
        rw [Exec.after, herror]
      rw [hafter]
      exact ih h _ fun k => hafter k ▸ hE (k + 1)

/-- In a program that runs every frame below the top one waits at an ordinary call. If no body of a
function ever calls an interpreted function but where it ends in the call, there are never more than
two frames. -/
theorem tail_calls_bound_frames {source : String} {root : Node} {unit : Nat} {code : Code}
    (hroot : Node.ofProgram source = .ok root) (hcode : Code.ofProgram unit root = .ok code)
    (hhonest : ∀ w, host.HonestIn w) (w : σ) :
    (∀ n, (code.stacksAfter host w n).Waits) ∧
    ((∀ n, (code.stacksAfter host w n).EndsInCalls root) →
      ∀ n, (code.stacksAfter host w n).depth ≤ 2) := by
  let known : Option String → List String → Code → Prop := fun _ _ body => body.FunctionIn root unit
  have hstart : (start code).Tracks known "" none :=
    tracks_start (Code.sound_ofProgram hcode) (Code.makes_functions hroot hcode)
  constructor
  · have hkeeps := after_keeps (I := fun m => m.Tracks known "" none ∧ m.context.Waits)
      (E := fun _ => True) hhonest
      (fun m hm => hm.1.sound) (fun m m' w w' hm _ hstep => ?_) ⟨hstart, .nil⟩ w fun _ => trivial
    · exact fun n => (hkeeps n).2
    · exact ⟨hm.1.step (hhonest w) hstep, (step_moves hm.1.sound (hhonest w) hstep).waits hm.2⟩
  · intro hends
    have hkeeps := after_keeps (I := fun m => m.Tracks known "" none ∧ m.context.depth ≤ 2)
      (E := fun m => m.context.EndsInCalls root) hhonest (fun m hm => hm.1.sound)
        (fun m m' w w' hm hm' hstep => ?_)
      ⟨hstart, Nat.le_succ 1⟩ w hends
    · exact fun n => (hkeeps n).2
    · have hcalled : ∀ code ∈ m.context.frames.dropLast, code.FunctionIn root unit :=
        fun code hcode => by
        obtain ⟨_, _, hfunction⟩ := (hm.1.called code hcode).operand
        exact hfunction
      exact ⟨hm.1.step (hhonest w) hstep,
        (step_moves hm.1.sound (hhonest w) hstep).depth_le hroot hm' hcalled hm.2⟩

end Machine

/-! ## Functions that end in each other -/

namespace Exec

variable {host : Host σ} {s : Running σ}

theorem after_add (host : Host σ) (k n : Nat) (s : Running σ) :
    after host (k + n) s = after host n (after host k s) := by
  induction k generalizing s with
  | zero => rw [Nat.zero_add, after]
  | succ k ih =>
    rw [Nat.succ_add, after, after]
    split <;> exact ih _

/-- A program that is done stays where it is. -/
theorem after_of_done (h : s.machine.context.done = true) (n : Nat) : after host n s = s := by
  have hstep : step host s = .error (.runtime .alreadyFinished none) s := by
    unfold step
    rw [context_bind, h]
    rfl
  induction n with
  | zero => rfl
  | succ n ih =>
    rw [after, hstep]
    exact ih

end Exec

instance (root : Node) (c : Context) : Decidable (c.EndsInCalls root) :=
  inferInstanceAs (Decidable (∀ code ∈ c.frames.head?, ∀ function ∈
    code.id.form, ∀ place ∈ c.entering?,
    root.TailCallAt function place))

namespace Machine

/-- A host that computes and prints. -/
def speaking : Host World :=
  .direct [.builtins, .console]

/-- A closure and a named function that print their names and then end in a call of each other, in a
block and in a branch. -/
def handingOver : String :=
  "(define f (lambda (x) (if x (begin (print \"f\") (g false)) \"done\")))
   (defn g (x) (do (print \"g\") (f x)))
   (f true)"

/-- It calls three functions, two of them from the body of another one, and never has more than two
frames. -/
theorem tail_calls_bound_frames_handingOver : ∃ root code,
    Node.ofProgram handingOver = .ok root ∧ Code.ofProgram 0 root = .ok code ∧
    (∀ n, (code.stacksAfter speaking {} n).EndsInCalls root) ∧
    ((List.range 33).filter fun n => (code.stacksAfter speaking {} n).entering?.isSome) =
    [11, 20, 27] ∧
    (∀ n, (code.stacksAfter speaking {} n).Waits) ∧
    ∀ n, (code.stacksAfter speaking {} n).depth ≤ 2 := by
  have hrun : yields (fun root => yields (fun code =>
        ((List.range 33).all fun n => decide ((code.stacksAfter speaking {} n).EndsInCalls root)) &&
        decide (((List.range 33).filter fun n =>
          (code.stacksAfter speaking {} n).entering?.isSome) = [11, 20, 27]) &&
        decide ((code.stacksAfter speaking {} 33).EndsInCalls root) &&
          (code.stacksAfter speaking {} 33).done)
      (Code.ofProgram 0 root)) (Node.ofProgram handingOver) = true := by decide +kernel
  obtain ⟨root, hroot, hrun⟩ := yields_iff.mp hrun
  obtain ⟨code, hcode, hrun⟩ := yields_iff.mp hrun
  simp only [Bool.and_eq_true, List.all_eq_true, List.mem_range, decide_eq_true_eq] at hrun
  obtain ⟨⟨⟨hbefore, hcalls⟩, hlast⟩, hdone⟩ := hrun
  have hends (n : Nat) : (code.stacksAfter speaking {} n).EndsInCalls root := by
    by_cases hn : n < 33
    · exact hbefore n hn
    · -- nothing happens once it is done
      obtain ⟨k, rfl⟩ := Nat.exists_eq_add_of_le (Nat.le_of_not_lt hn)
      unfold Code.stacksAfter
      rw [Exec.after_add, Exec.after_of_done hdone]
      exact hlast
  have hparametric : ∀ c ∈ [Capability.builtins, Capability.console], c.Parametric :=
    List.forall_mem_cons.mpr ⟨Capability.builtins_parametric,
      List.forall_mem_singleton.mpr Capability.console_parametric⟩
  obtain ⟨hwaits, hdepth⟩ :=
    tail_calls_bound_frames hroot hcode (Host.direct_honestIn_of_parametric hparametric)
    ({} : World)
  exact ⟨root, code, hroot, hcode, hends, hcalls, hwaits, hdepth hends⟩

end Machine

end LiveLisp
