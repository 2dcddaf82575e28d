/-
  A session never meets a contradiction. Whatever its host does with it, in whatever order and on
  whatever sources, no operation fails inside the interpreter, no instruction finds the stack empty,
  and the stacks of the program are as one (`no_contradiction`). There is one error of the
  interpreter that a source can bring about: a jump that 32 bits do not hold. It takes a source of
  `2 ^ 30` bytes, and there is such a one (`load_longBranch`).
-/
import LiveLisp.Proofs.Session.Travel

namespace LiveLisp

variable {σ : Type}

/-- What a host can ask of a session. -/
inductive Operation where
  | load (source : String)
  | step
  | runBudget (budget : Nat)
  | runToCompletion (limit : Nat)
  | snapshot
  | restore (k : Snapshot)
  | rewindTo (target : Nat)
  | stepBack
  | update (source : String)
  | collectGarbage

/-- What an operation gives back: the state it took, and the error it reported without failing. -/
structure Answer where
  taken : Option Snapshot := none
  reported : Option Error := none

namespace Operation

/-- The source that an operation compiles. -/
def source? : Operation → Option String
  | load source => some source
  | update source => some source
  | _ => none

/-- Errors that an operation may end with: benign ones, and a jump too far in the code of a source
that is long enough for it. -/
def Admits (op : Operation) (e : Error) : Prop :=
  e.Benign ∨ ∃ source, op.source? = some source ∧ e = .internal .jumpTooFar ∧
    2 ^ 30 ≤ source.utf8ByteSize

def run : Operation → SessionM σ Answer
  | load source => do
    Session.load source
    return {}
  | step => do
    Session.step
    return {}
  | runBudget budget => do
    let report ← Session.runBudget budget
    return { reported := report.reported }
  | runToCompletion limit => do
    let _ ← Session.runToCompletion limit
    return {}
  | snapshot => do
    let k ← Session.snapshot
    return { taken := some k }
  | restore k => do
    Session.restore k
    return {}
  | rewindTo target => do
    Session.rewindTo target
    return {}
  | stepBack => do
    Session.stepBack
    return {}
  | update source => do
    let _ ← Session.update source
    return {}
  | collectGarbage => do
    let _ ← Session.collectGarbage
    return {}

/-- Only states that this session gave out can be returned to. -/
def Allowed (taken : List Snapshot) : Operation → Prop
  | restore k => k ∈ taken
  | _ => True

end Operation

/-- The error that an operation failed with or reported, if any. -/
def errorOf : EStateM.Result Error (Session σ) Answer → Option Error
  | .ok answer _ => answer.reported
  | .error e _ => some e

/-- The sessions of a host, each with all states that it has given out. Between operations the host
may do anything to the world; an operation that fails may have changed the session. -/
inductive Session.Reached (config : Config σ) : Session σ → List Snapshot → Prop where
  | start (w : σ) : Reached config (.start config w) []
  | outside {s : Session σ} {taken : List Snapshot} (h : Reached config s taken) (w : σ) :
    Reached config { s with world := w } taken
  | ok {s s' : Session σ} {taken : List Snapshot} {op : Operation} {answer : Answer}
      (h : Reached config s taken)
      (hop : op.Allowed taken) (hrun : op.run s = .ok answer s') :
        Reached config s' (answer.taken.toList ++ taken)
  | error {s s' : Session σ} {taken : List Snapshot} {op : Operation} {e : Error}
      (h : Reached config s taken)
      (hop : op.Allowed taken) (hrun : op.run s = .error e s') : Reached config s' taken

namespace Session

variable {s : Session σ} {taken : List Snapshot}

/-- An answer that raises no suspicion: the state in it is sound, and the error it reports benign.
-/
def Fine (answer : Answer) : Prop :=
  (∀ k, answer.taken = some k → k.machine.Sound) ∧ ∀ e, answer.reported = some e → e.Benign

theorem SafeUpTo.quiet {α : Type} {E : Error → Prop} {x : SessionM σ α}
    (h : SafeUpTo E x s fun _ _ => True) :
    SafeUpTo E (x >>= fun _ => return ({} : Answer)) s fun answer _ => Fine answer :=
  h.bind fun _ _ hs' _ => .pure hs' ⟨nofun, nofun⟩

theorem run_safe (hs : s.Sound) (htaken : ∀ k ∈ taken, k.machine.Sound) {op : Operation}
    (hop : op.Allowed taken) :
    SafeUpTo op.Admits op.run s fun answer _ => Fine answer := by
  have hbenign : ∀ e : Error, e.Benign → op.Admits e := fun _ => .inl
  cases op with
  | load source =>
    exact ((load_safe source hs).mono fun e he =>
      he.imp_right fun hfar => ⟨source, rfl, hfar⟩).quiet
  | step => exact ((step_safe hs).mono hbenign).quiet
  | runBudget budget =>
    exact ((runBudget_safe budget hs).mono hbenign).bind fun report _ hs' h => .pure hs' ⟨nofun, h⟩
  | runToCompletion limit => exact ((runToCompletion_safe limit hs).mono hbenign).quiet
  | snapshot =>
    refine ((snapshot_safe hs).mono hbenign).bind fun k _ hs' hk => .pure hs' ⟨?_, nofun⟩
    rintro _ ⟨⟩
    exact hk
  | restore k =>
    exact (((restore_safe hs (htaken k hop)).weaken fun _ _ _ => trivial).mono hbenign).quiet
  | rewindTo target => exact ((rewindTo_safe target hs).mono hbenign).quiet
  | stepBack => exact ((stepBack_safe hs).mono hbenign).quiet
  | update source =>
    exact ((update_safe source hs).mono fun e he =>
      he.imp_right fun hfar => ⟨source, rfl, hfar⟩).quiet
  | collectGarbage => exact ((collectGarbage_safe hs).mono hbenign).quiet

theorem Reached.sound {config : Config σ} (honest : ∀ c ∈ config.capabilities, c.Honest)
    (h : Reached config s taken) : s.Sound ∧ ∀ k ∈ taken, k.machine.Sound := by
  induction h with
  | start w => exact ⟨start_sound config w honest, nofun⟩
  | outside h w ih => exact ⟨ih.1.setWorld w, ih.2⟩
  | ok h hop hrun ih =>
    have hsafe := run_safe ih.1 ih.2 hop
    unfold SafeUpTo at hsafe
    rw [hrun] at hsafe
    obtain ⟨hs', htaken, -⟩ := hsafe
    refine ⟨hs', fun k hk => ?_⟩
    rcases List.mem_append.mp hk with hk | hk
    · exact htaken k (Option.mem_toList.mp hk)
    · exact ih.2 k hk
  | error h hop hrun ih =>
    have hsafe := run_safe ih.1 ih.2 hop
    unfold SafeUpTo at hsafe
    rw [hrun] at hsafe
    exact ⟨hsafe.1, ih.2⟩

/-- In every session that can be reached the stacks of the program have one length, it is done
exactly when they are empty and then has left one value; and whatever the host asks next neither
fails with nor reports a contradiction inside the interpreter or an empty stack, other than that a
source of `2 ^ 30` bytes or more has a jump too far. -/
theorem no_contradiction {config : Config σ} (honest : ∀ c ∈ config.capabilities, c.Honest)
    (h : Reached config s taken) :
    (∀ c, s.context? = some c →
      c.pcs.length = c.frames.length ∧ c.environments.length = c.frames.length ∧
      (c.done = true ↔ c.frames = []) ∧ (c.done = true → c.values.length = 1)) ∧
    ∀ op : Operation, op.Allowed taken → ∀ e, errorOf (op.run s) = some e → op.Admits e := by
  obtain ⟨hs, htaken⟩ := h.sound honest
  constructor
  · intro c hc
    obtain ⟨loaded, hloaded, rfl⟩ := Option.map_eq_some_iff.mp hc
    have hm := hs.machine loaded hloaded
    have hbalanced := hm.balanced
    refine ⟨hbalanced.pcs, hbalanced.environments, hbalanced.done, fun hdone => ?_⟩
    obtain ⟨v, hv⟩ := hm.result hdone
    rw [hv, List.length_singleton]
  · intro op hop e he
    have hsafe := run_safe hs htaken hop
    unfold SafeUpTo at hsafe
    cases hrun : op.run s with
    | ok answer s' =>
      rw [hrun] at hsafe he
      exact .inl (hsafe.2.2 e he)
    | error e' s' =>
      rw [hrun] at hsafe he
      cases he
      exact hsafe.2

/-- It is so, for one, when a program has been loaded and nothing has run. -/
theorem no_contradiction_loaded : ∃ (s : Session World) (taken : List Snapshot),
    Reached playground s taken ∧ s.loaded.isSome = true ∧
    (∀ c, s.context? = some c →
      c.pcs.length = c.frames.length ∧ c.environments.length = c.frames.length ∧
      (c.done = true ↔ c.frames = []) ∧ (c.done = true → c.values.length = 1)) ∧
    ∀ op : Operation, op.Allowed taken → ∀ e, errorOf (op.run s) = some e → op.Admits e := by
  have hload : (match (Operation.load "(print now)").run (Session.start playground {}) with
      | .ok _ s => s.loaded.isSome
      | .error _ _ => false) = true := by decide +kernel
  split at hload
  · next answer s hrun =>
    have hop : (Operation.load "(print now)").Allowed [] := trivial
    have hreached : Reached playground s _ := (Reached.start {}).ok hop hrun
    exact ⟨s, _, hreached, hload, no_contradiction (fun c hc =>
      (playground_complies c hc).honest) hreached⟩
  · cases hload

/-- A source whose only form is a branch with so many names in it is refused by the interpreter. -/
theorem load_far {n : Nat} (hn : 2 ^ 30 ≤ n) (s : Session σ) :
    load (longBranch n).render s = .error (.internal .jumpTooFar) s := by
  obtain ⟨root, hroot, hfind, hcode⟩ := exists_ofProgram_longBranch hn
  have hprepare : prepare s.units (longBranch n).render = .error (.internal .jumpTooFar) := by
    rw [prepare, hroot]
    show (Definition.find root >>= _) = _
    rw [hfind]
    show (Code.ofProgram s.units root >>= _) = _
    rw [hcode]
    rfl
  rw [load_eq, hprepare]

/-- A new session fails with an error of the interpreter, which is not benign. -/
theorem load_longBranch : Reached playground (Session.start playground {}) [] ∧
    (Operation.load (longBranch (2 ^ 30)).render).Allowed [] ∧
    ∃ e, errorOf ((Operation.load (longBranch (2 ^ 30)).render).run
      (Session.start playground {})) = some e ∧ ¬ e.Benign := by
  refine ⟨.start _, trivial, .internal .jumpTooFar, ?_, id⟩
  have hrun : (Operation.load (longBranch (2 ^ 30)).render).run (Session.start playground {}) =
      .error (.internal .jumpTooFar) (Session.start playground {}) :=
    bind_of_error (load_far (Nat.le_refl _) _)
  rw [hrun]
  rfl

end Session

end LiveLisp
