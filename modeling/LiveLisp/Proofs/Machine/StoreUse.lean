/-
  What a machine does to its store: it calls the store's operations, and nothing else. So all that
  holds of a store in anyone's hands holds of the store of every machine that can be reached
  (`Machine.Reached.arena`), with no word about what the instructions do.

  `UsesStore` follows a computation from one state, since some of them put back a state that they
  have read before.
-/
import LiveLisp.Proofs.Machine.Accounting
import LiveLisp.Proofs.Machine.Atomic
import LiveLisp.Proofs.Scope.Arena

namespace LiveLisp

namespace Store

/-- Calls make the one store out of the other. -/
def Becomes (s s' : Store) : Prop :=
  ∃ calls, s.after calls = s'

theorem Becomes.refl (s : Store) : s.Becomes s := ⟨[], rfl⟩

theorem Becomes.trans {s s' s'' : Store} (h : s.Becomes s')
    (h' : s'.Becomes s'') : s.Becomes s'' := by
  obtain ⟨calls, rfl⟩ := h
  obtain ⟨more, rfl⟩ := h'
  exact ⟨calls ++ more, List.foldl_append⟩

theorem Becomes.arena {s s' : Store} (h : s.Becomes s') (hs : s.Arena) : s'.Arena := by
  obtain ⟨calls, rfl⟩ := h
  exact (hs.after calls).arena

end Store

variable {σ τ α β : Type} {store : τ → Store}

/-- From this state the store goes on by calls alone. -/
def UsesStore (store : τ → Store) (x : EStateM Error τ α) (s : τ) : Prop :=
  (store s).Becomes (store (stateOf (x s)))

namespace UsesStore

variable {x : EStateM Error τ α} {s : τ}

theorem bind {f : α → EStateM Error τ β} (hx : UsesStore store x s)
    (hf : ∀ a s', x s = .ok a s' → UsesStore store (f a) s') : UsesStore store (x >>= f) s := by
  unfold UsesStore at hx ⊢
  cases hrun : x s with
  | error e s₁ =>
    rw [hrun] at hx
    rw [bind_of_error hrun]
    exact hx
  | ok a s₁ =>
    rw [hrun] at hx
    rw [bind_of_ok hrun]
    exact hx.trans (hf a s₁ hrun)

/-- Where it does not matter what has come out so far. -/
theorem seq {f : α → EStateM Error τ β} (hx : ∀ s, UsesStore store x s)
    (hf : ∀ a s, UsesStore store (f a) s) (s : τ) : UsesStore store (x >>= f) s :=
  (hx s).bind fun a s' _ => hf a s'

theorem pure (a : α) (s : τ) : UsesStore store (pure a) s := .refl _

theorem throw_bind (e : Error) {f : β → EStateM Error τ α} (s : τ) :
    UsesStore store (throw e >>= f) s := .refl _

theorem throw (e : Error) (s : τ) : UsesStore store (throw e : EStateM Error τ α) s := .refl _

theorem get_bind {f : τ → EStateM Error τ α} (h : UsesStore store (f s) s) :
    UsesStore store (get >>= f) s := h

theorem set_bind {f : PUnit → EStateM Error τ α} {s' : τ} (heq : store s' = store s)
    (h : UsesStore store (f ⟨⟩) s') : UsesStore store (set s' >>= f) s := by
  unfold UsesStore at h ⊢
  rw [heq] at h
  exact h

theorem forM {f : α → EStateM Error τ PUnit} (h : ∀ a s, UsesStore store (f a) s)
    (items : List α) (s : τ) :
    UsesStore store (items.forM f) s := by
  induction items generalizing s with
  | nil => exact pure _ s
  | cons a rest ih => exact seq (h a) (fun _ => ih) s

end UsesStore

/-! ## Stores -/

namespace Store

/-- A store operation, as far as the store goes. -/
abbrev Uses (x : StoreM α) : Prop :=
  ∀ s, UsesStore id x s

theorem uses_call (call : Call) : Uses call.run := fun _ => ⟨[call], rfl⟩

theorem uses_of_discard {x : StoreM α} (h : Uses (do let _ ← x : StoreM Unit)) : Uses x := by
  intro s
  have hdone := h s
  unfold UsesStore at hdone ⊢
  cases hrun : x s with
  | ok a s' =>
    rw [bind_of_ok hrun] at hdone
    exact hdone
  | error e s' =>
    rw [bind_of_error hrun] at hdone
    exact hdone

theorem uses_newScope : Uses newScope := uses_of_discard (uses_call .newScope)

theorem uses_newScopeIn (parent : Ticket) (bindings : List (String × Value)) :
    Uses (newScopeIn parent bindings) :=
  uses_of_discard (uses_call (.newScopeIn parent bindings))

theorem uses_define (t : Ticket) (name : String) (v : Value) : Uses (define t name v) :=
    uses_call (.define t name v)

theorem uses_lookup (t : Ticket) (name : String) : Uses (lookup t name) :=
    uses_of_discard (uses_call (.lookup t name))

theorem uses_assign (t : Ticket) (name : String) (v : Value) : Uses (assign t name v) :=
  uses_of_discard (uses_call (.assign t name v))

theorem uses_incref (t : Ticket) : Uses (incref t) := uses_call (.incref t)

theorem uses_decref (t : Ticket) : Uses (decref t) := uses_call (.decref t)

theorem uses_retain (v : Value) : Uses (retain v) := uses_call (.retain v)

theorem uses_release (v : Value) : Uses (release v) := uses_call (.release v)

theorem uses_collect (roots : List Ticket) : Uses (collect roots) :=
    uses_of_discard (uses_call (.collect roots))

end Store

/-! ## Memories -/

namespace Memory

theorem uses_onStore {x : StoreM α} (h : Store.Uses x) (m : Memory) :
    UsesStore Memory.store (onStore x) m := by
  have hdone := h m.store
  unfold UsesStore at hdone ⊢
  unfold onStore
  cases hrun : x m.store with
  | ok a s =>
    rw [hrun] at hdone
    simp only [hrun]
    exact hdone
  | error e s =>
    rw [hrun] at hdone
    simp only [hrun]
    exact hdone

end Memory

namespace Environment

variable (env : Environment) (owner? : String → Option Owner)

theorem uses_retain : Store.Uses env.retain := by
  unfold retain
  split
  · exact Store.uses_incref _
  · exact .pure ()

theorem uses_release : Store.Uses env.release := by
  unfold release
  split
  · exact Store.uses_decref _
  · exact .pure ()

theorem uses_define (name : String) (v : Value) : Store.Uses (env.define name v) := by
  unfold define
  split
  · exact Store.uses_define _ name v
  · exact .throw _

theorem uses_extend (bindings : List (String × Value)) : Store.Uses (env.extend bindings) := by
  unfold extend
  split
  · exact .seq (Store.uses_newScopeIn _ bindings) fun _ => .pure _
  · exact .seq Store.uses_newScope fun t =>
      .seq (.forM (fun pair => Store.uses_define t pair.1 pair.2) bindings) fun _ => .pure _

theorem uses_resolve (name : String) (m : Memory) :
    UsesStore Memory.store (env.resolve owner? name) m := by
  have houtside : ∀ m, UsesStore Memory.store (resolveOutside owner? name) m := by
    intro m
    unfold resolveOutside
    split
    · exact .pure _ m
    · refine .get_bind ?_
      split
      · exact .pure _ m
      · exact .pure _ m
  rw [resolve_eq]
  refine .seq (fun m => ?_) (fun found => ?_) m
  · unfold lookupInScopes
    split
    · exact Memory.uses_onStore (Store.uses_lookup _ name) m
    · exact .pure _ m
  · cases found with
    | some v => exact .pure _
    | none => exact houtside

theorem uses_lookup (name : String) : ∀ m, UsesStore Memory.store (env.lookup owner? name) m := by
  refine .seq (env.uses_resolve owner? name) fun found => ?_
  cases found with
  | some v => exact .pure v
  | none => exact .throw _

theorem uses_assign (name : String) (v : Value) (m : Memory) :
    UsesStore Memory.store (env.assign owner? name v) m := by
  rw [assign_eq]
  refine .seq (fun m => ?_) (fun assigned m => ?_) m
  · unfold assignInScopes
    split
    · exact Memory.uses_onStore (Store.uses_assign _ name v) m
    · exact .pure _ m
  · split
    · exact .pure _ m
    · refine .get_bind (s := m) ?_
      split
      · exact .throw _ m
      · exact .throw _ m

end Environment

namespace Memory

theorem uses_register (name : String) (params : List String) (code : Code)
    (env : Environment) (m : Memory) :
    UsesStore Memory.store (register name params code env) m := by
  refine .seq (uses_onStore env.uses_retain) (fun _ m => ?_) m
  refine .get_bind (.set_bind rfl ?_)
  split
  · next old _ => exact uses_onStore old.uses_release _
  · exact .pure () _

theorem uses_retireOne (name : String) (m : Memory) :
    UsesStore Memory.store (retireOne name) m := by
  refine .get_bind ?_
  split
  · exact .pure () m
  · split
    · exact .pure () m
    · next env _ => exact .set_bind rfl (uses_onStore env.uses_release _)

theorem uses_retire (m : Memory) : UsesStore Memory.store retire m :=
  .get_bind (.forM uses_retireOne _ m)

end Memory

/-! ## Machines -/

namespace Machine

/-- The store of a machine. -/
abbrev itsStore (m : Machine) : Store := m.memory.store

theorem uses_onMemory {x : MemoryM α} (h : ∀ m, UsesStore Memory.store x m) (m : Machine) :
    UsesStore itsStore (onMemory x) m := by
  have hdone := h m.memory
  unfold UsesStore at hdone ⊢
  unfold onMemory
  cases hrun : x m.memory with
  | ok a memory =>
    rw [hrun] at hdone
    simp only [hrun]
    exact hdone
  | error e memory =>
    rw [hrun] at hdone
    simp only [hrun]
    exact hdone

theorem uses_collectGarbage (m : Machine) : UsesStore itsStore collectGarbage m :=
  .get_bind (uses_onMemory (Memory.uses_onStore (Store.uses_collect m.roots)) m)

theorem uses_finish (m : Machine) : UsesStore itsStore finish m :=
  .seq (uses_onMemory Memory.uses_retire) (fun _ => uses_collectGarbage) m

end Machine

namespace Exec

/-- The store of a running machine. -/
abbrev itsStore (r : Running σ) : Store := r.machine.memory.store

variable {host : Host σ} {origin : Span}

/-- A part of a step, as far as the store goes. -/
abbrev Uses (x : Exec σ α) : Prop :=
  ∀ r, UsesStore itsStore x r

theorem uses_onMemory {x : MemoryM α} (h : ∀ m, UsesStore Memory.store x m) :
    Uses (onMemory x : Exec σ α) := by
  intro r
  have hdone := Machine.uses_onMemory h r.machine
  unfold UsesStore at hdone ⊢
  unfold onMemory onMachine
  cases hrun : Machine.onMemory x r.machine with
  | ok a m =>
    rw [hrun] at hdone
    simp only [hrun]
    exact hdone
  | error e m =>
    rw [hrun] at hdone
    simp only [hrun]
    exact hdone

theorem uses_onStore {x : StoreM α} (h : Store.Uses x) : Uses (onStore x : Exec σ α) :=
  uses_onMemory (Memory.uses_onStore h)

theorem uses_locatedAt {x : Exec σ α} (h : Uses x) : Uses (locatedAt origin x) := by
  intro r
  have hdone := h r
  unfold UsesStore at hdone ⊢
  cases hrun : x r with
  | ok a r₁ =>
    rw [hrun] at hdone
    rwa [locatedAt_of_ok origin hrun]
  | error e r₁ =>
    rw [hrun] at hdone
    rwa [locatedAt_of_error origin hrun]

theorem uses_modifyContext (f : Context → Context) :
    Uses (modifyContext f : Exec σ Unit) := fun _ => .refl _

theorem uses_setValues (values : List Value) : Uses (setValues values : Exec σ Unit) :=
    uses_modifyContext _

theorem uses_pushValue (v : Value) : Uses (pushValue v : Exec σ Unit) := uses_modifyContext _

theorem uses_context : Uses (context : Exec σ Context) := fun _ => .refl _

theorem uses_nextClosure : Uses (nextClosure : Exec σ ClosureId) := fun _ => .refl _

theorem uses_popValue : Uses (popValue origin : Exec σ Value) := by
  refine .seq uses_context fun c => ?_
  split
  · exact .throw _
  · exact .seq (uses_setValues _) fun _ => .pure _

theorem uses_topValue : Uses (topValue origin : Exec σ Value) := by
  refine .seq uses_context fun c => ?_
  split
  · exact .throw _
  · exact .pure _

theorem uses_jumpTarget (pc : Nat) (offset : Int) : Uses (jumpTarget pc offset : Exec σ Nat) := by
  unfold jumpTarget
  split
  · exact .pure _
  · exact .throw _

/-- A value is put on the stack, and the program goes on. -/
theorem uses_push (v : Value) : Uses (do pushValue v; return Flow.advance : Exec σ Flow) :=
  .seq (uses_pushValue v) fun _ => .pure _

theorem uses_retain_push (v : Value) :
    Uses (do onStore (Store.retain v); pushValue v; return Flow.advance : Exec σ Flow) :=
  .seq (uses_onStore (Store.uses_retain v)) fun _ => uses_push v

theorem uses_releaseAll (values : List Value) :
    Uses (values.forM fun v => (onStore (Store.release v) : Exec σ Unit)) :=
  .forM (fun v => uses_onStore (Store.uses_release v)) values

theorem uses_buildFunction (env : Environment) (name : Option String) :
    Uses (buildFunction env name origin : Exec σ Flow) := by
  have hlast : ∀ function : Value, Uses (do
      locatedAt origin (onStore (Store.retain function)); pushValue function; return Flow.advance :
        Exec σ Flow) :=
    fun function => .seq (uses_locatedAt (uses_onStore (Store.uses_retain function))) fun _ =>
      uses_push function
  refine .seq uses_context fun c => ?_
  split
  · refine .seq (uses_setValues _) fun _ => ?_
    cases name with
    | some name =>
      exact .seq (uses_onMemory (Memory.uses_register name _ _ env)) fun _ => .seq (.pure _) hlast
    | none => exact .seq uses_nextClosure fun _ => .seq (.pure _) hlast
  · exact .throw _

theorem uses_callHost (owner : Owner) (method : String) (callee : Value) (args rest : List Value) :
    Uses (callHost host owner method callee args rest origin) := by
  intro r
  -- the call changes the world of the host, and the store only when its answer is put on the stack
  refine .get_bind (.set_bind rfl ?_)
  cases (host.invoke owner method args r.world).1 with
  | error problem => exact .throw _ _
  | ok v =>
    exact .seq (uses_onStore (Store.uses_retain v)) (fun _ => .seq (uses_setValues rest) fun _ =>
      .seq (uses_releaseAll (callee :: args)) fun _ => uses_push v) _

theorem uses_dropFrame : Uses (dropFrame : Exec σ Unit) := by
  refine .seq uses_context fun c => ?_
  cases c.environments with
  | nil => exact uses_modifyContext _
  | cons finished rest =>
    exact .seq (uses_modifyContext _) fun _ => .seq (uses_onStore finished.uses_release) fun _ =>
      uses_modifyContext _

theorem uses_enter (tail : Bool) (params : List String) (code : Code)
    (env : Environment) (callee : Value) (args rest : List Value) :
    Uses (enter tail params code env callee args rest : Exec σ Flow) := by
  refine .seq (uses_setValues _) fun _ => .seq (uses_onStore (env.uses_extend _)) fun inner =>
    .seq (uses_releaseAll _) fun _ => .seq (uses_setValues _) fun _ => ?_
  cases tail with
  | true => exact .seq uses_dropFrame fun _ => .seq (uses_modifyContext _) fun _ => .pure _
  | false => exact .seq (uses_modifyContext _) fun _ => .pure _

theorem uses_call (tail : Bool) (argc : Nat) : Uses (call host tail argc origin) := by
  refine .seq uses_context fun c => ?_
  dsimp only
  split
  · exact .throw _
  · next callee rest _ =>
    have henter : ∀ (name : Option String) (params : List String) (code : Code) (env : Environment),
        Uses (if params.length ≠ argc
          then throw (.runtime (.arity name params.length argc) (some origin))
          else enter tail params code env callee (c.values.take argc).reverse rest :
            Exec σ Flow) := by
      intro name params code env
      split
      · exact .throw _
      · exact uses_enter tail params code env callee _ rest
    split
    · exact uses_callHost _ _ _ _ rest
    · exact henter none _ _ _
    · intro r
      refine .get_bind ?_
      split
      · exact .throw _ r
      · split
        · exact .throw _ r
        · exact henter _ _ _ _ r
    · exact .throw _

theorem uses_leave : Uses (leave : Exec σ Flow) := by
  have hlast : Uses (do
      if (← context).frames.isEmpty then
        modifyContext fun c => { c with done := true }
        return Flow.stay
      else return Flow.advance : Exec σ Flow) := by
    refine .seq uses_context fun c => ?_
    split
    · exact .seq (uses_modifyContext _) fun _ => .pure _
    · exact .pure _
  refine .seq (uses_modifyContext _) fun _ => .seq uses_context fun c => ?_
  cases c.environments with
  | nil => exact hlast
  | cons env rest =>
    exact .seq (uses_modifyContext _) fun _ => .seq (uses_onStore env.uses_release) fun _ => hlast

/-- One case for each kind of instruction. -/
theorem uses_execute (pc : Nat) (env : Environment) (op : Op) :
    Uses (execute host pc env origin op) := by
  cases op with
  | loadConstant v => exact uses_retain_push v
  | push v => exact uses_retain_push v
  | pop => exact .seq uses_popValue fun v => .seq (uses_onStore
      (Store.uses_release v)) fun _ => .pure _
  | nameLookup name =>
    exact .seq (uses_locatedAt (uses_onMemory (env.uses_lookup host.owner? name))) uses_push
  | functionLookup name =>
    refine .seq (uses_onMemory (env.uses_resolve host.owner? name)) fun found => ?_
    cases found with
    | some v => exact uses_push v
    | none => exact .throw _
  | storeNew name =>
    exact .seq uses_topValue fun v => .seq (uses_onStore (env.uses_define name v)) fun _ => .pure _
  | store name =>
    exact .seq uses_topValue fun v =>
      .seq (uses_locatedAt (uses_onMemory (env.uses_assign host.owner? name v))) fun _ =>
      .pure _
  | buildFunction name => exact uses_buildFunction env name
  | call argc => exact uses_call false argc
  | tailCall argc => exact uses_call true argc
  | jump offset => exact .seq (uses_jumpTarget pc offset) fun _ => .pure _
  | jumpIfNot offset =>
    refine .seq (uses_jumpTarget pc offset) fun target => .seq uses_popValue fun condition =>
      .seq (uses_onStore (Store.uses_release condition)) fun _ => ?_
    split
    · exact .pure _
    · exact .pure _
  | ret => exact uses_leave

theorem uses_follow (flow : Flow) : Uses (follow flow : Exec σ Unit) := by
  cases flow with
  | advance => exact uses_modifyContext fun c => { c with pcs := c.pcs.modifyHead (· + 1) }
  | jump target =>
    exact uses_modifyContext fun c => { c with pcs := c.pcs.modifyHead fun _ => target }
  | stay => exact .pure _

theorem uses_step (host : Host σ) : Uses (step host) := by
  refine .seq uses_context fun c => ?_
  dsimp only
  split
  · exact .throw_bind _
  · split
    · split
      · exact .throw _
      · split
        · exact .throw _
        · exact .seq (uses_execute _ _ _) uses_follow
    · exact .throw _

end Exec

/-! ## Reached machines -/

namespace Machine

theorem Reached.becomes {m : Machine} (h : m.Reached) : Store.empty.Becomes m.memory.store := by
  induction h with
  | start hcode => exact ⟨[.newScope], rfl⟩
  | @step σ host w w' m m' h hhost hrun ih =>
    have huses := Exec.uses_step host ⟨m, w⟩
    unfold UsesStore at huses
    rw [hrun] at huses
    exact ih.trans huses
  | @fail σ host w w' m m' problem span h hhost hrun ih =>
    have huses := Exec.uses_step host ⟨m, w⟩
    unfold UsesStore at huses
    rw [hrun] at huses
    exact ih.trans huses
  | @collect m m' n h hrun ih =>
    have huses := uses_collectGarbage m
    unfold UsesStore at huses
    rw [hrun] at huses
    exact ih.trans huses
  | @finish m m' n h hrun ih =>
    have huses := uses_finish m
    unfold UsesStore at huses
    rw [hrun] at huses
    exact ih.trans huses
  | patch h hcode ih => exact ih -- the functions get new bodies, and keep their scopes
  | copy h ih => rwa [copy_eq h.sound]

theorem Reached.arena {m : Machine} (h : m.Reached) : m.memory.store.Arena :=
  h.becomes.arena Store.arena_empty

end Machine

end LiveLisp
