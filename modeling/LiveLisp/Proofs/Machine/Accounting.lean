/-
  Reference counts are exact in every machine that can be reached. Five kinds of holders keep a
  scope alive: frames on it, scopes inside it, closures among the values, closures bound in scopes,
  and named functions; the count of its record is their number (`refcount_eq_holders`).

  The store's own invariant counts holders in one list and references of records in another; here
  the two are split into the five kinds.
-/
import LiveLisp.Proofs.Code.Compiled
import LiveLisp.Proofs.Machine.Sound

namespace LiveLisp

/-- The records of a store, in slot order. -/
def Store.records (s : Store) : List Record :=
  s.slots.toList.filterMap (·.record)

namespace Machine

/-- How many hold a scope: frames on it, scopes directly inside it, closures among the values and in
bindings, each as often as it stands there, and named functions. -/
def holders (m : Machine) (t : Ticket) : Nat :=
  m.context.environments.countP (fun env => env.scope = some t)
    + m.memory.store.records.countP (fun r => r.parent = some t)
    + (m.context.values.flatMap Value.scopes).count t
    + (m.memory.store.records.flatMap fun r => r.bindings.values.flatMap Value.scopes).count t
    + m.memory.functions.entries.values.countP (fun function =>
      function.env.bind (·.scope) = some t)

/-- Every ticket that stands anywhere in a machine. -/
def mentions (m : Machine) : List Ticket :=
  m.context.environments.filterMap (·.scope)
    ++ m.context.values.flatMap Value.scopes
    ++ m.memory.store.records.filterMap (·.parent)
    ++ (m.memory.store.records.flatMap fun r => r.bindings.values.flatMap Value.scopes)
    ++ m.memory.functions.entries.values.filterMap fun function => function.env.bind (·.scope)

end Machine

/-! ## The five kinds of holders -/

theorem Store.weigh_eq_sum (w : Record → Nat) (s : Store) : s.weigh w = sumBy w s.records := by
  unfold Store.weigh Store.records
  induction s.slots.toList with
  | nil => rfl
  | cons slot slots ih =>
    rw [sumBy, ih, List.filterMap_cons]
    cases slot.record with
    | none => exact Nat.zero_add _
    | some r => rfl

theorem Store.incoming_eq (s : Store) (t : Ticket) :
    s.incoming t = s.records.countP (fun r => r.parent = some t)
      + (s.records.flatMap fun r => r.bindings.values.flatMap Value.scopes).count t := by
  unfold Store.incoming
  rw [Store.weigh_eq_sum]
  induction s.records with
  | nil => rfl
  | cons r records ih =>
    have hparent : r.parent.toList.count t = if r.parent = some t then 1 else 0 := by
      cases r.parent with
      | none => rfl
      | some p => simp [List.count_singleton]
    rw [sumBy, ih, List.countP_cons, List.flatMap_cons, List.count_append, Record.references_eq,
      List.count_append, hparent]
    simp only [NameMap.scopes, decide_eq_true_eq]
    omega

theorem Machine.count_roots (m : Machine) (t : Ticket) :
    m.roots.count t = m.context.environments.countP (fun env => env.scope = some t)
      + (m.context.values.flatMap Value.scopes).count t
      + m.memory.functions.entries.values.countP (fun function =>
        function.env.bind (·.scope) = some t) := by
  unfold Machine.roots FunctionTable.scopes
  rw [List.count_append, Context.count_scopes, ← List.filterMap_eq_flatMap_toList,
    List.count_filterMap, List.count_filterMap]
  simp only [beq_eq_decide]

theorem Store.record?_of_mem_records {s : Store} {r : Record}
    (h : r ∈ s.records) : ∃ t, s.record? t = some r := by
  obtain ⟨slot, hslot, hr⟩ := List.mem_filterMap.mp h
  obtain ⟨i, hi, rfl⟩ := List.mem_iff_getElem.mp hslot
  refine ⟨⟨i, s.slots.toList[i].generation⟩, ?_⟩
  rw [Store.record?_eq_some_iff, ← Array.getElem?_toList, List.getElem?_eq_getElem hi, ← hr]

namespace Store.Exact

variable {m : Machine} (h : m.memory.store.Exact m.roots)

include h

theorem mentions_live {t : Ticket} (ht : t ∈ m.mentions) : m.memory.store.contains t := by
  have hroots : 0 < m.roots.count t → m.memory.store.contains t := fun hpos =>
    h.held_live t (List.count_pos_iff.mp hpos)
  have hrecords : ∀ r ∈ m.memory.store.records, t ∈ r.references → m.memory.store.contains t := by
    intro r hr hmem
    obtain ⟨u, hu⟩ := Store.record?_of_mem_records hr
    exact h.refs_live u r hu t hmem
  rw [m.count_roots t] at hroots
  simp only [Machine.mentions, List.mem_append] at ht
  rcases ht with (((ht | ht) | ht) | ht) | ht
  · obtain ⟨env, henv, hscope⟩ := List.mem_filterMap.mp ht
    have hpos : 0 < m.context.environments.countP (fun env => env.scope = some t) :=
      List.countP_pos_iff.mpr ⟨env, henv, by simpa using hscope⟩
    exact hroots (by omega)
  · have hpos := List.count_pos_iff.mpr ht
    exact hroots (by omega)
  · obtain ⟨r, hr, hparent⟩ := List.mem_filterMap.mp ht
    exact hrecords r hr (r.references_eq ▸ List.mem_append_left _ (by simp [hparent]))
  · obtain ⟨r, hr, hmem⟩ := List.mem_flatMap.mp ht
    exact hrecords r hr (r.references_eq ▸ List.mem_append_right _ hmem)
  · obtain ⟨function, hf, hscope⟩ := List.mem_filterMap.mp ht
    have hpos : 0 < m.memory.functions.entries.values.countP
      (fun function => function.env.bind (·.scope) = some t) :=
      List.countP_pos_iff.mpr ⟨function, hf, by simpa using hscope⟩
    exact hroots (by omega)

theorem refcount?_eq {t : Ticket} (ht : m.memory.store.contains t) :
    m.memory.store.refcount? t = some (m.holders t) := by
  obtain ⟨r, hr⟩ := Store.contains_iff.mp ht
  have hcount := h.counted t r hr
  rw [m.count_roots, Store.incoming_eq] at hcount
  unfold Store.refcount? Machine.holders
  rw [hr, Option.map_some, hcount, Option.some.injEq]
  omega

end Store.Exact

/-! ## Reached machines -/

/-- The output of the compiler: the code of a program or of a function's body. -/
inductive Code.Compiled : Code → Prop where
  | program {unit : Nat} {root : Node} {code : Code}
    (h : Code.ofProgram unit root = .ok code) : Compiled code
  | definition {unit : Nat} {d : Definition} {code : Code}
      (h : Code.ofDefinition unit d = .ok code) : Compiled code

theorem Code.Compiled.sound {code : Code} (h : code.Compiled) : code.Sound := by
  cases h with
  | program h => exact Code.sound_ofProgram h
  | definition h => exact Code.sound_ofDefinition h

/-- The machines that can be reached from compiled code: by steps, with any hosts that answer from
the arguments of a call, also by steps that fail at runtime, by collections and teardowns at any
time, by patches and by copying. -/
inductive Machine.Reached : Machine → Prop where
  | start {code : Code} (hcode : code.Compiled) : Reached (.start code)
  | step {σ : Type} {host : Host σ} {w w' : σ} {m m' : Machine} (h : Reached m)
      (hhost : host.HonestIn w)
      (hrun : Exec.step host ⟨m, w⟩ = .ok () ⟨m', w'⟩) : Reached m'
  | fail {σ : Type} {host : Host σ} {w w' : σ} {m m' : Machine} {problem : RuntimeProblem}
      {span : Option Span}
      (h : Reached m) (hhost : host.HonestIn w)
      (hrun : Exec.step host ⟨m, w⟩ = .error (.runtime problem span) ⟨m', w'⟩) : Reached m'
  | collect {m m' : Machine} {n : Nat} (h : Reached m) (hrun : collectGarbage m = .ok n m') :
      Reached m'
  | finish {m m' : Machine} {n : Nat} (h : Reached m) (hrun : finish m = .ok n m') : Reached m'
  | patch {m : Machine} {name : String} {revision : Revision} (h : Reached m)
      (hcode : revision.code.Compiled) :
    Reached (m.patch name revision)
  | copy {m : Machine} (h : Reached m) : Reached m.copy

namespace Machine

theorem Reached.sound {m : Machine} (h : m.Reached) : m.Sound := by
  induction h with
  | start hcode => exact start_sound hcode.sound
  | step h hhost hrun ih =>
    rcases step_sound ih hhost with ⟨m', hok, hsound⟩ | ⟨e, herror, -⟩
    · rw [hok] at hrun
      cases hrun
      exact hsound
    · rw [herror] at hrun
      cases hrun
  | fail h hhost hrun ih =>
    rcases step_sound ih hhost with ⟨m', hok, -⟩ | ⟨e, herror, -⟩
    · rw [hok] at hrun
      cases hrun
    · rw [herror] at hrun
      cases hrun
      exact ih
  | collect h hrun ih =>
    obtain ⟨n, m', hok, hsound, -⟩ := collectGarbage_sound ih
    rw [hok] at hrun
    cases hrun
    exact hsound
  | finish h hrun ih =>
    obtain ⟨n, m', hok, hsound, -⟩ := finish_sound ih
    rw [hok] at hrun
    cases hrun
    exact hsound
  | patch h hcode ih => exact patch_sound ih _ hcode.sound
  | copy h ih => exact (copy_eq ih).symm ▸ ih

/-- In every reached machine all tickets are good, and the count of every record is the number of
its holders. -/
theorem refcount_eq_holders {m : Machine} (h : m.Reached) :
    (∀ t ∈ m.mentions, m.memory.store.contains t) ∧
    ∀ t, m.memory.store.contains t → m.memory.store.refcount? t = some (m.holders t) := by
  obtain ⟨r, hfollows, -⟩ := h.sound
  exact ⟨fun t ht => hfollows.exact.mentions_live ht, fun t ht => hfollows.exact.refcount?_eq ht⟩

/-- `(define f (lambda () f))`: a function bound in the very scope that it was built in. -/
def selfBound : Node :=
  let here : Span := ⟨0, 0, 1, 1⟩
  .list [.identifier "define" here, .identifier "f" here,
    .list [.identifier "lambda" here, .list [] here, .identifier "f" here] here] here

/-- Once it is bound, its scope is held by the frame, by the value on the stack and by the binding.
-/
theorem refcount_of_selfBound : ∃ m : Machine, m.Reached ∧ m.holders ⟨0, 0⟩ = 3 ∧
    (∀ t ∈ m.mentions, m.memory.store.contains t) ∧
    ∀ t, m.memory.store.contains t → m.memory.store.refcount? t = some (m.holders t) := by
  have hhost : (Host.direct ([] : List (Capability Unit))).HonestIn () := by
    intro owner method args v h
    cases h
  have h₀ : (Machine.start _).Reached := .start (@Code.Compiled.program 0 selfBound _ rfl)
  have h₁ := h₀.step hhost rfl
  have h₂ := h₁.step hhost rfl
  have h₃ := h₂.step hhost rfl
  have h₄ := h₃.step hhost rfl
  exact ⟨_, h₄, rfl, refcount_eq_holders h₄⟩

end Machine

end LiveLisp
