/-
  What the stacks and the function table hold, and what the operations on environments and on the
  table do to the counts. Only how often a scope is held matters, so holders are counted
  (`Context.count_scopes`, `FunctionTable.count_scopes_enroll`) and an exact store is moved from one
  list of holders to another by arithmetic.
-/
import Mathlib.Data.List.Basic
import LiveLisp.Proofs.Ideal.Basic
import LiveLisp.Proofs.Scope.Operations

namespace LiveLisp

/-! ## Counting holders -/

/-- The stacks hold a scope for each environment on it and for each closure over it. -/
theorem Context.count_scopes (c : Context) (u : Ticket) :
    c.scopes.count u =
      (c.environments.flatMap (·.scope.toList)).count u +
      (c.values.flatMap Value.scopes).count u := by
  unfold Context.scopes
  rw [List.filterMap_eq_flatMap_toList, List.count_append,
    ((List.reverse_perm c.environments).flatMap_right _).count_eq,
    ((List.reverse_perm c.values).flatMap_right _).count_eq]

theorem Context.mem_scopes (c : Context) (u : Ticket) :
    u ∈ c.scopes ↔ u ∈ c.environments.flatMap (·.scope.toList) ∨
      u ∈ c.values.flatMap Value.scopes := by
  have := c.count_scopes u
  rw [← List.count_pos_iff, ← List.count_pos_iff, ← List.count_pos_iff]
  omega

/-- The scope that an entry of the function table holds. -/
def NamedFunction.scopes (function : NamedFunction) : List Ticket :=
  (function.env.bind (·.scope)).toList

namespace FunctionTable

theorem scopes_eq (table : FunctionTable) :
    table.scopes = table.entries.values.flatMap NamedFunction.scopes := by
  unfold scopes
  rw [List.filterMap_eq_flatMap_toList]
  rfl

/-- What the entry of a name holds. -/
def scopesAt (table : FunctionTable) (name : String) : List Ticket :=
  ((table.entries.get? name).map NamedFunction.scopes).getD []

theorem count_scopes_put (table : FunctionTable) (name : String)
    (function : NamedFunction) (u : Ticket) :
    ({ table with entries := table.entries.put name function } : FunctionTable).scopes.count u
      + (table.scopesAt name).count u = table.scopes.count u + function.scopes.count u := by
  rw [scopes_eq, scopes_eq]
  exact NameMap.count_flatMap_put NamedFunction.scopes u name function table.entries

/-- What `enroll` puts under the name. -/
theorem enroll_eq (table : FunctionTable) (name : String) (params : List String) (code : Code)
    (env : Environment) :
    ∃ newParams newCode, table.enroll name params code env =
      { table with entries := table.entries.put name ⟨newParams, newCode, code, some env⟩ } ∧
      ((newParams, newCode) = (params, code) ∨
        ∃ revision, table.revisions.get? name = some revision ∧
        (newParams, newCode) = (revision.params, revision.code)) := by
  unfold enroll
  cases hr : table.revisions.get? name with
  | none => exact ⟨params, code, rfl, .inl rfl⟩
  | some revision =>
    cases hc : revision.covers code with
    | false => exact ⟨params, code, by simp [hc], .inl rfl⟩
    | true => exact ⟨revision.params, revision.code, by simp [hc], .inr ⟨revision, rfl, rfl⟩⟩

theorem count_scopes_enroll (table : FunctionTable) (name : String)
    (params : List String) (code : Code) (env : Environment) (u : Ticket) :
    (table.enroll name params code env).scopes.count u + (table.scopesAt name).count u =
      table.scopes.count u + env.scope.toList.count u := by
  obtain ⟨newParams, newCode, heq, -⟩ := table.enroll_eq name params code env
  rw [heq]
  exact table.count_scopes_put name _ u

theorem mem_scopes_of_env {table : FunctionTable} {name : String}
    {function : NamedFunction} {env : Environment} {t : Ticket}
    (hf : table.entries.get? name = some function) (he : function.env = some env)
    (ht : env.scope = some t) : t ∈ table.scopes := by
  rw [scopes_eq]
  refine List.mem_flatMap.mpr ⟨function, NameMap.mem_values_of_get? hf, ?_⟩
  simp [NamedFunction.scopes, he, ht]

end FunctionTable

/-! ## Environments -/

namespace Environment

open Store (Exact)

theorem retain_exact {env : Environment} {s : Store} {held : List Ticket} (h : Exact s held)
    (hlive : ∀ t, env.scope = some t → s.contains t) :
    ∃ s', env.retain s = .ok () s' ∧ Exact s' (env.scope.toList ++ held) ∧
      ∀ u, s'.scope? u = s.scope? u := by
  unfold retain
  cases hs : env.scope with
  | none => exact ⟨s, rfl, h, fun _ => rfl⟩
  | some t => exact Store.incref_exact h (hlive t hs)

theorem release_exact {env : Environment} {s : Store} {held : List Ticket}
    (h : Exact s (env.scope.toList ++ held)) :
    ∃ s', env.release s = .ok () s' ∧ Exact s' held ∧ View.Remains s'.scope? s.scope? := by
  unfold release
  cases hs : env.scope with
  | none =>
    rw [hs] at h
    exact ⟨s, rfl, h, .refl h.closed⟩
  | some t =>
    rw [hs] at h
    exact Store.decref_exact h

/-- Bindings in a new scope around which there may be another one. -/
theorem extend_exact {env : Environment} {s : Store} {bindings : List (String × Value)}
    {held : List Ticket} (h : Exact s held) (hlive : ∀ t, env.scope = some t → s.contains t)
    (hheld : ∀ pair ∈ bindings, ∀ u ∈ pair.2.scopes, u ∈ held) :
    ∃ t s', env.extend bindings s = .ok ⟨some t⟩ s' ∧ Exact s' (t :: held) ∧ s.scope? t = none ∧
      View.Remains s'.scope? (View.add s.scope? t ⟨NameMap.putAll [] bindings, env.scope⟩) := by
  unfold extend
  cases hs : env.scope with
  | some parent =>
    obtain ⟨t, s', hok, hexact, hnew, hview⟩ := Store.newScopeIn_exact h (hlive parent hs) hheld
    exact ⟨t, s', bind_of_ok hok, hexact, hnew, hview⟩
  | none =>
    obtain ⟨t, s₁, hok, hexact, hnew, hview⟩ := Store.newScope_exact h
    obtain ⟨s', hloop, hexact', hremains⟩ :=
      Store.defineAll_exact bindings [] s₁ hexact hheld
        (.of_eq (fun u => congrFun hview u) hexact.closed)
    refine ⟨t, s', ?_, hexact', hnew, hremains⟩
    refine (bind_of_ok hok).trans ?_
    exact bind_of_ok (f := fun _ => pure (Environment.mk (some t))) hloop

end Environment

/-! ## The function table -/

namespace Memory

open Store (Exact)

theorem onStore_of_ok {α : Type} {x : StoreM α} {fs : FunctionTable} {s s' : Store} {a : α}
    (h : x s = .ok a s') :
    onStore x ⟨fs, s⟩ = .ok a ⟨fs, s'⟩ := by
  simp only [onStore, h]

/-- A registered entry holds its environment, and a displaced one lets go of its own. -/
theorem register_exact {fs : FunctionTable} {s : Store} {env : Environment}
    {held : List Ticket} (name : String) (params : List String) (code : Code)
    (h : Exact s (held ++ fs.scopes)) (hlive : ∀ t, env.scope = some t → s.contains t) :
    ∃ s', register name params code env ⟨fs, s⟩ = .ok () ⟨fs.enroll name params code env, s'⟩ ∧
      Exact s' (held ++ (fs.enroll name params code env).scopes) ∧
        View.Remains s'.scope? s.scope? := by
  obtain ⟨s₁, hretain, hexact, hsame⟩ := Environment.retain_exact h hlive
  have hmoved : Exact s₁ (fs.scopesAt name ++
    (held ++ (fs.enroll name params code env).scopes)) := by
    refine hexact.congr fun u => ?_
    have := fs.count_scopes_enroll name params code env u
    simp only [List.count_append]
    omega
  have hremains : View.Remains s₁.scope? s.scope? := .of_eq hsame hexact.closed
  unfold register
  rw [bind_of_ok (onStore_of_ok hretain), get_bind]
  unfold FunctionTable.scopesAt at hmoved
  cases hold : fs.entries.get? name with
  | none =>
    rw [hold] at hmoved
    exact ⟨s₁, rfl, hmoved, hremains⟩
  | some function =>
    rw [hold] at hmoved
    simp only [Option.map_some, Option.getD_some, NamedFunction.scopes] at hmoved
    cases henv : function.env with
    | none =>
      rw [henv] at hmoved
      exact ⟨s₁, by simp only [Option.bind_some, henv]; rfl, hmoved, hremains⟩
    | some old =>
      rw [henv] at hmoved
      obtain ⟨s', hrelease, hexact', hremains'⟩ := Environment.release_exact hmoved
      refine ⟨s', ?_, hexact', hremains'.trans hremains⟩
      simp only [Option.bind_some, henv]
      exact onStore_of_ok hrelease

/-- A retired entry lets go of its environment. -/
theorem retireOne_exact {fs : FunctionTable} {s : Store} {held : List Ticket} (name : String)
    (h : Exact s (held ++ fs.scopes)) :
    ∃ s', retireOne name ⟨fs, s⟩ = .ok () ⟨fs.retireOne name, s'⟩ ∧
      Exact s' (held ++ (fs.retireOne name).scopes) ∧ View.Remains s'.scope? s.scope? := by
  unfold retireOne FunctionTable.retireOne
  rw [get_bind]
  cases hf : fs.entries.get? name with
  | none => exact ⟨s, rfl, h, .refl h.closed⟩
  | some entry =>
    cases he : entry.env with
    | none =>
      simp only [he]
      exact ⟨s, rfl, h, .refl h.closed⟩
    | some env =>
      have hmoved : Exact s (env.scope.toList ++ (held ++
          ({ fs with entries :=
            fs.entries.put name { entry with env := none } } : FunctionTable).scopes)) := by
        refine h.congr fun u => ?_
        have := fs.count_scopes_put name { entry with env := none } u
        simp only [FunctionTable.scopesAt, hf, Option.map_some, Option.getD_some,
          NamedFunction.scopes, he, Option.bind_some, Option.bind_none, Option.toList_none,
            List.count_nil] at this
        simp only [List.count_append]
        omega
      obtain ⟨s', hrelease, hexact, hremains⟩ := Environment.release_exact hmoved
      simp only [he]
      exact ⟨s', onStore_of_ok hrelease, hexact, hremains⟩

theorem retire_exact {fs : FunctionTable} {s : Store} {held : List Ticket}
    (h : Exact s (held ++ fs.scopes)) :
    ∃ s', retire ⟨fs, s⟩ = .ok () ⟨fs.retire, s'⟩ ∧ Exact s' (held ++ fs.retire.scopes) ∧
      View.Remains s'.scope? s.scope? := by
  have hloop := forM_of_turns (f := retireOne)
    (P := fun left memory => left.foldl FunctionTable.retireOne memory.functions = fs.retire ∧
      Exact memory.store (held ++ memory.functions.scopes) ∧
        View.Remains memory.store.scope? s.scope?) ?_
    fs.entries.keys ⟨fs, s⟩ ⟨rfl, h, .refl h.closed⟩
  · obtain ⟨⟨fs', s'⟩, hok, hretired, hexact, hremains⟩ := hloop
    cases hretired
    exact ⟨s', hok, hexact, hremains⟩
  · rintro name left ⟨fs₁, s₁⟩ ⟨hretired, hexact, hremains⟩
    obtain ⟨s₂, hok, hexact', hremains'⟩ := retireOne_exact name hexact
    exact ⟨_, hok, hretired, hexact', hremains'.trans hremains⟩

end Memory

end LiveLisp
