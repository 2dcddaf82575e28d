/-
  What a finished program leaves behind. When it is torn down, every function lets go of its scope,
  so that nothing but the result is left to hold one, and the collection after that leaves the
  records that the result reaches (`finish_tornDown`). All that may happen to the machine from then
  on keeps it so: a collection finds nothing to remove, and a new body is put into an entry without
  giving it a scope.

  That no entry is passed over rests on every name having one entry, which `Distinct` says and every
  step keeps.
-/
import LiveLisp.Proofs.Machine.Sound
import LiveLisp.Proofs.Scope.Sweeping

namespace LiveLisp

/-! ## Names with one entry -/

namespace NameMap

variable {α : Type} {name : String} {a : α} {m : NameMap α}

theorem keys_cons (pair : String × α) (m : NameMap α) : keys (pair :: m) = pair.1 :: keys m := rfl

theorem keys_put (name : String) (a : α) (m : NameMap α) :
    (m.put name a).keys = if name ∈ m.keys then m.keys else m.keys ++ [name] := by
  induction m with
  | nil => rfl
  | cons pair rest ih =>
    obtain ⟨key, b⟩ := pair
    by_cases hkey : key = name
    · simp [put, keys_cons, hkey]
    · have hmem : name ∈ keys ((key, b) :: rest) ↔ name ∈ keys rest := by
        simp [keys_cons, Ne.symm hkey]
      rw [put, if_neg hkey, keys_cons, keys_cons, ih]
      simp only [← keys_cons (key, b), hmem]
      split <;> rfl

theorem nodup_keys_put (h : m.keys.Nodup) : (m.put name a).keys.Nodup := by
  rw [keys_put]
  split
  · exact h
  · next hnew => exact List.nodup_append.mpr ⟨h, List.nodup_singleton name, fun _ hk _ hname =>
      List.mem_singleton.mp hname ▸ ne_of_mem_of_not_mem hk hnew⟩

theorem mem_keys_of_get? (h : m.get? name = some a) : name ∈ m.keys := by
  induction m with
  | nil => cases h
  | cons pair rest ih =>
    rw [keys_cons]
    by_cases hkey : pair.1 = name
    · exact hkey ▸ List.mem_cons_self ..
    · rw [get?, if_neg hkey] at h
      exact List.mem_cons_of_mem _ (ih h)

/-- With one entry for each name, every value is found under some name. -/
theorem get?_of_mem_values (hm : m.keys.Nodup) (h : a ∈ m.values) :
    ∃ name, m.get? name = some a := by
  induction m with
  | nil => cases h
  | cons pair rest ih =>
    obtain ⟨key, b⟩ := pair
    obtain ⟨hkey, hrest⟩ := List.nodup_cons.mp hm
    rcases List.mem_cons.mp h with rfl | h
    · exact ⟨key, if_pos rfl⟩
    · obtain ⟨name, hname⟩ := ih hrest h
      refine ⟨name, ?_⟩
      rw [get?, if_neg fun (e : key = name) => hkey (e ▸ mem_keys_of_get? hname)]
      exact hname

end NameMap

namespace FunctionTable

variable {table : FunctionTable}

/-- No name is listed twice. -/
def Distinct (table : FunctionTable) : Prop :=
  table.entries.keys.Nodup

theorem Distinct.enroll (h : table.Distinct) (name : String) (params : List String) (code : Code)
    (env : Environment) :
    (table.enroll name params code env).Distinct := by
  obtain ⟨newParams, newCode, heq, -⟩ := table.enroll_eq name params code env
  rw [heq]
  exact NameMap.nodup_keys_put h

theorem Distinct.patch (h : table.Distinct) (name : String) (revision : Revision) :
    (table.patch name revision).Distinct := by
  unfold Distinct FunctionTable.patch
  simp only
  split
  · split
    · exact NameMap.nodup_keys_put h
    · exact h
  · exact h

theorem distinct_rename (ρ : Ticket → Ticket) (table : FunctionTable) : (table.rename ρ).Distinct ↔
    table.Distinct := by
  have hkeys : (table.rename ρ).entries.keys = table.entries.keys := by
    simp [rename, NameMap.mapValues, NameMap.keys]
  unfold Distinct
  rw [hkeys]

/-! ## Retirement -/

theorem get?_retireOne (table : FunctionTable) (name other : String) :
    (table.retireOne name).entries.get? other =
      (table.entries.get? other).map fun entry => if name = other
      then { entry with env := none } else entry := by
  unfold retireOne
  by_cases hname : name = other
  · subst hname
    cases hentry : table.entries.get? name with
    | none => simp [hentry]
    | some entry =>
      obtain ⟨params, code, site, env⟩ := entry
      cases env with
      | none => simp [hentry]
      | some env => simp [NameMap.get?_put]
  · simp only [if_neg hname, Option.map_id']
    split
    · rfl
    · split
      · rfl
      · rw [NameMap.get?_put, if_neg hname]

theorem Distinct.retireOne (h : table.Distinct) (name : String) :
    (table.retireOne name).Distinct := by
  unfold FunctionTable.retireOne
  split
  · exact h
  · split
    · exact h
    · exact NameMap.nodup_keys_put h

/-- Every entry has let go of its environment. -/
def Retired (table : FunctionTable) : Prop :=
  ∀ entry ∈ table.entries.values, entry.env = none

/-- What has been retired once stays so while other names are. -/
theorem env_retireAll (names : List String) {name : String} {entry : NamedFunction}
    (hentry : (names.foldl FunctionTable.retireOne table).entries.get? name = some entry)
    (h : name ∈ names ∨ ∀ before, table.entries.get? name = some before → before.env = none) :
    entry.env = none := by
  induction names generalizing table with
  | nil => exact h.resolve_left List.not_mem_nil entry hentry
  | cons first names ih =>
    refine ih hentry ?_
    by_cases hlater : name ∈ names
    · exact .inl hlater
    · refine .inr fun before hbefore => ?_
      rw [get?_retireOne] at hbefore
      obtain ⟨old, hold, rfl⟩ := Option.map_eq_some_iff.mp hbefore
      by_cases hfirst : first = name
      · rw [if_pos hfirst]
      · rw [if_neg hfirst]
        exact h.resolve_left (by simp [Ne.symm hfirst, hlater]) old hold

theorem Distinct.retire (h : table.Distinct) : table.retire.Distinct := by
  have hall (names : List String) : (names.foldl FunctionTable.retireOne table).Distinct := by
    induction names generalizing table with
    | nil => exact h
    | cons name names ih => exact ih (h.retireOne name)
  exact hall table.entries.keys

/-- When every name has one entry, retiring the names retires every entry. -/
theorem Distinct.retired (h : table.Distinct) : table.retire.Retired := by
  intro entry hentry
  obtain ⟨name, hname⟩ := NameMap.get?_of_mem_values h.retire hentry
  refine env_retireAll table.entries.keys hname ?_
  cases hbefore : table.entries.get? name with
  | some before => exact .inl (NameMap.mem_keys_of_get? hbefore)
  | none => exact .inr nofun

theorem Retired.patch (h : table.Retired) (name : String) (revision : Revision) :
    (table.patch name revision).Retired := by
  unfold Retired FunctionTable.patch
  simp only
  split
  · next entry hentry =>
    split
    · intro other hother
      rcases NameMap.mem_values_put hother with rfl | hother
      · exact h entry (NameMap.mem_values_of_get? hentry)
      · exact h other hother
    · exact h
  · exact h

theorem Retired.scopes (h : table.Retired) : table.scopes = [] := by
  refine List.filterMap_eq_nil_iff.mpr fun entry hentry => ?_
  rw [h entry hentry]
  rfl

end FunctionTable

/-! ## Steps -/

namespace Ideal

variable {m m' : Ideal} {owner? : String → Option Owner} {reply : Except HostProblem Value}

/-- An instruction leaves the functions as they are, or registers one. -/
theorem execute_functions {pc : Nat} {env : Environment} {origin : Span} {op : Op} {flow : Flow}
    (h : m.execute owner? reply pc env origin op = .ok (flow, m')) :
    m'.functions = m.functions ∨ ∃ name params code, m'.functions =
      m.functions.enroll name params code env := by
  have hcalled {tail : Bool} {argc : Nat} (h : m.call reply tail argc origin = .ok (flow, m')) :
      m'.functions = m.functions := by
    rcases call_eq_ok h with ⟨_, -, rfl⟩ | ⟨_, _, _, _, _, -, -, -, rfl⟩ <;> rfl
  cases op with
  | buildFunction f =>
    rcases buildFunction_eq_ok h with ⟨f, params, code, _, -, rfl⟩ | ⟨_, _, _, rfl⟩
    · exact .inr ⟨f, params, code, rfl⟩
    · exact .inl rfl
  | call argc | tailCall argc => exact .inl (hcalled h)
  | ret =>
    refine .inl ?_
    rw [execute, Except.ok.injEq, leave] at h
    split at h <;> cases h <;> rfl
  | _ => rcases execute_eq_ok h rfl (by simp) (by simp) with ⟨_, rfl⟩ | ⟨_, _, _,
      rfl⟩ <;> exact .inl rfl

theorem step_distinct (hm : m.functions.Distinct) (h : m.step owner? reply = .ok m') :
    m'.functions.Distinct := by
  obtain ⟨i, pc, env, flow, after, -, hexecute, rfl⟩ := step_eq_ok h
  rcases execute_functions hexecute with hsame | ⟨name, params, code, henrolled⟩
  · exact hsame ▸ hm
  · exact henrolled ▸ hm.enroll name params code _

end Ideal

/-! ## Tearing down -/

/-- Nothing reaches anything from nowhere. -/
theorem Store.not_reaches_nil {s : Store} {t : Ticket} : ¬ s.Reaches [] t := by
  intro h
  induction h with
  | root h => exact List.not_mem_nil h
  | onward _ _ _ ih => exact ih

theorem Store.WellFormed.live_eq_zero_iff {s : Store} (h : s.WellFormed) : s.live = 0 ↔
    ∀ t, ¬ s.contains t := by
  rw [h.live_eq]
  constructor
  · intro hnone t ht
    obtain ⟨r, hr⟩ := contains_iff.mp ht
    have := le_weigh (fun _ => 1) hr
    omega
  · exact fun hnone => weigh_eq_zero fun t r hr => absurd (contains_of_record? hr) (hnone t)

namespace Machine

variable {σ : Type} {host : Host σ} {w w' : σ} {m m' : Machine}

/-- What is left when a program has finished: functions without scopes, and the records that its
result reaches. -/
structure TornDown (m : Machine) : Prop where
  retired : m.memory.functions.Retired
  swept : ∀ t, m.memory.store.contains t ↔ m.memory.store.Reaches m.context.scopes t

/-- Between two steps no function is listed twice, and a program that has finished is torn down. -/
structure Orderly (m : Machine) : Prop where
  distinct : m.memory.functions.Distinct
  tornDown : m.context.done = true → m.TornDown

theorem Sound.exact (h : m.Sound) : m.memory.store.Exact m.roots := by
  obtain ⟨r, ⟨_, hx, -⟩, -⟩ := h
  exact hx

theorem start_orderly (code : Code) : (Machine.start code).Orderly :=
  ⟨List.nodup_nil, nofun⟩

theorem step_distinct (hs : m.Sound) (hhost : host.HonestIn w) (h : m.memory.functions.Distinct)
    (hstep : Exec.step host ⟨m, w⟩ = .ok () ⟨m', w'⟩) : m'.memory.functions.Distinct := by
  obtain ⟨r, ⟨swept, hx, ρ, scopes, hm, rfl⟩, hsound⟩ := hs
  have himage := step_image hx hm hsound fun v hv => hhost.reply hv
  split at himage
  · next r' hr' =>
    obtain ⟨m₁, hrun, ⟨-, ρ', scopes', -, rfl⟩, -⟩ := himage
    cases hrun.symm.trans hstep
    have hbefore : (m.image ρ scopes).functions.Distinct :=
      (FunctionTable.distinct_rename ρ _).mpr h
    exact (FunctionTable.distinct_rename ρ' _).mp (Ideal.step_distinct hbefore hr')
  · cases himage.1.symm.trans hstep

theorem collectGarbage_swept (h : m.memory.store.Exact m.roots) :
    ∃ n s, collectGarbage m = .ok n ⟨m.context, ⟨m.memory.functions, s⟩, m.built⟩ ∧
      ∀ t, s.contains t ↔ s.Reaches m.roots t := by
  obtain ⟨n, s, hcollect, hswept⟩ := Store.collect_swept h
  exact ⟨n, s, onStore_of_ok hcollect, hswept.contains_iff⟩

/-- Without a scope in the function table the stacks are all that is collected from. -/
theorem roots_of_retired (h : m.memory.functions.Retired) : m.roots = m.context.scopes := by
  rw [roots, h.scopes, List.append_nil]

theorem collectGarbage_orderly (hs : m.Sound) (h : m.Orderly) :
    ∃ n m', collectGarbage m = .ok n m' ∧ m'.Orderly := by
  obtain ⟨n, s, hrun, hswept⟩ := collectGarbage_swept hs.exact
  refine ⟨n, _, hrun, h.distinct, fun hdone => ?_⟩
  have hretired := (h.tornDown hdone).retired
  rw [roots_of_retired hretired] at hswept
  exact ⟨hretired, hswept⟩

/-- A machine that has been torn down holds what its stacks reach, and nothing else. -/
theorem finish_tornDown (hs : m.Sound) (h : m.memory.functions.Distinct) :
    ∃ n m', finish m = .ok n m' ∧ m'.memory.functions.Distinct ∧ m'.TornDown := by
  obtain ⟨s, hretire, hexact, -⟩ := Memory.retire_exact hs.exact
  have honMemory :
    onMemory Memory.retire m = .ok () ⟨m.context, ⟨m.memory.functions.retire, s⟩, m.built⟩ := by
    simp only [onMemory, hretire]
  obtain ⟨n, s', hcollect, hswept⟩ :=
    collectGarbage_swept (m := ⟨m.context, ⟨m.memory.functions.retire, s⟩, m.built⟩) hexact
  rw [roots_of_retired h.retired] at hswept
  exact ⟨n, _, (bind_of_ok honMemory).trans hcollect, h.retire, h.retired, hswept⟩

theorem Orderly.patch (h : m.Orderly) (name : String) (revision : Revision) :
    (m.patch name revision).Orderly :=
  ⟨h.distinct.patch name revision, fun hdone =>
    ⟨(h.tornDown hdone).retired.patch name revision, (h.tornDown hdone).swept⟩⟩

/-- What the result of a sound machine holds on to are the scopes of its closures, and each of them
has one. -/
theorem Sound.closures (hs : m.Sound) {v : Value} (hv : v ∈ m.context.values) :
    ∀ c ∈ v.closures, c.scope.isSome := by
  obtain ⟨r, ⟨_, -, ρ, scopes, -, rfl⟩, hr⟩ := hs
  intro c hc
  have hsound : (v.rename ρ).Sound := hr.contents.values _ (List.mem_map_of_mem hv)
  have hscope := (hsound (c.rename ρ) (Value.closures_rename ρ v ▸ List.mem_map_of_mem hc)).scope
  rwa [Closure.rename, Option.isSome_map] at hscope

/-- A finished program leaves what the closures in its result reach, and so nothing if there are
none. -/
theorem Orderly.leaves (h : m.Orderly) (hs : m.Sound) (hdone : m.context.done = true) :
    ∃ v, m.context.result? = some v ∧ m.context.environments = [] ∧ m.memory.functions.Retired ∧
      (∀ t, m.memory.store.contains t ↔ m.memory.store.Reaches (v.closures.filterMap (·.scope)) t) ∧
      (m.memory.store.live = 0 ↔ v.closures = []) := by
  obtain ⟨v, hv⟩ := hs.result hdone
  have hbalanced := hs.balanced
  have henvironments : m.context.environments = [] := by
    rw [← List.length_eq_zero_iff, hbalanced.environments, hbalanced.done.mp hdone, List.length_nil]
  have hscopes : m.context.scopes = v.closures.filterMap (·.scope) := by
    simp [Context.scopes, henvironments, hv, Value.scopes_eq_closures]
  obtain ⟨hretired, hswept⟩ := h.tornDown hdone
  rw [hscopes] at hswept
  refine ⟨v, by simp [Context.result?, hdone, hv], henvironments, hretired, hswept, ?_⟩
  rw [hs.exact.wellFormed.live_eq_zero_iff]
  constructor
  · intro hnone
    refine List.eq_nil_iff_forall_not_mem.mpr fun c hc => ?_
    obtain ⟨t, ht⟩ :=
      Option.isSome_iff_exists.mp (hs.closures (hv ▸ List.mem_singleton_self v) c hc)
    exact hnone t ((hswept t).mpr (.root (List.mem_filterMap.mpr ⟨c, hc, ht⟩)))
  · intro hclosures t ht
    rw [hswept, hclosures] at ht
    exact Store.not_reaches_nil ht

end Machine

end LiveLisp
