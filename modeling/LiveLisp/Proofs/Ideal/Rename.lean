/-
  Renaming tickets. Two machines that differ only in how they name their scopes are related by a map
  of tickets, applied wherever a ticket stands: in the closures inside values, in environments and
  in the function table. Code holds no tickets and stays as it is.

  Nothing that a program can show or compare depends on a ticket: `render_rename` and
  `equals_rename`.
-/
import LiveLisp.Proofs.Ideal.Basic
import LiveLisp.Proofs.Scope.Exact

namespace LiveLisp

/-- A function built by `lambda`, apart from the values it may stand in. -/
structure Closure where
  id : ClosureId
  params : List String
  code : Code
  scope : Option Ticket

def Closure.rename (ρ : Ticket → Ticket) (c : Closure) : Closure :=
  { c with scope := c.scope.map ρ }

namespace Value

variable (ρ : Ticket → Ticket)

mutual
/-- The closures in a value, from left to right. -/
def closures : Value → List Closure
  | closure id names body scope => [⟨id, names, body, scope⟩]
  | list items => allClosures items
  | _ => []
def allClosures : List Value → List Closure
  | [] => []
  | item :: items => closures item ++ allClosures items
end

mutual
def rename : Value → Value
  | closure id names body scope => closure id names body (scope.map ρ)
  | list items => list (renameAll items)
  | v => v
def renameAll : List Value → List Value
  | [] => []
  | item :: items => rename item :: renameAll items
end

theorem renameAll_eq_map (items : List Value) : renameAll ρ items = items.map (rename ρ) := by
  induction items with
  | nil => rfl
  | cons item items ih => rw [renameAll, ih, List.map_cons]

theorem allClosures_eq_flatMap (items : List Value) :
    allClosures items = items.flatMap closures := by
  induction items with
  | nil => rfl
  | cons item items ih => rw [allClosures, ih, List.flatMap_cons]

mutual
theorem scopes_eq_closures (v : Value) : v.scopes = v.closures.filterMap (·.scope) := by
  cases v with
  | closure id names body scope => cases scope <;> rfl
  | list items => exact allScopes_eq_closures items
  | _ => rfl
theorem allScopes_eq_closures (items : List Value) :
    allScopes items = (allClosures items).filterMap (·.scope) := by
  cases items with
  | nil => rfl
  | cons item items =>
    rw [allScopes, allClosures, List.filterMap_append, scopes_eq_closures item,
      allScopes_eq_closures items]
end

mutual
theorem closures_rename (v : Value) :
    (v.rename ρ).closures = v.closures.map (Closure.rename ρ) := by
  cases v with
  | list items => exact allClosures_renameAll items
  | _ => rfl
theorem allClosures_renameAll (items : List Value) :
    allClosures (renameAll ρ items) = (allClosures items).map (Closure.rename ρ) := by
  cases items with
  | nil => rfl
  | cons item items =>
    rw [renameAll, allClosures, allClosures, List.map_append, closures_rename item,
      allClosures_renameAll items]
end

mutual
/-- Only the tickets that occur matter. -/
theorem rename_congr {ρ ρ' : Ticket → Ticket} (v : Value) (h : ∀ t ∈ v.scopes, ρ t = ρ' t) :
    v.rename ρ = v.rename ρ' := by
  cases v with
  | closure id names body scope =>
    cases scope with
    | none => rfl
    | some t =>
      simp only [rename, Option.map_some, h t List.mem_cons_self]
  | list items =>
    simp only [rename]
    rw [renameAll_congr items h]
  | _ => rfl
theorem renameAll_congr {ρ ρ' : Ticket → Ticket} (items : List Value)
    (h : ∀ t ∈ allScopes items, ρ t = ρ' t) :
    renameAll ρ items = renameAll ρ' items := by
  cases items with
  | nil => rfl
  | cons item items =>
    rw [allScopes] at h
    rw [renameAll, renameAll, rename_congr item fun t ht => h t (List.mem_append_left _ ht),
      renameAll_congr items fun t ht => h t (List.mem_append_right _ ht)]
end

mutual
theorem rename_of_closures_nil (v : Value) (h : v.closures = []) : v.rename ρ = v := by
  cases v with
  | closure id names body scope => cases h
  | list items =>
    simp only [rename]
    rw [renameAll_of_closures_nil items h]
  | _ => rfl
theorem renameAll_of_closures_nil (items : List Value) (h : allClosures items = []) :
    renameAll ρ items = items := by
  cases items with
  | nil => rfl
  | cons item items =>
    rw [allClosures, List.append_eq_nil_iff] at h
    rw [renameAll, rename_of_closures_nil item h.1, renameAll_of_closures_nil items h.2]
end

/-! ## What shows -/

@[simp] theorem isTruthy_rename (v : Value) : (v.rename ρ).isTruthy = v.isTruthy := by
  cases v <;> rfl

mutual
@[simp] theorem render_rename (v : Value) : (v.rename ρ).render = v.render := by
  cases v with
  | list items => simp only [rename, render, inspectAll_renameAll items]
  | closure id names body scope => simp only [rename, render]
  | _ => rfl
@[simp] theorem inspect_rename (v : Value) : (v.rename ρ).inspect = v.inspect := by
  cases v with
  | list items => simp only [rename, inspect, render, inspectAll_renameAll items]
  | closure id names body scope => simp only [rename, inspect, render]
  | _ => rfl
theorem inspectAll_renameAll (items : List Value) :
    inspectAll (renameAll ρ items) = inspectAll items := by
  cases items with
  | nil => rfl
  | cons item items =>
    rw [renameAll, inspectAll, inspectAll, inspect_rename item, inspectAll_renameAll items]
end

mutual
@[simp] theorem equals_rename (v w : Value) : (v.rename ρ).equals (w.rename ρ) = v.equals w := by
  cases v with
  | list items =>
    cases w with
    | list others =>
      simp only [rename, equals]
      exact allEqual_renameAll items others
    | _ => rfl
  | _ => cases w <;> rfl
theorem allEqual_renameAll (items others : List Value) :
    allEqual (renameAll ρ items) (renameAll ρ others) = allEqual items others := by
  cases items with
  | nil => cases others <;> rfl
  | cons item items =>
    cases others with
    | nil => rfl
    | cons other others =>
      simp only [renameAll, allEqual]
      rw [equals_rename item other, allEqual_renameAll items others]
end

end Value

/-! ## Maps of names -/

namespace NameMap

variable {α β : Type} (f : α → β)

def mapValues (m : NameMap α) : NameMap β :=
  m.map fun pair => (pair.1, f pair.2)

@[simp] theorem get?_mapValues (name : String) (m : NameMap α) :
  (m.mapValues f).get? name = (m.get? name).map f := by
  induction m with
  | nil => rfl
  | cons pair rest ih =>
    obtain ⟨key, a⟩ := pair
    show (if key = name then some (f a) else get? name (mapValues f rest)) =
      (if key = name then some a else get? name rest).map f
    rw [ih]
    split <;> rfl

@[simp] theorem contains_mapValues (name : String) (m : NameMap α) :
    (m.mapValues f).contains name = m.contains name := by
  unfold contains
  rw [get?_mapValues, Option.isSome_map]

@[simp] theorem mapValues_put (name : String) (a : α) (m : NameMap α) :
    (m.put name a).mapValues f = (m.mapValues f).put name (f a) := by
  induction m with
  | nil => rfl
  | cons pair rest ih =>
    obtain ⟨key, b⟩ := pair
    show mapValues f (if key = name then (name, a) :: rest else (key, b) :: put name a rest) =
      if key = name then (name, f a) :: mapValues f rest else (key, f b) :: put name (f a)
        (mapValues f rest)
    split
    · rfl
    · rw [← ih]
      rfl

theorem mapValues_putAll (pairs : List (String × α)) (m : NameMap α) :
    (m.putAll pairs).mapValues f = (m.mapValues f).putAll (pairs.map fun pair =>
      (pair.1, f pair.2)) := by
  induction pairs generalizing m with
  | nil => rfl
  | cons pair rest ih =>
    show (putAll (put pair.1 pair.2 m) rest).mapValues f =
      putAll (put pair.1 (f pair.2) (mapValues f m)) _
    rw [ih, mapValues_put]

theorem mapValues_congr {f g : α → β} {m : NameMap α} (h : ∀ a ∈ m.values, f a = g a) :
    m.mapValues f = m.mapValues g := by
  refine List.map_congr_left fun pair hp => ?_
  rw [h pair.2 (List.mem_map.mpr ⟨pair, hp, rfl⟩)]

end NameMap

/-! ## Scopes, environments, tables and stacks -/

def Scope.rename (ρ : Ticket → Ticket) (sc : Scope) : Scope :=
  ⟨sc.bindings.mapValues (Value.rename ρ), sc.parent.map ρ⟩

def Environment.rename (ρ : Ticket → Ticket) (env : Environment) : Environment :=
  ⟨env.scope.map ρ⟩

def NamedFunction.rename (ρ : Ticket → Ticket) (function : NamedFunction) : NamedFunction :=
  { function with env := function.env.map (Environment.rename ρ) }

def FunctionTable.rename (ρ : Ticket → Ticket) (table : FunctionTable) : FunctionTable :=
  { table with entries := table.entries.mapValues (NamedFunction.rename ρ) }

def Context.rename (ρ : Ticket → Ticket) (c : Context) : Context :=
  { c with
    environments := c.environments.map (Environment.rename ρ)
    values := c.values.map (Value.rename ρ) }

theorem Value.scopes_rename (ρ : Ticket → Ticket) (v : Value) :
    (v.rename ρ).scopes = v.scopes.map ρ := by
  rw [scopes_eq_closures, closures_rename, scopes_eq_closures, List.filterMap_map,
    List.map_filterMap]
  rfl

theorem Scope.references_rename (ρ : Ticket → Ticket) (sc : Scope) :
    (sc.rename ρ).references = sc.references.map ρ := by
  have hbindings : (sc.rename ρ).bindings.scopes = sc.bindings.scopes.map ρ := by
    simp only [rename, NameMap.scopes, NameMap.values, NameMap.mapValues, List.map_map,
      List.flatMap_map, List.map_flatMap, Function.comp_apply, Value.scopes_rename]
  rw [references, references, hbindings, List.map_append]
  congr 1
  cases h : sc.parent <;> simp [rename, h]

theorem FunctionTable.scopes_rename (ρ : Ticket → Ticket) (table : FunctionTable) :
    (table.rename ρ).scopes = table.scopes.map ρ := by
  unfold FunctionTable.scopes FunctionTable.rename NameMap.values NameMap.mapValues
  simp only [List.map_map, List.filterMap_map, List.map_filterMap]
  congr 1
  funext pair
  cases h : pair.2.env <;> simp [NamedFunction.rename, Environment.rename, h]

theorem Context.scopes_rename (ρ : Ticket → Ticket) (c : Context) :
    (c.rename ρ).scopes = c.scopes.map ρ := by
  unfold Context.scopes Context.rename
  simp only [List.map_append, ← List.map_reverse, List.filterMap_map, List.map_filterMap,
    List.flatMap_map, List.map_flatMap, Value.scopes_rename]
  rfl

theorem Scope.rename_congr {ρ ρ' : Ticket → Ticket} {sc : Scope}
    (h : ∀ t ∈ sc.references, ρ t = ρ' t) :
    sc.rename ρ = sc.rename ρ' := by
  unfold Scope.rename
  congr 1
  · refine NameMap.mapValues_congr fun v hv => Value.rename_congr v fun t ht => h t ?_
    exact List.mem_append_right _ (List.mem_flatMap.mpr ⟨v, hv, ht⟩)
  · cases hp : sc.parent with
    | none => rfl
    | some p => simp [h p (by simp [references, hp])]

theorem Environment.rename_congr {ρ ρ' : Ticket → Ticket} {env : Environment}
    (h : ∀ t, env.scope = some t → ρ t = ρ' t) : env.rename ρ = env.rename ρ' := by
  unfold Environment.rename
  cases hs : env.scope with
  | none => rfl
  | some t => simp [h t hs]

theorem FunctionTable.rename_congr {ρ ρ' : Ticket → Ticket} {table : FunctionTable}
    (h : ∀ t ∈ table.scopes, ρ t = ρ' t) : table.rename ρ = table.rename ρ' := by
  unfold FunctionTable.rename
  congr 1
  refine NameMap.mapValues_congr fun function hf => ?_
  unfold NamedFunction.rename
  congr 1
  cases he : function.env with
  | none => rfl
  | some env =>
    simp only [Option.map_some, Option.some.injEq]
    refine Environment.rename_congr fun t ht => h t ?_
    exact List.mem_filterMap.mpr ⟨function, hf, by simp [he, ht]⟩

theorem Context.rename_congr {ρ ρ' : Ticket → Ticket} {c : Context}
    (h : ∀ t ∈ c.scopes, ρ t = ρ' t) :
    c.rename ρ = c.rename ρ' := by
  unfold Context.rename Context.scopes at *
  congr 1
  · refine List.map_congr_left fun env he => Environment.rename_congr fun t ht => h t ?_
    exact List.mem_append_left _ (List.mem_filterMap.mpr ⟨env, List.mem_reverse.mpr he, ht⟩)
  · refine List.map_congr_left fun v hv => Value.rename_congr v fun t ht => h t ?_
    exact List.mem_append_right _ (List.mem_flatMap.mpr ⟨v, List.mem_reverse.mpr hv, ht⟩)

theorem Context.hostCall?_rename (ρ : Ticket → Ticket) (c : Context) :
    (c.rename ρ).hostCall? =
      c.hostCall?.map fun (owner, method, args) => (owner, method, args.map (Value.rename ρ)) := by
  have hinstruction : (c.rename ρ).instruction? = c.instruction? := rfl
  unfold Context.hostCall?
  rw [hinstruction]
  cases c.instruction?.bind (·.op.argc?) with
  | none => rfl
  | some argc =>
    have hvalues : (c.rename ρ).values = c.values.map (Value.rename ρ) := rfl
    simp only [hvalues, ← List.map_drop, ← List.map_take, ← List.map_reverse]
    cases c.values.drop argc with
    | nil => rfl
    | cons callee rest => cases callee <;> rfl

theorem Context.pendingCall?_rename (ρ : Ticket → Ticket) (c : Context) :
    (c.rename ρ).pendingCall? = c.pendingCall? := by
  have hinstruction : (c.rename ρ).instruction? = c.instruction? := rfl
  have hvalues : (c.rename ρ).values = c.values.map (Value.rename ρ) := rfl
  unfold Context.pendingCall?
  rw [hinstruction]
  refine bind_congr fun i => bind_congr fun argc => ?_
  rw [hvalues, List.getElem?_map]
  cases c.values[argc]? with
  | none => rfl
  | some v => cases v <;> rfl

end LiveLisp
