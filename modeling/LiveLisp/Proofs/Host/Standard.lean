/-
  What is asked of capabilities, and that the standard ones comply. An honest capability answers
  from its arguments: it makes up no closures, and none are in an answer that may be given again. A
  blind one does not look at tickets: to arguments that differ only in how scopes are named it gives
  the same answer up to those names, and changes the world in the same way. A plain one has no
  functions of the program to give but those that it was given.
-/
import LiveLisp.Host.World
import LiveLisp.Proofs.Ideal.Rename
import LiveLisp.Proofs.Outcome

namespace LiveLisp

variable {σ : Type}

/-- Closures in an answer come from the arguments, and there are none in an answer that may be given
again. -/
def Capability.Honest (c : Capability σ) : Prop :=
  ∀ method args w v, (c.invoke method args w).1 = .ok v →
    (∀ cl ∈ v.closures, ∃ arg ∈ args, cl ∈ arg.closures) ∧
      (c.isDeterministic = false → v.closures = [])

/-- How scopes are named makes no difference. -/
def Capability.Blind (c : Capability σ) : Prop :=
  ∀ ρ method args w, c.invoke method (args.map (Value.rename ρ)) w =
    ((c.invoke method args w).1.map (Value.rename ρ), (c.invoke method args w).2)

mutual
/-- No function of the program is in a value, neither a closure nor the name of one. -/
def Value.isPlain : Value → Bool
  | .closure .. => false
  | .named _ => false
  | .list items => Value.arePlain items
  | _ => true
def Value.arePlain : List Value → Bool
  | [] => true
  | item :: items => Value.isPlain item && Value.arePlain items
end

theorem Value.arePlain_iff (items : List Value) : Value.arePlain items = true ↔
    ∀ v ∈ items, v.isPlain = true := by
  induction items with
  | nil => simp [Value.arePlain]
  | cons item items ih => simp [Value.arePlain, ih]

mutual
theorem Value.closures_of_isPlain (v : Value) (h : v.isPlain = true) : v.closures = [] := by
  cases v with
  | closure id params body scope => cases h
  | list items => exact Value.allClosures_of_arePlain items h
  | _ => rfl
theorem Value.allClosures_of_arePlain (items : List Value) (h : Value.arePlain items = true) :
    Value.allClosures items = [] := by
  cases items with
  | nil => rfl
  | cons item items =>
    rw [Value.arePlain, Bool.and_eq_true] at h
    rw [Value.allClosures, Value.closures_of_isPlain item h.1,
      Value.allClosures_of_arePlain items h.2]
    rfl
end

/-- To arguments without functions of the program the answers are without them. -/
def Capability.Plain (c : Capability σ) : Prop :=
  ∀ method args w v, (∀ arg ∈ args, arg.isPlain = true) →
    (c.invoke method args w).1 = .ok v → v.isPlain = true

/-- The same of a host as programs see it. -/
def Host.Plain (host : Host σ) : Prop :=
  ∀ owner method args w v, (∀ arg ∈ args, arg.isPlain = true) →
    (host.invoke owner method args w).1 = .ok v →
    v.isPlain = true

theorem Host.direct_plain {capabilities : List (Capability σ)} (h : ∀ c ∈ capabilities, c.Plain) :
    (Host.direct capabilities).Plain := by
  intro owner method args w v hargs hv
  simp only [Host.direct, Capability.invokeAt] at hv
  split at hv
  · next c hc => exact h c (List.mem_of_getElem? hc) method args w v hargs hv
  · cases hv

namespace Builtin

/-! ## Builtins make up no closures -/

theorem theList_eq_ok {args items : List Value} (h : theList args = .ok items) :
    args = [.list items] := by
  unfold theList at h
  split at h <;> cases h
  rfl

/-- Some items of the list that is the only argument. -/
theorem closures_of_theList {args items : List Value}
    (h : theList args = .ok items) {kept : List Value} (hkept : ∀ v ∈ kept, v ∈ items) :
    ∀ v ∈ kept, ∀ c ∈ v.closures, ∃ arg ∈ args, c ∈ arg.closures := by
  intro v hv c hc
  rw [theList_eq_ok h]
  refine ⟨_, List.mem_singleton_self _, ?_⟩
  rw [Value.closures, Value.allClosures_eq_flatMap]
  exact List.mem_flatMap.mpr ⟨v, hkept v hv, hc⟩

theorem isPlain_of_compareWith {accept : Ordering → Bool} {args : List Value} {v : Value}
    (h : compareWith accept args = .ok v) : v.isPlain = true := by
  unfold compareWith at h
  split at h
  · cases h
  · obtain ⟨truth, -, hv⟩ := except_bind_eq_ok h
    cases hv
    rfl

/-- The builtins that answer with what they were given. All others answer with data. -/
def handing : List String := ["list", "first", "rest"]

theorem isPlain_of_computed {method : String} (hmethod : method ∉ handing)
    {args : List Value} {v : Value} (h : invoke method args = .ok v) : v.isPlain = true := by
  unfold invoke at h
  split at h
  · split at h
    · cases h
      rfl
    · obtain ⟨xs, -, h⟩ := except_bind_eq_ok h
      cases h
      rfl
  · obtain ⟨xs, -, h⟩ := except_bind_eq_ok h
    cases h
    rfl
  · obtain ⟨xs, -, h⟩ := except_bind_eq_ok h
    split at h <;> cases h <;> rfl
  · obtain ⟨xs, -, h⟩ := except_bind_eq_ok h
    split at h
    · cases h
    · split at h <;> cases h
      rfl
  · obtain ⟨xs, -, h⟩ := except_bind_eq_ok h
    split at h
    · split at h <;> cases h
      rfl
    · cases h
  · cases h
    rfl
  · split at h <;> cases h
    rfl
  · exact isPlain_of_compareWith h
  · exact isPlain_of_compareWith h
  · exact isPlain_of_compareWith h
  · exact isPlain_of_compareWith h
  · split at h <;> cases h
    rfl
  · exact absurd (by decide) hmethod
  · exact absurd (by decide) hmethod
  · exact absurd (by decide) hmethod
  · obtain ⟨n, -, h⟩ := except_bind_eq_ok h
    cases h
    rfl
  · obtain ⟨n, -, h⟩ := except_bind_eq_ok h
    cases h
    rfl
  · cases h
    rfl
  · cases h

theorem closures_of_invoke {method : String} {args : List Value} {v : Value}
    (h : invoke method args = .ok v) :
    ∀ c ∈ v.closures, ∃ arg ∈ args, c ∈ arg.closures := by
  by_cases hmethod : method ∈ handing
  · simp only [handing, List.mem_cons, List.not_mem_nil, or_false] at hmethod
    rcases hmethod with rfl | rfl | rfl
    · cases h
      intro c hc
      rw [Value.closures, Value.allClosures_eq_flatMap] at hc
      exact List.mem_flatMap.mp hc
    · obtain ⟨items, hitems, h⟩ := except_bind_eq_ok h
      cases h
      cases hhead : items.head? with
      | none => exact nofun
      | some item =>
        exact closures_of_theList hitems (fun v hv => hv) item (List.mem_of_head? hhead)
    · obtain ⟨items, hitems, h⟩ := except_bind_eq_ok h
      cases h
      intro c hc
      rw [Value.closures, Value.allClosures_eq_flatMap] at hc
      obtain ⟨v, hv, hc⟩ := List.mem_flatMap.mp hc
      exact closures_of_theList hitems (fun v hv => List.mem_of_mem_drop hv) v hv c hc
  · rw [v.closures_of_isPlain (isPlain_of_computed hmethod h)]
    exact nofun

theorem isPlain_of_invoke {method : String} {args : List Value} {v : Value}
    (h : invoke method args = .ok v) (hargs : ∀ arg ∈ args, arg.isPlain = true) :
    v.isPlain = true := by
  have hitems : ∀ items, theList args = .ok items → ∀ item ∈ items, item.isPlain = true := by
    intro items htheList
    rw [theList_eq_ok htheList] at hargs
    exact (Value.arePlain_iff items).mp (hargs _ (List.mem_singleton_self _))
  by_cases hmethod : method ∈ handing
  · simp only [handing, List.mem_cons, List.not_mem_nil, or_false] at hmethod
    rcases hmethod with rfl | rfl | rfl
    · cases h
      exact (Value.arePlain_iff args).mpr hargs
    · obtain ⟨items, htheList, h⟩ := except_bind_eq_ok h
      cases h
      cases hhead : items.head? with
      | none => rfl
      | some item => exact hitems items htheList item (List.mem_of_head? hhead)
    · obtain ⟨items, htheList, h⟩ := except_bind_eq_ok h
      cases h
      exact (Value.arePlain_iff _).mpr fun item hitem =>
        hitems items htheList item (List.mem_of_mem_drop hitem)
  · exact isPlain_of_computed hmethod h

/-! ## Builtins do not look at tickets -/

variable (ρ : Ticket → Ticket)

theorem numbers_rename (position : Nat) (args : List Value) :
    numbers position (args.map (Value.rename ρ)) = numbers position args := by
  induction args generalizing position with
  | nil => rfl
  | cons arg args ih =>
    cases arg with
    | number x => simp only [List.map_cons, Value.rename, numbers, ih]
    | _ => rfl

theorem concat_rename (args : List Value) : concat (args.map (Value.rename ρ)) = concat args := by
  simp [concat, Function.comp_def]

theorem any_isText_rename (args : List Value) :
    (args.map (Value.rename ρ)).any isText = args.any isText := by
  have hone : ∀ v : Value, isText (v.rename ρ) = isText v := by
    intro v
    cases v <;> rfl
  simp [List.any_map, Function.comp_def, hone]

theorem chainEqual_rename (args : List Value) :
    chainEqual (args.map (Value.rename ρ)) = chainEqual args := by
  fun_induction chainEqual args with
  | case1 a b rest ih =>
    simp only [List.map_cons] at ih ⊢
    simp only [chainEqual, Value.equals_rename, ih]
  | case2 args hshort =>
    match args with
    | [] => rfl
    | [a] => rfl
    | a :: b :: rest => exact (hshort a b rest rfl).elim

theorem order_rename (a b : Value) : order (a.rename ρ) (b.rename ρ) = order a b := by
  cases a <;> cases b <;> rfl

theorem chainOrdered_rename (accept : Ordering → Bool) (args : List Value) :
    chainOrdered accept (args.map (Value.rename ρ)) = chainOrdered accept args := by
  induction args with
  | nil => rfl
  | cons a rest ih =>
    cases rest with
    | nil => rfl
    | cons b rest =>
      simp only [List.map_cons] at ih ⊢
      simp only [chainOrdered, order_rename, ih]

theorem compareWith_rename (accept : Ordering → Bool) (args : List Value) :
    compareWith accept (args.map (Value.rename ρ)) = compareWith accept args := by
  simp only [compareWith, List.length_map, chainOrdered_rename]

theorem theList_rename (args : List Value) :
    theList (args.map (Value.rename ρ)) = (theList args).map (List.map (Value.rename ρ)) := by
  match args with
  | [] => rfl
  | [arg] =>
    cases arg with
    | list items => simp only [List.map_cons, List.map_nil, Value.rename, Value.renameAll_eq_map,
        theList, Except.map]
    | _ => rfl
  | _ :: _ :: _ => simp [theList, Except.map]

theorem sizeOf_rename (args : List Value) : sizeOf (args.map (Value.rename ρ)) = sizeOf args := by
  match args with
  | [] => rfl
  | [arg] =>
    cases arg with
    | list items =>
      simp only [List.map_cons, List.map_nil, Value.rename, Value.renameAll_eq_map, sizeOf,
        List.length_map]
    | _ => rfl
  | _ :: _ :: _ => simp [sizeOf]

theorem invoke_rename_of_computed {method : String} (hmethod : method ∉ handing)
    (args : List Value) :
    invoke method (args.map (Value.rename ρ)) = invoke method args := by
  unfold invoke
  split
  · rw [any_isText_rename, concat_rename, numbers_rename]
  · rw [numbers_rename]
  · rw [numbers_rename]
  · rw [numbers_rename]
  · rw [numbers_rename, List.length_map]
  · rw [chainEqual_rename]
  · match args with
    | [a, b] => simp only [List.map_cons, List.map_nil, Value.equals_rename]
    | [] => rfl
    | [_] => rfl
    | _ :: _ :: _ :: _ => simp
  · exact compareWith_rename ρ _ args
  · exact compareWith_rename ρ _ args
  · exact compareWith_rename ρ _ args
  · exact compareWith_rename ρ _ args
  · match args with
    | [a] => simp only [List.map_cons, List.map_nil, Value.isTruthy_rename]
    | [] => rfl
    | _ :: _ :: _ => simp
  · exact absurd (by decide) hmethod
  · exact absurd (by decide) hmethod
  · exact absurd (by decide) hmethod
  · rw [sizeOf_rename]
  · rw [sizeOf_rename]
  · rw [concat_rename]
  · rfl

theorem invoke_rename (method : String) (args : List Value) :
    invoke method (args.map (Value.rename ρ)) = (invoke method args).map (Value.rename ρ) := by
  by_cases hmethod : method ∈ handing
  · simp only [handing, List.mem_cons, List.not_mem_nil, or_false] at hmethod
    rcases hmethod with rfl | rfl | rfl
    · simp only [invoke, Except.map, Value.rename, Value.renameAll_eq_map]
    · simp only [invoke, theList_rename]
      cases theList args with
      | error problem => rfl
      | ok items => cases items <;> rfl
    · simp only [invoke, theList_rename]
      cases theList args with
      | error problem => rfl
      | ok items =>
        show Except.ok (Value.list ((items.map (Value.rename ρ)).drop 1)) =
          .ok ((Value.list (items.drop 1)).rename ρ)
        rw [Value.rename, Value.renameAll_eq_map, List.map_drop]
  · rw [invoke_rename_of_computed ρ hmethod]
    cases h : invoke method args with
    | error problem => rfl
    | ok v => exact congrArg Except.ok (Value.rename_of_closures_nil ρ v
      (v.closures_of_isPlain (isPlain_of_computed hmethod h))).symm

end Builtin

/-! ## The standard capabilities -/

namespace Capability

/-- Whatever the arguments, no answer has functions of the program in it. -/
def AnswersData (c : Capability σ) : Prop :=
  ∀ method args w v, (c.invoke method args w).1 = .ok v → v.isPlain = true

theorem AnswersData.honest {c : Capability σ} (h : c.AnswersData) : c.Honest := by
  intro method args w v hv
  have hclosures := v.closures_of_isPlain (h method args w v hv)
  refine ⟨?_, fun _ => hclosures⟩
  rw [hclosures]
  exact nofun

theorem AnswersData.plain {c : Capability σ} (h : c.AnswersData) : c.Plain :=
  fun method args w v _ hv => h method args w v hv

/-- All that is asked of a capability. -/
structure Complies (c : Capability σ) : Prop where
  honest : c.Honest
  blind : c.Blind
  plain : c.Plain

theorem builtins_complies : (builtins (σ := σ)).Complies where
  honest := fun _ _ _ _ hv => ⟨Builtin.closures_of_invoke hv, nofun⟩
  blind := fun ρ method args w => congrArg (·, w) (Builtin.invoke_rename ρ method args)
  plain := fun _ _ _ _ hargs hv => Builtin.isPlain_of_invoke hv hargs

theorem console_complies : console.Complies := by
  have hdata : console.AnswersData := by
    intro method args w v hv
    simp only [console] at hv
    split at hv <;> cases hv
    rfl
  refine ⟨hdata.honest, fun ρ method args w => ?_, hdata.plain⟩
  have hprinted : printed method (args.map (Value.rename ρ)) = printed method args := by
    simp only [printed, List.map_map, Function.comp_def, Value.render_rename]
  simp only [console, hprinted]
  cases printed method args <;> rfl

theorem clock_complies : clock.Complies := by
  have hdata : clock.AnswersData := by
    intro method args w v hv
    simp only [clock] at hv
    split at hv
    · cases hv
    · split at hv <;> cases hv
      rfl
  refine ⟨hdata.honest, fun ρ method args w => ?_, hdata.plain⟩
  simp only [clock, List.isEmpty_map]
  split
  · rfl
  · split <;> rfl

theorem frame_complies (signal : Signal σ) : (frame signal).Complies := by
  have hdata : (frame signal).AnswersData := by
    intro method args w v hv
    simp only [frame] at hv
    split at hv <;> cases hv
    rfl
  refine ⟨hdata.honest, fun ρ method args w => ?_, hdata.plain⟩
  simp only [frame]
  split <;> rfl

end Capability

end LiveLisp
