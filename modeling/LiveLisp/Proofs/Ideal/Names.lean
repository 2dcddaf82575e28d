/-
  Names on both sides. Resolving a name and assigning to it find the same scope in the store and
  among the ideal machine's scopes, whatever the tickets are called (`resolve_agrees`,
  `assign_agrees`). The evaluation rules for parts of an instruction come first.
-/
import LiveLisp.Proofs.Ideal.Mirror
import LiveLisp.Proofs.Machine.Holding

namespace LiveLisp

variable {σ : Type}

/-! ## Running parts of an instruction -/

namespace Exec

variable {α : Type} {c : Context} {fs : FunctionTable} {s s' : Store} {b : Nat} {w : σ}

theorem onStore_of_ok {x : StoreM α} {a : α} (h : x s = .ok a s') :
    Exec.onStore x ⟨⟨c, ⟨fs, s⟩, b⟩, w⟩ = .ok a ⟨⟨c, ⟨fs, s'⟩, b⟩, w⟩ := by
  simp only [Exec.onStore, onMachine, Machine.onStore, Machine.onMemory, Memory.onStore, h]

theorem onMemory_of_ok {x : MemoryM α} {a : α} {memory memory' : Memory}
    (h : x memory = .ok a memory') :
    Exec.onMemory x ⟨⟨c, memory, b⟩, w⟩ = .ok a ⟨⟨c, memory', b⟩, w⟩ := by
  simp only [Exec.onMemory, onMachine, Machine.onMemory, h]

theorem onMemory_of_error {x : MemoryM α} {e : Error} {memory memory' : Memory}
    (h : x memory = .error e memory') :
    Exec.onMemory x ⟨⟨c, memory, b⟩, w⟩ = .error e ⟨⟨c, memory', b⟩, w⟩ := by
  simp only [Exec.onMemory, onMachine, Machine.onMemory, h]

theorem locatedAt_of_ok {x : Exec σ α} {a : α} {r r' : Running σ} (origin : Span)
    (h : x r = .ok a r') :
    locatedAt origin x r = .ok a r' := by
  simp only [locatedAt, h]

theorem locatedAt_of_error {x : Exec σ α} {e : Error} {r r' : Running σ} (origin : Span)
    (h : x r = .error e r') :
    locatedAt origin x r = .error (e.located origin) r' := by
  simp only [locatedAt, h]

theorem context_bind (f : Context → Exec σ α) (r : Running σ) :
    (context >>= f) r = f r.machine.context r := rfl

/-- Letting go of values one after the other, whose counts somebody holds. -/
theorem releaseAll_exact {held : List Ticket} (c : Context) (fs : FunctionTable) (b : Nat) (w : σ)
    (values : List Value) (h : s.Exact (values.flatMap Value.scopes ++ held)) :
    ∃ s', (values.forM fun v => Exec.onStore (Store.release v)) ⟨⟨c, ⟨fs, s⟩, b⟩, w⟩ =
        .ok ⟨⟩ ⟨⟨c, ⟨fs, s'⟩, b⟩, w⟩ ∧
      s'.Exact held ∧ View.Remains s'.scope? s.scope? := by
  have hloop := forM_of_turns (f := fun v => Exec.onStore (σ := σ) (Store.release v))
    (P := fun left r => ∃ s', r = ⟨⟨c, ⟨fs, s'⟩, b⟩, w⟩ ∧
      s'.Exact (left.flatMap Value.scopes ++ held) ∧
      View.Remains s'.scope? s.scope?) ?_ values _ ⟨s, rfl, h, .refl h.closed⟩
  · obtain ⟨r, hok, s', rfl, hexact, hremains⟩ := hloop
    exact ⟨s', hok, hexact, hremains⟩
  · rintro v left r ⟨s₁, rfl, hexact, hremains⟩
    rw [List.flatMap_cons, List.append_assoc] at hexact
    obtain ⟨s₂, hrelease, hexact', hremains'⟩ := Store.release_exact hexact
    exact ⟨_, onStore_of_ok hrelease, s₂, rfl, hexact', hremains'.trans hremains⟩

end Exec

/-! ## Names -/

section Names

variable {swept : Nat → Prop} {ρ : Ticket → Ticket} {m : Machine} {fs : FunctionTable} {s : Store}
  {scopes : Array Scope} {held : List Ticket} {env : Environment}

theorem lookup?_eq (hm : Mirrors swept ρ s.scope? scopes) {name : String} {t u : Ticket}
    {sc : Scope} (howns : View.Owns s.scope? name t (some u)) (hu : s.scope? u = some sc) :
    Ideal.lookup? scopes name (ρ t) = (sc.bindings.get? name).map (Value.rename ρ) := by
  unfold Ideal.lookup?
  rw [hm.ownerOf_eq howns]
  simp [hm.content u sc hu, Scope.rename]

theorem lookup?_none (hm : Mirrors swept ρ s.scope? scopes) {name : String} {t : Ticket}
    (howns : View.Owns s.scope? name t none) : Ideal.lookup? scopes name (ρ t) = none := by
  unfold Ideal.lookup?
  rw [hm.ownerOf_eq howns]
  rfl

theorem known?_rename (owner? : String → Option Owner) (name : String) :
    (fs.rename ρ).known? owner? name = fs.known? owner? name := by
  simp only [FunctionTable.known?, FunctionTable.rename, NameMap.contains_mapValues]

theorem closures_of_known? {owner? : String → Option Owner} {name : String} {v : Value}
    (h : fs.known? owner? name = some v) : v.closures = [] := by
  unfold FunctionTable.known? at h
  split at h
  · cases h
    rfl
  · split at h
    · cases h
      rfl
    · cases h

/-- A name that no scope of the environment binds. -/
theorem resolve_of_unbound {owner? : String → Option Owner} {name : String}
    (h : ∀ t, env.scope = some t → Store.lookup t name s = .ok none s) :
    env.resolve owner? name ⟨fs, s⟩ = .ok (fs.known? owner? name) ⟨fs, s⟩ := by
  have houtside :
    Environment.resolve ⟨none⟩ owner? name ⟨fs, s⟩ = .ok (fs.known? owner? name) ⟨fs, s⟩ := by
    unfold Environment.resolve FunctionTable.known?
    cases owner? name with
    | some owner => rfl
    | none =>
      simp only [pure_bind, get_bind]
      split <;> rfl
  unfold Environment.resolve
  cases hs : env.scope with
  | none => exact houtside
  | some t => exact (bind_of_ok (Memory.onStore_of_ok (h t hs))).trans houtside

/-- Resolving a name answers the same value on both sides; whoever asked holds a count of it. -/
theorem resolve_agrees {r : Ideal} (hx : s.Exact held) (hm : Mirrors swept ρ s.scope? r.scopes)
    (hfs : r.functions = fs.rename ρ) (hlive : ∀ t, env.scope = some t → s.contains t)
    (owner? : String → Option Owner) (name : String) :
    ∃ found s', env.resolve owner? name ⟨fs, s⟩ = .ok found ⟨fs, s'⟩ ∧
      r.resolve? owner? (env.rename ρ) name = found.map (Value.rename ρ) ∧
      s'.Exact ((found.map Value.scopes).getD [] ++ held) ∧ s'.scope? = s.scope? ∧
        (found = none → s' = s) := by
  have houtside : ∀ found, fs.known? owner? name = found →
      (fs.rename ρ).known? owner? name = found.map (Value.rename ρ) ∧
        (found.map Value.scopes).getD [] = [] := by
    intro found hfound
    rw [known?_rename, hfound]
    cases found with
    | none => exact ⟨rfl, rfl⟩
    | some v =>
      have hv := closures_of_known? hfound
      simp [Value.rename_of_closures_nil ρ v hv, Value.scopes_eq_closures, hv]
  obtain ⟨hrenamed, hnone⟩ := houtside _ rfl
  unfold Ideal.resolve? Environment.rename
  rw [hfs]
  cases hs : env.scope with
  | none =>
    refine ⟨_, s, resolve_of_unbound (by simp [hs]), ?_, ?_, rfl, fun _ => rfl⟩
    · simpa using hrenamed
    · rw [hnone]
      exact hx
  | some t =>
    rcases Store.lookup_exact hx name (hlive t hs) with
      ⟨howns, hlookup⟩ | ⟨u, sc, v, s', howns, hu, hv, hlookup, hexact, hsame⟩
    · refine ⟨_, s, resolve_of_unbound fun t' ht' => ?_, ?_, ?_, rfl, fun _ => rfl⟩
      · rw [hs] at ht'
        cases ht'
        exact hlookup
      · simpa [lookup?_none hm howns] using hrenamed
      · rw [hnone]
        exact hx
    · refine ⟨some v, s', ?_, ?_, hexact, funext hsame, fun h => nomatch h⟩
      · unfold Environment.resolve
        rw [hs]
        exact bind_of_ok (Memory.onStore_of_ok hlookup)
      · simp [lookup?_eq hm howns hu, hv]

/-- An assignment finds the same scope on both sides, or none on either. -/
theorem assign_agrees {r : Ideal} (hx : s.Exact held) (hm : Mirrors swept ρ s.scope? r.scopes)
    (hfs : r.functions = fs.rename ρ) (hlive : ∀ t, env.scope = some t → s.contains t) {v : Value}
    (hv : ∀ u ∈ v.scopes, s.contains u) (owner? : String → Option Owner)
    (name : String) (origin : Span) :
    (∃ s' scopes', env.assign owner? name v ⟨fs, s⟩ = .ok () ⟨fs, s'⟩ ∧
      r.assign owner? (env.rename ρ) name (v.rename ρ) origin = .ok { r with scopes := scopes' } ∧
      s'.Exact held ∧ Mirrors swept ρ s'.scope? scopes') ∨
    (∃ problem, env.assign owner? name v ⟨fs, s⟩ = .error (.runtime problem none) ⟨fs, s⟩ ∧
      r.assign owner? (env.rename ρ) name (v.rename ρ) origin =
        .error (.runtime problem (some origin))) := by
  have hunbound : (∀ t, env.scope = some t → View.Owns s.scope? name t none ∧
      Store.assign t name v s = .ok false s) → ∃ problem,
      env.assign owner? name v ⟨fs, s⟩ = .error (.runtime problem none) ⟨fs, s⟩ ∧
      r.assign owner? (env.rename ρ) name (v.rename ρ) origin =
        .error (.runtime problem (some origin)) := by
    intro h
    have howner : (env.rename ρ).scope.bind (Ideal.ownerOf r.scopes name) = none := by
      unfold Environment.rename
      cases hs : env.scope with
      | none => rfl
      | some t => simp [hm.ownerOf_eq (h t hs).1]
    have hrest : env.assign owner? name v ⟨fs, s⟩ =
        (if (owner? name).isSome || fs.entries.contains name
          then throw (.runtime (.immutable name) none)
          else throw (.runtime (.unassignable name) none) : MemoryM Unit) ⟨fs, s⟩ := by
      unfold Environment.assign
      cases hs : env.scope with
      | none => rfl
      | some t => exact bind_of_ok (Memory.onStore_of_ok (h t hs).2)
    unfold Ideal.assign
    rw [hrest, howner, hfs]
    simp only [FunctionTable.rename, NameMap.contains_mapValues]
    split
    · exact ⟨.immutable name, rfl, rfl⟩
    · exact ⟨.unassignable name, rfl, rfl⟩
  cases hs : env.scope with
  | none => exact .inr (hunbound (by simp [hs]))
  | some t =>
    rcases Store.assign_exact hx name (hlive t hs) hv with
      ⟨howns, hassign⟩ | ⟨u, s', howns, hassign, hexact, hremains⟩
    · refine .inr (hunbound fun t' ht' => ?_)
      rw [hs] at ht'
      cases ht'
      exact ⟨howns, hassign⟩
    · obtain ⟨sc, -, hu, -⟩ := Store.scope?_of_owns howns
      have hbound := hm.bind hu name fun u hu => Store.exists_scope?_of_contains (hv u hu)
      refine .inl ⟨s', _, ?_, ?_, hexact, hbound.mono hremains⟩
      · unfold Environment.assign
        rw [hs]
        exact bind_of_ok (Memory.onStore_of_ok hassign)
      · unfold Ideal.assign Environment.rename
        rw [hs]
        simp only [Option.map_some, Option.bind_some, hm.ownerOf_eq howns]
        rfl

end Names

end LiveLisp
