/-
  Instruction by instruction the machine does what the ideal machine does: given exact counts, it
  succeeds when the ideal one does and then follows its new state, and it fails with the same error
  when the ideal one fails, with its own state unchanged (`execute_agrees`).

  The host's reply is the same on both sides up to the map of tickets. Constants have to be free of
  closures, which the compiler sees to, and the scopes in a reply have to be good, which a host sees
  to that answers from its arguments.
-/
import LiveLisp.Proofs.Ideal.Names

namespace LiveLisp

variable {σ : Type}

/-- The real outcome of an instruction is the ideal one: success in a machine that follows, or the
same failure with nothing changed but the world. -/
def Agrees (swept : Nat → Prop) (m : Machine) (w : σ) (ideal : Except Error (Flow × Ideal))
    (real : EStateM.Result Error (Running σ) Flow) : Prop :=
  match ideal with
  | .ok (flow, r) => ∃ m', real = .ok flow ⟨m', w⟩ ∧ m'.FollowsSince swept r
  | .error e => real = .error e ⟨m, w⟩

theorem Agrees.inv {swept : Nat → Prop} {m : Machine} {w : σ} {ideal : Except Error (Flow × Ideal)}
    {real : EStateM.Result Error (Running σ) Flow} (h : Agrees swept m w ideal real) :
    (∃ flow r m', ideal = .ok (flow, r) ∧ real = .ok flow ⟨m', w⟩ ∧ m'.FollowsSince swept r) ∨
    (∃ e, ideal = .error e ∧ real = .error e ⟨m, w⟩) := by
  cases ideal with
  | ok pair =>
    obtain ⟨m', hreal, hfollows⟩ := h
    exact .inl ⟨pair.1, pair.2, m', rfl, hreal, hfollows⟩
  | error e => exact .inr ⟨e, rfl, h⟩

/-- No closures among the operands of an instruction. -/
def Op.Clean : Op → Prop
  | .loadConstant v => v.closures = []
  | .push v => v.closures = []
  | _ => True

section Holders

variable {pcs : List Nat} {frames : List Code} {envs : List Environment} {values : List Value}
  {done : Bool} {s : Store} {held : List Ticket} {env : Environment}

theorem exact_values_cons {v : Value} :
    s.Exact ((Context.mk pcs frames envs (v :: values) done).scopes ++ held) ↔
      s.Exact (v.scopes ++ ((Context.mk pcs frames envs values done).scopes ++ held)) := by
  have hcount : ∀ u, ((Context.mk pcs frames envs (v :: values) done).scopes ++ held).count u =
      (v.scopes ++ ((Context.mk pcs frames envs values done).scopes ++ held)).count u := by
    intro u
    simp only [List.count_append, Context.count_scopes, List.flatMap_cons]
    omega
  exact ⟨fun h => h.congr fun u => (hcount u).symm, fun h => h.congr hcount⟩

theorem exact_environments_cons :
    s.Exact ((Context.mk pcs frames (env :: envs) values done).scopes ++ held) ↔
      s.Exact (env.scope.toList ++ ((Context.mk pcs frames envs values done).scopes ++ held)) := by
  have hcount : ∀ u, ((Context.mk pcs frames (env :: envs) values done).scopes ++ held).count u =
      (env.scope.toList ++ ((Context.mk pcs frames envs values done).scopes ++ held)).count u := by
    intro u
    simp only [List.count_append, Context.count_scopes, List.flatMap_cons]
    omega
  exact ⟨fun h => h.congr fun u => (hcount u).symm, fun h => h.congr hcount⟩

theorem live_of_environment {c : Context} (hx : s.Exact (c.scopes ++ held))
    (henv : env ∈ c.environments) (t : Ticket) (ht : env.scope = some t) : s.contains t := by
  refine hx.held_live t (List.mem_append_left _ ((c.mem_scopes t).mpr (.inl ?_)))
  exact List.mem_flatMap.mpr ⟨env, henv, by simp [ht]⟩

theorem live_of_value {c : Context} (hx : s.Exact (c.scopes ++ held)) {v : Value}
    (hv : v ∈ c.values) (u : Ticket) (hu : u ∈ v.scopes) : s.contains u :=
  hx.held_live u (List.mem_append_left _
    ((c.mem_scopes u).mpr (.inr (List.mem_flatMap.mpr ⟨v, hv, hu⟩))))

end Holders

section Instructions

variable {swept : Nat → Prop} {ρ : Ticket → Ticket} {m : Machine} {scopes : Array Scope} {w : σ}
  {host : Host σ}
  {reply : Except HostProblem Value} {pc : Nat} {env : Environment} {origin : Span}
  (hx : m.memory.store.Exact m.roots) (hm : Mirrors swept ρ m.memory.store.scope? scopes)

include hx hm

/-- A constant without closures is pushed as it is. -/
theorem constant_agrees {v : Value} (hv : v.closures = []) {op : Op}
    (hop : op = .loadConstant v ∨ op = .push v) :
    Agrees swept m w
      (Ideal.execute (m.image ρ scopes) host.owner? reply pc (env.rename ρ) origin op)
      (Exec.execute host pc env origin op ⟨m, w⟩) := by
  obtain ⟨⟨pcs, frames, envs, values, done⟩, ⟨fs, s⟩, b⟩ := m
  have hscopes : v.scopes = [] := by rw [Value.scopes_eq_closures, hv]; rfl
  obtain ⟨s', hretain, hexact, hsame⟩ := Store.retain_exact (v := v) hx (by simp [hscopes])
  have hpush := Machine.follows_of (m := ⟨⟨pcs, frames, envs, v :: values, done⟩, ⟨fs, s'⟩, b⟩)
    (exact_values_cons.mpr hexact) (hm.mono (.of_eq hsame hexact.closed))
  unfold Machine.image Context.rename at hpush
  rw [List.map_cons, Value.rename_of_closures_nil ρ v hv] at hpush
  rcases hop with rfl | rfl
  · exact ⟨_, bind_of_ok (Exec.onStore_of_ok hretain), hpush⟩
  · exact ⟨_, bind_of_ok (Exec.onStore_of_ok hretain), hpush⟩

theorem pop_agrees :
    Agrees swept m w
      (Ideal.execute (m.image ρ scopes) host.owner? reply pc (env.rename ρ) origin .pop)
      (Exec.execute host pc env origin .pop ⟨m, w⟩) := by
  obtain ⟨⟨pcs, frames, envs, values, done⟩, ⟨fs, s⟩, b⟩ := m
  cases values with
  | nil => rfl
  | cons v rest =>
    obtain ⟨s', hrelease, hexact, hremains⟩ := Store.release_exact (exact_values_cons.mp hx)
    refine ⟨_, bind_of_ok (f := fun _ => pure Flow.advance) (Exec.onStore_of_ok hrelease), ?_⟩
    exact Machine.follows_of hexact (hm.mono hremains)

theorem nameLookup_agrees (henv : env ∈ m.context.environments) (name : String) :
    Agrees swept m w (Ideal.execute (m.image ρ scopes) host.owner? reply pc (env.rename ρ) origin
      (.nameLookup name)) (Exec.execute host pc env origin (.nameLookup name) ⟨m, w⟩) := by
  obtain ⟨found, s', hresolve, hideal, hexact, hsame, hkept⟩ :=
    resolve_agrees (r := m.image ρ scopes) hx hm rfl (live_of_environment hx henv) host.owner? name
  obtain ⟨⟨pcs, frames, envs, values, done⟩, ⟨fs, s⟩, b⟩ := m
  simp only [Ideal.execute, Exec.execute]
  rw [hideal]
  cases found with
  | none =>
    cases hkept rfl
    have hlookup :
      env.lookup host.owner? name ⟨fs, s⟩ = .error (.runtime (.notDefined name) none) ⟨fs, s⟩ :=
      bind_of_ok hresolve
    exact bind_of_error (Exec.locatedAt_of_error origin (Exec.onMemory_of_error hlookup))
  | some v =>
    have hlookup : env.lookup host.owner? name ⟨fs, s⟩ = .ok v ⟨fs, s'⟩ := bind_of_ok hresolve
    refine ⟨_, bind_of_ok (Exec.locatedAt_of_ok origin (Exec.onMemory_of_ok hlookup)), ?_⟩
    exact Machine.follows_of (exact_values_cons.mpr hexact)
      (hm.mono (.of_eq (congrFun hsame) hexact.closed))

theorem functionLookup_agrees (henv : env ∈ m.context.environments) (name : String) :
    Agrees swept m w (Ideal.execute (m.image ρ scopes) host.owner? reply pc (env.rename ρ) origin
      (.functionLookup name)) (Exec.execute host pc env origin (.functionLookup name) ⟨m, w⟩) := by
  obtain ⟨found, s', hresolve, hideal, hexact, hsame, hkept⟩ :=
    resolve_agrees (r := m.image ρ scopes) hx hm rfl (live_of_environment hx henv) host.owner? name
  obtain ⟨⟨pcs, frames, envs, values, done⟩, ⟨fs, s⟩, b⟩ := m
  simp only [Ideal.execute, Exec.execute]
  rw [hideal, bind_of_ok (Exec.onMemory_of_ok hresolve)]
  cases found with
  | none =>
    cases hkept rfl
    rfl
  | some v =>
    exact ⟨_, rfl, Machine.follows_of (exact_values_cons.mpr hexact)
      (hm.mono (.of_eq (congrFun hsame) hexact.closed))⟩

theorem storeNew_agrees (henv : env ∈ m.context.environments) (name : String) :
    Agrees swept m w (Ideal.execute (m.image ρ scopes) host.owner? reply pc
      (env.rename ρ) origin (.storeNew name))
      (Exec.execute host pc env origin (.storeNew name) ⟨m, w⟩) := by
  obtain ⟨⟨pcs, frames, envs, values, done⟩, ⟨fs, s⟩, b⟩ := m
  cases values with
  | nil => rfl
  | cons v rest =>
    have hv : ∀ u ∈ v.scopes, s.contains u := live_of_value hx (List.mem_cons_self ..)
    obtain ⟨scope⟩ := env
    cases scope with
    | none => rfl
    | some t =>
      have ht : s.contains t := live_of_environment hx henv t rfl
      obtain ⟨sc, hsc⟩ := Store.exists_scope?_of_contains ht
      obtain ⟨s', hdefine, hexact, hremains⟩ := Store.define_exact name hx ht hv
      refine ⟨_, bind_of_ok (f := fun _ => pure Flow.advance) (Exec.onStore_of_ok hdefine), ?_⟩
      have hbound := hm.bind hsc name fun u hu => Store.exists_scope?_of_contains (hv u hu)
      exact Machine.follows_of hexact (hbound.mono hremains)

theorem store_agrees (henv : env ∈ m.context.environments) (name : String) :
    Agrees swept m w (Ideal.execute (m.image ρ scopes) host.owner? reply pc
      (env.rename ρ) origin (.store name))
      (Exec.execute host pc env origin (.store name) ⟨m, w⟩) := by
  obtain ⟨⟨pcs, frames, envs, values, done⟩, ⟨fs, s⟩, b⟩ := m
  cases values with
  | nil => rfl
  | cons v rest =>
    have hv : ∀ u ∈ v.scopes, s.contains u := live_of_value hx (List.mem_cons_self ..)
    have hrun : Exec.execute host pc env origin (.store name)
        ⟨⟨⟨pcs, frames, envs, v :: rest, done⟩, ⟨fs, s⟩, b⟩, w⟩ =
        (Exec.locatedAt origin (Exec.onMemory (env.assign host.owner? name v)) >>= fun _ =>
          pure Flow.advance)
          ⟨⟨⟨pcs, frames, envs, v :: rest, done⟩, ⟨fs, s⟩, b⟩, w⟩ := rfl
    have hideal : Ideal.execute (Machine.image ρ ⟨⟨pcs, frames, envs, v :: rest, done⟩, ⟨fs, s⟩,
      b⟩ scopes) host.owner?
        reply pc (env.rename ρ) origin (.store name) = (do
          return (.advance, ← Ideal.assign
            (Machine.image ρ ⟨⟨pcs, frames, envs, v :: rest, done⟩, ⟨fs, s⟩, b⟩ scopes)
            host.owner? (env.rename ρ) name (v.rename ρ) origin)) := rfl
    rw [hrun, hideal]
    rcases assign_agrees (r := Machine.image ρ ⟨⟨pcs, frames, envs, v :: rest, done⟩, ⟨fs, s⟩,
      b⟩ scopes) hx hm rfl
        (live_of_environment hx henv) hv host.owner? name origin with
      ⟨s', scopes', hassign, hok, hexact, hm'⟩ | ⟨problem, hassign, hfail⟩
    · rw [hok, bind_of_ok (Exec.locatedAt_of_ok origin (Exec.onMemory_of_ok hassign))]
      exact ⟨_, rfl, Machine.follows_of hexact hm'⟩
    · rw [hfail, bind_of_error (Exec.locatedAt_of_error origin (Exec.onMemory_of_error hassign))]
      rfl

omit hx hm in
theorem jumpTarget_eq (pc : Nat) (offset : Int) (r : Running σ) :
    Exec.jumpTarget pc offset r =
      match Ideal.jumpTarget pc offset with
      | .ok target => .ok target r
      | .error e => .error e r := by
  unfold Exec.jumpTarget Ideal.jumpTarget
  cases (pc : Int) + offset <;> rfl

theorem jump_agrees (offset : Int) :
    Agrees swept m w (Ideal.execute (m.image ρ scopes) host.owner? reply pc
      (env.rename ρ) origin (.jump offset))
      (Exec.execute host pc env origin (.jump offset) ⟨m, w⟩) := by
  have htarget := jumpTarget_eq pc offset ⟨m, w⟩
  simp only [Ideal.execute, Exec.execute]
  cases hj : Ideal.jumpTarget pc offset with
  | error e =>
    rw [hj] at htarget
    exact bind_of_error htarget
  | ok target =>
    rw [hj] at htarget
    exact ⟨m, bind_of_ok htarget, Machine.follows_of hx hm⟩

theorem jumpIfNot_agrees (offset : Int) :
    Agrees swept m w (Ideal.execute (m.image ρ scopes) host.owner? reply pc (env.rename ρ) origin
      (.jumpIfNot offset)) (Exec.execute host pc env origin (.jumpIfNot offset) ⟨m, w⟩) := by
  have htarget := jumpTarget_eq pc offset ⟨m, w⟩
  simp only [Ideal.execute, Exec.execute]
  cases hj : Ideal.jumpTarget pc offset with
  | error e =>
    rw [hj] at htarget
    exact bind_of_error htarget
  | ok target =>
    rw [hj] at htarget
    rw [bind_of_ok htarget]
    obtain ⟨⟨pcs, frames, envs, values, done⟩, ⟨fs, s⟩, b⟩ := m
    cases values with
    | nil => rfl
    | cons v rest =>
      obtain ⟨s', hrelease, hexact, hremains⟩ := Store.release_exact (exact_values_cons.mp hx)
      refine ⟨_, ?_, Machine.follows_of (m := ⟨⟨pcs, frames, envs, rest, done⟩, ⟨fs, s'⟩, b⟩) hexact
        (hm.mono hremains)⟩
      rw [Value.isTruthy_rename]
      exact bind_of_ok (f := fun _ => pure (if v.isTruthy then Flow.advance else .jump target))
        (Exec.onStore_of_ok hrelease)

omit hx hm in
theorem enroll_rename (fs : FunctionTable) (name : String) (params : List String) (code : Code) :
    (fs.enroll name params code env).rename ρ = (fs.rename ρ).enroll name params code
    (env.rename ρ) := by
  unfold FunctionTable.enroll FunctionTable.rename
  simp only [NameMap.mapValues_put]
  rfl

theorem buildFunction_agrees (henv : env ∈ m.context.environments) (name : Option String) :
    Agrees swept m w (Ideal.execute (m.image ρ scopes) host.owner? reply pc (env.rename ρ) origin
      (.buildFunction name)) (Exec.execute host pc env origin (.buildFunction name) ⟨m, w⟩) := by
  have hlive := live_of_environment hx henv
  obtain ⟨⟨pcs, frames, envs, values, done⟩, ⟨fs, s⟩, b⟩ := m
  cases values with
  | nil => rfl
  | cons top values =>
    cases top with
    | code code =>
      cases values with
      | nil => rfl
      | cons second rest =>
        cases second with
        | params params =>
          have hrest : s.Exact ((Context.mk pcs frames envs rest done).scopes ++ fs.scopes) :=
            exact_values_cons.mp (exact_values_cons.mp hx)
          cases name with
          | some name =>
            obtain ⟨s', hregister, hexact, hremains⟩ :=
              Memory.register_exact name params code hrest hlive
            refine ⟨_, bind_of_ok (Exec.onMemory_of_ok hregister), ?_⟩
            have hfollows := Machine.follows_of
              (m := ⟨⟨pcs, frames, envs, .named name :: rest, done⟩,
                ⟨fs.enroll name params code env, s'⟩, b⟩)
              (exact_values_cons.mpr hexact) (hm.mono hremains)
            unfold Machine.image at hfollows
            rw [enroll_rename] at hfollows
            exact hfollows
          | none =>
            obtain ⟨s', hretain, hexact, hsame⟩ :=
              Store.retain_exact (v := .closure (.built b) params code env.scope) hrest fun u hu =>
                hlive u (by simpa [Value.scopes] using hu)
            refine ⟨_, bind_of_ok (Exec.locatedAt_of_ok origin (Exec.onStore_of_ok hretain)), ?_⟩
            exact Machine.follows_of (m := ⟨⟨pcs, frames, envs, _ :: rest, done⟩, ⟨fs, s'⟩, b + 1⟩)
              (exact_values_cons.mpr hexact) (hm.mono (.of_eq hsame hexact.closed))
        | _ => rfl
    | _ => rfl

theorem ret_agrees (henv : env ∈ m.context.environments) :
    Agrees swept m w
      (Ideal.execute (m.image ρ scopes) host.owner? reply pc (env.rename ρ) origin .ret)
      (Exec.execute host pc env origin .ret ⟨m, w⟩) := by
  obtain ⟨⟨pcs, frames, envs, values, done⟩, ⟨fs, s⟩, b⟩ := m
  cases envs with
  | nil => cases henv
  | cons top envs =>
    obtain ⟨s', hrelease, hexact, hremains⟩ :=
      Environment.release_exact (exact_environments_cons.mp hx)
    -- only whether a frame is left below the top one makes a difference
    rcases frames with _ | ⟨frame, _ | ⟨next, rest⟩⟩
    · exact ⟨_, bind_of_ok (Exec.onStore_of_ok hrelease),
        Machine.follows_of (m := ⟨⟨pcs.tail, [], envs, values, true⟩, ⟨fs, s'⟩, b⟩) hexact
          (hm.mono hremains)⟩
    · exact ⟨_, bind_of_ok (Exec.onStore_of_ok hrelease),
        Machine.follows_of (m := ⟨⟨pcs.tail, [], envs, values, true⟩, ⟨fs, s'⟩, b⟩) hexact
          (hm.mono hremains)⟩
    · exact ⟨_, bind_of_ok (Exec.onStore_of_ok hrelease),
        Machine.follows_of (m := ⟨⟨pcs.tail, next :: rest, envs, values, done⟩, ⟨fs, s'⟩, b⟩) hexact
          (hm.mono hremains)⟩

omit hx hm in
/-- The operands of a call, taken off the stack. -/
theorem count_operands {args rest values : List Value} {callee : Value}
    (h : values = args.reverse ++ callee :: rest) (u : Ticket) :
      (values.flatMap Value.scopes).count u =
      (args.flatMap Value.scopes).count u +
      (callee.scopes.count u + (rest.flatMap Value.scopes).count u) := by
  rw [h, List.flatMap_append, List.count_append,
    ((List.reverse_perm args).flatMap_right _).count_eq, List.flatMap_cons, List.count_append]

theorem callHost_agrees {args rest : List Value} {callee : Value} (owner : Owner) (method : String)
    (hvalues : m.context.values = args.reverse ++ callee :: rest)
    (hreply : ∀ v, (host.invoke owner method args w).1 = .ok v →
      ∀ u ∈ v.scopes, m.memory.store.contains u) :
    Agrees swept m (host.invoke owner method args w).2
      (match (host.invoke owner method args w).1.map (Value.rename ρ) with
        | .ok v => .ok (.advance, (m.image ρ scopes).setValues (v :: rest.map (Value.rename ρ)))
        | .error problem => .error (.runtime (.host method problem) (some origin)))
      (Exec.callHost host owner method callee args rest origin ⟨m, w⟩) := by
  unfold Exec.callHost
  rw [get_bind]
  simp only [set_bind]
  cases hanswer : (host.invoke owner method args w).1 with
  | error problem => rfl
  | ok v =>
    obtain ⟨⟨pcs, frames, envs, values, done⟩, ⟨fs, s⟩, b⟩ := m
    obtain ⟨s₁, hretain, hexact, hsame⟩ := Store.retain_exact hx (hreply v hanswer)
    have hmoved : s₁.Exact ((callee :: args).flatMap Value.scopes ++
        (v.scopes ++ ((Context.mk pcs frames envs rest done).scopes ++ fs.scopes))) := by
      refine hexact.congr fun u => ?_
      have := count_operands (show values = _ from hvalues) u
      simp only [Machine.roots, List.count_append, Context.count_scopes, List.flatMap_cons]
      omega
    obtain ⟨s₂, hrelease, hexact', hremains⟩ := Exec.releaseAll_exact
      ⟨pcs, frames, envs, rest, done⟩ fs b (host.invoke owner method args w).2
        (callee :: args) hmoved
    refine ⟨⟨⟨pcs, frames, envs, v :: rest, done⟩, ⟨fs, s₂⟩, b⟩, ?_, ?_⟩
    · refine (bind_of_ok (Exec.onStore_of_ok hretain)).trans ?_
      exact bind_of_ok (f := fun _ => Exec.pushValue v >>= fun _ => pure Flow.advance) hrelease
    · exact Machine.follows_of (m := ⟨⟨pcs, frames, envs, v :: rest, done⟩, ⟨fs, s₂⟩, b⟩)
        (exact_values_cons.mpr hexact') (hm.mono (hremains.trans (.of_eq hsame hexact.closed)))

omit hx hm in
/-- A call in tail position leaves its own frame first. -/
theorem dropFrame_exact {c : Context} {fs : FunctionTable} {s : Store} {b : Nat}
    {held : List Ticket} (tail : Bool) (h : s.Exact (held ++ (c.scopes ++ fs.scopes))) :
    ∃ s', (if tail then Exec.dropFrame else pure ()) ⟨⟨c, ⟨fs, s⟩, b⟩, w⟩ =
        .ok () ⟨⟨if tail then c.dropFrame else c, ⟨fs, s'⟩, b⟩, w⟩ ∧
      s'.Exact (held ++ ((if tail then c.dropFrame else c).scopes ++ fs.scopes)) ∧
      View.Remains s'.scope? s.scope? := by
  cases tail with
  | false => exact ⟨s, rfl, h, .refl h.closed⟩
  | true =>
    obtain ⟨pcs, frames, envs, values, done⟩ := c
    cases envs with
    | nil => exact ⟨s, rfl, h, .refl h.closed⟩
    | cons top envs =>
      have hmoved : s.Exact (top.scope.toList ++ (held ++
          ((Context.mk pcs.tail frames.tail envs values done).scopes ++ fs.scopes))) := by
        refine h.congr fun u => ?_
        simp only [List.count_append, Context.count_scopes, List.flatMap_cons]
        omega
      obtain ⟨s', hrelease, hexact, hremains⟩ := Environment.release_exact hmoved
      exact ⟨s', bind_of_ok (Exec.onStore_of_ok hrelease), hexact, hremains⟩

omit hm in
/-- The roots are good, so a ticket that is not good yet is not among them. -/
theorem not_mem_roots {t : Ticket} (hnew : m.memory.store.scope? t = none) : t ∉ m.roots := by
  intro ht
  obtain ⟨sc, hsc⟩ := Store.exists_scope?_of_contains (hx.held_live t ht)
  cases hnew.symm.trans hsc

omit hx hm in
theorem rename_putAll (params : List String) (args : List Value) (parent : Option Ticket) :
    Scope.rename ρ ⟨NameMap.putAll [] (params.zip args), parent⟩ =
      ⟨NameMap.putAll [] (params.zip (args.map (Value.rename ρ))), parent.map ρ⟩ := by
  unfold Scope.rename
  simp only [NameMap.mapValues_putAll, List.zip_map_right]
  rfl

omit hx hm in
/-- The context that a call goes on from: without its operands, and without its own frame in tail
position. -/
def caller (tail : Bool) (c : Context) (rest : List Value) : Context :=
  if tail then { c with values := rest }.dropFrame else { c with values := rest }

omit hx hm in
theorem mem_scopes_caller {tail : Bool} {c : Context} {rest : List Value}
    (hrest : ∀ v ∈ rest, v ∈ c.values) {u : Ticket}
    (hu : u ∈ (caller tail c rest).scopes) : u ∈ c.scopes := by
  rw [Context.mem_scopes] at hu ⊢
  rcases hu with hu | hu
  · refine .inl ?_
    obtain ⟨e, he, hu⟩ := List.mem_flatMap.mp hu
    refine List.mem_flatMap.mpr ⟨e, ?_, hu⟩
    cases tail with
    | false => exact he
    | true => exact List.mem_of_mem_tail he
  · refine .inr ?_
    obtain ⟨v, hv, hu⟩ := List.mem_flatMap.mp hu
    refine List.mem_flatMap.mpr ⟨v, hrest v ?_, hu⟩
    cases tail <;> exact hv

omit hx hm in
/-- A frame on a ticket that nothing else mentions, under the map that gives the ticket its number.
-/
theorem image_pushFrame {c : Context} {fs : FunctionTable} {s : Store} {b number : Nat} {t : Ticket}
    (hc : t ∉ c.scopes) (hfs : t ∉ fs.scopes) (code : Code) :
    Machine.image (extendMap ρ t number) ⟨c.pushFrame code ⟨some t⟩, ⟨fs, s⟩, b⟩ scopes =
      ⟨(c.rename ρ).pushFrame code ⟨some ⟨number, 0⟩⟩, fs.rename ρ, scopes, b⟩ := by
  have hcontext : c.rename (extendMap ρ t number) = c.rename ρ :=
    Context.rename_congr fun u hu => extendMap_of_ne fun e => hc (e ▸ hu)
  have hfunctions : fs.rename (extendMap ρ t number) = fs.rename ρ :=
    FunctionTable.rename_congr fun u hu => extendMap_of_ne fun e => hfs (e ▸ hu)
  unfold Machine.image
  rw [hfunctions, ← hcontext]
  simp [Context.pushFrame, Context.rename, Environment.rename, extendMap_self]

omit hx hm in
theorem enter_image (tail : Bool) (params : List String) (code : Code) (args rest : List Value) :
    (m.image ρ scopes).enter tail params code (env.rename ρ) (args.map (Value.rename ρ))
        (rest.map (Value.rename ρ)) =
      ⟨((caller tail m.context rest).rename ρ).pushFrame code ⟨some ⟨scopes.size, 0⟩⟩,
        m.memory.functions.rename ρ,
        scopes.push (Scope.rename ρ ⟨NameMap.putAll [] (params.zip args), env.scope⟩),
          m.built⟩ := by
  unfold Ideal.enter caller
  rw [rename_putAll]
  cases tail <;> simp [Machine.image, Context.rename, Context.dropFrame,
    Environment.rename, List.map_tail]

theorem enter_agrees {args rest : List Value} {callee : Value} (tail : Bool)
    (params : List String) (code : Code)
    (hvalues : m.context.values = args.reverse ++ callee :: rest)
    (hlive : ∀ t, env.scope = some t → m.memory.store.contains t) :
    Agrees swept m w
      (.ok (.stay, (m.image ρ scopes).enter tail params code (env.rename ρ)
        (args.map (Value.rename ρ))
        (rest.map (Value.rename ρ))))
      (Exec.enter tail params code env callee args rest ⟨m, w⟩) := by
  obtain ⟨⟨pcs, frames, envs, values, done⟩, ⟨fs, s⟩, b⟩ := m
  have hcount := count_operands (show values = _ from hvalues)
  have hheld : ∀ pair ∈ params.zip args, ∀ u ∈ pair.2.scopes,
      u ∈ (Context.mk pcs frames envs values done).scopes ++ fs.scopes := by
    intro pair hpair u hu
    have hmem : u ∈ args.flatMap Value.scopes :=
      List.mem_flatMap.mpr ⟨pair.2, (List.of_mem_zip hpair).2, hu⟩
    rw [List.mem_append, Context.mem_scopes]
    refine .inl (.inr ?_)
    show u ∈ values.flatMap Value.scopes
    have := hcount u
    rw [← List.count_pos_iff] at hmem ⊢
    omega
  obtain ⟨t, s₁, hextend, hexact₁, hnew, hremains₁⟩ := Environment.extend_exact hx hlive hheld
  have hmoved : s₁.Exact ((args ++ [callee]).flatMap Value.scopes ++
      ([t] ++ ((Context.mk pcs frames envs rest done).scopes ++ fs.scopes))) := by
    refine hexact₁.congr fun u => ?_
    have := hcount u
    simp only [Machine.roots, List.count_append, List.count_cons, Context.count_scopes,
      List.flatMap_append, List.flatMap_cons, List.flatMap_nil, List.count_nil]
    omega
  obtain ⟨s₂, hrelease, hexact₂, hremains₂⟩ := Exec.releaseAll_exact
    ⟨pcs, frames, envs, callee :: rest, done⟩ fs b w (args ++ [callee]) hmoved
  obtain ⟨s₃, hdrop, hexact₃, hremains₃⟩ := dropFrame_exact (σ := σ) (b := b) (w := w) tail hexact₂
  have hrun : Exec.enter tail params code env callee args rest
      ⟨⟨⟨pcs, frames, envs, values, done⟩, ⟨fs, s⟩, b⟩, w⟩ =
      ((if tail then Exec.dropFrame else pure ()) >>= fun _ =>
        Exec.modifyContext (fun c => c.pushFrame code ⟨some t⟩) >>= fun _ => pure Flow.stay)
        ⟨⟨⟨pcs, frames, envs, rest, done⟩, ⟨fs, s₂⟩, b⟩, w⟩ := by
    refine (bind_of_ok (Exec.onStore_of_ok hextend)).trans ((bind_of_ok hrelease).trans ?_)
    cases tail <;> rfl
  have hmirrors : Mirrors swept (extendMap ρ t scopes.size) s₃.scope?
      (scopes.push (Scope.rename ρ ⟨NameMap.putAll [] (params.zip args), env.scope⟩)) := by
    refine (hm.add hnew fun u hu => ?_).mono (hremains₃.trans (hremains₂.trans hremains₁))
    rcases List.mem_append.mp hu with hu | hu
    · exact Store.exists_scope?_of_contains (hlive u (Option.mem_toList.mp hu))
    · rcases NameMap.mem_scopes_putAll hu with hu | ⟨pair, hpair, hu⟩
      · cases hu
      · exact Store.exists_scope?_of_contains (hx.held_live u (hheld pair hpair u hu))
  have hunsaid : t ∉ (Context.mk pcs frames envs values done).scopes ++ fs.scopes :=
    not_mem_roots hx hnew
  rw [List.mem_append, not_or] at hunsaid
  have hcaller : t ∉ (caller tail ⟨pcs, frames, envs, values, done⟩ rest).scopes := by
    refine fun h => hunsaid.1 (mem_scopes_caller (fun v hv => ?_) h)
    show v ∈ (Context.mk pcs frames envs values done).values
    exact hvalues ▸ List.mem_append_right _ (List.mem_cons_of_mem _ hv)
  rw [hrun, bind_of_ok hdrop, enter_image]
  exact ⟨_, rfl, exact_environments_cons.mpr hexact₃, _, _, hmirrors,
    (image_pushFrame hcaller hunsaid.2 code).symm⟩

theorem enterIf_agrees {args rest : List Value} {callee : Value} {argc : Nat} (tail : Bool)
    (name : Option String) (params : List String) (code : Code) (env : Environment)
    (hargc : args.length = argc) (hvalues : m.context.values = args.reverse ++ callee :: rest)
    (hlive : ∀ t, env.scope = some t → m.memory.store.contains t) :
    Agrees swept m w
      ((m.image ρ scopes).enterIf tail name params code (env.rename ρ) (args.map (Value.rename ρ))
        (rest.map (Value.rename ρ)) origin)
      ((if params.length ≠ argc then throw (.runtime (.arity name params.length argc) (some origin))
        else Exec.enter tail params code env callee args rest : Exec σ Flow) ⟨m, w⟩) := by
  unfold Ideal.enterIf
  rw [List.length_map, hargc]
  by_cases h : params.length = argc
  · rw [if_neg (not_not_intro h), if_neg (not_not_intro h)]
    exact enter_agrees hx hm tail params code hvalues hlive
  · rw [if_pos h, if_pos h]
    rfl

omit hx hm in
/-- What the next instruction asks the host, if it is a call. -/
theorem reply_of_callee (host : Host σ) (w : σ) {c : Context} {argc : Nat}
    {callee : Value} {rest : List Value} (hargc : c.instruction?.bind (·.op.argc?) = some argc)
    (hdrop : c.values.drop argc = callee :: rest) :
    host.reply c w =
      match callee with
      | .host owner method => host.invoke owner method (c.values.take argc).reverse w
      | _ => (.ok .null, w) := by
  unfold Host.reply Context.hostCall?
  rw [hargc]
  simp only [hdrop]
  cases callee <;> rfl

theorem call_agrees {argc : Nat} (tail : Bool)
    (hargc : m.context.instruction?.bind (·.op.argc?) = some argc)
    (hreply : ∀ v, (host.reply m.context w).1 = .ok v → ∀ u ∈ v.scopes, m.memory.store.contains u) :
    Agrees swept m (host.reply m.context w).2
      ((m.image ρ scopes).call ((host.reply m.context w).1.map (Value.rename ρ)) tail argc origin)
      (Exec.call host tail argc origin ⟨m, w⟩) := by
  have hideal : (m.image ρ scopes).context.values = m.context.values.map (Value.rename ρ) := rfl
  unfold Ideal.call
  rw [hideal, ← List.map_drop, ← List.map_take, ← List.map_reverse]
  cases hdrop : m.context.values.drop argc with
  | nil =>
    have hsilent : host.reply m.context w = (.ok .null, w) := by
      unfold Host.reply Context.hostCall?
      rw [hargc]
      simp only [hdrop]
    rw [hsilent]
    unfold Exec.call
    rw [Exec.context_bind]
    simp only [hdrop]
    rfl
  | cons callee rest =>
    have hvalues :
      m.context.values = (m.context.values.take argc).reverse.reverse ++ callee :: rest := by
      rw [List.reverse_reverse, ← hdrop, List.take_append_drop]
    have hlength : (m.context.values.take argc).reverse.length = argc := by
      have : (m.context.values.drop argc).length = rest.length + 1 := by rw [hdrop]; rfl
      rw [List.length_drop] at this
      rw [List.length_reverse, List.length_take]
      omega
    have hask := reply_of_callee host w hargc hdrop
    unfold Exec.call
    rw [Exec.context_bind]
    simp only [hdrop]
    cases callee with
    | host owner method =>
      simp only at hask
      rw [hask] at hreply ⊢
      exact callHost_agrees hx hm owner method hvalues hreply
    | closure id params code scope =>
      rw [hask]
      refine enterIf_agrees hx hm tail none params code ⟨scope⟩ hlength hvalues fun t ht => ?_
      have hcallee : .closure id params code scope ∈ m.context.values :=
        hvalues ▸ List.mem_append_right _ (List.mem_cons_self ..)
      exact live_of_value hx hcallee t (by simpa [Value.scopes] using ht)
    | named name =>
      rw [hask]
      have hentry : (m.image ρ scopes).functions.entries.get? name =
          (m.memory.functions.entries.get? name).map (NamedFunction.rename ρ) :=
            NameMap.get?_mapValues _ _ _
      simp only [List.map_cons, Value.rename, hentry, get_bind]
      cases hf : m.memory.functions.entries.get? name with
      | none => rfl
      | some function =>
        simp only [Option.map_some, NamedFunction.rename]
        cases he : function.env with
        | none => rfl
        | some env =>
          exact enterIf_agrees hx hm tail (some name) function.params function.code env hlength
            hvalues fun t ht =>
            hx.held_live t (List.mem_append_right _ (FunctionTable.mem_scopes_of_env hf he ht))
    | list items =>
      rw [hask]
      show _ = EStateM.Result.error
        (Error.runtime (.notCallable "list" ((Value.list items).rename ρ).inspect) (some origin))
          (Running.mk m w)
      rw [Value.inspect_rename]
      rfl
    | _ =>
      rw [hask]
      rfl

theorem execute_agrees (pc : Nat) {i : Instruction} (hinstruction : m.context.instruction? = some i)
    (hclean : i.op.Clean)
    (henv : env ∈ m.context.environments)
    (hreply : ∀ v, (host.reply m.context w).1 = .ok v → ∀ u ∈ v.scopes, m.memory.store.contains u) :
    Agrees swept m (host.reply m.context w).2
      ((m.image ρ scopes).execute host.owner? ((host.reply m.context w).1.map (Value.rename ρ)) pc
        (env.rename ρ)
        i.origin i.op)
      (Exec.execute host pc env i.origin i.op ⟨m, w⟩) := by
  have hquiet : i.op.argc? = none → host.reply m.context w = (.ok .null, w) := by
    intro h
    unfold Host.reply Context.hostCall?
    rw [hinstruction, Option.bind_some, h]
  have hasks : ∀ argc, i.op.argc? = some argc →
    m.context.instruction?.bind (·.op.argc?) = some argc := by
    intro argc h
    rw [hinstruction, Option.bind_some, h]
  obtain ⟨op, origin⟩ := i
  cases op with
  | call argc => exact call_agrees hx hm false (hasks argc rfl) hreply
  | tailCall argc => exact call_agrees hx hm true (hasks argc rfl) hreply
  | loadConstant v => rw [hquiet rfl]; exact constant_agrees hx hm hclean (.inl rfl)
  | push v => rw [hquiet rfl]; exact constant_agrees hx hm hclean (.inr rfl)
  | pop => rw [hquiet rfl]; exact pop_agrees hx hm
  | nameLookup name => rw [hquiet rfl]; exact nameLookup_agrees hx hm henv name
  | functionLookup name => rw [hquiet rfl]; exact functionLookup_agrees hx hm henv name
  | storeNew name => rw [hquiet rfl]; exact storeNew_agrees hx hm henv name
  | store name => rw [hquiet rfl]; exact store_agrees hx hm henv name
  | buildFunction name => rw [hquiet rfl]; exact buildFunction_agrees hx hm henv name
  | jump offset => rw [hquiet rfl]; exact jump_agrees hx hm offset
  | jumpIfNot offset => rw [hquiet rfl]; exact jumpIfNot_agrees hx hm offset
  | ret => rw [hquiet rfl]; exact ret_agrees hx hm henv

end Instructions

end LiveLisp
