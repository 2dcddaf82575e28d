/-
  Sound machines. The values of every frame have the shape that its code expects at its counter: the
  top frame's now, and those of the frames below once the call they wait for has answered.
  Everything that is held, on the stacks, in scopes and in the function table, is made of sound
  code.

  A step keeps a machine sound, and if it fails, then by an error that is the program's own
  (`Ideal.step_sound`).
-/
import LiveLisp.Proofs.Code.Shape
import LiveLisp.Proofs.Ideal.Simulation

namespace LiveLisp

namespace NameMap

theorem mem_values_put {α : Type} {name : String} {a x : α} {m : NameMap α}
    (h : x ∈ (m.put name a).values) :
    x = a ∨ x ∈ m.values := by
  induction m with
  | nil => exact .inl (List.mem_singleton.mp h)
  | cons pair rest ih =>
    obtain ⟨key, b⟩ := pair
    unfold put values at h
    unfold values
    rw [List.map_cons, List.mem_cons]
    split at h
    · rcases List.mem_cons.mp h with h | h
      · exact .inl h
      · exact .inr (.inr h)
    · rcases List.mem_cons.mp h with h | h
      · exact .inr (.inl h)
      · rcases ih h with h | h
        · exact .inl h
        · exact .inr (.inr h)

theorem mem_values_putAll {α : Type} {x : α} {pairs : List (String × α)} {m : NameMap α}
    (h : x ∈ (m.putAll pairs).values) : x ∈ m.values ∨ ∃ pair ∈ pairs, x = pair.2 := by
  induction pairs generalizing m with
  | nil => exact .inl h
  | cons pair rest ih =>
    rcases ih h with hm | ⟨other, hother, hx⟩
    · rcases mem_values_put hm with hx | hm
      · exact .inr ⟨pair, List.mem_cons_self .., hx⟩
      · exact .inl hm
    · exact .inr ⟨other, List.mem_cons_of_mem _ hother, hx⟩

end NameMap

/-! ## What is held -/

/-- Built by a machine from sound code, in a scope. -/
structure Closure.Sound (c : Closure) : Prop where
  built : ∃ number, c.id = .built number
  code : c.code.Sound
  scope : c.scope.isSome

def Value.Sound (v : Value) : Prop :=
  ∀ c ∈ v.closures, c.Sound

theorem Value.sound_of_closures_nil {v : Value} (h : v.closures = []) : v.Sound := by
  intro c hc
  rw [h] at hc
  cases hc

structure NamedFunction.Sound (function : NamedFunction) : Prop where
  code : function.code.Sound
  env : ∀ env, function.env = some env → env.scope.isSome

/-- Every entry and every revision is sound. -/
structure FunctionTable.Sound (table : FunctionTable) : Prop where
  entries : ∀ function ∈ table.entries.values, function.Sound
  revisions : ∀ revision ∈ table.revisions.values, revision.code.Sound

namespace FunctionTable.Sound

variable {table : FunctionTable}

theorem put (h : table.Sound) (name : String) {function : NamedFunction}
    (hfunction : function.Sound) :
    Sound { table with entries := table.entries.put name function } := by
  refine ⟨fun other hother => ?_, h.revisions⟩
  rcases NameMap.mem_values_put hother with rfl | hother
  · exact hfunction
  · exact h.entries other hother

theorem retireOne (h : table.Sound) (name : String) : (table.retireOne name).Sound := by
  unfold FunctionTable.retireOne
  split
  · exact h
  · next entry hentry =>
    split
    · exact h
    · exact h.put name ⟨(h.entries entry (NameMap.mem_values_of_get? hentry)).code, nofun⟩

theorem retire (h : table.Sound) : table.retire.Sound := by
  have hall : ∀ names : List String, (names.foldl FunctionTable.retireOne table).Sound := by
    intro names
    induction names generalizing table with
    | nil => exact h
    | cons name names ih => exact ih (h.retireOne name)
  exact hall table.entries.keys

theorem patch (h : table.Sound) (name : String) {revision : Revision}
    (hcode : revision.code.Sound) :
    (table.patch name revision).Sound := by
  constructor
  · unfold FunctionTable.patch
    split
    · next entry hentry =>
      split
      · intro function hf
        rcases NameMap.mem_values_put hf with rfl | hf
        · exact ⟨hcode, (h.entries entry (NameMap.mem_values_of_get? hentry)).env⟩
        · exact h.entries function hf
      · exact h.entries
    · exact h.entries
  · intro other hother
    rcases NameMap.mem_values_put hother with rfl | hother
    · exact hcode
    · exact h.revisions other hother

theorem enroll (h : table.Sound) (name : String) (params : List String) {code : Code}
    (hcode : code.Sound) {env : Environment} (henv : env.scope.isSome) :
    (table.enroll name params code env).Sound := by
  obtain ⟨newParams, newCode, heq, hfrom⟩ := table.enroll_eq name params code env
  have hnew : newCode.Sound := by
    rcases hfrom with hfrom | ⟨revision, hrevision, hfrom⟩
    · cases hfrom
      exact hcode
    · cases hfrom
      exact h.revisions revision (NameMap.mem_values_of_get? hrevision)
  rw [heq]
  refine h.put name ⟨hnew, fun e he => ?_⟩
  cases he
  exact henv

end FunctionTable.Sound

/-- Everything that the machine holds is sound. -/
structure Ideal.Contents (r : Ideal) : Prop where
  environments : ∀ env ∈ r.context.environments, env.scope.isSome
  values : ∀ v ∈ r.context.values, v.Sound
  scopes : ∀ (i : Nat) sc, r.scopes[i]? = some sc → ∀ v ∈ sc.bindings.values, v.Sound
  functions : r.functions.Sound

namespace Ideal.Contents

variable {r : Ideal}

theorem setValues (h : r.Contents) {values : List Value} (hv : ∀ v ∈ values, v.Sound) :
    (r.setValues values).Contents :=
  ⟨h.environments, hv, h.scopes, h.functions⟩

theorem bindIn (h : r.Contents) {v : Value} (hv : v.Sound) (t : Ticket) (name : String) :
    (r.bindIn t name v).Contents := by
  refine ⟨h.environments, h.values, fun i sc hi => ?_, h.functions⟩
  simp only [Ideal.bindIn, Array.getElem?_modify] at hi
  split at hi
  · obtain ⟨sc', hsc', rfl⟩ := Option.map_eq_some_iff.mp hi
    intro x hx
    rcases NameMap.mem_values_put hx with rfl | hx
    · exact hv
    · exact h.scopes i sc' hsc' x hx
  · exact h.scopes i sc hi

theorem follow (h : r.Contents) (flow : Flow) :
    Contents { r with context := r.context.follow flow } := by
  cases flow with
  | advance => exact ⟨h.environments, h.values, h.scopes, h.functions⟩
  | jump target => exact ⟨h.environments, h.values, h.scopes, h.functions⟩
  | stay => exact h

theorem resolve? (h : r.Contents) {owner? : String → Option Owner} {env : Environment}
    {name : String} {v : Value} (hv : r.resolve? owner? env name = some v) : v.Sound := by
  unfold Ideal.resolve? at hv
  split at hv
  · next u hu =>
    cases hv
    obtain ⟨t, -, hlookup⟩ := Option.bind_eq_some_iff.mp hu
    unfold Ideal.lookup? at hlookup
    obtain ⟨owner, -, hlookup⟩ := Option.bind_eq_some_iff.mp hlookup
    obtain ⟨sc, hsc, hget⟩ := Option.bind_eq_some_iff.mp hlookup
    exact h.scopes owner.index sc hsc _ (NameMap.mem_values_of_get? hget)
  · exact Value.sound_of_closures_nil (closures_of_known? hv)

theorem enter (h : r.Contents) {args rest : List Value} (hargs : ∀ v ∈ args, v.Sound)
    (hrest : ∀ v ∈ rest, v.Sound) (tail : Bool) (params : List String) (code : Code)
    (env : Environment) :
    (r.enter tail params code env args rest).Contents := by
  refine ⟨?_, ?_, ?_, h.functions⟩
  · intro e he
    cases tail with
    | false =>
      rcases List.mem_cons.mp he with rfl | he
      · rfl
      · exact h.environments e he
    | true =>
      rcases List.mem_cons.mp he with rfl | he
      · rfl
      · exact h.environments e (List.mem_of_mem_tail he)
  · intro v hv
    cases tail <;> exact hrest v hv
  · intro i sc hi
    simp only [Ideal.enter, Array.getElem?_push] at hi
    split at hi
    · cases hi
      intro v hv
      rcases NameMap.mem_values_putAll hv with hv | ⟨pair, hpair, rfl⟩
      · cases hv
      · exact hargs _ (List.of_mem_zip hpair).2
    · exact h.scopes i sc hi

theorem enroll (h : r.Contents) {code : Code} (hcode : code.Sound) {env : Environment}
    (henv : env.scope.isSome) (name : String) (params : List String) :
    Contents { r with functions := r.functions.enroll name params code env } :=
  ⟨h.environments, h.values, h.scopes, h.functions.enroll name params hcode henv⟩

end Ideal.Contents

/-! ## The stacks -/

/-- Frames that wait for a call to answer, each with its part of the values. -/
inductive Suspended : List Nat → List Code → List Value → Prop where
  | nil : Suspended [] [] []
  | cons {pc : Nat} {pcs : List Nat} {code : Code} {frames : List Code}
      {At : Nat → Shape → Prop} {shape : Shape}
      {values rest : List Value} (hcode : code.Shaped At) (hat : At (pc + 1) (none :: shape))
      (hmatch : shape.Matches values) (hbelow : Suspended pcs frames rest) :
    Suspended (pc :: pcs) (code :: frames) (values ++ rest)

/-- Done with one value left, or about to run an instruction. -/
inductive Context.Stacked : Context → Prop where
  | done {v : Value} : Stacked ⟨[], [], [], [v], true⟩
  | running {pc : Nat} {pcs : List Nat} {code : Code} {frames : List Code} {env : Environment}
      {envs : List Environment} {At : Nat → Shape → Prop} {shape : Shape} {values rest : List Value}
      (hcode : code.Shaped At) (hat : At pc shape) (hmatch : shape.Matches values)
      (hbelow : Suspended pcs frames rest) (hlength : envs.length = frames.length) :
    Stacked ⟨pc :: pcs, code :: frames, env :: envs, values ++ rest, false⟩

theorem Suspended.length_eq {pcs : List Nat} {frames : List Code} {values : List Value}
    (h : Suspended pcs frames values) : pcs.length = frames.length := by
  induction h with
  | nil => rfl
  | cons _ _ _ _ ih => rw [List.length_cons, List.length_cons, ih]

theorem Context.Stacked.balanced {c : Context} (h : c.Stacked) : c.Balanced := by
  cases h with
  | done => exact ⟨rfl, rfl, by simp⟩
  | running hcode hat hmatch hbelow hlength =>
    refine ⟨?_, ?_, by simp⟩
    · simp only [List.length_cons, hbelow.length_eq]
    · simp only [List.length_cons, hlength]

theorem Context.Stacked.result {c : Context} (h : c.Stacked) (hdone : c.done = true) :
    ∃ v, c.values = [v] := by
  cases h with
  | done => exact ⟨_, rfl⟩
  | running => cases hdone

structure Ideal.Sound (r : Ideal) : Prop where
  stacked : r.context.Stacked
  contents : r.Contents

/-- An error that a program can cause, as opposed to one of the interpreter. -/
def Error.OfProgram (e : Error) : Prop :=
  ∃ problem span, e = .runtime problem span ∧ problem ≠ .underflow

/-- What an instruction has to come to. -/
def Ideal.GoesOn : Except Error (Flow × Ideal) → Prop
  | .ok (flow, r) => Ideal.Sound { r with context := r.context.follow flow }
  | .error e => e.OfProgram

theorem Ideal.GoesOn.settle {outcome : Except Error (Flow × Ideal)} (h : Ideal.GoesOn outcome) :
    match Ideal.settle outcome with
    | .ok r => r.Sound
    | .error e => e.OfProgram := by
  cases outcome with
  | ok pair => exact h
  | error e => exact h

/-- What stays as it is while the top frame runs: its code, and all below it. -/
structure TopFrame (At : Nat → Shape → Prop) (pcs : List Nat) (code : Code) (frames : List Code)
    (envs : List Environment) (rest : List Value) : Prop where
  shaped : code.Shaped At
  below : Suspended pcs frames rest
  length_eq : envs.length = frames.length

section Instructions

open LiveLisp.Ideal (GoesOn)

variable {pc : Nat} {pcs : List Nat} {code : Code} {frames : List Code} {env : Environment}
    {envs : List Environment}
  {values rest : List Value} {At : Nat → Shape → Prop} {shape : Shape} {r : Ideal}
  (htop : TopFrame At pcs code frames envs rest) (hr : r.Contents)
  (hcontext : r.context = ⟨pc :: pcs, code :: frames, env :: envs, values ++ rest, false⟩)

include htop hr hcontext

/-- On to the next instruction of the same frame. -/
theorem goesOn_advance (hnext : near At pc 1 shape) (hmatch : shape.Matches values) :
    GoesOn (.ok (.advance, r)) := by
  obtain ⟨target, htarget, hat⟩ := hnext
  have htarget : target = pc + 1 := by omega
  subst htarget
  refine ⟨?_, hr.follow .advance⟩
  rw [hcontext]
  exact .running htop.shaped hat hmatch htop.below htop.length_eq

/-- On to another instruction of the same frame. -/
theorem goesOn_jump (hmatch : shape.Matches values) {target : Nat} (hat : At target shape) :
    GoesOn (.ok (.jump target, r)) := by
  refine ⟨?_, hr.follow (.jump target)⟩
  rw [hcontext]
  exact .running htop.shaped hat hmatch htop.below htop.length_eq

omit htop hr hcontext in
theorem jumpTarget_of_near {offset : Int} (h : near At pc offset shape) :
    ∃ target, Ideal.jumpTarget pc offset = .ok target ∧ At target shape := by
  obtain ⟨target, htarget, hat⟩ := h
  refine ⟨target, ?_, hat⟩
  unfold Ideal.jumpTarget
  rw [← htarget]

theorem goesOn_push (hmatch : shape.Matches values) {v : Value} (hv : v.Sound) {mark : Option Value}
    (hmark : ∀ u, mark = some u → v = u) (hnext : near At pc 1 (mark :: shape)) :
    GoesOn (.ok (.advance, r.push v)) := by
  have hcontents : (r.push v).Contents := by
    refine hr.setValues fun u hu => ?_
    rcases List.mem_cons.mp hu with rfl | hu
    · exact hv
    · exact hr.values u hu
  have hpushed : (r.push v).context = ⟨pc :: pcs, code :: frames, env :: envs,
    (v :: values) ++ rest, false⟩ := by
    simp only [Ideal.push, Ideal.setValues, hcontext, List.cons_append]
  exact goesOn_advance htop hcontents hpushed hnext ⟨hmark, hmatch⟩

theorem goesOn_lookup (hmatch : shape.Matches values)
    (owner? : String → Option Owner) (name : String) (missing : RuntimeProblem)
    (hmissing : missing ≠ .underflow) (origin : Span) (hnext : near At pc 1 (none :: shape)) :
    GoesOn (match r.resolve? owner? env name with
      | some v => .ok (.advance, r.push v)
      | none => .error (.runtime missing (some origin))) := by
  cases hv : r.resolve? owner? env name with
  | some v => exact goesOn_push htop hr hcontext hmatch (hr.resolve? hv) (fun _ hu => by
      cases hu) hnext
  | none => exact ⟨missing, some origin, rfl, hmissing⟩

omit htop in
/-- A frame that stays with fewer values. -/
theorem contents_suffix {values' : List Value} (hsuffix : ∀ v ∈ values', v ∈ values) :
    (r.setValues (values' ++ rest)).Contents ∧
    (r.setValues (values' ++ rest)).context = ⟨pc :: pcs, code :: frames, env :: envs,
      values' ++ rest, false⟩ := by
  refine ⟨hr.setValues fun v hv => hr.values v ?_, by simp only [Ideal.setValues, hcontext]⟩
  rw [hcontext]
  rcases List.mem_append.mp hv with hv | hv
  · exact List.mem_append_left _ (hsuffix v hv)
  · exact List.mem_append_right _ hv

/-- A call enters sound code, above the frame that made it or in its place. -/
theorem goesOn_enter {values' : List Value} (tail : Bool)
    (hwaits : if tail then values' = [] else ∃ shape', At (pc + 1) (none :: shape') ∧
      Shape.Matches shape' values')
    {args : List Value} (hargs : ∀ v ∈ args, v.Sound) (hrest : ∀ v ∈ values' ++ rest, v.Sound)
    (params : List String) {callee : Code} (hcallee : callee.Sound) (inner : Environment) :
    GoesOn (.ok (.stay, r.enter tail params callee inner args (values' ++ rest))) := by
  obtain ⟨At', hshaped⟩ := hcallee.shaped
  refine ⟨?_, hr.enter hargs hrest tail params callee inner⟩
  cases tail with
  | true =>
    simp only [if_true] at hwaits
    subst hwaits
    simp only [Ideal.enter, hcontext, if_true]
    show Context.Stacked ⟨0 :: pcs, callee :: frames, _ :: envs, [] ++ rest, false⟩
    exact .running hshaped hshaped.start trivial htop.below htop.length_eq
  | false =>
    obtain ⟨shape', hat, hmatch⟩ := hwaits
    simp only [Ideal.enter, hcontext]
    show Context.Stacked ⟨0 :: pc :: pcs, callee :: code :: frames, _ :: env :: envs,
      [] ++ (values' ++ rest), false⟩
    refine .running hshaped hshaped.start trivial (.cons htop.shaped hat hmatch htop.below) ?_
    rw [List.length_cons, List.length_cons, htop.length_eq]

theorem goesOn_call {argc : Nat} (tail : Bool) (hmatch : shape.Matches values)
    (hargc : argc < shape.length) (hnext : near At pc 1 (none :: shape.drop (argc + 1)))
    (htail : tail = true → shape.length = argc + 1) {reply : Except HostProblem Value}
    (hreply : ∀ v, reply = .ok v → v.Sound) (origin : Span) :
    GoesOn (r.call reply tail argc origin) := by
  have hlt : argc < values.length := hmatch.length_eq ▸ hargc
  have hdrop : r.context.values.drop argc = values[argc] :: (values.drop (argc + 1) ++ rest) := by
    rw [hcontext]
    simp only [List.drop_append_of_le_length (Nat.le_of_lt hlt),
      List.drop_eq_getElem_cons hlt, List.cons_append]
  have hsound : ∀ v ∈ values ++ rest, v.Sound :=
    fun v hv => hr.values v (by rw [hcontext]; exact hv)
  have hargs : ∀ v ∈ (r.context.values.take argc).reverse, v.Sound := fun v hv =>
    hr.values v (List.mem_of_mem_take (List.mem_reverse.mp hv))
  have hrest : ∀ v ∈ values.drop (argc + 1) ++ rest, v.Sound := by
    intro v hv
    rcases List.mem_append.mp hv with hv | hv
    · exact hsound v (List.mem_append_left _ (List.mem_of_mem_drop hv))
    · exact hsound v (List.mem_append_right _ hv)
  have hwaits : if tail then values.drop (argc + 1) = []
      else ∃ shape', At (pc + 1) (none :: shape') ∧
        Shape.Matches shape' (values.drop (argc + 1)) := by
    cases tail with
    | true => exact List.drop_eq_nil_of_le (Nat.le_of_eq (hmatch.length_eq.trans (htail rfl)))
    | false =>
      obtain ⟨target, htarget, hat⟩ := hnext
      have htarget : target = pc + 1 := by omega
      exact ⟨_, htarget ▸ hat, hmatch.drop (argc + 1)⟩
  have henter : ∀ (name : Option String) (params : List String) (callee : Code)
      (inner : Environment), callee.Sound →
      GoesOn (r.enterIf tail name params callee inner (r.context.values.take argc).reverse
        (values.drop (argc + 1) ++ rest) origin) := by
    intro name params callee inner hcallee
    unfold Ideal.enterIf
    split
    · exact ⟨_, _, rfl, fun h => by cases h⟩
    · exact goesOn_enter htop hr hcontext tail hwaits hargs hrest params hcallee inner
  have hcallee : (values[argc]).Sound := hsound _ (List.mem_append_left _ (List.getElem_mem hlt))
  unfold Ideal.call
  rw [hdrop]
  generalize values[argc] = callee at hcallee
  cases callee with
  | host owner method =>
    cases hreplied : reply with
    | error problem => exact ⟨_, _, rfl, fun h => by cases h⟩
    | ok v =>
      obtain ⟨hcontents, hdropped⟩ :=
        contents_suffix hr hcontext fun v hv => List.mem_of_mem_drop (i := argc + 1) hv
      exact goesOn_push htop hcontents hdropped (hmatch.drop (argc + 1)) (hreply v hreplied)
        (fun _ hu => by cases hu) hnext
  | closure id params callee scope =>
    have hclosure : Closure.Sound ⟨id, params, callee, scope⟩ :=
      hcallee _ (List.mem_singleton_self _)
    exact henter none params callee ⟨scope⟩ hclosure.code
  | named name =>
    simp only
    cases hf : r.functions.entries.get? name with
    | none => exact ⟨_, _, rfl, fun h => by cases h⟩
    | some function =>
      simp only
      cases he : function.env with
      | none => exact ⟨_, _, rfl, fun h => by cases h⟩
      | some inner =>
        exact henter (some name) function.params function.code inner
          (hr.functions.entries function (NameMap.mem_values_of_get? hf)).code
  | _ => exact ⟨_, _, rfl, fun h => by cases h⟩

theorem goesOn_ret (hmatch : shape.Matches values) (hone : shape.length = 1) :
    GoesOn (.ok r.leave) := by
  obtain ⟨v, rfl⟩ := List.length_eq_one_iff.mp (hmatch.length_eq.trans hone)
  have hcontents : Ideal.Contents { r with context := r.context.dropFrame } :=
    ⟨fun e he => hr.environments e (List.mem_of_mem_tail he), hr.values, hr.scopes, hr.functions⟩
  have hlength := htop.length_eq
  have hbelow := htop.below
  cases hbelow with
  | nil =>
    obtain rfl : envs = [] := List.eq_nil_of_length_eq_zero hlength
    have hleave : r.leave = (.stay, { r with context := ⟨[], [], [], [v], true⟩ }) := by
      simp [Ideal.leave, Context.dropFrame, hcontext]
    rw [hleave]
    refine ⟨.done, ?_⟩
    have hv := hcontents.values
    simp only [hcontext, Context.dropFrame] at hv
    exact ⟨fun _ h => (List.not_mem_nil h).elim, hv, hcontents.scopes, hcontents.functions⟩
  | @cons pc' pcs' code' frames' At' shape' values' rest' hcode hat hmatch' hbelow =>
    obtain ⟨env', envs', rfl⟩ := List.exists_cons_of_length_eq_add_one hlength
    have hleave : r.leave = (.advance, { r with context := r.context.dropFrame }) := by
      simp [Ideal.leave, Context.dropFrame, hcontext]
    have hcontext' : r.context.dropFrame =
        ⟨pc' :: pcs', code' :: frames', env' :: envs', (v :: values') ++ rest', false⟩ := by
      simp [Context.dropFrame, hcontext]
    rw [hleave]
    exact goesOn_advance ⟨hcode, hbelow, Nat.succ.inj hlength⟩ hcontents hcontext' ⟨pc' + 1, rfl,
      hat⟩ (hmatch'.push v)

/-- The operands of a function are on top of the stack, where its body is known. -/
theorem goesOn_buildFunction (hmatch : shape.Matches values)
    (hbodies : ∀ body, some (.code body) ∈ shape → body.Sound) {name : Option String}
    (hfits : (Op.buildFunction name).Fits (near At pc) shape) :
    GoesOn (r.buildFunction env name) := by
  obtain ⟨body, params, shape', rfl, hnext⟩ := hfits
  obtain ⟨v, values₁, rfl, hv, hmatch₁⟩ := hmatch.cons_inv
  obtain ⟨u, values', rfl, hu, hmatch'⟩ := hmatch₁.cons_inv
  obtain rfl := hv _ rfl
  obtain rfl := hu _ rfl
  have hvalues :
    r.context.values = (.code body :: .params params :: values') ++ rest := by rw [hcontext]
  have henv : env.scope.isSome :=
    hr.environments env (by rw [hcontext]; exact List.mem_cons_self ..)
  have hbody : body.Sound := hbodies body (List.mem_cons_self ..)
  obtain ⟨hcontents, hdropped⟩ := contents_suffix hr hcontext fun w hw =>
    List.mem_cons_of_mem _ (List.mem_cons_of_mem _ hw)
  simp only [Ideal.buildFunction, hvalues, List.cons_append]
  cases name with
  | some name =>
    exact goesOn_push htop (hcontents.enroll hbody henv name params) hdropped hmatch'
      (Value.sound_of_closures_nil rfl) (fun _ hu => by cases hu) hnext
  | none =>
    have hbuilt : Ideal.Contents { r.setValues (values' ++ rest) with built := r.built + 1 } :=
      ⟨hcontents.environments, hcontents.values, hcontents.scopes, hcontents.functions⟩
    refine goesOn_push htop hbuilt hdropped hmatch' (fun c hc => ?_) (fun _ hu => by cases hu) hnext
    rw [List.mem_singleton.mp hc]
    exact ⟨⟨_, rfl⟩, hbody, henv⟩

/-- Every instruction that fits goes on. -/
theorem goesOn_execute (hmatch : shape.Matches values)
    (hbodies : ∀ body, some (.code body) ∈ shape → body.Sound) {op : Op}
    (hfits : op.Fits (near At pc) shape) (owner? : String → Option Owner)
    {reply : Except HostProblem Value} (hreply : ∀ v, reply = .ok v → v.Sound) (origin : Span) :
    GoesOn (r.execute owner? reply pc env origin op) := by
  have hvalues : r.context.values = values ++ rest := by rw [hcontext]
  have hsound : ∀ v ∈ values ++ rest, v.Sound := fun v hv => hr.values v (hvalues ▸ hv)
  have henv : env.scope.isSome :=
    hr.environments env (by rw [hcontext]; exact List.mem_cons_self ..)
  cases op with
  | loadConstant v =>
    exact goesOn_push htop hr hcontext hmatch (Value.sound_of_closures_nil hfits.1)
      (fun _ hu => by cases hu) hfits.2
  | push v =>
    have hmark : ∀ u, some v = some u → v = u := fun _ => Option.some.inj
    exact goesOn_push htop hr hcontext hmatch (Value.sound_of_closures_nil hfits.1) hmark hfits.2
  | pop =>
    obtain ⟨mark, shape', rfl, hnext⟩ := hfits
    obtain ⟨v, values', rfl, -, hmatch'⟩ := hmatch.cons_inv
    obtain ⟨hcontents, hpopped⟩ := contents_suffix hr hcontext fun u hu => List.mem_cons_of_mem v hu
    simp only [Ideal.execute, hvalues, List.cons_append]
    exact goesOn_advance htop hcontents hpopped hnext hmatch'
  | nameLookup name =>
    have hproblem : RuntimeProblem.notDefined name ≠ .underflow := fun h => by cases h
    exact goesOn_lookup htop hr hcontext hmatch owner? name (.notDefined name) hproblem origin hfits
  | functionLookup name =>
    have hproblem : RuntimeProblem.noFunction name ≠ .underflow := fun h => by cases h
    exact goesOn_lookup htop hr hcontext hmatch owner? name (.noFunction name) hproblem origin hfits
  | storeNew name =>
    obtain ⟨hsome, hnext⟩ := hfits
    obtain ⟨mark, shape', rfl⟩ := List.exists_cons_of_ne_nil hsome
    obtain ⟨v, values', rfl, -, -⟩ := hmatch.cons_inv
    obtain ⟨t, ht⟩ := Option.isSome_iff_exists.mp henv
    have hv : v.Sound := hsound v (List.mem_cons_self ..)
    simp only [Ideal.execute, hvalues, List.cons_append, ht]
    exact goesOn_advance htop (hr.bindIn hv t name) hcontext hnext hmatch
  | store name =>
    obtain ⟨hsome, hnext⟩ := hfits
    obtain ⟨mark, shape', rfl⟩ := List.exists_cons_of_ne_nil hsome
    obtain ⟨v, values', rfl, -, -⟩ := hmatch.cons_inv
    have hv : v.Sound := hsound v (List.mem_cons_self ..)
    simp only [Ideal.execute, hvalues, List.cons_append, Ideal.assign]
    split
    · next t ht => exact goesOn_advance htop (hr.bindIn hv t name) hcontext hnext hmatch
    · split
      · exact ⟨_, _, rfl, fun h => by cases h⟩
      · exact ⟨_, _, rfl, fun h => by cases h⟩
  | buildFunction name => exact goesOn_buildFunction htop hr hcontext hmatch hbodies hfits
  | call argc =>
    exact goesOn_call htop hr hcontext false hmatch hfits.1 hfits.2 (fun h => by cases h) hreply
      origin
  | tailCall argc =>
    obtain ⟨hlength, hnext⟩ := hfits
    have hargc : argc + 1 ≤ shape.length := by omega
    have hnone : shape.drop (argc + 1) = [] := List.drop_eq_nil_of_le (by omega)
    refine goesOn_call htop hr hcontext true hmatch hargc ?_ (fun _ => hlength) hreply origin
    rw [hnone]
    exact hnext
  | jump offset =>
    obtain ⟨target, htarget, hat⟩ := jumpTarget_of_near hfits
    simp only [Ideal.execute, htarget]
    exact goesOn_jump htop hr hcontext hmatch hat
  | jumpIfNot offset =>
    obtain ⟨mark, shape', rfl, hnext, hjump⟩ := hfits
    obtain ⟨v, values', rfl, -, hmatch'⟩ := hmatch.cons_inv
    obtain ⟨hcontents, hpopped⟩ := contents_suffix hr hcontext fun u hu => List.mem_cons_of_mem v hu
    obtain ⟨target, htarget, hat⟩ := jumpTarget_of_near hjump
    simp only [Ideal.execute, htarget, hvalues, List.cons_append]
    cases hv : v.isTruthy with
    | true => exact goesOn_advance htop hcontents hpopped hnext hmatch'
    | false => exact goesOn_jump htop hcontents hpopped hmatch' hat
  | ret => exact goesOn_ret htop hr hcontext hmatch hfits

end Instructions

namespace Ideal

variable {r : Ideal} {reply : Except HostProblem Value}

/-- A step keeps a machine sound, or fails by an error that is the program's own. -/
theorem step_sound (owner? : String → Option Owner) (h : r.Sound)
    (hreply : ∀ v, reply = .ok v → v.Sound) :
    match r.step owner? reply with
    | .ok r' => r'.Sound
    | .error e => e.OfProgram := by
  obtain ⟨⟨pcs, frames, envs, values, done⟩, fs, scopes, b⟩ := r
  obtain ⟨hstacked, hr⟩ := h
  cases hstacked with
  | done => exact ⟨_, _, rfl, nofun⟩
  | @running pc pcs code frames env envs At shape values rest hcode hat hmatch hbelow hlength =>
    obtain ⟨i, hi, hfits⟩ := hcode.fits pc shape hat
    have hgoes := goesOn_execute ⟨hcode, hbelow, hlength⟩ hr rfl hmatch
      (hcode.bodies pc shape hat) hfits owner? hreply
      i.origin
    rw [step_running rfl hi]
    exact hgoes.settle

/-- A sound machine is about to run an instruction without closures among its operands. -/
theorem Sound.clean (h : r.Sound) (i : Instruction)
    (hi : r.context.instruction? = some i) : i.op.Clean := by
  obtain ⟨⟨pcs, frames, envs, values, done⟩, fs, scopes, b⟩ := r
  obtain ⟨hstacked, hr⟩ := h
  cases hstacked with
  | done => cases hi
  | @running pc pcs code frames env envs At shape values rest hcode hat hmatch hbelow hlength =>
    obtain ⟨j, hj, hfits⟩ := hcode.fits pc shape hat
    have hij : i = j := Option.some.inj (hi.symm.trans hj)
    subst hij
    obtain ⟨op, origin⟩ := i
    cases op with
    | loadConstant v => exact hfits.1
    | push v => exact hfits.1
    | _ => trivial

theorem start_sound {code : Code} (hcode : code.Sound) : (Ideal.start code).Sound := by
  obtain ⟨At, hshaped⟩ := hcode.shaped
  refine ⟨?_, ?_, nofun, ?_, nofun, nofun⟩
  · show Context.Stacked ⟨[0], [code], [_], [] ++ [], false⟩
    exact .running hshaped hshaped.start trivial .nil rfl
  · intro env henv
    rw [List.mem_singleton.mp henv]
    rfl
  · intro i sc hi
    obtain ⟨hlt, rfl⟩ := Array.getElem?_eq_some_iff.mp hi
    obtain rfl : i = 0 := Nat.lt_one_iff.mp hlt
    exact nofun

theorem retire_sound (h : r.Sound) : Sound { r with functions := r.functions.retire } :=
  ⟨h.stacked, h.contents.environments, h.contents.values, h.contents.scopes,
    h.contents.functions.retire⟩

theorem patch_sound (h : r.Sound) (name : String) {revision : Revision}
    (hcode : revision.code.Sound) :
    Sound { r with functions := r.functions.patch name revision } :=
  ⟨h.stacked, h.contents.environments, h.contents.values, h.contents.scopes,
    h.contents.functions.patch name hcode⟩

end Ideal

end LiveLisp
