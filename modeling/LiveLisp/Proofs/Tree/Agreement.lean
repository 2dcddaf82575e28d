/-
  Compiled code does on the ideal machine what the tree walk does. For each form: whatever the walk
  of it comes to, the machine comes to from the first instruction of its code, with a like value on
  its stack and like scopes. The walk recurses where the machine pushes frames, so calls are taken
  as a parameter first; that calls agree is then shown by induction on how deep they may nest.

  A form in tail position does not end after its last instruction, but when its function has
  returned.
-/
import LiveLisp.Proofs.Tree.Alike
import LiveLisp.Proofs.Tree.Outline

namespace LiveLisp.Meaning

variable {σ : Type}

/-! ## Outcomes -/

/-- The limits that only the walk has. -/
def IsLimit (e : Error) : Prop :=
  ∃ span, e = .runtime .callDepth (some span) ∨ e = .runtime .functionAsArgument (some span) ∨
    e = .runtime .functionAsResult (some span)

/-- The same problem at the same place, except that an unbound name at the head of a call is told as
such. -/
def SameError (heads : List Node) (e e' : Error) : Prop :=
  ∃ problem problem' span, e = .runtime problem (some span) ∧ e' = .runtime problem' (some span) ∧
    (problem' = problem ∨
      ∃ name, problem = .notDefined name ∧ problem' = .noFunction name ∧
        .identifier name span ∈ heads)

theorem SameError.refl (heads : List Node) (problem : RuntimeProblem) (span : Span) :
    SameError heads (.runtime problem (some span)) (.runtime problem (some span)) :=
  ⟨problem, problem, span, rfl, rfl, .inl rfl⟩

section Outcomes

variable {α β : Type} {host : Host σ} {heads : List Node} {r r₁ : Ideal} {w w₁ : σ} {st : State σ}

/-- What a walk comes to, the machine comes to from `r`: as `Q` says, or with the same error. -/
def Agrees (host : Host σ) (heads : List Node) (r : Ideal) (w : σ)
    (Q : α → State σ → Ideal → Prop) :
    EStateM.Result Error (State σ) α → Prop
  | .ok a st => ∃ r', r.Runs host w r' st.world ∧ Q a st r'
  | .error e st => IsLimit e ∨ ∃ e', r.Fails host w e' st.world ∧ SameError heads e e'

variable {Q : α → State σ → Ideal → Prop}

theorem Agrees.bind {x : Eval σ α} {f : α → Eval σ β} {R : β → State σ → Ideal → Prop}
    (h : Agrees host heads r w Q (x st))
    (hf : ∀ a st' r', Q a st' r' → Agrees host heads r' st'.world R (f a st')) :
    Agrees host heads r w R ((x >>= f) st) := by
  cases hx : x st with
  | ok a st' =>
    rw [hx] at h
    obtain ⟨r', hrun, hQ⟩ := h
    rw [bind_of_ok hx]
    have hrest := hf a st' r' hQ
    cases hy : f a st' with
    | ok b st'' =>
      rw [hy] at hrest
      obtain ⟨r'', hrun', hR⟩ := hrest
      exact ⟨r'', hrun.trans hrun', hR⟩
    | error e st'' =>
      rw [hy] at hrest
      rcases hrest with hlimit | ⟨e', hfail, hsame⟩
      · exact .inl hlimit
      · exact .inr ⟨e', .after hrun hfail, hsame⟩
  | error e st' =>
    rw [hx] at h
    rw [bind_of_error hx]
    exact h

theorem Agrees.after {outcome : EStateM.Result Error (State σ) α} (hrun : r.Runs host w r₁ w₁)
    (h : Agrees host heads r₁ w₁ Q outcome) : Agrees host heads r w Q outcome := by
  cases outcome with
  | ok a st =>
    obtain ⟨r', hrun', hQ⟩ := h
    exact ⟨r', hrun.trans hrun', hQ⟩
  | error e st =>
    rcases h with hlimit | ⟨e', hfail, hsame⟩
    · exact .inl hlimit
    · exact .inr ⟨e', .after hrun hfail, hsame⟩

theorem Agrees.weaken {R : α → State σ → Ideal → Prop} {outcome : EStateM.Result Error (State σ) α}
    (h : Agrees host heads r w Q outcome) (hQ : ∀ a st r', Q a st r' → R a st r') :
    Agrees host heads r w R outcome := by
  cases outcome with
  | ok a st =>
    obtain ⟨r', hrun, hr'⟩ := h
    exact ⟨r', hrun, hQ a st r' hr'⟩
  | error e st => exact h

theorem Agrees.fail {problem : RuntimeProblem} {span : Span}
    (h : r.Fails host w (.runtime problem (some span)) st.world) :
    Agrees host heads r w Q (.error (.runtime problem (some span)) st) :=
  .inr ⟨_, h, .refl heads problem span⟩

end Outcomes

section Landing

variable {host : Host σ} {unit : Nat} {heads : List Node} {below : Below}
    {code : Code} {pc scope : Nat}
  {values : List Value} {scopes : Array Scope} {built : Nat} {st : State σ}

/-- A like value on top, at this place in the code or, from tail position, in the frame below. -/
def Lands (unit : Nat) (heads : List Node) (tail : Bool) (below : Below)
    (code : Code) (pc scope : Nat) (values : List Value) (d : Datum) (st : State σ)
    (r : Ideal) : Prop :=
  ∃ v scopes built, Means unit heads d v ∧ Alike unit heads st.scopes scopes ∧
    r = if tail then .returned below (v :: values) scopes built
      else .inside below code pc scope (v :: values) scopes built

/-- Like values for arguments, the last one on top. -/
def Stacks (unit : Nat) (heads : List Node) (below : Below) (code : Code) (pc scope : Nat)
    (values : List Value) (ds : List Datum) (st : State σ) (r : Ideal) : Prop :=
  ∃ vs scopes built, List.Forall₂ (Means unit heads) ds vs ∧ Alike unit heads st.scopes scopes ∧
    r = .inside below code pc scope (vs.reverse ++ values) scopes built

/-- A form that ends after its last instruction, when nothing but returning is left to do there. -/
theorem Agrees.land {r : Ideal} {w : σ} {outcome : EStateM.Result Error (State σ) Datum}
    {tail : Bool} (h : Agrees host heads r w
      (Lands unit heads false below code pc scope values) outcome)
    (hleaves : tail = true → Ideal.Leaves code pc) :
    Agrees host heads r w (Lands unit heads tail below code pc scope values) outcome := by
  cases tail with
  | false => exact h
  | true =>
    cases outcome with
    | error e st => exact h
    | ok d st =>
      obtain ⟨r', hrun, v, scopes, built, hmeans, halike, rfl⟩ := h
      exact ⟨_, hrun.trans (Ideal.runs_of_leaves (hleaves rfl)), v, scopes, built,
        hmeans, halike, rfl⟩

/-- A form that is followed by a jump ends where the jump leads. -/
theorem Agrees.jump {r : Ideal} {w : σ} {outcome : EStateM.Result Error (State σ) Datum}
    {tail : Bool} {ahead : Nat} {span : Span}
    (h : Agrees host heads r w (Lands unit heads tail below code pc scope values) outcome)
    (hi : code.instructions[pc]? = some ⟨.jump ahead, span⟩) :
    Agrees host heads r w (Lands unit heads tail below code (pc + ahead) scope values) outcome := by
  cases tail with
  | true => exact h
  | false =>
    cases outcome with
    | error e st => exact h
    | ok d st =>
      obtain ⟨r', hrun, v, scopes, built, hmeans, halike, rfl⟩ := h
      exact ⟨_, hrun.trans (Ideal.runs_jump hi), v, scopes, built, hmeans, halike, rfl⟩

end Landing

/-! ## Forms that call nothing -/

section Forms

variable {host : Host σ} {call : Caller σ} {unit : Nat} {heads : List Node}
    {below : Below} {code : Code}
  {pc scope : Nat} {values : List Value} {scopes : Array Scope} {built : Nat}
    {st : State σ} {span : Span}
  {name : String}

theorem agrees_constant {v : Value} (hv : v.isPlain = true)
    (hi : code.Has pc [⟨.loadConstant v, span⟩]) (halike : Alike unit heads st.scopes scopes) :
    Agrees host heads (.inside below code pc scope values scopes built) st.world
      (Lands unit heads false below code (pc + 1) scope values) (.ok (.value v) st) :=
  ⟨_, Ideal.runs_constant hi.head, v, scopes, built, .value hv, halike, rfl⟩

/-- An identifier means the same on both sides, or is unbound on both. -/
theorem identifier_cases (host : Host σ) (span : Span) (hk : Keyword.ofName? name = none)
    (halike : Alike unit heads st.scopes scopes) :
    (∃ d v, identifier host scope name span st = .ok d st ∧
      Ideal.nameValue? host scopes scope name = some v ∧
      Means unit heads d v) ∨
    (identifier host scope name span st = .error (.runtime (.notDefined name) (some span)) st ∧
      Ideal.nameValue? host scopes scope name = none) := by
  unfold identifier Ideal.nameValue?
  rw [hk]
  dsimp only
  rw [get_bind]
  rcases halike.lookup? name scope with ⟨hd, hv⟩ | ⟨d, v, hd, hv, hmeans⟩
  · rw [hd, hv]
    cases host.owner? name with
    | none => exact .inr ⟨rfl, rfl⟩
    | some owner => exact .inl ⟨_, _, rfl, rfl, .value rfl⟩
  · rw [hd, hv]
    exact .inl ⟨d, v, rfl, rfl, hmeans⟩

theorem agrees_name (hk : Keyword.ofName? name = none) (hi : code.Has pc [⟨.nameLookup name, span⟩])
    (halike : Alike unit heads st.scopes scopes) :
    Agrees host heads (.inside below code pc scope values scopes built) st.world
      (Lands unit heads false below code (pc + 1) scope values)
      (identifier host scope name span st) := by
  rcases identifier_cases host span hk halike with ⟨d, v, hd, hv, hmeans⟩ | ⟨hd, hv⟩
  · rw [hd]
    exact ⟨_, Ideal.runs_nameLookup hi.head hv, v, scopes, built, hmeans, halike, rfl⟩
  · rw [hd]
    exact .fail (Ideal.fails_nameLookup hi.head hv)

/-- The head of a call. -/
theorem agrees_callName (hk : Keyword.ofName? name = none) (hhead : .identifier name span ∈ heads)
    (hi : code.Has pc [⟨.functionLookup name, span⟩]) (halike : Alike unit heads st.scopes scopes) :
    Agrees host heads (.inside below code pc scope values scopes built) st.world
      (Lands unit heads false below code (pc + 1) scope values)
      (identifier host scope name span st) := by
  rcases identifier_cases host span hk halike with ⟨d, v, hd, hv, hmeans⟩ | ⟨hd, hv⟩
  · rw [hd]
    exact ⟨_, Ideal.runs_functionLookup hi.head hv, v, scopes, built, hmeans, halike, rfl⟩
  · rw [hd]
    exact .inr ⟨_, Ideal.fails_functionLookup hi.head hv, _, _, span, rfl, rfl,
      .inr ⟨name, rfl, rfl, hhead⟩⟩

/-- `define`, once the value is there. -/
theorem agrees_define {d : Datum} {v : Value} (hmeans : Means unit heads d v)
    (hi : code.Has pc [⟨.storeNew name, span⟩]) (halike : Alike unit heads st.scopes scopes) :
    Agrees host heads (.inside below code pc scope (v :: values) scopes built) st.world
      (Lands unit heads false below code (pc + 1) scope values)
      ((define scope name d >>= fun _ => pure d) st) :=
  ⟨_, Ideal.runs_storeNew hi.head, v, _, built, hmeans, halike.bind hmeans scope name, rfl⟩

/-- `set!`, once the value is there. -/
theorem agrees_assign {d : Datum} {v : Value} (hmeans : Means unit heads d v)
    (hi : code.Has pc [⟨.store name, span⟩]) (halike : Alike unit heads st.scopes scopes) :
    Agrees host heads (.inside below code pc scope (v :: values) scopes built) st.world
      (Lands unit heads false below code (pc + 1) scope values)
      ((assign host scope name d span >>= fun _ => pure d) st) := by
  have howner := halike.ownerOf name scope
  cases hown : ownerOf st.scopes scope name with
  | some owner =>
    rw [hown] at howner
    have hassign : assign host scope name d span st = define owner name d st := by
      unfold assign
      rw [get_bind, hown]
    rw [bind_of_ok hassign]
    exact ⟨_, Ideal.runs_store hi.head howner, v, _, built, hmeans,
      halike.bind hmeans owner name, rfl⟩
  | none =>
    rw [hown] at howner
    have hassign : assign host scope name d span st = .error (.runtime
        (if (host.owner? name).isSome then .immutable name else .unassignable name)
          (some span)) st := by
      unfold assign
      rw [get_bind, hown]
      cases (host.owner? name).isSome <;> rfl
    rw [bind_of_error hassign]
    exact .fail (Ideal.fails_store hi.head howner)

/-- A function is built, not run. -/
theorem agrees_lambda {params : List String} {paramsSpan : Span} {body : List Node}
    {is : List Instruction} (hbody : Compiles unit (.body true span body) is)
    (hheads : Node.headsOfAll body ⊆ heads)
    (hi : code.Has pc (Compile.function unit none params paramsSpan is span))
    (halike : Alike unit heads st.scopes scopes) :
    Agrees host heads (.inside below code pc scope values scopes built) st.world
      (Lands unit heads false below code (pc + 3) scope values)
      (.ok (.lambda ⟨params, body, scope⟩) st) :=
  ⟨_, Ideal.runs_function hi, _, scopes, built + 1, .lambda hbody hheads, halike, rfl⟩

end Forms

/-! ## Calls -/

/-- Calling a function agrees with running its body in a new frame, from whatever states and with
whatever is below. -/
def Calls (host : Host σ) (unit : Nat) (heads : List Node) (call : Caller σ) : Prop :=
  ∀ (params : List String) (body : List Node) (parent : Nat) (span at_ : Span)
    (is : List Instruction) (ds : List Datum)
    (args : List Value) (st : State σ) (scopes : Array Scope) (below : Below)
      (values : List Value) (built : Nat),
    Compiles unit (.body true span body) is → Node.headsOfAll body ⊆ heads →
      List.Forall₂ (Means unit heads) ds args →
    Alike unit heads st.scopes scopes →
    Agrees host heads
      (.inside below (.ofBody unit span is) 0 scopes.size values
        (scopes.push ⟨NameMap.putAll [] (params.zip args), some ⟨parent, 0⟩⟩) built)
      st.world (Lands unit heads true below (.ofBody unit span is) 0 scopes.size values)
      (call ⟨params, body, parent⟩ ds at_ st)

section Calls

variable {host : Host σ} {call : Caller σ} {unit : Nat} {heads : List Node}
    {below : Below} {code : Code}
  {pc scope : Nat} {values : List Value} {scopes : Array Scope} {built : Nat} {st : State σ}
    {span : Span} {tail : Bool}
  {ds : List Datum} {args : List Value}

theorem plainValues_cases (span : Span) (h : List.Forall₂ (Means unit heads) ds args) :
    (plainValues span ds = .ok args ∧ ∀ v ∈ args, v.isPlain = true) ∨
    plainValues span ds = .error (.runtime .functionAsArgument (some span)) := by
  induction h with
  | nil => exact .inl ⟨rfl, nofun⟩
  | @cons d v ds args hmeans _ ih =>
    cases hmeans with
    | lambda hbody hheads => exact .inr rfl
    | value hv =>
      unfold plainValues
      rcases ih with ⟨hok, hplain⟩ | herror
      · rw [hok]
        refine .inl ⟨rfl, fun u hu => ?_⟩
        rcases List.mem_cons.mp hu with rfl | hu
        · exact hv
        · exact hplain u hu
      · rw [herror]
        exact .inr rfl

theorem agrees_invoke (hhost : host.Plain) {owner : Owner} {method : String}
    (hplain : ∀ v ∈ args, v.isPlain = true)
    (hi : code.instructions[pc]? = some ⟨Compile.invocation tail args.length, span⟩)
    (halike : Alike unit heads st.scopes scopes) :
    Agrees host heads (.inside below code pc scope (args.reverse ++ .host owner method ::
      values) scopes built) st.world
      (Lands unit heads false below code (pc + 1) scope values)
      (invoke host owner method args span st) := by
  unfold invoke
  rw [get_bind]
  cases hanswer : host.invoke owner method args st.world with
  | mk answer w =>
    cases answer with
    | ok v =>
      have hv := hhost owner method args st.world v hplain (by rw [hanswer])
      exact ⟨_, Ideal.runs_host hi hplain hanswer, v, scopes, built, .value hv, halike, rfl⟩
    | error problem => exact .fail (Ideal.fails_host hi hplain hanswer)

/-- A call, once the callee and its arguments are there. -/
theorem agrees_apply (hhost : host.Plain) (hcall : Calls host unit heads call)
    {d : Datum} {callee : Value} (hcallee : Means unit heads d callee)
    (hargs : List.Forall₂ (Means unit heads) ds args)
    (hi : code.instructions[pc]? = some ⟨Compile.invocation tail args.length, span⟩)
    (hleaves : tail = true → Ideal.Leaves code (pc + 1))
    (halike : Alike unit heads st.scopes scopes) :
    Agrees host heads (.inside below code pc scope (args.reverse ++ callee :: values) scopes built)
      st.world
      (Lands unit heads tail below code (pc + 1) scope values) (apply host call d ds span st) := by
  cases hcallee with
  | lambda hbody hheads =>
    next params body parent id bodySpan is =>
    unfold apply
    by_cases hlength : params.length = ds.length
    · simp only [hlength, ne_eq, not_true_eq_false, if_false]
      refine .after (Ideal.runs_enter hi (hlength.trans hargs.length_eq)) ?_
      have hbodyRun := hcall params body parent bodySpan span is ds args st scopes
        (if tail then below else below.under code pc scope) values built hbody hheads hargs halike
      refine hbodyRun.weaken fun d st' r hr => ?_
      cases tail with
      | true => exact hr
      | false => exact hr
    · have hargc : params.length ≠ args.length := fun h => hlength (h.trans hargs.length_eq.symm)
      simp only [hlength, ne_eq, not_false_eq_true, if_true]
      rw [hargs.length_eq]
      exact .fail (Ideal.fails_arity hi hargc)
  | value hv =>
    cases callee with
    | host owner method =>
      simp only [apply]
      rcases plainValues_cases span hargs with ⟨hok, hplain⟩ | herror
      · rw [hok]
        exact (agrees_invoke hhost hplain hi halike).land hleaves
      · rw [herror]
        exact .inl ⟨span, .inr (.inl rfl)⟩
    | closure id params body parent => cases hv
    | named name => cases hv
    | _ => exact .fail (Ideal.fails_notCallable hi hv fun _ _ h => by cases h)

end Calls

/-! ## Code of whole forms -/

/-- In any code that it stands in, and whatever is below, this code does what `x` does in the scope
of its frame. In tail position, what follows must only return. -/
def Does (host : Host σ) (unit : Nat) (heads : List Node) (tail : Bool) (is : List Instruction)
    (x : Nat → Eval σ Datum) : Prop :=
  ∀ (below : Below) (code : Code) (pc scope : Nat) (values : List Value)
    (scopes : Array Scope) (built : Nat)
    (st : State σ), code.Has pc is → (tail = true → Ideal.Leaves code (pc + is.length)) →
    Alike unit heads st.scopes scopes →
    Agrees host heads (.inside below code pc scope values scopes built) st.world
      (Lands unit heads tail below code (pc + is.length) scope values) (x scope st)

/-- The same for `argc` arguments. -/
def DoesAll (host : Host σ) (unit : Nat) (heads : List Node) (argc : Nat) (is : List Instruction)
    (x : Nat → Eval σ (List Datum)) : Prop :=
  ∀ (below : Below) (code : Code) (pc scope : Nat) (values : List Value)
    (scopes : Array Scope) (built : Nat)
    (st : State σ), code.Has pc is → Alike unit heads st.scopes scopes →
    Agrees host heads (.inside below code pc scope values scopes built) st.world
      (fun ds st' r =>
        ds.length = argc ∧ Stacks unit heads below code (pc + is.length) scope values ds st' r)
      (x scope st)

section Blocks

variable {host : Host σ} {call : Caller σ} {unit : Nat} {heads : List Node}
    {tail : Bool} {span : Span}
  {is js : List Instruction} {x y z : Nat → Eval σ Datum}

theorem does_constant {v : Value} (hv : v.isPlain = true) :
    Does host unit heads tail [⟨.loadConstant v, span⟩] fun _ => pure (.value v) :=
  fun _ _ _ _ _ _ _ _ hi hleaves halike => (agrees_constant hv hi halike).land hleaves

theorem does_name {name : String} (hk : Keyword.ofName? name = none) :
    Does host unit heads tail [⟨.nameLookup name, span⟩] fun scope =>
      identifier host scope name span :=
  fun _ _ _ _ _ _ _ _ hi hleaves halike => (agrees_name hk hi halike).land hleaves

theorem does_callName {name : String} (hk : Keyword.ofName? name = none)
    (hhead : .identifier name span ∈ heads) :
    Does host unit heads false [⟨.functionLookup name, span⟩] fun scope =>
      identifier host scope name span :=
  fun _ _ _ _ _ _ _ _ hi _ halike => agrees_callName hk hhead hi halike

theorem does_lambda {params : List String} {paramsSpan : Span} {body : List Node}
    (hbody : Compiles unit (.body true span body) is) (hheads : Node.headsOfAll body ⊆ heads) :
    Does host unit heads tail (Compile.function unit none params paramsSpan is span)
      fun scope => pure (.lambda ⟨params, body, scope⟩) :=
  fun _ _ _ _ _ _ _ _ hi hleaves halike => (agrees_lambda hbody hheads hi halike).land hleaves

/-- One instruction that keeps the value on top. -/
theorem Does.keep (h : Does host unit heads false is x) {op : Op} {put : Nat → Datum → Eval σ Unit}
    (hput : ∀ (below : Below) (code : Code) (pc scope : Nat) (values : List Value)
      (scopes : Array Scope) (built : Nat)
      (st : State σ) (d : Datum) (v : Value), Means unit heads d v → code.Has pc [⟨op, span⟩] →
      Alike unit heads st.scopes scopes →
      Agrees host heads (.inside below code pc scope (v :: values) scopes built) st.world
        (Lands unit heads false below code (pc + 1) scope values)
        ((put scope d >>= fun _ => pure d) st)) :
    Does host unit heads tail (is ++ [⟨op, span⟩]) fun scope =>
      x scope >>= fun d => put scope d >>= fun _ => pure d := by
  intro below code pc scope values scopes built st hi hleaves halike
  rw [List.length_append, ← Nat.add_assoc] at hleaves ⊢
  refine (h below code pc scope values scopes built st hi.left nofun halike).bind ?_
  rintro d st' _ ⟨v, scopes', built', hmeans, halike', rfl⟩
  exact (hput below code _ scope values scopes' built' st' d v hmeans hi.right halike').land hleaves

/-- One form after another, of which the first one's value is dropped. -/
theorem Does.seq (hx : Does host unit heads false is x) (hy : Does host unit heads tail js y) :
    Does host unit heads tail (is ++ [⟨.pop, span⟩] ++ js) fun scope =>
      x scope >>= fun _ => y scope := by
  intro below code pc scope values scopes built st hi hleaves halike
  rw [List.length_append, List.length_append,
    List.length_singleton, ← Nat.add_assoc, ← Nat.add_assoc] at hleaves ⊢
  refine (hx below code pc scope values scopes built st hi.left.left nofun halike).bind ?_
  rintro d st' _ ⟨v, scopes', built', hmeans, halike', rfl⟩
  have hjs : code.Has (pc + is.length + 1) js := by
    have hright := hi.right
    rw [List.length_append, List.length_singleton, ← Nat.add_assoc] at hright
    exact hright
  exact .after (Ideal.runs_pop hi.left.right.head)
    (hy below code _ scope values scopes' built' st' hjs hleaves halike')

/-- The first branch is followed by a jump over the second. -/
theorem Does.branch {cs ys ns : List Instruction} (hx : Does host unit heads false cs x)
    (hy : Does host unit heads tail ys y) (hz : Does host unit heads tail ns z) :
    Does host unit heads tail (Compile.branch span cs ys ns) fun scope =>
      x scope >>= fun d => if isTruthy d then y scope else z scope := by
  intro below code pc scope values scopes built st hi hleaves halike
  unfold Compile.branch at hi
  have hlength : pc + (Compile.branch span cs ys ns).length = pc + cs.length + 1 +
    ys.length + 1 + ns.length := by
    simp only [Compile.branch, List.length_append, List.length_singleton]
    omega
  rw [hlength] at hleaves ⊢
  have hcs : code.Has pc cs := hi.left.left.left.left
  have hskip : code.instructions[pc + cs.length]? =
    some ⟨.jumpIfNot ((ys.length + 2 : Nat) : Int), span⟩ :=
    hi.left.left.left.right.head
  have hys : code.Has (pc + cs.length + 1) ys := by
    have h := hi.left.left.right
    rw [List.length_append, List.length_singleton, ← Nat.add_assoc] at h
    exact h
  have hover : code.instructions[pc + cs.length + 1 + ys.length]? =
      some ⟨.jump ((ns.length + 1 : Nat) : Int), span⟩ := by
    have h := hi.left.right
    rw [List.length_append, List.length_append,
      List.length_singleton, ← Nat.add_assoc, ← Nat.add_assoc] at h
    exact h.head
  have hns : code.Has (pc + cs.length + 1 + ys.length + 1) ns := by
    have h := hi.right
    simp only [List.length_append, List.length_singleton, ← Nat.add_assoc] at h
    exact h
  refine (hx below code pc scope values scopes built st hcs nofun halike).bind ?_
  rintro d st' _ ⟨v, scopes', built', hmeans, halike', rfl⟩
  refine .after (Ideal.runs_jumpIfNot hskip) ?_
  rw [← hmeans.isTruthy]
  cases isTruthy d with
  | true =>
    have hend : pc + cs.length + 1 + ys.length + (ns.length + 1) = pc + cs.length + 1 + ys.length +
      1 + ns.length := by
      omega
    rw [← hend] at hleaves ⊢
    have hyes := hy below code (pc + cs.length + 1) scope values scopes' built' st' hys
      (fun htail => .jump hover (hleaves htail)) halike'
    exact hyes.jump hover
  | false =>
    have hno := hz below code (pc + cs.length + 1 + ys.length +
      1) scope values scopes' built' st' hns hleaves halike'
    have hstart : pc + cs.length + 1 + ys.length + 1 = pc + cs.length + (ys.length + 2) := by omega
    rw [hstart] at hno ⊢
    exact hno

/-- Callee, arguments, call. -/
theorem Does.invocation (hhost : host.Plain) (hcall : Calls host unit heads call) {argc : Nat}
    {cs as : List Instruction}
    {xs : Nat → Eval σ (List Datum)} (hx : Does host unit heads false cs x)
    (hxs : DoesAll host unit heads argc as xs) :
    Does host unit heads tail (cs ++ as ++ [⟨Compile.invocation tail argc, span⟩]) fun scope =>
      x scope >>= fun callee => xs scope >>= fun args => apply host call callee args span := by
  intro below code pc scope values scopes built st hi hleaves halike
  rw [List.length_append, List.length_append,
    List.length_singleton, ← Nat.add_assoc, ← Nat.add_assoc] at hleaves ⊢
  have hcallAt :
    code.instructions[pc + cs.length + as.length]? = some ⟨Compile.invocation tail argc, span⟩ := by
    have h := hi.right
    rw [List.length_append, ← Nat.add_assoc] at h
    exact h.head
  refine (hx below code pc scope values scopes built st hi.left.left nofun halike).bind ?_
  rintro d st' _ ⟨callee, scopes', built', hcallee, halike', rfl⟩
  refine (hxs below code (pc + cs.length) scope (callee :: values) scopes' built' st'
    hi.left.right halike').bind ?_
  rintro ds st'' _ ⟨hargc, args, scopes'', built'', hargs, halike'', rfl⟩
  rw [← hargc, hargs.length_eq] at hcallAt
  exact agrees_apply hhost hcall hcallee hargs hcallAt hleaves halike''

theorem doesAll_nil : DoesAll host unit heads 0 [] fun _ => pure [] :=
  fun _ _ _ _ _ scopes built _ _ halike => ⟨_, .refl _ _, rfl, [], scopes, built, .nil, halike, rfl⟩

theorem DoesAll.cons {argc : Nat} {xs : Nat → Eval σ (List Datum)}
    (hx : Does host unit heads false is x) (hxs : DoesAll host unit heads argc js xs) :
    DoesAll host unit heads (argc + 1) (is ++ js) fun scope =>
      x scope >>= fun d => xs scope >>= fun ds => pure (d :: ds) := by
  intro below code pc scope values scopes built st hi halike
  rw [List.length_append, ← Nat.add_assoc]
  refine (hx below code pc scope values scopes built st hi.left nofun halike).bind ?_
  rintro d st' _ ⟨v, scopes', built', hmeans, halike', rfl⟩
  refine (hxs below code (pc + is.length) scope (v :: values) scopes' built' st'
    hi.right halike').bind ?_
  rintro ds st'' _ ⟨hargc, vs, scopes'', built'', hmeansAll, halike'', rfl⟩
  have hlength : (d :: ds).length = argc + 1 := by rw [List.length_cons, hargc]
  refine ⟨_, .refl _ _, hlength, v :: vs, scopes'', built'', .cons hmeans hmeansAll, halike'', ?_⟩
  rw [List.reverse_cons, List.append_assoc]
  rfl

end Blocks

/-! ## Compiled forms -/

section Equations

variable {host : Host σ} {call : Caller σ} {scope : Nat} {head : Node}
    {span nameSpan : Span} {name : String}

theorem eval_define (hk : head.keyword? = some .define) (value : Node) :
    eval host call scope (.list [head, .identifier name nameSpan, value] span) =
      (eval host call scope value >>= fun d => define scope name d >>= fun _ => pure d) := by
  rw [eval, hk]
  dsimp only
  rw [assignment]
  rfl

theorem eval_assign (hk : head.keyword? = some .assign) (value : Node) :
    eval host call scope (.list [head, .identifier name nameSpan, value] span) =
      (eval host call scope value >>= fun d =>
        assign host scope name d span >>= fun _ => pure d) := by
  rw [eval, hk]
  dsimp only
  rw [assignment]
  rfl

theorem parameterList_names {params : Node} {names : List String}
    (h : Compile.parameterList params = .ok names) :
    params.items?.bind Definition.names? = some names := by
  obtain ⟨nodes, span, rfl, hnames⟩ := Compile.parameterList_eq_ok h
  exact hnames

theorem eval_lambda (hk : head.keyword? = some .lambda) {params : Node} {names : List String}
    (hp : Compile.parameterList params = .ok names) (body : List Node) :
    eval host call scope (.list (head :: params :: body) span) =
      pure (.lambda ⟨names, body, scope⟩) := by
  rw [eval, hk]
  dsimp only
  rw [parameterList_names hp]

theorem eval_ifThen (hk : head.keyword? = some .branch) (condition yes : Node) :
    eval host call scope (.list [head, condition, yes] span) =
      (eval host call scope condition >>= fun d =>
        if isTruthy d then eval host call scope yes else pure (.value .null)) := by
  rw [eval, hk]

theorem eval_ifThenElse (hk : head.keyword? = some .branch) (condition yes no : Node) :
    eval host call scope (.list [head, condition, yes, no] span) =
      (eval host call scope condition >>= fun d =>
        if isTruthy d then eval host call scope yes else eval host call scope no) := by
  rw [eval, hk]

theorem eval_sequence (hk : head.keyword? = some .sequence) (items : List Node) :
    eval host call scope (.list (head :: items) span) = sequence host call scope items := by
  rw [eval.eq_def]
  simp only [hk]

theorem eval_call (hk : head.keyword? = none) (items : List Node) :
    eval host call scope (.list (head :: items) span) =
      (eval host call scope head >>= fun callee => evalAll host call scope items >>= fun args =>
        apply host call callee args span) := by
  rw [eval.eq_def]
  simp only [hk]

end Equations

/-- The code of a part does what walking the part does. -/
def Holds (host : Host σ) (unit : Nat) (heads : List Node) (call : Caller σ)
    (is : List Instruction) : Part → Prop
  | .form tail node => Does host unit heads tail is fun scope => eval host call scope node
  | .body tail _ nodes => Does host unit heads tail is fun scope => sequence host call scope nodes
  | .arguments nodes =>
    DoesAll host unit heads nodes.length is fun scope => evalAll host call scope nodes

theorem holds_of_compiles {host : Host σ} {unit : Nat} {heads : List Node} {call : Caller σ}
    (hhost : host.Plain) (hcall : Calls host unit heads call)
    (hdefn : ∀ head ∈ heads, head.keyword? ≠ some .defn) {part : Part} {is : List Instruction}
    (h : Compiles unit part is) : part.heads ⊆ heads → Holds host unit heads call is part := by
  induction h with
  | number =>
    intro _
    simp only [Holds, eval]
    exact does_constant rfl
  | text =>
    intro _
    simp only [Holds, eval]
    exact does_constant rfl
  | @literal tail name span keyword v hk hv =>
    intro _
    have hliteral :
      v.isPlain = true ∧ ∀ scope, identifier host scope name span = pure (.value v) := by
      unfold identifier
      rw [hk]
      cases keyword <;> cases hv <;> exact ⟨rfl, fun _ => rfl⟩
    simp only [Holds, eval, hliteral.2]
    exact does_constant hliteral.1
  | name hk =>
    intro _
    simp only [Holds, eval_identifier]
    exact does_name hk
  | define hk hv ih =>
    intro hheads
    obtain ⟨-, -, hitems⟩ := Part.heads_list_subset hheads
    obtain ⟨-, hvalue⟩ := Node.headsOfAll_cons_subset hitems
    simp only [Holds, eval_define hk]
    exact Does.keep (ih (Node.headsOfAll_cons_subset hvalue).1) fun _ _ _ _ _ _ _ _ _ _
      hmeans hi halike =>
      agrees_define hmeans hi halike
  | assign hk hv ih =>
    intro hheads
    obtain ⟨-, -, hitems⟩ := Part.heads_list_subset hheads
    obtain ⟨-, hvalue⟩ := Node.headsOfAll_cons_subset hitems
    simp only [Holds, eval_assign hk]
    exact Does.keep (ih (Node.headsOfAll_cons_subset hvalue).1) fun _ _ _ _ _ _ _ _ _ _
      hmeans hi halike =>
      agrees_assign hmeans hi halike
  | lambda hk hp hb ih =>
    intro hheads
    obtain ⟨-, -, hitems⟩ := Part.heads_list_subset hheads
    simp only [Holds, eval_lambda hk hp]
    exact does_lambda hb (Node.headsOfAll_cons_subset hitems).2
  | defn hk hp hb ih =>
    intro hheads
    obtain ⟨hhead, -⟩ := Part.heads_list_subset hheads
    exact absurd hk (hdefn _ hhead)
  | ifThen hk hc hy hpast ihc ihy =>
    intro hheads
    obtain ⟨-, -, hitems⟩ := Part.heads_list_subset hheads
    obtain ⟨hcondition, hrest⟩ := Node.headsOfAll_cons_subset hitems
    obtain ⟨hyes, -⟩ := Node.headsOfAll_cons_subset hrest
    simp only [Holds, eval_ifThen hk]
    exact (ihc hcondition).branch (ihy hyes) (does_constant rfl)
  | ifThenElse hk hc hy hn hpast hend ihc ihy ihn =>
    intro hheads
    obtain ⟨-, -, hitems⟩ := Part.heads_list_subset hheads
    obtain ⟨hcondition, hrest⟩ := Node.headsOfAll_cons_subset hitems
    obtain ⟨hyes, hrest⟩ := Node.headsOfAll_cons_subset hrest
    obtain ⟨hno, -⟩ := Node.headsOfAll_cons_subset hrest
    simp only [Holds, eval_ifThenElse hk]
    exact (ihc hcondition).branch (ihy hyes) (ihn hno)
  | sequence hk hs ih =>
    intro hheads
    obtain ⟨-, -, hitems⟩ := Part.heads_list_subset hheads
    simp only [Holds, eval_sequence hk]
    exact ih hitems
  | @callName tail name items headSpan span args hk ha ih =>
    intro hheads
    obtain ⟨hhead, -, hitems⟩ := Part.heads_list_subset hheads
    have hkeyword : (Node.identifier name headSpan).keyword? = none := hk
    simp only [Holds, eval_call hkeyword, eval_identifier]
    exact (does_callName hk hhead).invocation hhost hcall (ih hitems)
  | @call tail head items span callee args hname hc ha ihc iha =>
    intro hheads
    obtain ⟨-, hhead, hitems⟩ := Part.heads_list_subset hheads
    have hkeyword : head.keyword? = none := by
      unfold Node.keyword?
      rw [hname]
      rfl
    simp only [Holds, eval_call hkeyword]
    exact (ihc hhead).invocation hhost hcall (iha hitems)
  | nothing =>
    intro _
    simp only [Holds, sequence]
    exact does_constant rfl
  | last h ih =>
    intro hheads
    simp only [Holds, sequence]
    exact ih (Node.headsOfAll_cons_subset hheads).1
  | next h hs ih ihs =>
    intro hheads
    obtain ⟨hnode, hrest⟩ := Node.headsOfAll_cons_subset hheads
    simp only [Holds, sequence]
    exact (ih hnode).seq (ihs hrest)
  | noArguments =>
    intro _
    simp only [Holds, evalAll]
    exact doesAll_nil
  | argument h hs ih ihs =>
    intro hheads
    obtain ⟨hnode, hrest⟩ := Node.headsOfAll_cons_subset hheads
    simp only [Holds, evalAll]
    exact (ihs hrest).cons (ih hnode)

/-! ## Calls by depth -/

variable {host : Host σ} {unit : Nat} {heads : List Node}

/-- A body with the instruction that returns its value, as the code of a function. -/
theorem leaves_ofBody (unit : Nat) (span : Span) (is : List Instruction) :
    (Code.ofBody unit span is).Has 0 is ∧ Ideal.Leaves (.ofBody unit span is) (0 + is.length) := by
  have hall : (Code.ofBody unit span is).Has 0 (is ++ [⟨.ret, span⟩]) := by
    intro k i hk
    rw [Nat.zero_add]
    exact hk
  exact ⟨hall.left, .ret hall.right.head⟩

theorem calls_callWithin (hhost : host.Plain) (hdefn : ∀ head ∈ heads, head.keyword? ≠ some .defn)
    (depth : Nat) :
    Calls host unit heads (callWithin host depth) := by
  induction depth with
  | zero =>
    intro params body parent span at_ is ds args st scopes below values built _ _ _ _
    exact .inl ⟨at_, .inl rfl⟩
  | succ depth ih =>
    intro params body parent span at_ is ds args st scopes below values built hbody
      hheads hargs halike
    have hpushed := halike.push hargs params parent
    have hdoes : Does host unit heads true is _ := holds_of_compiles hhost ih hdefn hbody hheads
    obtain ⟨hi, hleaves⟩ := leaves_ofBody unit span is
    have hrun := hdoes below (.ofBody unit span is) 0 scopes.size values _ built
      ⟨st.scopes.push ⟨NameMap.putAll [] (params.zip ds), some parent⟩,
        st.world⟩ hi (fun _ => hleaves) hpushed
    rw [← halike.size] at hrun ⊢
    exact hrun

/-- A whole program on the ideal machine: like a walk of its tree. -/
theorem agrees_program (hhost : host.Plain) {root : Node}
    (hdefn : ∀ head ∈ root.heads, head.keyword? ≠ some .defn) {code : Code}
    (hcode : Code.ofProgram unit root = .ok code) (w : σ) :
    Agrees host root.heads (.start code) w
      (fun d _ r => ∃ v scopes built, Means unit root.heads d v ∧
        r = .returned ⟨[], [], []⟩ [v] scopes built)
      (eval host (callWithin host maxCallDepth) 0 root ⟨#[⟨[], none⟩], w⟩) := by
  obtain ⟨is, his, h⟩ := except_bind_eq_ok hcode
  cases h
  have hdoes : Does host unit root.heads false is _ :=
    holds_of_compiles hhost (calls_callWithin hhost hdefn maxCallDepth) hdefn
      (compiles_expression his)
      (List.Subset.refl _)
  have hall : Code.Has ⟨⟨unit, none⟩, is ++ [⟨.ret, root.span⟩]⟩ 0 (is ++ [⟨.ret, root.span⟩]) := by
    intro k i hk
    rw [Nat.zero_add]
    exact hk
  have hrun := hdoes ⟨[], [], []⟩ ⟨⟨unit, none⟩, is ++ [⟨.ret, root.span⟩]⟩ 0 0 [] #[⟨[], none⟩] 0
    ⟨#[⟨[], none⟩], w⟩
    hall.left nofun alike_start
  have hleft : Agrees host root.heads _ w (Lands unit root.heads true ⟨[], [], []⟩ _ _ 0 []) _ :=
    hrun.land fun _ => .ret hall.right.head
  refine hleft.weaken ?_
  rintro d st _ ⟨v, scopes, built, hmeans, -, rfl⟩
  exact ⟨v, scopes, built, hmeans, rfl⟩

end LiveLisp.Meaning
