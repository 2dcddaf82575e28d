/-
  Two machines that run twin code in step. They have the same counters, environments and numbers of
  scopes and closures, and values that differ only in the code of closures; their functions have
  twin bodies once revisions are taken into account. Every step of the one is a step of the other,
  as long as no edited function is called before its revision is in place (`Twin.step`).

  `active` are the revisions that the left machine has: none while the program before the edit runs,
  all of them after the edit. The right machine runs the new program and never has any.
-/
import LiveLisp.Proofs.Ideal.Related

namespace LiveLisp

section Relations

variable (revisions : NameMap Revision) (edited : String → Prop)

/-- Closures that differ in their code only, which is twin code. -/
structure Closure.Twin (c c' : Closure) : Prop where
  id : c.id = c'.id
  params : c.params = c'.params
  scope : c.scope = c'.scope
  code : Twins revisions edited c.code.instructions c'.code.instructions

def Value.Twin (v v' : Value) : Prop :=
  Value.Related (Closure.Twin revisions edited) v v'

structure Scope.Twin (sc sc' : Scope) : Prop where
  bindings : sc.bindings.Alike (Value.Twin revisions edited) sc'.bindings
  parent : sc.parent = sc'.parent

structure TwinScopes (scopes scopes' : Array Scope) : Prop where
  size : scopes.size = scopes'.size
  same : ∀ (n : Nat) sc sc', scopes[n]? = some sc → scopes'[n]? = some sc' →
    Scope.Twin revisions edited sc sc'

/-- A function registered by both machines: the left one has what the active revisions made of the
operands. -/
structure NamedFunction.Twin (active : NameMap Revision) (name : String)
    (f f' : NamedFunction) : Prop where
  env : f.env = f'.env
  operands : ∃ params, TwinOperands revisions edited (some name) params f.site f'.params f'.code ∧
    (f.params, f.code) = reissued active (some name) params f.site

structure FunctionTable.Twin (active : NameMap Revision) (table table' : FunctionTable) : Prop where
  left : table.revisions = active
  right : table'.revisions = []
  entries : ∀ name, (table.entries.get? name = none ∧ table'.entries.get? name = none) ∨
    ∃ f f', table.entries.get? name = some f ∧ table'.entries.get? name = some f' ∧
      NamedFunction.Twin revisions edited active name f f'

/-- What is left to run in the top frames, and the values there. Between the instructions that make
a function, its operands are on the stacks. -/
inductive Standing : List Instruction → List Value → List Instruction → List Value → Prop where
  | between {is js : List Instruction} {values values' : List Value}
    (hnext : Twins revisions edited is js)
      (hvalues : List.Forall₂ (Value.Twin revisions edited) values values') :
        Standing is values js values'
  | params {name : Option String} {params params' : List String} {code code' : Code}
      {o₁ o₂ o₁' o₂' : Span}
      {is js : List Instruction} {values values' : List Value}
      (hoperands : TwinOperands revisions edited name params code params' code')
        (hnext : Twins revisions edited is js)
      (hvalues : List.Forall₂ (Value.Twin revisions edited) values values') :
    Standing (⟨.push (.code code), o₁⟩ :: ⟨.buildFunction name, o₂⟩ :: is)
      (.params params :: values)
      (⟨.push (.code code'), o₁'⟩ :: ⟨.buildFunction name, o₂'⟩ :: js) (.params params' :: values')
  | code {name : Option String} {params params' : List String} {code code' : Code} {o o' : Span}
      {is js : List Instruction} {values values' : List Value}
      (hoperands : TwinOperands revisions edited name params code params' code')
        (hnext : Twins revisions edited is js)
      (hvalues : List.Forall₂ (Value.Twin revisions edited) values values') :
    Standing (⟨.buildFunction name, o⟩ :: is) (.code code :: .params params :: values)
      (⟨.buildFunction name, o'⟩ :: js) (.code code' :: .params params' :: values')

/-- The frames below, which wait for a call to return. -/
inductive Returning : List Nat → List Environment → List Code → List Code → Prop where
  | nil : Returning [] [] [] []
  | cons {pc : Nat} {pcs : List Nat} {env : Environment} {envs : List Environment}
      {code code' : Code}
      {frames frames' : List Code}
      (hnext : Twins revisions edited (code.instructions.drop (pc + 1))
        (code'.instructions.drop (pc + 1)))
      (hbelow : Returning pcs envs frames frames') :
    Returning (pc :: pcs) (env :: envs) (code :: frames) (code' :: frames')

inductive Context.Twin : Context → Context → Prop where
  | running {pc : Nat} {pcs : List Nat} {env : Environment}
    {envs : List Environment} {code code' : Code}
      {frames frames' : List Code} {values values' : List Value}
      (htop : Standing revisions edited (code.instructions.drop pc) values
        (code'.instructions.drop pc) values')
      (hbelow : Returning revisions edited pcs envs frames frames') :
    Context.Twin ⟨pc :: pcs, code :: frames, env :: envs, values, false⟩
      ⟨pc :: pcs, code' :: frames', env :: envs, values', false⟩
  | finished {values values' : List Value}
      (hvalues : List.Forall₂ (Value.Twin revisions edited) values values') :
    Context.Twin ⟨[], [], [], values, true⟩ ⟨[], [], [], values', true⟩

/-- Machines that run twin code in step. -/
structure Ideal.Twin (active : NameMap Revision) (l r : Ideal) : Prop where
  context : Context.Twin revisions edited l.context r.context
  functions : FunctionTable.Twin revisions edited active l.functions r.functions
  scopes : TwinScopes revisions edited l.scopes r.scopes
  built : l.built = r.built

/-- A function can be called in step: its revision is in place, or it needs none. -/
def Callable (active : NameMap Revision) (name : String) : Prop :=
  active = revisions ∨ active = [] ∧ ¬ edited name

/-- Both machines go on in step, or fail with the same message. -/
def TwinOutcomes (active : NameMap Revision) : Except Error Ideal → Except Error Ideal → Prop
  | .ok l, .ok r => Ideal.Twin revisions edited active l r
  | .error e, .error e' => e.message = e'.message
  | _, _ => False

end Relations

variable {revisions active : NameMap Revision} {edited : String → Prop}

theorem Closure.twin_lookalikes : Closure.Lookalikes (Closure.Twin revisions edited) :=
  fun _ _ h => ⟨h.id, h.params⟩

/-! ## Scopes -/

theorem twinScopes_iff {scopes scopes' : Array Scope} : TwinScopes revisions edited scopes scopes' ↔
    RelatedScopes (Closure.Twin revisions edited) scopes scopes' := by
  constructor
  · refine fun h => ⟨h.size, fun n sc sc' hsc hsc' => ?_⟩
    obtain ⟨hbindings, hparent⟩ := h.same n sc sc' hsc hsc'
    exact ⟨hbindings, hparent⟩
  · refine fun h => ⟨h.size, fun n sc sc' hsc hsc' => ?_⟩
    obtain ⟨hbindings, hparent⟩ := h.same n sc sc' hsc hsc'
    exact ⟨hbindings, hparent⟩

/-! ## Functions -/

namespace FunctionTable.Twin

variable {table table' : FunctionTable}

theorem contains (h : FunctionTable.Twin revisions edited active table table') (name : String) :
    table.entries.contains name = table'.entries.contains name := by
  unfold NameMap.contains
  rcases h.entries name with ⟨hf, hf'⟩ | ⟨f, f', hf, hf', -⟩
  · rw [hf, hf']
  · rw [hf, hf']
    rfl

/-- The operands of both machines go into their tables. -/
theorem enroll (h : FunctionTable.Twin revisions edited active table table') {name : String}
    {params params' : List String} {code code' : Code}
    (hoperands : TwinOperands revisions edited (some name) params code params' code')
    (env : Environment) :
    FunctionTable.Twin revisions edited active (table.enroll name params code env)
      (table'.enroll name params' code' env) := by
  rw [FunctionTable.enroll_reissued, FunctionTable.enroll_reissued, h.left, h.right]
  refine ⟨rfl, rfl, fun other => ?_⟩
  simp only [NameMap.get?_put]
  split
  · next hname =>
    subst hname
    exact .inr ⟨_, _, rfl, rfl, rfl, params, hoperands, rfl⟩
  · exact h.entries other

end FunctionTable.Twin

/-- What is called under one name on both sides. -/
theorem NamedFunction.Twin.called {name : String} {f f' : NamedFunction}
    (h : NamedFunction.Twin revisions edited active name f f')
    (hcallable : Callable revisions edited active name) :
    f.params = f'.params ∧ Twins revisions edited f.code.instructions f'.code.instructions := by
  obtain ⟨params, hoperands, hf⟩ := h.operands
  rcases hcallable with rfl | ⟨rfl, huntouched⟩
  · rw [← hoperands.newParams, ← hf]
    have hcode := hoperands.newCode
    rw [← hf] at hcode
    exact ⟨rfl, hcode⟩
  · have hown : Untouched edited (some name) := by
      rintro _ ⟨⟩
      exact huntouched
    have hraw : (f.params, f.code) = (params, f.site) := hf
    rw [Prod.mk.injEq] at hraw
    rw [hraw.1, hraw.2]
    exact ⟨hoperands.ownParams hown, hoperands.ownCode hown⟩

/-! ## One instruction -/

namespace Ideal

variable {owner? : String → Option Owner} {reply reply' : Except HostProblem Value}

section Frames

variable {pc : Nat} {pcs : List Nat} {env : Environment}
    {envs : List Environment} {code code' : Code}
  {frames frames' : List Code} {values values' : List Value} {functions functions' : FunctionTable}
  {scopes scopes' : Array Scope} {built : Nat} {origin origin' : Span}
  (hbelow : Returning revisions edited pcs envs frames frames')
  (hfunctions : FunctionTable.Twin revisions edited active functions functions')
  (hscopes : TwinScopes revisions edited scopes scopes')

include hbelow hfunctions hscopes

/-- Both machines stand before twin code. -/
theorem twin_at {target : Nat}
    (hnext : Twins revisions edited (code.instructions.drop target)
      (code'.instructions.drop target))
    (hvalues : List.Forall₂ (Value.Twin revisions edited) values values') :
    Twin revisions edited active
      ⟨⟨target :: pcs, code :: frames, env :: envs, values, false⟩, functions, scopes, built⟩
      ⟨⟨target :: pcs, code' :: frames', env :: envs, values', false⟩, functions',
        scopes', built⟩ :=
  ⟨.running (.between hnext hvalues) hbelow, hfunctions, hscopes, rfl⟩

section Instructions

variable (hvalues : List.Forall₂ (Value.Twin revisions edited) values values')
  (hnext : Twins revisions edited (code.instructions.drop (pc + 1))
    (code'.instructions.drop (pc + 1)))

include hvalues hnext

theorem twin_plain {op : Op} (hop : op.Plain) (hquiet : op.argc? = none)
    (hskip : ∀ k, op.skip? = some k →
      Twins revisions edited ((code.instructions.drop (pc + 1)).drop k)
        ((code'.instructions.drop (pc + 1)).drop k)) :
    TwinOutcomes revisions edited active
      (settle (execute ⟨⟨pc :: pcs, code :: frames, env :: envs, values, false⟩,
        functions, scopes, built⟩
        owner? reply pc env origin op))
      (settle (execute ⟨⟨pc :: pcs, code' :: frames', env :: envs, values', false⟩,
        functions', scopes', built⟩
        owner? reply' pc env origin' op)) := by
  let l : Ideal :=
    ⟨⟨pc :: pcs, code :: frames, env :: envs, values, false⟩, functions, scopes, built⟩
  let r : Ideal :=
    ⟨⟨pc :: pcs, code' :: frames', env :: envs, values', false⟩, functions', scopes', built⟩
  have halike : AlikeOutcomes (Closure.Twin revisions edited) l r op pc origin origin'
      (l.execute owner? reply pc env origin op) (r.execute owner? reply' pc env origin' op) := by
    refine execute_related ?_ (twinScopes_iff.mp hscopes) hfunctions.contains hop hquiet
    exact hvalues
  show TwinOutcomes _ _ _ (settle (l.execute owner? reply pc env origin op))
    (settle (r.execute owner? reply' pc env origin' op))
  generalize execute _ owner? reply pc env origin op = outcome at halike ⊢
  generalize execute _ owner? reply' pc env origin' op = outcome' at halike ⊢
  cases halike with
  | error hmessage hsame => exact hmessage
  | ok hflow hvalues hscopes =>
    rcases hflow with rfl | ⟨k, hk, rfl⟩
    · exact twin_at hbelow hfunctions (twinScopes_iff.mpr hscopes) hnext hvalues
    · have htarget := hskip k hk
      rw [List.drop_drop, List.drop_drop] at htarget
      exact twin_at hbelow hfunctions (twinScopes_iff.mpr hscopes) htarget hvalues

omit hvalues in
/-- Entering twin bodies with related arguments. -/
theorem twin_enterIf (tail : Bool) (name : Option String) (params : List String) {body body' : Code}
    (hbody : Twins revisions edited body.instructions body'.instructions) (closed : Environment)
    {args args' rest rest' : List Value}
    (hargs : List.Forall₂ (Value.Twin revisions edited) args args')
    (hrest : List.Forall₂ (Value.Twin revisions edited) rest rest') :
    TwinOutcomes revisions edited active
      (settle (enterIf ⟨⟨pc :: pcs, code :: frames, env :: envs, values, false⟩,
        functions, scopes, built⟩
        tail name params body closed args rest origin))
      (settle (enterIf ⟨⟨pc :: pcs, code' :: frames', env :: envs, values', false⟩,
        functions', scopes', built⟩
        tail name params body' closed args' rest' origin')) := by
  unfold enterIf
  rw [← hargs.length_eq]
  split
  · rfl
  · have hstart :
      Standing revisions edited (body.instructions.drop 0) rest (body'.instructions.drop 0) rest' :=
      .between hbody hrest
    have hpushed := twinScopes_iff.mpr ((twinScopes_iff.mp hscopes).push hargs params closed.scope)
    unfold enter
    rw [hscopes.size]
    cases tail with
    | true => exact ⟨.running hstart hbelow, hfunctions, hpushed, rfl⟩
    | false => exact ⟨.running hstart (.cons hnext hbelow), hfunctions, hpushed, rfl⟩

theorem twin_call (hreply : RelatedReplies (Closure.Twin revisions edited) reply reply')
    (tail : Bool) (argc : Nat) (hcallable : ∀ name, values[argc]? = some (.named name) →
      Callable revisions edited active name) :
    TwinOutcomes revisions edited active
      (settle (call ⟨⟨pc :: pcs, code :: frames, env :: envs, values, false⟩,
        functions, scopes, built⟩
        reply tail argc origin))
      (settle (call ⟨⟨pc :: pcs, code' :: frames', env :: envs, values', false⟩,
        functions', scopes', built⟩
        reply' tail argc origin')) := by
  have hdrop := List.forall₂_drop argc hvalues
  have hargs := List.rel_reverse (List.forall₂_take argc hvalues)
  unfold call
  cases hcallee : values.drop argc with
  | nil =>
    rw [hcallee, List.forall₂_nil_left_iff] at hdrop
    rw [hdrop]
    rfl
  | cons callee rest =>
    rw [hcallee] at hdrop
    obtain ⟨callee', rest', hsame, hrest, hdrop'⟩ := List.forall₂_cons_left_iff.mp hdrop
    rw [hdrop']
    rcases hsame.cases with ⟨id, params, body, scope, id', params', body', scope',
      rfl, rfl, hclosure⟩ |
      ⟨items, items', rfl, rfl, -⟩ | ⟨rfl, hatom⟩
    · obtain ⟨-, rfl, rfl, hbody⟩ := hclosure
      exact twin_enterIf hbelow hfunctions hscopes hnext tail none params hbody ⟨scope⟩ hargs hrest
    · have hshown := (hsame.shownAlike Closure.twin_lookalikes).2
      exact congrArg (fun shown => RuntimeProblem.message (.notCallable "list" shown)) hshown
    · cases callee with
      | closure => cases hatom
      | list => cases hatom
      | host owner method =>
        cases reply with
        | ok v =>
          cases reply' with
          | ok v' => exact twin_at hbelow hfunctions hscopes hnext (.cons hreply hrest)
          | error problem => exact hreply.elim
        | error problem =>
          cases reply' with
          | ok v' => exact hreply.elim
          | error problem' =>
            cases hreply
            rfl
      | named name =>
        have hname : values[argc]? = some (.named name) := by
          rw [← List.head?_drop, hcallee]
          rfl
        rcases hfunctions.entries name with ⟨hf, hf'⟩ | ⟨f, f', hf, hf', hfunction⟩
        · simp only [hf, hf']
          rfl
        · obtain ⟨hparams, hbody⟩ := hfunction.called (hcallable name hname)
          simp only [hf, hf', hfunction.env, hparams]
          cases f'.env with
          | none => rfl
          | some closed =>
            exact twin_enterIf hbelow hfunctions hscopes hnext tail
              (some name) f'.params hbody closed hargs hrest
      | _ => rfl

end Instructions

theorem twin_leave (hvalues : List.Forall₂ (Value.Twin revisions edited) values values') :
    TwinOutcomes revisions edited active
      (settle (.ok (leave ⟨⟨pc :: pcs, code :: frames, env :: envs, values, false⟩, functions,
        scopes, built⟩)))
      (settle (.ok (leave ⟨⟨pc :: pcs, code' :: frames', env :: envs, values', false⟩, functions',
        scopes', built⟩))) := by
  cases hbelow with
  | nil => exact ⟨.finished hvalues, hfunctions, hscopes, rfl⟩
  | cons hnext hbelow => exact twin_at hbelow hfunctions hscopes hnext hvalues

/-- Operands on both stacks make functions that are twins. -/
theorem twin_buildFunction {name : Option String} {params params' : List String} {body body' : Code}
    (hoperands : TwinOperands revisions edited name params body params' body')
    (hnext : Twins revisions edited (code.instructions.drop (pc + 1))
      (code'.instructions.drop (pc + 1)))
    (hvalues : List.Forall₂ (Value.Twin revisions edited) values values') :
    TwinOutcomes revisions edited active
      (settle (buildFunction ⟨⟨pc :: pcs, code :: frames, env :: envs,
        .code body :: .params params :: values, false⟩,
        functions, scopes, built⟩ env name))
      (settle (buildFunction ⟨⟨pc :: pcs, code' :: frames', env :: envs,
        .code body' :: .params params' :: values', false⟩,
        functions', scopes', built⟩ env name)) := by
  cases name with
  | none =>
    have huntouched : Untouched edited none := nofun
    have hclosure : Value.Twin revisions edited (.closure (.built built) params body env.scope)
        (.closure (.built built) params' body' env.scope) := by
      unfold Value.Twin
      rw [Value.Related]
      exact ⟨rfl, hoperands.ownParams huntouched, rfl, hoperands.ownCode huntouched⟩
    exact ⟨.running (.between hnext (.cons hclosure hvalues)) hbelow, hfunctions, hscopes, rfl⟩
  | some name =>
    exact twin_at hbelow (hfunctions.enroll hoperands env) hscopes hnext
      (.cons (Value.related_self rfl) hvalues)

end Frames

/-! ## Steps -/

/-- Machines in step stay in step, unless an edited function is called before its revision is in
place. -/
theorem Twin.step {l r : Ideal} (h : Twin revisions edited active l r)
    (hreply : RelatedReplies (Closure.Twin revisions edited) reply reply')
    (hcallable : ∀ name, l.context.pendingCall? = some name →
      Callable revisions edited active name) :
    TwinOutcomes revisions edited active (l.step owner? reply) (r.step owner? reply') := by
  obtain ⟨c, functions, scopes, built⟩ := l
  obtain ⟨c', functions', scopes', _⟩ := r
  obtain ⟨hcontext, hfunctions, hscopes, rfl⟩ := h
  cases hcontext with
  | finished hvalues => rfl
  | @running pc pcs env envs code code' frames frames' values values' htop hbelow =>
    generalize hleft : code.instructions.drop pc = is at htop
    generalize hright : code'.instructions.drop pc = js at htop
    cases htop with
    | between htwins hvalues =>
      cases htwins with
      | ret =>
        rw [step_running rfl (getElem?_of_drop hleft), step_running rfl (getElem?_of_drop hright)]
        exact twin_leave hbelow hfunctions hscopes hvalues
      | @plain op origin origin' is js hop hskip hnext =>
        have hi := getElem?_of_drop hleft
        rw [step_running rfl hi, step_running rfl (getElem?_of_drop hright)]
        rw [← drop_succ_of_drop hleft, ← drop_succ_of_drop hright] at hnext hskip
        have hcalled {argc : Nat} (hargc : op.argc? = some argc) (name : String)
            (hname : values[argc]? = some (.named name)) :
              Callable revisions edited active name := by
          refine hcallable name ?_
          simp [Context.pendingCall?, Context.instruction?, hi, hargc, hname]
        cases op with
        | call argc =>
          exact twin_call hbelow hfunctions hscopes hvalues hnext hreply false argc (hcalled rfl)
        | tailCall argc =>
          exact twin_call hbelow hfunctions hscopes hvalues hnext hreply true argc (hcalled rfl)
        | _ => exact twin_plain hbelow hfunctions hscopes hvalues hnext hop rfl hskip
      | function hparams hcode hownParams hownCode hnext =>
        rw [step_running rfl (getElem?_of_drop hleft), step_running rfl (getElem?_of_drop hright)]
        refine ⟨.running ?_ hbelow, hfunctions, hscopes, rfl⟩
        rw [drop_succ_of_drop hleft, drop_succ_of_drop hright]
        exact .params ⟨hparams, hcode, hownParams, hownCode⟩ hnext hvalues
    | params hoperands hnext hvalues =>
      rw [step_running rfl (getElem?_of_drop hleft), step_running rfl (getElem?_of_drop hright)]
      refine ⟨.running ?_ hbelow, hfunctions, hscopes, rfl⟩
      rw [drop_succ_of_drop hleft, drop_succ_of_drop hright]
      exact .code hoperands hnext hvalues
    | code hoperands hnext hvalues =>
      rw [step_running rfl (getElem?_of_drop hleft), step_running rfl (getElem?_of_drop hright)]
      rw [← drop_succ_of_drop hleft, ← drop_succ_of_drop hright] at hnext
      exact twin_buildFunction hbelow hfunctions hscopes hoperands hnext hvalues

/-- Two programs that start. -/
theorem twin_start {code code' : Code}
    (h : Twins revisions edited code.instructions code'.instructions) :
    Twin revisions edited [] (start code) (start code') := by
  have hempty : TwinScopes revisions edited #[⟨[], none⟩] #[⟨[], none⟩] := twinScopes_iff.mpr .start
  exact ⟨.running (.between h .nil) .nil, ⟨rfl, rfl, fun _ => .inl ⟨rfl, rfl⟩⟩, hempty, rfl⟩

end Ideal

/-! ## Calls of the host -/

namespace Context.Twin

variable {c c' : Context}

/-- Both machines are about to make a call with so many arguments, or neither is. -/
theorem argc? (h : Context.Twin revisions edited c c') :
    (c.instruction?.bind (·.op.argc?) = none ∧ c'.instruction?.bind (·.op.argc?) = none) ∨
    ∃ argc, c.instruction?.bind (·.op.argc?) = some argc ∧
      c'.instruction?.bind (·.op.argc?) = some argc ∧
      List.Forall₂ (Value.Twin revisions edited) c.values c'.values := by
  cases h with
  | finished hvalues => exact .inl ⟨rfl, rfl⟩
  | @running pc pcs env envs code code' frames frames' values values' htop hbelow =>
    have hinstruction {rest : List Instruction} {i : Instruction} {code : Code} {frames : List Code}
      {values : List Value}
        (hdrop : code.instructions.drop pc = i :: rest) :
        (Context.mk (pc :: pcs) (code :: frames) (env :: envs) values false).instruction? =
          some i :=
      Ideal.getElem?_of_drop hdrop
    generalize hleft : code.instructions.drop pc = is at htop
    generalize hright : code'.instructions.drop pc = js at htop
    cases htop with
    | between htwins hvalues =>
      cases htwins with
      | ret =>
        rw [hinstruction hleft, hinstruction hright]
        exact .inl ⟨rfl, rfl⟩
      | @plain op origin origin' is js hop hskip hnext =>
        rw [hinstruction hleft, hinstruction hright]
        cases hargc : op.argc? with
        | none => exact .inl ⟨hargc, hargc⟩
        | some argc => exact .inr ⟨argc, hargc, hargc, hvalues⟩
      | function hparams hcode hownParams hownCode hnext =>
        rw [hinstruction hleft, hinstruction hright]
        exact .inl ⟨rfl, rfl⟩
    | params hoperands hnext hvalues =>
      rw [hinstruction hleft, hinstruction hright]
      exact .inl ⟨rfl, rfl⟩
    | code hoperands hnext hvalues =>
      rw [hinstruction hleft, hinstruction hright]
      exact .inl ⟨rfl, rfl⟩

/-- The host is asked for the same, with related arguments. -/
theorem hostCall? (h : Context.Twin revisions edited c c') :
    (c.hostCall? = none ∧ c'.hostCall? = none) ∨
    ∃ owner method args args', c.hostCall? = some (owner, method, args) ∧
      c'.hostCall? = some (owner, method, args') ∧
      List.Forall₂ (Value.Twin revisions edited) args args' :=
  Context.hostCall?_related h.argc?

theorem done_eq (h : Context.Twin revisions edited c c') : c.done = c'.done := by
  cases h <;> rfl

/-- Finished programs show the same result. -/
theorem result? (h : Context.Twin revisions edited c c') :
    c.result?.map Value.render = c'.result?.map Value.render := by
  cases h with
  | running => rfl
  | finished hvalues =>
    cases hvalues with
    | nil => rfl
    | cons hv hrest =>
      cases hrest with
      | nil => exact congrArg some (hv.shownAlike Closure.twin_lookalikes).1
      | cons => rfl

end Context.Twin

end LiveLisp
