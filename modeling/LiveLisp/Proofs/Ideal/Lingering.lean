/-
  A machine that leaves the frame of a tail call at once, and one that lingers in it. The second
  runs the code of the first without marks of tail position. Its stack has the frames of the first,
  and between them frames that have nothing left to do but to return (`Waiting`); values, scopes and
  functions correspond one by one.

  Every step of the first is a step of the second (`Lingers.step`), which may then have to leave
  some of the frames that it has kept; that asks nothing of the host and shows nowhere (`Quiet`).
-/
import LiveLisp.Proofs.Code.Unmarked
import LiveLisp.Proofs.Ideal.Related

namespace LiveLisp

/-! ## Stacks of frames -/

structure Frame where
  pc : Nat
  code : Code
  env : Environment

/-- What is left to run when the call has answered that the frame waits for. -/
def Frame.left (f : Frame) : List Instruction :=
  f.code.instructions.drop (f.pc + 1)

/-- The frames that a call leaves on the stack. -/
def Frame.callers (tail : Bool) (frames : List Frame) : List Frame :=
  if tail then frames.tail else frames

def Context.ofFrames (frames : List Frame) (values : List Value) (done : Bool) : Context :=
  ⟨frames.map (·.pc), frames.map (·.code), frames.map (·.env), values, done⟩

/-- About to go on after a call from the topmost of these frames, or done if there is none. -/
def Context.returned (frames : List Frame) (values : List Value) : Context :=
  match frames with
  | [] => .ofFrames [] values true
  | f :: frames => .ofFrames ({ f with pc := f.pc + 1 } :: frames) values false

section Relations

variable (P : Option String → List String → Code → Prop)

/-- Closures that differ in marks only. -/
structure Closure.Unmarks (c c' : Closure) : Prop where
  id : c.id = c'.id
  params : c.params = c'.params
  scope : c.scope = c'.scope
  code : LiveLisp.Unmarks P c.code.instructions c'.code.instructions

structure NamedFunction.Unmarks (f f' : NamedFunction) : Prop where
  params : f.params = f'.params
  env : f.env = f'.env
  site : f.site.id = f'.site.id
  code : LiveLisp.Unmarks P f.code.instructions f'.code.instructions

structure Revision.Unmarks (revision revision' : Revision) : Prop where
  params : revision.params = revision'.params
  sites : revision.sites = revision'.sites
  code : LiveLisp.Unmarks P revision.code.instructions revision'.code.instructions

structure FunctionTable.Unmarks (table table' : FunctionTable) : Prop where
  entries : table.entries.Alike (NamedFunction.Unmarks P) table'.entries
  revisions : table.revisions.Alike (Revision.Unmarks P) table'.revisions

/-- The operands of a function on both sides. -/
structure UnmarkedOperands (name : Option String) (params : List String)
    (code code' : Code) : Prop where
  made : P name params code
  id : code.id = code'.id
  code : LiveLisp.Unmarks P code.instructions code'.instructions

/-- What is left to run in the top frames, and the values there. Between the instructions that make
a function, its operands are on the stacks. -/
inductive OnTop : List Instruction → List Value → List Instruction → List Value → Prop where
  | between {is js : List Instruction} {values values' : List Value} (hnext : Unmarks P is js)
      (hvalues : List.Forall₂ (Value.Related (Closure.Unmarks P)) values values') :
        OnTop is values js values'
  | params {name : Option String} {params : List String} {code code' : Code} {o₁ o₂ : Span}
      {is js : List Instruction}
      {values values' : List Value} (hoperands : UnmarkedOperands P name params code code')
        (hnext : Unmarks P is js)
      (hvalues : List.Forall₂ (Value.Related (Closure.Unmarks P)) values values') :
    OnTop (⟨.push (.code code), o₁⟩ :: ⟨.buildFunction name, o₂⟩ :: is) (.params params :: values)
      (⟨.push (.code code'), o₁⟩ :: ⟨.buildFunction name, o₂⟩ :: js) (.params params :: values')
  | code {name : Option String} {params : List String} {code code' : Code} {o : Span}
      {is js : List Instruction}
      {values values' : List Value} (hoperands : UnmarkedOperands P name params code code')
        (hnext : Unmarks P is js)
      (hvalues : List.Forall₂ (Value.Related (Closure.Unmarks P)) values values') :
    OnTop (⟨.buildFunction name, o⟩ :: is) (.code code :: .params params :: values)
      (⟨.buildFunction name, o⟩ :: js) (.code code' :: .params params :: values')

/-- The frames below, which wait for a call to return. -/
inductive Waiting : List Frame → List Frame → Prop where
  | nil : Waiting [] []
  | both {pc : Nat} {env : Environment} {code code' : Code} {frames frames' : List Frame}
      (hnext : Unmarks P (Frame.left ⟨pc, code, env⟩) (Frame.left ⟨pc, code', env⟩))
        (hbelow : Waiting frames frames') :
    Waiting (⟨pc, code, env⟩ :: frames) (⟨pc, code', env⟩ :: frames')
  /-- A frame that has been left on the one side only. -/
  | kept {f : Frame} {frames frames' : List Frame} (hspent : Spent f.left)
      (hbelow : Waiting frames frames') :
    Waiting frames (f :: frames')

inductive Context.Lingers : Context → Context → Prop where
  | running {pc : Nat} {env : Environment} {code code' : Code} {frames frames' : List Frame}
      {values values' : List Value}
      (htop : OnTop P (code.instructions.drop pc) values (code'.instructions.drop pc) values')
      (hbelow : Waiting P frames frames') :
    Context.Lingers (.ofFrames (⟨pc, code, env⟩ :: frames) values false)
      (.ofFrames (⟨pc, code', env⟩ :: frames') values' false)
  | finished {values values' : List Value}
      (hvalues : List.Forall₂ (Value.Related (Closure.Unmarks P)) values values') :
    Context.Lingers (.ofFrames [] values true) (.ofFrames [] values' true)

/-- The second machine does what the first does, but lingers in frames that the first has left. -/
structure Ideal.Lingers (l r : Ideal) : Prop where
  context : Context.Lingers P l.context r.context
  functions : FunctionTable.Unmarks P l.functions r.functions
  scopes : RelatedScopes (Closure.Unmarks P) l.scopes r.scopes
  built : l.built = r.built

end Relations

/-- Steps that ask nothing of the host and cannot fail. -/
inductive Ideal.Quiet : Ideal → Ideal → Prop where
  | refl (r : Ideal) : Quiet r r
  | step {r r₁ r₂ : Ideal} (hcall : r.context.hostCall? = none)
      (hstep : ∀ owner? reply, r.step owner? reply = .ok r₁) (hrest : Quiet r₁ r₂) : Quiet r r₂

theorem Ideal.Quiet.trans {a b c : Ideal} (h : Quiet a b) (h' : Quiet b c) : Quiet a c := by
  induction h with
  | refl => exact h'
  | step hcall hstep _ ih => exact .step hcall hstep (ih h')

/-- Both machines go on, the second after it has left some frames, or fail alike. -/
def LingeringOutcomes (P : Option String → List String → Code → Prop) : Except Error Ideal →
    Except Error Ideal → Prop
  | .ok l, .ok r => ∃ r', Ideal.Quiet r r' ∧ Ideal.Lingers P l r'
  | .error e, .error e' => e = e'
  | _, _ => False

variable {P : Option String → List String → Code → Prop}

theorem Closure.unmarks_lookalikes : Closure.Lookalikes (Closure.Unmarks P) :=
  fun _ _ h => ⟨h.id, h.params⟩

/-! ## Functions -/

theorem reissued_unmarks {revisions revisions' : NameMap Revision}
    (hrevisions : revisions.Alike (Revision.Unmarks P) revisions') {name : Option String}
    {params : List String} {code code' : Code} (h : UnmarkedOperands P name params code code') :
    (reissued revisions name params code).1 = (reissued revisions' name params code').1 ∧
      Unmarks P (reissued revisions name params code).2.instructions
        (reissued revisions' name params code').2.instructions := by
  unfold reissued
  cases name with
  | none => exact ⟨rfl, h.code⟩
  | some name =>
    rw [Option.bind_some, Option.bind_some]
    rcases hrevisions.get? name with ⟨hnone, hnone'⟩ | ⟨revision, revision', hsome,
      hsome', hrevision⟩
    · rw [hnone, hnone']
      exact ⟨rfl, h.code⟩
    · have hcovers : revision.covers code = revision'.covers code' := by
        unfold Revision.covers
        rw [hrevision.sites, h.id]
      rw [hsome, hsome']
      simp only [hcovers]
      split
      · exact ⟨hrevision.params, hrevision.code⟩
      · exact ⟨rfl, h.code⟩

theorem FunctionTable.Unmarks.enroll {table table' : FunctionTable}
    (h : FunctionTable.Unmarks P table table') {name : String}
    {params : List String} {code code' : Code}
    (hoperands : UnmarkedOperands P (some name) params code code') (env : Environment) :
    FunctionTable.Unmarks P (table.enroll name params code env)
      (table'.enroll name params code' env) := by
  obtain ⟨hparams, hcode⟩ := reissued_unmarks h.revisions hoperands
  rw [FunctionTable.enroll_reissued, FunctionTable.enroll_reissued]
  exact ⟨h.entries.put name ⟨hparams, rfl, hoperands.id, hcode⟩, h.revisions⟩

/-! ## Leaving frames -/

namespace Ideal

variable {owner? : String → Option Owner} {reply reply' : Except HostProblem Value}
    {pc : Nat} {env : Environment}
  {code code' : Code} {frames frames' : List Frame} {values values' : List Value}
    {functions functions' : FunctionTable}
  {scopes scopes' : Array Scope} {built : Nat} {origin : Span}

theorem settle_leave (f : Frame) (frames : List Frame) (values : List Value)
    (functions : FunctionTable) (scopes : Array Scope) (built : Nat) :
    settle (.ok (leave ⟨.ofFrames (f :: frames) values false, functions, scopes, built⟩)) =
      .ok ⟨.returned frames values, functions, scopes, built⟩ := by
  cases frames <;> rfl

theorem step_ofFrames {i : Instruction} {rest : List Instruction}
    (hi : code.instructions.drop pc = i :: rest) :
    step ⟨.ofFrames (⟨pc, code, env⟩ :: frames) values false, functions, scopes,
      built⟩ owner? reply =
      settle (execute ⟨.ofFrames (⟨pc, code, env⟩ :: frames) values false, functions, scopes,
        built⟩ owner? reply pc env
        i.origin i.op) :=
  step_running rfl (getElem?_of_drop hi)

theorem instruction?_ofFrames {i : Instruction} {rest : List Instruction} {done : Bool}
    (hi : code.instructions.drop pc = i :: rest) :
    (Context.ofFrames (⟨pc, code, env⟩ :: frames) values done).instruction? = some i :=
  getElem?_of_drop hi

/-- A frame that is spent is left quietly. -/
theorem quiet_of_spent (h : Spent (code.instructions.drop pc)) :
    Quiet ⟨.ofFrames (⟨pc, code, env⟩ :: frames) values false, functions, scopes, built⟩
      ⟨.returned frames values, functions, scopes, built⟩ := by
  generalize his : code.instructions.drop pc = is at h
  induction h generalizing pc with
  | ret =>
    refine .step ?_ (fun owner? reply => ?_) (.refl _)
    · simp [Context.hostCall?, instruction?_ofFrames his, Op.argc?]
    · rw [step_ofFrames his]
      exact settle_leave ..
  | @jump offset origin rest hpos hnext ih =>
    have hlands : code.instructions.drop (pc + 1 + (offset - 1).toNat) =
      rest.drop (offset - 1).toNat := by
      rw [← List.drop_drop, drop_succ_of_drop his]
    refine .step ?_ (fun owner? reply => ?_) (ih hlands)
    · simp [Context.hostCall?, instruction?_ofFrames his, Op.argc?]
    · rw [step_ofFrames his]
      simp only [execute, jumpTarget_of_pos hpos]
      rfl

section Frames

variable (hfunctions : FunctionTable.Unmarks P functions functions')
  (hscopes : RelatedScopes (Closure.Unmarks P) scopes scopes')

include hfunctions hscopes

/-- Both machines stand before the same code but for marks. -/
theorem lingers_at (hbelow : Waiting P frames frames') {target : Nat}
    (hnext : Unmarks P (code.instructions.drop target) (code'.instructions.drop target))
    (hvalues : List.Forall₂ (Value.Related (Closure.Unmarks P)) values values') :
    Lingers P ⟨.ofFrames (⟨target, code, env⟩ :: frames) values false, functions, scopes, built⟩
      ⟨.ofFrames (⟨target, code', env⟩ :: frames') values' false, functions', scopes', built⟩ :=
  ⟨.running (.between hnext hvalues) hbelow, hfunctions, hscopes, rfl⟩

/-- When the one machine returns, so does the other, out of all the frames it has kept. -/
theorem lingers_returned (hbelow : Waiting P frames frames')
    (hvalues : List.Forall₂ (Value.Related (Closure.Unmarks P)) values values') :
    ∃ r', Quiet ⟨.returned frames' values', functions', scopes', built⟩ r' ∧
      Lingers P ⟨.returned frames values, functions, scopes, built⟩ r' := by
  induction hbelow with
  | nil => exact ⟨_, .refl _, .finished hvalues, hfunctions, hscopes, rfl⟩
  | both hnext hbelow _ => exact ⟨_, .refl _, lingers_at hfunctions hscopes hbelow hnext hvalues⟩
  | @kept f frames frames' hspent hbelow ih =>
    obtain ⟨r', hquiet, hlingers⟩ := ih
    have hleaves : Quiet ⟨.returned (f :: frames') values', functions', scopes', built⟩
        ⟨.returned frames' values', functions', scopes', built⟩ := quiet_of_spent hspent
    exact ⟨r', hleaves.trans hquiet, hlingers⟩

/-! ## One instruction -/

theorem lingers_plain (hbelow : Waiting P frames frames')
    (hvalues : List.Forall₂ (Value.Related (Closure.Unmarks P)) values values')
    (hnext : Unmarks P (code.instructions.drop (pc + 1)) (code'.instructions.drop (pc + 1)))
    {op : Op} (hop : op.Plain) (hargc : op.argc? = none)
    (hskip : ∀ k, op.skip? = some k →
      Unmarks P ((code.instructions.drop (pc + 1)).drop k)
        ((code'.instructions.drop (pc + 1)).drop k)) :
    LingeringOutcomes P
      (settle (execute ⟨.ofFrames (⟨pc, code, env⟩ :: frames) values false,
        functions, scopes, built⟩
        owner? reply pc env origin op))
      (settle (execute ⟨.ofFrames (⟨pc, code', env⟩ :: frames') values' false,
        functions', scopes', built⟩
        owner? reply' pc env origin op)) := by
  let l : Ideal := ⟨.ofFrames (⟨pc, code, env⟩ :: frames) values false, functions, scopes, built⟩
  let r : Ideal :=
    ⟨.ofFrames (⟨pc, code', env⟩ :: frames') values' false, functions', scopes', built⟩
  have halike : AlikeOutcomes (Closure.Unmarks P) l r op pc origin origin
      (l.execute owner? reply pc env origin op) (r.execute owner? reply' pc env origin op) := by
    refine execute_related ?_ hscopes hfunctions.entries.contains hop hargc
    exact hvalues
  show LingeringOutcomes P (settle (l.execute owner? reply pc env origin op))
    (settle (r.execute owner? reply' pc env origin op))
  generalize execute _ owner? reply pc env origin op = outcome at halike ⊢
  generalize execute _ owner? reply' pc env origin op = outcome' at halike ⊢
  cases halike with
  | error hmessage hsame => exact hsame rfl
  | ok hflow hvalues hscopes =>
    rcases hflow with rfl | ⟨k, hk, rfl⟩
    · exact ⟨_, .refl _, lingers_at hfunctions hscopes hbelow hnext hvalues⟩
    · have htarget := hskip k hk
      rw [List.drop_drop, List.drop_drop] at htarget
      exact ⟨_, .refl _, lingers_at hfunctions hscopes hbelow htarget hvalues⟩

section Calls

variable {f f' : Frame} (tail tail' : Bool)
  (hstack : Waiting P (Frame.callers tail (f :: frames)) (Frame.callers tail' (f' :: frames')))

include hstack

/-- Entering a body with related arguments. The stacks below may differ in what has been kept. -/
theorem lingers_enterIf (name : Option String) (params : List String) {body body' : Code}
    (hbody : Unmarks P body.instructions body'.instructions) (closed : Environment)
    {args args' rest rest' : List Value}
    (hargs : List.Forall₂ (Value.Related (Closure.Unmarks P)) args args')
    (hrest : List.Forall₂ (Value.Related (Closure.Unmarks P)) rest rest') :
    LingeringOutcomes P
      (settle (enterIf ⟨.ofFrames (f :: frames) values false, functions, scopes, built⟩
        tail name params body closed args rest origin))
      (settle (enterIf ⟨.ofFrames (f' :: frames') values' false, functions', scopes', built⟩
        tail' name params body' closed args' rest' origin)) := by
  have hentered (tail : Bool) (f : Frame) (frames : List Frame) (values rest args : List Value)
      (functions : FunctionTable) (scopes : Array Scope) (body : Code) :
      enter ⟨.ofFrames (f :: frames) values false, functions, scopes,
        built⟩ tail params body closed args rest =
        ⟨.ofFrames (⟨0, body, ⟨some ⟨scopes.size, 0⟩⟩⟩ :: Frame.callers tail (f :: frames)) rest
          false, functions,
          scopes.push ⟨NameMap.putAll [] (params.zip args), closed.scope⟩, built⟩ := by
    cases tail <;> rfl
  unfold enterIf
  rw [← hargs.length_eq]
  split
  · rfl
  · rw [hentered, hentered, hscopes.size]
    have hstart : Unmarks P (body.instructions.drop 0) (body'.instructions.drop 0) := hbody
    exact ⟨_, .refl _, lingers_at hfunctions (hscopes.push hargs params closed.scope)
      hstack hstart hrest⟩

theorem lingers_call (hbelow : Waiting P (f :: frames) (f' :: frames'))
    (hvalues : List.Forall₂ (Value.Related (Closure.Unmarks P)) values values')
    (hreply : RelatedReplies (Closure.Unmarks P) reply reply') (argc : Nat) :
    LingeringOutcomes P
      (settle (call ⟨.ofFrames (f :: frames) values false, functions, scopes,
        built⟩ reply tail argc origin))
      (settle (call ⟨.ofFrames (f' :: frames') values' false, functions', scopes',
        built⟩ reply' tail' argc origin)) := by
  have hdrop := List.forall₂_drop argc hvalues
  have hargs := List.rel_reverse (List.forall₂_take argc hvalues)
  unfold call
  simp only [Context.ofFrames]
  cases hcallee : values.drop argc with
  | nil =>
    rw [hcallee, List.forall₂_nil_left_iff] at hdrop
    rw [hdrop]
    rfl
  | cons callee rest =>
    rw [hcallee] at hdrop
    obtain ⟨callee', rest', hsame, hrest, hdrop'⟩ := List.forall₂_cons_left_iff.mp hdrop
    rw [hdrop']
    rcases hsame.cases with ⟨id, params, body, scope, id', params', body', scope',
      rfl, rfl, hclosure⟩ |
      ⟨items, items', rfl, rfl, -⟩ | ⟨rfl, hatom⟩
    · obtain ⟨-, rfl, rfl, hbody⟩ := hclosure
      exact lingers_enterIf hfunctions hscopes tail tail' hstack none params hbody
        ⟨scope⟩ hargs hrest
    · have hshown := (hsame.shownAlike Closure.unmarks_lookalikes).2
      exact congrArg (fun shown => Error.runtime (.notCallable "list" shown) (some origin)) hshown
    · cases callee with
      | closure => cases hatom
      | list => cases hatom
      | host owner method =>
        cases reply with
        | ok v =>
          cases reply' with
          | ok v' => exact lingers_returned hfunctions hscopes hbelow (.cons hreply hrest)
          | error problem => exact hreply.elim
        | error problem =>
          cases reply' with
          | ok v' => exact hreply.elim
          | error problem' =>
            cases hreply
            rfl
      | named name =>
        rcases hfunctions.entries.get? name with ⟨hf, hf'⟩ | ⟨g, g', hg, hg', hfunction⟩
        · simp only [hf, hf']
          rfl
        · simp only [hg, hg', hfunction.env, hfunction.params]
          cases g'.env with
          | none => rfl
          | some closed =>
            exact lingers_enterIf hfunctions hscopes tail tail' hstack
              (some name) g'.params hfunction.code closed
              hargs hrest
      | _ => rfl

end Calls

/-- Operands on both stacks make the same function but for marks. -/
theorem lingers_buildFunction (hbelow : Waiting P frames frames') {name : Option String}
    {params : List String} {body body' : Code}
    (hoperands : UnmarkedOperands P name params body body')
    (hnext : Unmarks P (code.instructions.drop (pc + 1)) (code'.instructions.drop (pc + 1)))
    (hvalues : List.Forall₂ (Value.Related (Closure.Unmarks P)) values values') :
    LingeringOutcomes P
      (settle (buildFunction ⟨.ofFrames (⟨pc, code, env⟩ :: frames)
        (.code body :: .params params :: values) false,
        functions, scopes, built⟩ env name))
      (settle (buildFunction ⟨.ofFrames (⟨pc, code', env⟩ :: frames')
        (.code body' :: .params params :: values') false,
        functions', scopes', built⟩ env name)) := by
  cases name with
  | none =>
    have hclosure :
      Value.Related (Closure.Unmarks P) (.closure (.built built) params body env.scope)
        (.closure (.built built) params body' env.scope) := by
      rw [Value.Related]
      exact ⟨rfl, rfl, rfl, hoperands.code⟩
    exact ⟨_, .refl _, .running (.between hnext (.cons hclosure hvalues)) hbelow,
      hfunctions, hscopes, rfl⟩
  | some name =>
    exact ⟨_, .refl _, lingers_at (hfunctions.enroll hoperands env) hscopes hbelow hnext
      (.cons (Value.related_self rfl) hvalues)⟩

end Frames

/-! ## Steps -/

/-- A step of the one machine is a step of the other, and then some that do not show. -/
theorem Lingers.step {l r : Ideal} (h : Lingers P l r)
    (hreply : RelatedReplies (Closure.Unmarks P) reply reply') :
    LingeringOutcomes P (l.step owner? reply) (r.step owner? reply') := by
  obtain ⟨c, functions, scopes, built⟩ := l
  obtain ⟨c', functions', scopes', _⟩ := r
  obtain ⟨hcontext, hfunctions, hscopes, rfl⟩ := h
  cases hcontext with
  | finished hvalues => rfl
  | @running pc env code code' frames frames' values values' htop hbelow =>
    show LingeringOutcomes P
      (Ideal.step ⟨.ofFrames (⟨pc, code, env⟩ :: frames) values false, functions, scopes,
        built⟩ owner? reply)
      (Ideal.step ⟨.ofFrames (⟨pc, code', env⟩ :: frames') values' false, functions', scopes',
        built⟩ owner? reply')
    generalize hleft : code.instructions.drop pc = is at htop
    generalize hright : code'.instructions.drop pc = js at htop
    cases htop with
    | between hunmarks hvalues =>
      cases hunmarks with
      | ret =>
        rw [step_ofFrames hleft, step_ofFrames hright]
        show LingeringOutcomes P (settle (.ok (leave _))) (settle (.ok (leave _)))
        rw [settle_leave, settle_leave]
        exact lingers_returned hfunctions hscopes hbelow hvalues
      | @plain op origin is js hop hskip hnext =>
        rw [step_ofFrames hleft, step_ofFrames hright]
        rw [← drop_succ_of_drop hleft, ← drop_succ_of_drop hright] at hnext hskip
        have hboth : Waiting P (⟨pc, code, env⟩ :: frames) (⟨pc, code', env⟩ :: frames') :=
          .both hnext hbelow
        cases op with
        | call argc =>
          exact lingers_call hfunctions hscopes false false hboth hboth hvalues hreply argc
        | tailCall argc =>
          exact lingers_call hfunctions hscopes true true hbelow hboth hvalues hreply argc
        | _ => exact lingers_plain hfunctions hscopes hbelow hvalues hnext hop rfl hskip
      | tailCall hspent hnext =>
        rw [step_ofFrames hleft, step_ofFrames hright]
        rw [← drop_succ_of_drop hright] at hspent hnext
        rw [← drop_succ_of_drop hleft] at hnext
        have hboth : Waiting P (⟨pc, code, env⟩ :: frames) (⟨pc, code', env⟩ :: frames') :=
          .both hnext hbelow
        have hkept : Waiting P frames (⟨pc, code', env⟩ :: frames') := .kept hspent hbelow
        exact lingers_call hfunctions hscopes true false hkept hboth hvalues hreply _
      | function hmade hid hcode hnext =>
        rw [step_ofFrames hleft, step_ofFrames hright]
        refine ⟨_, .refl _, .running ?_ hbelow, hfunctions, hscopes, rfl⟩
        rw [drop_succ_of_drop hleft, drop_succ_of_drop hright]
        exact .params ⟨hmade, hid, hcode⟩ hnext hvalues
    | params hoperands hnext hvalues =>
      rw [step_ofFrames hleft, step_ofFrames hright]
      refine ⟨_, .refl _, .running ?_ hbelow, hfunctions, hscopes, rfl⟩
      rw [drop_succ_of_drop hleft, drop_succ_of_drop hright]
      exact .code hoperands hnext hvalues
    | code hoperands hnext hvalues =>
      rw [step_ofFrames hleft, step_ofFrames hright]
      rw [← drop_succ_of_drop hleft, ← drop_succ_of_drop hright] at hnext
      exact lingers_buildFunction hfunctions hscopes hbelow hoperands hnext hvalues

/-- A program and the same without marks. -/
theorem lingers_start {code code' : Code} (h : Unmarks P code.instructions code'.instructions) :
    Lingers P (start code) (start code') :=
  ⟨.running (.between h .nil) .nil, ⟨.nil, .nil⟩, .start, rfl⟩

end Ideal

/-! ## What shows -/

namespace Context.Lingers

variable {c c' : Context}

/-- Both machines are about to make a call with so many arguments, or neither is. -/
theorem argc? (h : Context.Lingers P c c') :
    (c.instruction?.bind (·.op.argc?) = none ∧ c'.instruction?.bind (·.op.argc?) = none) ∨
    ∃ argc, c.instruction?.bind (·.op.argc?) = some argc ∧
      c'.instruction?.bind (·.op.argc?) = some argc ∧
      List.Forall₂ (Value.Related (Closure.Unmarks P)) c.values c'.values := by
  cases h with
  | finished hvalues => exact .inl ⟨rfl, rfl⟩
  | @running pc env code code' frames frames' values values' htop hbelow =>
    generalize hleft : code.instructions.drop pc = is at htop
    generalize hright : code'.instructions.drop pc = js at htop
    cases htop with
    | between hunmarks hvalues =>
      cases hunmarks with
      | ret =>
        rw [Ideal.instruction?_ofFrames hleft, Ideal.instruction?_ofFrames hright]
        exact .inl ⟨rfl, rfl⟩
      | @plain op origin is js hop hskip hnext =>
        rw [Ideal.instruction?_ofFrames hleft, Ideal.instruction?_ofFrames hright]
        cases hargc : op.argc? with
        | none => exact .inl ⟨hargc, hargc⟩
        | some argc => exact .inr ⟨argc, hargc, hargc, hvalues⟩
      | @tailCall argc origin is js hspent hnext =>
        rw [Ideal.instruction?_ofFrames hleft, Ideal.instruction?_ofFrames hright]
        exact .inr ⟨argc, rfl, rfl, hvalues⟩
      | function hmade hid hcode hnext =>
        rw [Ideal.instruction?_ofFrames hleft, Ideal.instruction?_ofFrames hright]
        exact .inl ⟨rfl, rfl⟩
    | params hoperands hnext hvalues =>
      rw [Ideal.instruction?_ofFrames hleft, Ideal.instruction?_ofFrames hright]
      exact .inl ⟨rfl, rfl⟩
    | code hoperands hnext hvalues =>
      rw [Ideal.instruction?_ofFrames hleft, Ideal.instruction?_ofFrames hright]
      exact .inl ⟨rfl, rfl⟩

theorem done_eq (h : Context.Lingers P c c') : c.done = c'.done := by
  cases h <;> rfl

/-- Finished programs have left related values. -/
theorem values_of_done (h : Context.Lingers P c c') (hdone : c.done = true) :
    List.Forall₂ (Value.Related (Closure.Unmarks P)) c.values c'.values := by
  cases h with
  | running => cases hdone
  | finished hvalues => exact hvalues

end Context.Lingers

end LiveLisp
