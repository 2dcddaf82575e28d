/-
  Where the functions of a machine come from. All code that it runs or holds makes functions from
  operands that are known (`Makes`), all functions that it holds or runs have been made from such
  operands (`Code.Made`), and so has what is registered under one name: it has its own parameters
  and body, or those of the revision that covers it (`FunctionTable.Registers`).

  A step keeps this (`Ideal.Registers.step`), and so does a new revision for the name
  (`FunctionTable.Registers.patch`).
-/
import LiveLisp.Proofs.Code.Making
import LiveLisp.Proofs.Ideal.Related

namespace LiveLisp

section Definitions

variable (O : Option String → List String → Code → Prop)

/-- All functions in the value have been made from known operands, and make functions from such
operands. -/
def Value.Makes (v : Value) : Prop :=
  ∀ c ∈ v.closures, c.code.Made O

/-- The same for all values in scopes, as a relation of the scopes to themselves. -/
def Closure.Makes (c c' : Closure) : Prop :=
  c = c' ∧ c.code.Made O

/-- All code in the table has been made from known operands and makes functions from such operands;
the name has this revision, and its entry is what that makes of operands that are known too. -/
structure FunctionTable.Registers (name : String) (revision? : Option Revision)
    (table : FunctionTable) : Prop where
  entries : ∀ f entry, table.entries.get? f = some entry → entry.code.Made O
  revisions : ∀ f revision, table.revisions.get? f = some revision → revision.code.Made O
  revision : table.revisions.get? name = revision?
  operands : ∀ entry, table.entries.get? name = some entry →
    ∃ params, O (some name) params entry.site ∧
    (entry.params, entry.code) = reissued table.revisions (some name) params entry.site

/-- What is left to run in the top frame, and the values there. Between the instructions that make a
function, its operands are on the stack. -/
inductive Ready : List Instruction → List Value → Prop where
  | between {is : List Instruction} {values : List Value} (hnext : Makes O is)
    (hvalues : ∀ v ∈ values, v.Makes O) :
    Ready is values
  | params {name : Option String} {params : List String} {code : Code} {o₁ o₂ : Span}
      {is : List Instruction}
      {values : List Value} (hmade : O name params code) (hcode : Makes O code.instructions)
      (hnext : Makes O is) (hvalues : ∀ v ∈ values, v.Makes O) :
    Ready (⟨.push (.code code), o₁⟩ :: ⟨.buildFunction name, o₂⟩ :: is) (.params params :: values)
  | code {name : Option String} {params : List String} {code : Code} {o : Span}
      {is : List Instruction}
      {values : List Value} (hmade : O name params code) (hcode : Makes O code.instructions)
      (hnext : Makes O is) (hvalues : ∀ v ∈ values, v.Makes O) :
    Ready (⟨.buildFunction name, o⟩ :: is) (.code code :: .params params :: values)

/-- The frames below, which wait for a call to return. -/
inductive Awaiting : List Nat → List Environment → List Code → Prop where
  | nil : Awaiting [] [] []
  | cons {pc : Nat} {pcs : List Nat} {env : Environment} {envs : List Environment} {code : Code}
      {frames : List Code}
      (hnext : Makes O (code.instructions.drop (pc + 1))) (hbelow : Awaiting pcs envs frames) :
    Awaiting (pc :: pcs) (env :: envs) (code :: frames)

inductive Context.Makes : Context → Prop where
  | running {pc : Nat} {pcs : List Nat} {env : Environment} {envs : List Environment} {code : Code}
      {frames : List Code} {values : List Value} (htop : Ready O (code.instructions.drop pc) values)
      (hbelow : Awaiting O pcs envs frames) (hcalled : ∀ c ∈ (code :: frames).dropLast, c.Made O) :
    Context.Makes ⟨pc :: pcs, code :: frames, env :: envs, values, false⟩
  | finished {values : List Value} (hvalues : ∀ v ∈ values, v.Makes O) :
      Context.Makes ⟨[], [], [], values, true⟩

structure Ideal.Registers (name : String) (revision? : Option Revision) (m : Ideal) : Prop where
  context : m.context.Makes O
  functions : m.functions.Registers O name revision?
  scopes : RelatedScopes (Closure.Makes O) m.scopes m.scopes

end Definitions

variable {O : Option String → List String → Code → Prop} {name : String}
    {revision? : Option Revision}

/-! ## Values -/

namespace Value

theorem makes_of_closures {v : Value} (h : v.closures = []) : v.Makes O := by
  intro c hc
  rw [h] at hc
  cases hc

theorem related_of_makes {v : Value} (h : v.Makes O) : Related (Closure.Makes O) v v :=
  related_same fun c hc => ⟨rfl, h c hc⟩

theorem Related.makes {v v' : Value} (h : Related (Closure.Makes O) v v') : v.Makes O := by
  intro c hc
  obtain ⟨c', -, hcode⟩ := h.closures c hc
  exact hcode

theorem forall₂_of_makes {values : List Value} (h : ∀ v ∈ values, v.Makes O) :
    List.Forall₂ (Related (Closure.Makes O)) values values :=
  List.forall₂_same.mpr fun v hv => related_of_makes (h v hv)

theorem makes_of_forall₂ {values values' : List Value}
    (h : List.Forall₂ (Related (Closure.Makes O)) values values') :
    ∀ v ∈ values, v.Makes O := by
  intro v hv
  obtain ⟨n, hn, rfl⟩ := List.mem_iff_getElem.mp hv
  have hrelated := (List.forall₂_iff_get.mp h).2 n hn (h.length_eq ▸ hn)
  exact hrelated.makes

end Value

theorem Value.makes_cons {v : Value} {values : List Value} (hv : v.Makes O)
    (hvalues : ∀ u ∈ values, u.Makes O) :
    ∀ u ∈ v :: values, u.Makes O := by
  intro u hu
  rcases List.mem_cons.mp hu with rfl | hu
  · exact hv
  · exact hvalues u hu

theorem Ready.values {is : List Instruction} {values : List Value}
    (h : Ready O is values) : ∀ v ∈ values, v.Makes O := by
  cases h with
  | between _ hvalues => exact hvalues
  | params _ _ _ hvalues => exact Value.makes_cons (Value.makes_of_closures rfl) hvalues
  | code _ _ _ hvalues =>
    exact Value.makes_cons (Value.makes_of_closures rfl)
      (Value.makes_cons (Value.makes_of_closures rfl) hvalues)

/-! ## Functions -/

theorem reissued_made {revisions : NameMap Revision} {f : Option String}
    {params : List String} {code : Code}
    (hrevisions : ∀ f revision, revisions.get? f = some revision → revision.code.Made O)
    (hcode : code.Made O) :
    (reissued revisions f params code).2.Made O := by
  unfold reissued
  split
  · next revision hrevision =>
    obtain ⟨f, -, hget⟩ := Option.bind_eq_some_iff.mp hrevision
    split
    · exact hrevisions f revision hget
    · exact hcode
  · exact hcode

theorem Revision.covers_iff {revision : Revision} {code : Code} :
    revision.covers code = true ↔ code.id ∈ revision.sites := by
  unfold Revision.covers
  rw [List.contains_eq_mem, decide_eq_true_iff]

theorem reissued_of_revision {revisions : NameMap Revision} {revision : Revision}
    (hrevision : revisions.get? name = some revision) (params : List String) (code : Code) :
    reissued revisions (some name) params code =
      if revision.covers code then (revision.params, revision.code) else (params, code) := by
  unfold reissued
  rw [Option.bind_some, hrevision]

/-- With the body and the parameters of the revision, if that covers it. -/
def NamedFunction.revised (entry : NamedFunction) (revision : Revision) : NamedFunction :=
  if revision.covers entry.site then { entry with params := revision.params, code := revision.code }
    else entry

theorem FunctionTable.get?_patch (table : FunctionTable) (f other : String) (revision : Revision) :
    (table.patch f revision).entries.get? other =
      if f = other then (table.entries.get? other).map (·.revised revision)
        else table.entries.get? other := by
  unfold FunctionTable.patch NamedFunction.revised
  split
  · next entry hentry =>
    split
    · next hcovers =>
      rw [NameMap.get?_put]
      split
      · next hname =>
        subst hname
        simp [hentry, hcovers]
      · rfl
    · next hcovers =>
      split
      · next hname =>
        subst hname
        simp [hentry, hcovers]
      · rfl
  · next hnone =>
    split
    · next hname =>
      subst hname
      simp [hnone]
    · rfl

namespace FunctionTable.Registers

variable {table : FunctionTable}

theorem enroll (h : table.Registers O name revision?) {f : String}
    {params : List String} {code : Code} (hmade : O (some f) params code)
    (hcode : Makes O code.instructions) (env : Environment) :
    (table.enroll f params code env).Registers O name revision? := by
  rw [FunctionTable.enroll_reissued]
  refine ⟨fun other entry hentry => ?_, h.revisions, h.revision, fun entry hentry => ?_⟩
  · simp only [NameMap.get?_put] at hentry
    split at hentry
    · cases hentry
      exact reissued_made h.revisions ⟨⟨_, _, hmade⟩, hcode⟩
    · exact h.entries other entry hentry
  · simp only [NameMap.get?_put] at hentry
    split at hentry
    · next hname =>
      subst hname
      cases hentry
      exact ⟨params, hmade, rfl⟩
    · exact h.operands entry hentry

theorem retireOne (h : table.Registers O name revision?) (f : String) :
    (table.retireOne f).Registers O name revision? := by
  unfold FunctionTable.retireOne
  split
  · exact h
  · next entry hentry =>
    split
    · exact h
    · refine ⟨fun other entry' hget => ?_, h.revisions, h.revision, fun entry' hget => ?_⟩
      · simp only [NameMap.get?_put] at hget
        split at hget
        · cases hget
          exact h.entries f entry hentry
        · exact h.entries other entry' hget
      · simp only [NameMap.get?_put] at hget
        split at hget
        · next hname =>
          subst hname
          cases hget
          exact h.operands entry hentry
        · exact h.operands entry' hget

theorem retire (h : table.Registers O name revision?) :
    table.retire.Registers O name revision? := by
  have hall (names : List String) :
    (names.foldl FunctionTable.retireOne table).Registers O name revision? := by
    induction names generalizing table with
    | nil => exact h
    | cons f names ih => exact ih (h.retireOne f)
  exact hall table.entries.keys

variable {revision : Revision} (hcode : revision.code.Made O)

include hcode

theorem revised_made {entry : NamedFunction} (hentry : entry.code.Made O) :
    (entry.revised revision).code.Made O := by
  unfold NamedFunction.revised
  split
  · exact hcode
  · exact hentry

theorem entries_patch (h : table.Registers O name revision?) (f : String) :
    ∀ other entry, (table.patch f revision).entries.get? other = some entry →
      entry.code.Made O := by
  intro other entry hentry
  rw [FunctionTable.get?_patch] at hentry
  split at hentry
  · obtain ⟨old, hold, rfl⟩ := Option.map_eq_some_iff.mp hentry
    exact revised_made hcode (h.entries other old hold)
  · exact h.entries other entry hentry

theorem revisions_patch (h : table.Registers O name revision?) (f : String) :
    ∀ other revision', (table.patch f revision).revisions.get? other = some revision' →
      revision'.code.Made O := by
  intro other revision' hrevision
  have hput : (table.revisions.put f revision).get? other = some revision' := hrevision
  rw [NameMap.get?_put] at hput
  split at hput
  · cases hput
    exact hcode
  · exact h.revisions other revision' hput

/-- A revision for another name. -/
theorem patch_other (h : table.Registers O name revision?) {f : String} (hf : f ≠ name) :
    (table.patch f revision).Registers O name revision? := by
  have hsame : (table.patch f revision).revisions.get? name = table.revisions.get? name := by
    show (table.revisions.put f revision).get? name = _
    rw [NameMap.get?_put, if_neg hf]
  refine ⟨h.entries_patch hcode f, h.revisions_patch hcode f, hsame.trans h.revision,
    fun entry hentry => ?_⟩
  rw [FunctionTable.get?_patch, if_neg hf] at hentry
  obtain ⟨params, hmade, hbody⟩ := h.operands entry hentry
  refine ⟨params, hmade, hbody.trans ?_⟩
  unfold reissued
  rw [Option.bind_some, Option.bind_some, hsame]

/-- A new revision for the name, which covers all that the one before did. -/
theorem patch (h : table.Registers O name revision?)
    (hcovers : ∀ old, revision? = some old → old.sites ⊆ revision.sites) :
    (table.patch name revision).Registers O name (some revision) := by
  have hnew : (table.patch name revision).revisions.get? name = some revision := by
    show (table.revisions.put name revision).get? name = _
    rw [NameMap.get?_put, if_pos rfl]
  refine ⟨h.entries_patch hcode name, h.revisions_patch hcode name, hnew, fun entry hentry => ?_⟩
  rw [FunctionTable.get?_patch, if_pos rfl] at hentry
  obtain ⟨old, hold, rfl⟩ := Option.map_eq_some_iff.mp hentry
  obtain ⟨params, hmade, hbody⟩ := h.operands old hold
  unfold NamedFunction.revised
  split
  · next hcovered =>
    refine ⟨params, hmade, ?_⟩
    rw [reissued_of_revision hnew, if_pos hcovered]
  · next huncovered =>
    refine ⟨params, hmade, ?_⟩
    rw [reissued_of_revision hnew, if_neg huncovered, hbody]
    -- what is not covered now was not covered before
    cases hrevision : revision? with
    | none =>
      unfold reissued
      rw [Option.bind_some, h.revision, hrevision]
    | some before =>
      have hbefore : ¬ before.covers old.site = true := fun hcovered =>
        huncovered (Revision.covers_iff.mpr
          (hcovers before hrevision (Revision.covers_iff.mp hcovered)))
      rw [reissued_of_revision (h.revision.trans hrevision), if_neg hbefore]

end FunctionTable.Registers

/-! ## Steps -/

namespace Ideal

variable {owner? : String → Option Owner} {reply : Except HostProblem Value}

theorem AlikeOutcomes.of_ok {R : Closure → Closure → Prop} {l r m m' : Ideal} {op : Op} {pc : Nat}
    {origin origin' : Span} {flow flow' : Flow}
    (h : AlikeOutcomes R l r op pc origin origin' (.ok (flow, m)) (.ok (flow', m'))) :
    ∃ values values' scopes scopes', op.LeadsTo pc flow ∧ m = l.withData values scopes ∧
      m' = r.withData values' scopes' ∧ List.Forall₂ (Value.Related R) values values' ∧
        RelatedScopes R scopes scopes' := by
  cases h with
  | ok hflow hvalues hscopes => exact ⟨_, _, _, _, hflow, rfl, rfl, hvalues, hscopes⟩

/-- An instruction that neither calls nor makes a function. -/
theorem execute_makes {m m' : Ideal} {flow : Flow} {pc : Nat} {env : Environment}
    {origin : Span} {op : Op} (hvalues : ∀ v ∈ m.context.values, v.Makes O)
    (hscopes : RelatedScopes (Closure.Makes O) m.scopes m.scopes) (hop : op.Plain)
    (hargc : op.argc? = none) (h : m.execute owner? reply pc env origin op = .ok (flow, m')) :
    op.LeadsTo pc flow ∧ ∃ values scopes, m' = m.withData values scopes ∧
      (∀ v ∈ values, v.Makes O) ∧
      RelatedScopes (Closure.Makes O) scopes scopes := by
  have halike : AlikeOutcomes (Closure.Makes O) m m op pc origin origin
    (m.execute owner? reply pc env origin op)
      (m.execute owner? reply pc env origin op) :=
    execute_related (Value.forall₂_of_makes hvalues) hscopes (fun _ => rfl) hop hargc
  rw [h] at halike
  obtain ⟨values, values', scopes, scopes', hflow, hleft, hright, hvalues, hscopes⟩ := halike.of_ok
  obtain ⟨-, rfl⟩ : values = values' ∧ scopes = scopes' := by
    simpa [withData] using hleft.symm.trans hright
  exact ⟨hflow, values, scopes, hleft, Value.makes_of_forall₂ hvalues, hscopes⟩

/-- A frame on top makes way for another one. -/
theorem made_replaced {code body : Code} {frames : List Code}
    (h : ∀ c ∈ (code :: frames).dropLast, c.Made O) (hbody : body.Made O) :
    ∀ c ∈ (body :: frames).dropLast, c.Made O := by
  cases frames with
  | nil => exact nofun
  | cons below frames =>
    exact List.forall_mem_cons.mpr ⟨hbody, fun c hc => h c (List.mem_cons_of_mem _ hc)⟩

/-- The machine goes on as it should, or fails. -/
def Keeps (O : Option String → List String → Code → Prop) (name : String)
    (revision? : Option Revision) (outcome : Except Error (Flow × Ideal)) : Prop :=
  Ends (Registers O name revision?) (fun _ => True) (settle outcome)

section Frames

variable {pc : Nat} {pcs : List Nat} {env : Environment} {envs : List Environment} {code : Code}
    {frames : List Code}
  {values : List Value} {functions : FunctionTable} {scopes : Array Scope}
    {built : Nat} {origin : Span}
  (hbelow : Awaiting O pcs envs frames) (hcalled : ∀ c ∈ (code :: frames).dropLast, c.Made O)
  (hfunctions : functions.Registers O name revision?)
    (hscopes : RelatedScopes (Closure.Makes O) scopes scopes)

include hbelow hcalled hfunctions hscopes

theorem registers_at {target : Nat} (hnext : Makes O (code.instructions.drop target))
    (hvalues : ∀ v ∈ values, v.Makes O) :
    Registers O name revision? ⟨⟨target :: pcs, code :: frames, env :: envs, values, false⟩,
      functions, scopes, built⟩ :=
  ⟨.running (.between hnext hvalues) hbelow hcalled, hfunctions, hscopes⟩

section Instructions

variable (hnext : Makes O (code.instructions.drop (pc + 1))) (hvalues : ∀ v ∈ values, v.Makes O)

include hnext hvalues

theorem keeps_plain {op : Op} (hop : op.Plain) (hquiet : op.argc? = none)
    (hskip : ∀ k, op.skip? = some k → Makes O ((code.instructions.drop (pc + 1)).drop k)) :
    Keeps O name revision? (execute ⟨⟨pc :: pcs, code :: frames, env :: envs, values, false⟩,
      functions, scopes, built⟩
      owner? reply pc env origin op) := by
  cases hexecute : execute ⟨⟨pc :: pcs, code :: frames, env :: envs, values, false⟩, functions,
    scopes, built⟩ owner? reply
      pc env origin op with
  | error e => trivial
  | ok after =>
    obtain ⟨flow, m'⟩ := after
    obtain ⟨hflow, values', scopes', rfl, hvalues', hscopes'⟩ :=
      execute_makes hvalues hscopes hop hquiet hexecute
    rcases hflow with rfl | ⟨k, hk, rfl⟩
    · exact registers_at hbelow hcalled hfunctions hscopes' hnext hvalues'
    · have htarget := hskip k hk
      rw [List.drop_drop] at htarget
      exact registers_at hbelow hcalled hfunctions hscopes' htarget hvalues'

omit hvalues in
/-- Entering a body with arguments. -/
theorem keeps_enterIf (tail : Bool) (f : Option String) (params : List String) {body : Code}
    (hbody : body.Made O) (closed : Environment) {args rest : List Value}
    (hargs : ∀ v ∈ args, v.Makes O) (hrest : ∀ v ∈ rest, v.Makes O) :
    Keeps O name revision? (enterIf ⟨⟨pc :: pcs, code :: frames, env :: envs, values, false⟩,
      functions, scopes, built⟩
      tail f params body closed args rest origin) := by
  unfold enterIf
  split
  · trivial
  · have hstart : Ready O (body.instructions.drop 0) rest := .between hbody.makes hrest
    have hpushed := hscopes.push (Value.forall₂_of_makes hargs) params closed.scope
    unfold enter
    cases tail with
    | true => exact ⟨.running hstart hbelow (made_replaced hcalled hbody), hfunctions, hpushed⟩
    | false =>
      exact ⟨.running hstart (.cons hnext hbelow) (List.forall_mem_cons.mpr ⟨hbody, hcalled⟩),
        hfunctions, hpushed⟩

theorem keeps_call (hreply : ∀ v, reply = .ok v → v.Makes O) (tail : Bool) (argc : Nat) :
    Keeps O name revision? (call ⟨⟨pc :: pcs, code :: frames, env :: envs, values, false⟩,
      functions, scopes, built⟩
      reply tail argc origin) := by
  have hargs : ∀ v ∈ (values.take argc).reverse, v.Makes O := fun v hv =>
    hvalues v (List.mem_of_mem_take (List.mem_reverse.mp hv))
  unfold call
  cases hcallee : values.drop argc with
  | nil => trivial
  | cons callee rest =>
    have hdropped : ∀ v ∈ callee :: rest, v.Makes O :=
      fun v hv => hvalues v (List.mem_of_mem_drop (hcallee ▸ hv))
    have hrest : ∀ v ∈ rest, v.Makes O := fun v hv => hdropped v (List.mem_cons_of_mem _ hv)
    cases callee with
    | host owner method =>
      cases hreplied : reply with
      | error problem => trivial
      | ok v =>
        exact registers_at hbelow hcalled hfunctions hscopes hnext
          (Value.makes_cons (hreply v hreplied) hrest)
    | closure id params body scope =>
      have hbody : body.Made O := hdropped _ (List.mem_cons_self ..) _ (List.mem_singleton_self _)
      exact keeps_enterIf hbelow hcalled hfunctions hscopes hnext tail none params hbody
        ⟨scope⟩ hargs hrest
    | named f =>
      cases hf : functions.entries.get? f with
      | none => simp only [hf]; trivial
      | some entry =>
        simp only [hf]
        cases entry.env with
        | none => trivial
        | some closed =>
          exact keeps_enterIf hbelow hcalled hfunctions hscopes hnext tail (some f) entry.params
            (hfunctions.entries f entry hf)
            closed hargs hrest
    | _ => trivial

end Instructions

theorem keeps_leave (hvalues : ∀ v ∈ values, v.Makes O) :
    Keeps O name revision?
      (.ok (leave ⟨⟨pc :: pcs, code :: frames, env :: envs, values, false⟩, functions,
        scopes, built⟩)) := by
  cases hbelow with
  | nil => exact ⟨.finished hvalues, hfunctions, hscopes⟩
  | cons hnext hbelow =>
    exact registers_at hbelow (fun c hc =>
      hcalled c (List.mem_cons_of_mem _ hc)) hfunctions hscopes hnext hvalues

theorem keeps_buildFunction {f : Option String} {params : List String} {body : Code}
    (hmade : O f params body) (hbody : Makes O body.instructions)
    (hnext : Makes O (code.instructions.drop (pc + 1))) (hvalues : ∀ v ∈ values, v.Makes O) :
    Keeps O name revision? (buildFunction ⟨⟨pc :: pcs, code :: frames, env :: envs,
      .code body :: .params params :: values, false⟩, functions, scopes, built⟩ env f) := by
  cases f with
  | none =>
    refine ⟨.running (.between hnext (Value.makes_cons (fun c hc => ?_) hvalues)) hbelow hcalled,
      hfunctions, hscopes⟩
    rw [List.mem_singleton.mp hc]
    exact ⟨⟨_, _, hmade⟩, hbody⟩
  | some f =>
    exact registers_at hbelow hcalled (hfunctions.enroll hmade hbody env) hscopes hnext
      (Value.makes_cons (Value.makes_of_closures rfl) hvalues)

end Frames

/-- A step keeps track of where functions come from. -/
theorem Registers.step {m : Ideal} (h : m.Registers O name revision?)
    (hreply : ∀ v, reply = .ok v → v.Makes O) :
    Ends (Registers O name revision?) (fun _ => True) (m.step owner? reply) := by
  obtain ⟨c, functions, scopes, built⟩ := m
  obtain ⟨hcontext, hfunctions, hscopes⟩ := h
  cases hcontext with
  | finished hvalues => trivial
  | @running pc pcs env envs code frames values htop hbelow hcalled =>
    generalize hleft : code.instructions.drop pc = is at htop
    cases htop with
    | between hmakes hvalues =>
      cases hmakes with
      | ret =>
        rw [step_running rfl (getElem?_of_drop hleft)]
        exact keeps_leave hbelow hcalled hfunctions hscopes hvalues
      | @plain op origin is hop hskip hnext =>
        rw [step_running rfl (getElem?_of_drop hleft)]
        rw [← drop_succ_of_drop hleft] at hnext hskip
        cases op with
        | call argc =>
          exact keeps_call hbelow hcalled hfunctions hscopes hnext hvalues hreply false argc
        | tailCall argc =>
          exact keeps_call hbelow hcalled hfunctions hscopes hnext hvalues hreply true argc
        | _ => exact keeps_plain hbelow hcalled hfunctions hscopes hnext hvalues hop rfl hskip
      | function hmade hcode hnext =>
        rw [step_running rfl (getElem?_of_drop hleft)]
        refine ⟨.running ?_ hbelow hcalled, hfunctions, hscopes⟩
        rw [drop_succ_of_drop hleft]
        exact .params hmade hcode hnext hvalues
    | params hmade hcode hnext hvalues =>
      rw [step_running rfl (getElem?_of_drop hleft)]
      refine ⟨.running ?_ hbelow hcalled, hfunctions, hscopes⟩
      rw [drop_succ_of_drop hleft]
      exact .code hmade hcode hnext hvalues
    | code hmade hcode hnext hvalues =>
      rw [step_running rfl (getElem?_of_drop hleft)]
      rw [← drop_succ_of_drop hleft] at hnext
      exact keeps_buildFunction hbelow hcalled hfunctions hscopes hmade hcode hnext hvalues

/-- A program that starts has registered nothing. -/
theorem registers_start {code : Code} (h : Makes O code.instructions) :
    (start code).Registers O name none := by
  have hempty : FunctionTable.Registers O name none ⟨[], []⟩ := by
    refine ⟨fun f entry hentry => ?_, fun f revision hrevision => ?_, rfl, fun entry hentry => ?_⟩
    · cases hentry
    · cases hrevision
    · cases hentry
  exact ⟨.running (.between h fun v hv => (List.not_mem_nil hv).elim) .nil nofun, hempty, .start⟩

/-- All that is on the stack makes functions from known operands. -/
theorem Registers.values {m : Ideal} (h : m.Registers O name revision?) :
    ∀ v ∈ m.context.values, v.Makes O := by
  obtain ⟨c, functions, scopes, built⟩ := m
  obtain ⟨hcontext, -, -⟩ := h
  cases hcontext with
  | finished hvalues => exact hvalues
  | running htop => exact htop.values

/-- The frames above the outermost one run bodies that have been made functions of. -/
theorem Registers.called {m : Ideal} (h : m.Registers O name revision?) :
    ∀ c ∈ m.context.frames.dropLast, c.Made O := by
  obtain ⟨c, functions, scopes, built⟩ := m
  obtain ⟨hcontext, -, -⟩ := h
  cases hcontext with
  | finished => exact nofun
  | running _ _ hcalled => exact hcalled

end Ideal

end LiveLisp
