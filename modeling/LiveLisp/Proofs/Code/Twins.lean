/-
  Code that does the same under revisions. An edit puts new bodies under the names of functions
  while the code around them stays in place. Such code is the twin of other code if it consists of
  the same instructions, but for the functions that it registers: there the other code has the body
  that the revisions put in place of the pushed one (`reissued`). The pushed bodies themselves are
  twins too, unless they belong to an edited function.

  The relation knows nothing of the compiler; `LiveLisp.Proofs.Code.Recompiled` is where compiled
  code is shown to be in it.
-/
import LiveLisp.Code.Compile
import LiveLisp.Proofs.Ideal.Rename

namespace LiveLisp

/-- The parameters and the body that a function gets: those of a revision that covers the pushed
body, or else the pushed ones. -/
def reissued (revisions : NameMap Revision) (name : Option String)
    (params : List String) (code : Code) :
    List String × Code :=
  match name.bind revisions.get? with
  | some revision =>
    if revision.covers code then (revision.params, revision.code) else (params, code)
  | none => (params, code)

theorem FunctionTable.enroll_reissued (table : FunctionTable) (name : String)
    (params : List String) (code : Code) (env : Environment) :
    table.enroll name params code env = { table with
      entries := table.entries.put name ⟨(reissued table.revisions (some name) params code).1,
        (reissued table.revisions (some name) params code).2, code, some env⟩ } := by
  unfold FunctionTable.enroll reissued
  cases h : table.revisions.get? name with
  | none => simp only [Option.bind_some, h]
  | some revision => simp only [Option.bind_some, h]

/-- Instructions that go on or jump ahead, apart from those that make functions. Their constants
hold no closures. -/
def Op.Plain : Op → Prop
  | .loadConstant v => v.closures = []
  | .push _ => False
  | .buildFunction _ => False
  | .ret => False
  | .jump offset => 0 < offset
  | .jumpIfNot offset => 0 < offset
  | _ => True

/-- How many of the instructions after it a jump passes over. -/
def Op.skip? : Op → Option Nat
  | .jump offset => some (offset - 1).toNat
  | .jumpIfNot offset => some (offset - 1).toNat
  | _ => none

/-- No edited function has this name. -/
def Untouched (edited : String → Prop) (name : Option String) : Prop :=
  ∀ f, name = some f → ¬ edited f

/-- What is left to run of two bodies that do the same under revisions. Wherever a jump may lead, it
is the same again. -/
inductive Twins (revisions : NameMap Revision) (edited : String → Prop) :
    List Instruction → List Instruction → Prop where
  | ret {origin origin' : Span} : Twins revisions edited [⟨.ret, origin⟩] [⟨.ret, origin'⟩]
  | plain {op : Op} {origin origin' : Span} {is js : List Instruction} (hop : op.Plain)
      (hskip : ∀ k, op.skip? = some k → Twins revisions edited (is.drop k) (js.drop k))
      (hnext : Twins revisions edited is js) :
    Twins revisions edited (⟨op, origin⟩ :: is) (⟨op, origin'⟩ :: js)
  | function {name : Option String} {params params' : List String} {code code' : Code}
      {o₁ o₂ o₃ o₁' o₂' o₃' : Span} {is js : List Instruction}
      (hparams : (reissued revisions name params code).1 = params')
      (hcode : Twins revisions edited (reissued revisions name params code).2.instructions
        code'.instructions)
      (hownParams : Untouched edited name → params = params')
      (hownCode : Untouched edited name →
        Twins revisions edited code.instructions code'.instructions)
      (hnext : Twins revisions edited is js) :
    Twins revisions edited
      (⟨.push (.params params), o₁⟩ :: ⟨.push (.code code), o₂⟩ :: ⟨.buildFunction name, o₃⟩ :: is)
      (⟨.push (.params params'), o₁'⟩ :: ⟨.push (.code code'), o₂'⟩ ::
        ⟨.buildFunction name, o₃'⟩ :: js)

/-- What the operands of two functions have to do with each other. -/
structure TwinOperands (revisions : NameMap Revision) (edited : String → Prop)
    (name : Option String) (params : List String) (code : Code) (params' : List String)
    (code' : Code) : Prop where
  newParams : (reissued revisions name params code).1 = params'
  newCode : Twins revisions edited (reissued revisions name params code).2.instructions
    code'.instructions
  ownParams : Untouched edited name → params = params'
  ownCode : Untouched edited name → Twins revisions edited code.instructions code'.instructions

/-- Code whose twin is the other, whatever twins follow. -/
structure Twinned (revisions : NameMap Revision) (edited : String → Prop)
    (is js : List Instruction) : Prop where
  length : is.length = js.length
  followed : ∀ {rest rest'}, Twins revisions edited rest rest' →
    Twins revisions edited (is ++ rest) (js ++ rest')

namespace Twinned

variable {revisions : NameMap Revision} {edited : String → Prop} {is js is' js' : List Instruction}

theorem nil : Twinned revisions edited [] [] :=
  ⟨rfl, fun h => h⟩

theorem append (h : Twinned revisions edited is js) (h' : Twinned revisions edited is' js') :
    Twinned revisions edited (is ++ is') (js ++ js') := by
  refine ⟨by rw [List.length_append, List.length_append, h.length, h'.length], fun hrest => ?_⟩
  rw [List.append_assoc, List.append_assoc]
  exact h.followed (h'.followed hrest)

/-- An instruction that goes on to the next. -/
theorem single (op : Op) (hop : op.Plain) (hskip : op.skip? = none) (origin origin' : Span) :
    Twinned revisions edited [⟨op, origin⟩] [⟨op, origin'⟩] := by
  refine ⟨rfl, fun hrest => .plain hop (fun k hk => ?_) hrest⟩
  rw [hskip] at hk
  cases hk

theorem invocation (tail : Bool) (argc : Nat) (origin origin' : Span) :
    Twinned revisions edited [⟨Compile.invocation tail argc, origin⟩]
      [⟨Compile.invocation tail argc, origin'⟩] := by
  cases tail with
  | true => exact .single (.tailCall argc) trivial rfl origin origin'
  | false => exact .single (.call argc) trivial rfl origin origin'

theorem function {name : Option String} {params params' : List String} {code code' : Code}
    (h : TwinOperands revisions edited name params code params' code')
    (o₁ o₂ o₃ o₁' o₂' o₃' : Span) :
    Twinned revisions edited
      [⟨.push (.params params), o₁⟩, ⟨.push (.code code), o₂⟩, ⟨.buildFunction name, o₃⟩]
      [⟨.push (.params params'), o₁'⟩, ⟨.push (.code code'), o₂'⟩, ⟨.buildFunction name, o₃'⟩] :=
  ⟨rfl, fun hrest => .function h.newParams h.newCode h.ownParams h.ownCode hrest⟩

theorem branch {cs cs' ys ys' ns ns' : List Instruction} (hc : Twinned revisions edited cs cs')
    (hy : Twinned revisions edited ys ys') (hn : Twinned revisions edited ns ns')
    (span span' : Span) :
    Twinned revisions edited (Compile.branch span cs ys ns) (Compile.branch span' cs' ys' ns') := by
  have hlength := hy.length
  have hlength' := hn.length
  refine ⟨by simp [Compile.branch, hc.length, hlength, hlength'], fun {rest rest'} hrest => ?_⟩
  -- the end of the first branch jumps over the second
  have hskipped : Twins revisions edited (⟨.jump (ns.length + 1), span⟩ :: (ns ++ rest))
      (⟨.jump (ns.length + 1), span'⟩ :: (ns' ++ rest')) := by
    refine .plain (by simp only [Op.Plain]; omega) (fun k hk => ?_) (hn.followed hrest)
    obtain rfl : k = ns.length := by
      simp only [Op.skip?, Option.some.injEq] at hk
      omega
    rw [List.drop_left, hlength', List.drop_left]
    exact hrest
  have hbranches : Twins revisions edited
      (⟨.jumpIfNot (ys.length + 2), span⟩ :: (ys ++ ⟨.jump (ns.length + 1), span⟩ :: (ns ++ rest)))
      (⟨.jumpIfNot (ys.length + 2), span'⟩ ::
        (ys' ++ ⟨.jump (ns.length + 1), span'⟩ :: (ns' ++ rest'))) := by
    refine .plain (by simp only [Op.Plain]; omega) (fun k hk => ?_) (hy.followed hskipped)
    obtain rfl : k = ys.length + 1 := by
      simp only [Op.skip?, Option.some.injEq] at hk
      omega
    rw [List.drop_length_add_append, hlength, List.drop_length_add_append]
    exact hn.followed hrest
  simpa [Compile.branch, ← hlength, ← hlength'] using hc.followed hbranches

end Twinned

end LiveLisp
