/-
  Code without marks of tail position. `Code.unmarked` makes an ordinary call of every tail call, in
  all function bodies too; `Unmarks` relates what is left to run of marked code to what is left of
  it unmarked, and says what makes a mark right: where the marked code makes a tail call, nothing
  but jumps lead from there to the `ret` (`Spent`).

  Compiled code is so marked (`unmarks_of_program`, `unmarks_of_definition`), and removing marks
  keeps code sound (`Code.Sound.unmarked`). What is known of the operands that functions are made
  from is carried along as `P`.
-/
import LiveLisp.Proofs.Code.Recompiled

namespace LiveLisp

mutual
def Value.unmarked : Value → Value
  | .code body => .code (Code.unmarked body)
  | v => v
/-- The same code with every call an ordinary one. -/
def Code.unmarked : Code → Code
  | ⟨id, instructions⟩ => ⟨id, Code.unmarkedIn instructions⟩
def Code.unmarkedIn : List Instruction → List Instruction
  | [] => []
  | ⟨op, origin⟩ :: rest => ⟨Op.unmarked op, origin⟩ :: Code.unmarkedIn rest
def Op.unmarked : Op → Op
  | .push v => .push (Value.unmarked v)
  | .tailCall argc => .call argc
  | op => op
end

namespace Code

@[simp] theorem unmarked_id (code : Code) : code.unmarked.id = code.id := by
  obtain ⟨id, instructions⟩ := code
  rfl

@[simp] theorem unmarked_instructions (code : Code) :
  code.unmarked.instructions = unmarkedIn code.instructions := by
  obtain ⟨id, instructions⟩ := code
  rfl

theorem unmarkedIn_eq_map (is : List Instruction) :
    unmarkedIn is = is.map fun i => ⟨i.op.unmarked, i.origin⟩ := by
  induction is with
  | nil => rfl
  | cons i is ih =>
    obtain ⟨op, origin⟩ := i
    rw [unmarkedIn, ih, List.map_cons]

@[simp] theorem unmarkedIn_append (is js : List Instruction) :
    unmarkedIn (is ++ js) = unmarkedIn is ++ unmarkedIn js := by
  simp only [unmarkedIn_eq_map, List.map_append]

@[simp] theorem length_unmarkedIn (is : List Instruction) : (unmarkedIn is).length = is.length := by
  simp only [unmarkedIn_eq_map, List.length_map]

end Code

/-! ## Marks that are right -/

/-- Nothing is left to do but to return. -/
inductive Spent : List Instruction → Prop where
  | ret {origin : Span} {is : List Instruction} : Spent (⟨.ret, origin⟩ :: is)
  | jump {offset : Int} {origin : Span} {is : List Instruction} (hpos : 0 < offset)
      (hnext : Spent (is.drop (offset - 1).toNat)) : Spent (⟨.jump offset, origin⟩ :: is)

/-- What is left to run of marked code, and the same without marks. Wherever a jump may lead, it is
the same again. -/
inductive Unmarks (P : Option String → List String → Code → Prop) : List Instruction →
    List Instruction → Prop where
  | ret {origin : Span} : Unmarks P [⟨.ret, origin⟩] [⟨.ret, origin⟩]
  | plain {op : Op} {origin : Span} {is js : List Instruction} (hop : op.Plain)
      (hskip : ∀ k, op.skip? = some k → Unmarks P (is.drop k) (js.drop k))
        (hnext : Unmarks P is js) :
    Unmarks P (⟨op, origin⟩ :: is) (⟨op, origin⟩ :: js)
  | tailCall {argc : Nat} {origin : Span} {is js : List Instruction} (hspent : Spent js)
      (hnext : Unmarks P is js) :
    Unmarks P (⟨.tailCall argc, origin⟩ :: is) (⟨.call argc, origin⟩ :: js)
  | function {name : Option String} {params : List String} {code code' : Code} {o₁ o₂ o₃ : Span}
      {is js : List Instruction} (hmade : P name params code) (hid : code.id = code'.id)
      (hcode : Unmarks P code.instructions code'.instructions) (hnext : Unmarks P is js) :
    Unmarks P (⟨.push (.params params), o₁⟩ :: ⟨.push (.code code), o₂⟩ ::
      ⟨.buildFunction name, o₃⟩ :: is)
      (⟨.push (.params params), o₁⟩ :: ⟨.push (.code code'), o₂⟩ :: ⟨.buildFunction name, o₃⟩ :: js)

/-- Code that is marked right, whatever follows it. In tail position only a return may follow. -/
def Unmarkable (P : Option String → List String → Code → Prop) (tail : Bool)
    (is : List Instruction) : Prop :=
  ∀ rest rest', (tail = true → Spent rest') → Unmarks P rest rest' →
    Unmarks P (is ++ rest) (Code.unmarkedIn is ++ rest')

namespace Unmarkable

variable {P : Option String → List String → Code → Prop} {tail : Bool}
    {is js : List Instruction} {span : Span}

theorem nil : Unmarkable P tail [] :=
  fun _ _ _ h => h

/-- What makes no tail call of its own may stand in any position. -/
theorem anywhere (h : Unmarkable P false is) : Unmarkable P tail is :=
  fun rest rest' _ => h rest rest' nofun

theorem append (h : Unmarkable P false is) (h' : Unmarkable P tail js) :
    Unmarkable P tail (is ++ js) := by
  intro rest rest' htail hrest
  rw [Code.unmarkedIn_append, List.append_assoc, List.append_assoc]
  exact h _ _ nofun (h' rest rest' htail hrest)

/-- An instruction that goes on to the next. -/
theorem single {op : Op} (hop : op.Plain) (hskip : op.skip? = none) (hsame : op.unmarked = op) :
    Unmarkable P tail [⟨op, span⟩] := by
  intro rest rest' _ hrest
  rw [Code.unmarkedIn, hsame]
  refine .plain hop (fun k hk => ?_) hrest
  rw [hskip] at hk
  cases hk

theorem invocation (argc : Nat) : Unmarkable P tail [⟨Compile.invocation tail argc, span⟩] := by
  cases tail with
  | true => exact fun rest rest' hspent hrest => .tailCall (hspent rfl) hrest
  | false => exact single trivial rfl rfl

/-- A body with its `ret`. -/
theorem returns (h : Unmarkable P true is) (span : Span) :
    Unmarks P (is ++ [⟨.ret, span⟩]) (Code.unmarkedIn (is ++ [⟨.ret, span⟩])) := by
  rw [Code.unmarkedIn_append]
  exact h _ _ (fun _ => .ret) .ret

theorem function {unit : Nat} {name : Option String} {params : List String} {paramsSpan : Span}
    (hmade : P name params ⟨⟨unit, some span⟩, is ++ [⟨.ret, span⟩]⟩) (h : Unmarkable P true is) :
    Unmarkable P tail (Compile.function unit name params paramsSpan is span) :=
  fun _ _ _ hrest => .function hmade (Code.unmarked_id _).symm (h.returns span) hrest

theorem branch {cs ys ns : List Instruction} (hc : Unmarkable P false cs)
    (hy : Unmarkable P tail ys) (hn : Unmarkable P tail ns) :
    Unmarkable P tail (Compile.branch span cs ys ns) := by
  intro rest rest' htail hrest
  have hno := hn rest rest' htail hrest
  have hskip : (((ns.length : Int) + 1) - 1).toNat = ns.length := by omega
  have hskip' : (((ys.length : Int) + 2) - 1).toNat = ys.length + 1 := by omega
  -- the end of the first branch jumps over the second
  have hover : Unmarks P (⟨.jump (ns.length + 1), span⟩ :: (ns ++ rest))
      (⟨.jump (ns.length + 1), span⟩ :: (Code.unmarkedIn ns ++ rest')) := by
    refine .plain (by simp only [Op.Plain]; omega) (fun k hk => ?_) hno
    obtain rfl : ns.length = k := by
      simpa only [Op.skip?, Option.some.injEq, hskip] using hk
    rw [List.drop_left, ← Code.length_unmarkedIn ns, List.drop_left]
    exact hrest
  have hspent : tail = true →
    Spent (⟨.jump (ns.length + 1), span⟩ :: (Code.unmarkedIn ns ++ rest')) := by
    refine fun h => .jump (by omega) ?_
    rw [hskip, ← Code.length_unmarkedIn ns, List.drop_left]
    exact htail h
  have hbranches : Unmarks P
      (⟨.jumpIfNot (ys.length + 2), span⟩ :: (ys ++ ⟨.jump (ns.length + 1), span⟩ :: (ns ++ rest)))
      (⟨.jumpIfNot (ys.length + 2), span⟩ ::
        (Code.unmarkedIn ys ++ ⟨.jump (ns.length + 1), span⟩ ::
          (Code.unmarkedIn ns ++ rest'))) := by
    refine .plain (by simp only [Op.Plain]; omega) (fun k hk => ?_) (hy _ _ hspent hover)
    obtain rfl : ys.length + 1 = k := by
      simpa only [Op.skip?, Option.some.injEq, hskip'] using hk
    rw [List.drop_length_add_append, ← Code.length_unmarkedIn ys, List.drop_length_add_append]
    exact hno
  have hall := hc _ _ (fun h => by cases h) hbranches
  simpa [Compile.branch, Code.unmarkedIn, Op.unmarked] using hall

end Unmarkable

/-! ## The compiler marks right -/

section Compiler

open Compile

variable {P : Option String → List String → Code → Prop} {root : Node} {unit : Nat}

/-- What is known of the operands of all functions that a program makes when it is compiled. -/
structure Operands (P : Option String → List String → Code → Prop) (root : Node)
    (unit : Nat) : Prop where
  defn : ∀ d ∈ root.definitions, ∀ body, Code.ofDefinition unit d = .ok body →
    P (some d.name) d.params body
  lambda : ∀ params body, P none params body

/-- A `defn` is a definition of the program, and its operand is compiled from that. -/
theorem Operands.made (hP : Operands P root unit) {tail : Bool} {head params : Node}
    {body : List Node} {name : String} {nameSpan span : Span} {names : List String}
    {is : List Instruction} {depth : Nat}
    (hin : (Part.form tail (.list (head :: .identifier name nameSpan :: params :: body) span)).In
      root depth)
    (hk : head.keyword? = some .defn) (hp : parameterList params = .ok names)
    (hb : Compile.sequence unit true span body = .ok is) :
    P (some name) names ⟨⟨unit, some span⟩, is ++ [⟨.ret, span⟩]⟩ := by
  have hd : Definition.ofNode? (.list (head :: .identifier name nameSpan :: params :: body) span)
      (depth + 1) =
      _ := Definition.ofNode?_defn hk hp (depth + 1)
  refine hP.defn _ (Node.mem_definitions_of_layer (hin _ (List.mem_singleton_self _)) hd) _ ?_
  show (Compile.sequence unit true span body >>= _) = _
  rw [hb]
  rfl

mutual

theorem unmarkable_expression (hP : Operands P root unit) {tail : Bool} {node : Node} {depth : Nat}
    {is : List Instruction} (hin : (Part.form tail node).In root depth)
    (h : expression unit tail node = .ok is) :
    Unmarkable P tail is := by
  match node with
  | .number value span =>
    rw [expression] at h
    cases h
    exact .single rfl rfl rfl
  | .text content span =>
    rw [expression] at h
    cases h
    exact .single rfl rfl rfl
  | .identifier name span =>
    rw [expression] at h
    obtain ⟨i, hi, h⟩ := except_bind_eq_ok h
    cases h
    have hcompiles : Compiles unit (.form tail (.identifier name span)) [i] :=
      compiles_identifier hi
    cases hcompiles with
    | literal hk hv => exact .single (closures_of_literal? hv) rfl rfl
    | name hk => exact .single trivial rfl rfl
  | .list [] span =>
    rw [expression] at h
    cases h
  | .list (head :: items) span =>
    have hcases := list_eq_ok h
    match hk : head.keyword? with
    | some .define =>
      rw [hk] at hcases
      obtain ⟨name, nameSpan, value, js, rfl, hv, rfl⟩ := assignment_eq_ok hcases
      exact (unmarkable_expression hP (hin.item (by simp) false) hv).append
        (.single trivial rfl rfl)
    | some .assign =>
      rw [hk] at hcases
      obtain ⟨name, nameSpan, value, js, rfl, hv, rfl⟩ := assignment_eq_ok hcases
      exact (unmarkable_expression hP (hin.item (by simp) false) hv).append
        (.single trivial rfl rfl)
    | some .lambda =>
      rw [hk] at hcases
      obtain ⟨params, body, names, js, rfl, hp, hb, rfl⟩ := hcases
      exact .function (hP.lambda _ _) (unmarkable_sequence hP (hin.body (by simp) true span) hb)
    | some .defn =>
      rw [hk] at hcases
      obtain ⟨name, nameSpan, params, body, names, js, rfl, hp, hb, rfl⟩ := hcases
      have hbody := hin.body (List.subset_append_right [_, _, _] body) true span
      exact .function (hP.made hin hk hp hb) (unmarkable_sequence hP hbody hb)
    | some .branch =>
      rw [hk] at hcases
      obtain ⟨condition, yes, cs, ys, rfl, hc, hy, -, rfl⟩ |
        ⟨condition, yes, no, cs, ys, ns, rfl, hc, hy, hn, -, -, rfl⟩ := hcases
      · exact .branch (unmarkable_expression hP (hin.item (by simp) false) hc)
          (unmarkable_expression hP (hin.item (by simp) tail) hy) (.single rfl rfl rfl)
      · exact .branch (unmarkable_expression hP (hin.item (by simp) false) hc)
          (unmarkable_expression hP (hin.item (by simp) tail) hy)
          (unmarkable_expression hP (hin.item (by simp) tail) hn)
    | some .sequence =>
      rw [hk] at hcases
      exact unmarkable_sequence hP (hin.body (by simp) tail span) hcases
    | some .null | some (.truth _) =>
      rw [hk] at hcases
      exact hcases.elim
    | none =>
      rw [hk] at hcases
      obtain ⟨callee, args, ha, rfl, hcallee⟩ := hcases
      have hargs := unmarkable_arguments hP (hin.arguments (List.subset_cons_self ..)) ha
      obtain ⟨f, headSpan, rfl, rfl⟩ | ⟨-, hc⟩ := hcallee
      · have hlookup : Unmarkable P false [⟨.functionLookup f, headSpan⟩] := .single trivial rfl rfl
        exact (hlookup.append hargs).append (.invocation _)
      · exact ((unmarkable_expression hP (hin.item (by simp) false) hc).append hargs).append
          (.invocation _)
termination_by sizeOf node
decreasing_by
  all_goals
    subst_vars
    simp only [Node.list.sizeOf_spec, List.cons.sizeOf_spec]
    omega

theorem unmarkable_sequence (hP : Operands P root unit) {tail : Bool} {span : Span}
    {nodes : List Node} {depth : Nat} {is : List Instruction}
    (hin : (Part.body tail span nodes).In root depth)
    (h : Compile.sequence unit tail span nodes = .ok is) : Unmarkable P tail is := by
  match nodes with
  | [] =>
    rw [Compile.sequence] at h
    cases h
    exact .single rfl rfl rfl
  | [last] =>
    rw [Compile.sequence] at h
    exact unmarkable_expression hP hin h
  | node :: other :: rest =>
    rw [Compile.sequence] at h
    · obtain ⟨first, hfirst, h⟩ := except_bind_eq_ok h
      obtain ⟨others, hothers, h⟩ := except_bind_eq_ok h
      cases h
      have hnode : (Part.form false node).In root depth := hin.mono (by simp [Part.nodes])
      have hrest : (Part.body tail span (other :: rest)).In root depth :=
        hin.mono (List.subset_cons_self ..)
      have hpop : Unmarkable P false [⟨.pop, node.span⟩] := .single trivial rfl rfl
      exact ((unmarkable_expression hP hnode hfirst).append hpop).append
        (unmarkable_sequence hP hrest hothers)
    · simp
termination_by sizeOf nodes
decreasing_by
  all_goals
    subst_vars
    simp only [List.cons.sizeOf_spec]
    omega

theorem unmarkable_arguments (hP : Operands P root unit) {nodes : List Node} {depth : Nat}
    {is : List Instruction} (hin : (Part.arguments nodes).In root depth)
    (h : arguments unit nodes = .ok is) : Unmarkable P false is := by
  match nodes with
  | [] =>
    rw [arguments] at h
    cases h
    exact .nil
  | node :: rest =>
    rw [arguments] at h
    obtain ⟨first, hfirst, h⟩ := except_bind_eq_ok h
    obtain ⟨others, hothers, h⟩ := except_bind_eq_ok h
    cases h
    have hnode : (Part.form false node).In root depth := hin.mono (by simp [Part.nodes])
    have hrest : (Part.arguments rest).In root depth := hin.mono (List.subset_cons_self ..)
    exact (unmarkable_expression hP hnode hfirst).append (unmarkable_arguments hP hrest hothers)
termination_by sizeOf nodes
decreasing_by
  all_goals
    subst_vars
    simp only [List.cons.sizeOf_spec]
    omega

end

/-- The operands of the body of a definition. -/
theorem unmarks_of_definition (hP : Operands P root unit) {d : Definition}
    {depth : Nat} {code : Code} (hin : (Part.body true d.node.span d.body).In root depth)
    (h : Code.ofDefinition unit d = .ok code) :
    Unmarks P code.instructions code.unmarked.instructions := by
  obtain ⟨is, his, h⟩ := except_bind_eq_ok h
  cases h
  exact (unmarkable_sequence hP hin his).returns _

/-- The operands of a program that is a sequence of forms. -/
theorem unmarks_of_program (hP : Operands P root unit) {doSpan span : Span}
    {forms : List Node} {code : Code} (hroot : root = .list (.identifier "do" doSpan :: forms) span)
    (h : Code.ofProgram unit root = .ok code) :
    Unmarks P code.instructions code.unmarked.instructions := by
  obtain ⟨is, his, h⟩ := except_bind_eq_ok h
  cases h
  have hforms : Compile.sequence unit false span forms = .ok is := by
    rw [hroot, expression.eq_def] at his
    exact his
  have hin : (Part.body false span forms).In root 0 := by
    intro form hform
    rw [hroot]
    exact Node.mem_layer_succ (List.mem_singleton_self _) (List.mem_cons_of_mem _ hform)
  exact (unmarkable_sequence hP hin hforms).anywhere.returns _

end Compiler

/-- Whatever is compiled is marked right. -/
theorem unmarks_of_ofProgram {unit : Nat} {root : Node} {code : Code}
    (h : Code.ofProgram unit root = .ok code) :
    Unmarks (fun _ _ _ => True) code.instructions code.unmarked.instructions := by
  obtain ⟨is, his, h⟩ := except_bind_eq_ok h
  cases h
  have hP : Operands (fun _ _ _ => True) (.list [root] root.span) unit :=
    ⟨fun _ _ _ _ => trivial, fun _ _ => trivial⟩
  have hin : (Part.form false root).In (.list [root] root.span) 0 := by
    intro node hnode
    exact Node.mem_layer_succ (List.mem_singleton_self _) hnode
  exact (unmarkable_expression hP hin his).anywhere.returns _

/-! ## Unmarked code is sound -/

/-- What is known of the values, when marks are removed. -/
def Shape.unmarked (shape : Shape) : Shape :=
  shape.map (Option.map Value.unmarked)

@[simp] theorem Value.closures_unmarked (v : Value) : v.unmarked.closures = v.closures := by
  cases v <;> rfl

theorem Op.Fits.unmarked {next : Int → Shape → Prop} {shape : Shape} {op : Op}
    (h : op.Fits next shape) :
    op.unmarked.Fits (fun d shape' => ∃ shape, next d shape ∧
      shape' = shape.unmarked) shape.unmarked := by
  cases op with
  | loadConstant v => exact ⟨h.1, _, h.2, rfl⟩
  | push v => exact ⟨(Value.closures_unmarked v).trans h.1, _, h.2, rfl⟩
  | pop =>
    obtain ⟨mark, rest, rfl, hrest⟩ := h
    exact ⟨_, _, rfl, rest, hrest, rfl⟩
  | nameLookup name => exact ⟨_, h, rfl⟩
  | functionLookup name => exact ⟨_, h, rfl⟩
  | storeNew name => exact ⟨fun hnil => h.1 (List.map_eq_nil_iff.mp hnil), shape, h.2, rfl⟩
  | store name => exact ⟨fun hnil => h.1 (List.map_eq_nil_iff.mp hnil), shape, h.2, rfl⟩
  | buildFunction name =>
    obtain ⟨code, params, rest, rfl, hrest⟩ := h
    exact ⟨code.unmarked, params, Shape.unmarked rest, rfl, none :: rest, hrest, rfl⟩
  | call argc =>
    refine ⟨by rw [Shape.unmarked, List.length_map]; exact h.1, _, h.2, ?_⟩
    simp [Shape.unmarked]
  | tailCall argc =>
    have hlength : shape.length = argc + 1 := h.1
    refine ⟨by rw [Shape.unmarked, List.length_map]; omega, _, h.2, ?_⟩
    simp [Shape.unmarked, ← hlength]
  | jump offset => exact ⟨shape, h, rfl⟩
  | jumpIfNot offset =>
    obtain ⟨mark, rest, rfl, hthen, helse⟩ := h
    exact ⟨_, _, rfl, ⟨rest, hthen, rfl⟩, rest, helse, rfl⟩
  | ret => exact (List.length_map ..).trans h

theorem Code.Sound.unmarked {code : Code} (h : code.Sound) : code.unmarked.Sound := by
  induction h with
  | @intro code At start fits bodies ih =>
    refine ⟨fun pc shape' => ∃ shape, At pc shape ∧ shape' = shape.unmarked,
      ⟨[], start, rfl⟩, ?_, ?_⟩
    · rintro pc _ ⟨shape, hat, rfl⟩
      obtain ⟨i, hi, hfits⟩ := fits pc shape hat
      refine ⟨⟨i.op.unmarked, i.origin⟩, ?_, hfits.unmarked.mono ?_⟩
      · rw [unmarked_instructions, unmarkedIn_eq_map, List.getElem?_map, hi]
        rfl
      · rintro d _ ⟨shape', ⟨target, htarget, hat'⟩, rfl⟩
        exact ⟨target, htarget, shape', hat', rfl⟩
    · rintro pc _ ⟨shape, hat, rfl⟩ body' hbody'
      obtain ⟨mark, hmark, hsome⟩ := List.mem_map.mp hbody'
      obtain ⟨v, rfl, hv⟩ := Option.map_eq_some_iff.mp hsome
      cases v with
      | code body =>
        cases hv
        exact ih pc shape hat body hmark
      | _ => cases hv

end LiveLisp
