/-
  What the compiler makes of each form, as rules: one for every form, with the code of its parts as
  premises. The compiler follows them (`compiles_expression`), and whatever is proved of compiled
  code is proved by induction on them. The first such property is here: compiled code is sound.
-/
import LiveLisp.Code.Compile
import LiveLisp.Proofs.Code.Shape
import LiveLisp.Proofs.Outcome

namespace LiveLisp

open Compile

/-- What is compiled as a whole: a form, the forms of a body, or the arguments of a call. -/
inductive Part where
  | form (tail : Bool) (node : Node)
  | body (tail : Bool) (span : Span) (nodes : List Node)
  | arguments (nodes : List Node)

/-- The value of an identifier that is a literal. -/
def Keyword.literal? : Keyword → Option Value
  | .null => some .null
  | .truth value => some (.bool value)
  | _ => none

inductive Compiles (unit : Nat) : Part → List Instruction → Prop where
  | number {tail : Bool} {value : Float} {span : Span} :
    Compiles unit (.form tail (.number value span)) [⟨.loadConstant (.number value), span⟩]
  | text {tail : Bool} {content : String} {span : Span} :
    Compiles unit (.form tail (.text content span)) [⟨.loadConstant (.text content), span⟩]
  | literal {tail : Bool} {name : String} {span : Span} {keyword : Keyword} {v : Value}
      (hk : Keyword.ofName? name = some keyword) (hv : keyword.literal? = some v) :
    Compiles unit (.form tail (.identifier name span)) [⟨.loadConstant v, span⟩]
  | name {tail : Bool} {name : String} {span : Span} (hk : Keyword.ofName? name = none) :
    Compiles unit (.form tail (.identifier name span)) [⟨.nameLookup name, span⟩]
  | define {tail : Bool} {head value : Node} {name : String} {nameSpan span : Span}
      {is : List Instruction}
      (hk : head.keyword? = some .define) (hv : Compiles unit (.form false value) is) :
    Compiles unit (.form tail (.list [head, .identifier name nameSpan, value] span))
      (is ++ [⟨.storeNew name, span⟩])
  | assign {tail : Bool} {head value : Node} {name : String} {nameSpan span : Span}
      {is : List Instruction}
      (hk : head.keyword? = some .assign) (hv : Compiles unit (.form false value) is) :
    Compiles unit (.form tail (.list [head, .identifier name nameSpan, value] span))
      (is ++ [⟨.store name, span⟩])
  | lambda {tail : Bool} {head params : Node} {body : List Node} {span : Span} {names : List String}
      {is : List Instruction} (hk : head.keyword? = some .lambda)
        (hp : parameterList params = .ok names)
      (hb : Compiles unit (.body true span body) is) :
    Compiles unit (.form tail (.list (head :: params :: body) span))
      (function unit none names params.span is span)
  | defn {tail : Bool} {head params : Node} {body : List Node}
      {nameSpan span : Span} {name : String}
      {names : List String} {is : List Instruction} (hk : head.keyword? = some .defn)
      (hp : parameterList params = .ok names) (hb : Compiles unit (.body true span body) is) :
    Compiles unit (.form tail (.list (head :: .identifier name nameSpan :: params :: body) span))
      (function unit (some name) names params.span is span)
  | ifThen {tail : Bool} {head condition yes : Node} {span : Span} {cs ys : List Instruction}
      (hk : head.keyword? = some .branch) (hc : Compiles unit (.form false condition) cs)
      (hy : Compiles unit (.form tail yes) ys) (hpast : ys.length + 2 < jumpLimit) :
    Compiles unit (.form tail (.list [head, condition, yes] span))
      (branch span cs ys [⟨.loadConstant .null, span⟩])
  | ifThenElse {tail : Bool} {head condition yes no : Node} {span : Span}
      {cs ys ns : List Instruction}
      (hk : head.keyword? = some .branch) (hc : Compiles unit (.form false condition) cs)
      (hy : Compiles unit (.form tail yes) ys) (hn : Compiles unit (.form tail no) ns)
      (hpast : ys.length + 2 < jumpLimit) (hend : ns.length + 1 < jumpLimit) :
    Compiles unit (.form tail (.list [head, condition, yes, no] span)) (branch span cs ys ns)
  | sequence {tail : Bool} {head : Node} {items : List Node} {span : Span} {is : List Instruction}
      (hk : head.keyword? = some .sequence) (hs : Compiles unit (.body tail span items) is) :
    Compiles unit (.form tail (.list (head :: items) span)) is
  | callName {tail : Bool} {name : String} {items : List Node} {headSpan span : Span}
      {args : List Instruction}
      (hk : Keyword.ofName? name = none) (ha : Compiles unit (.arguments items) args) :
    Compiles unit (.form tail (.list (.identifier name headSpan :: items) span))
      ([⟨.functionLookup name, headSpan⟩] ++ args ++ [⟨invocation tail items.length, span⟩])
  | call {tail : Bool} {head : Node} {items : List Node} {span : Span}
      {callee args : List Instruction}
      (hname : head.name? = none) (hc : Compiles unit (.form false head) callee)
      (ha : Compiles unit (.arguments items) args) :
    Compiles unit (.form tail (.list (head :: items) span))
      (callee ++ args ++ [⟨invocation tail items.length, span⟩])
  | nothing {tail : Bool} {span : Span} :
      Compiles unit (.body tail span []) [⟨.loadConstant .null, span⟩]
  | last {tail : Bool} {span : Span} {node : Node} {is : List Instruction}
      (h : Compiles unit (.form tail node) is) :
    Compiles unit (.body tail span [node]) is
  | next {tail : Bool} {span : Span} {node other : Node} {nodes : List Node}
      {is js : List Instruction}
      (h : Compiles unit (.form false node) is)
        (hs : Compiles unit (.body tail span (other :: nodes)) js) :
    Compiles unit (.body tail span (node :: other :: nodes)) (is ++ [⟨.pop, node.span⟩] ++ js)
  | noArguments : Compiles unit (.arguments []) []
  | argument {node : Node} {nodes : List Node} {is js : List Instruction}
      (h : Compiles unit (.form false node) is)
      (hs : Compiles unit (.arguments nodes) js) :
        Compiles unit (.arguments (node :: nodes)) (is ++ js)

/-! ## The compiler follows the rules -/

theorem bindingName_eq_ok {role name : String} {node : Node}
    (h : bindingName role node = .ok name) :
    ∃ span, node = .identifier name span := by
  cases node with
  | identifier other span =>
    simp only [bindingName] at h
    split at h
    · cases h
    · cases h
      exact ⟨span, rfl⟩
  | _ => cases h

theorem compiles_identifier {unit : Nat} {tail : Bool} {name : String}
    {span : Span} {i : Instruction} (h : identifier name span = .ok i) :
    Compiles unit (.form tail (.identifier name span)) [i] := by
  unfold identifier at h
  split at h
  · next hk =>
    cases h
    exact .literal hk rfl
  · next value hk =>
    cases h
    exact .literal hk rfl
  · cases h
  · next hk =>
    cases h
    exact .name hk

theorem Compile.assignment_eq_ok {unit : Nat} {keyword : String} {op : String → Op}
    {span : Span} {nodes : List Node} {is : List Instruction}
    (h : assignment unit keyword op span nodes = .ok is) :
    ∃ name nameSpan value js, nodes = [.identifier name nameSpan, value] ∧
      expression unit false value = .ok js ∧
      is = js ++ [⟨op name, span⟩] := by
  match nodes with
  | [nameNode, value] =>
    rw [assignment] at h
    obtain ⟨name, hname, hrest⟩ := except_bind_eq_ok h
    obtain ⟨js, hv, hlast⟩ := except_bind_eq_ok hrest
    obtain ⟨nameSpan, rfl⟩ := bindingName_eq_ok hname
    cases hlast
    exact ⟨name, nameSpan, value, js, rfl, hv, rfl⟩
  | [] => simp [assignment] at h
  | [_] => simp [assignment] at h
  | _ :: _ :: _ :: _ => simp [assignment] at h

theorem Compile.checkJump_eq_ok {offset : Nat} {a : Unit} (h : checkJump offset = .ok a) :
    offset < jumpLimit := by
  unfold checkJump at h
  split at h
  · assumption
  · cases h

theorem Compile.conditional_eq_ok {span : Span} {cs ys is : List Instruction}
    {no : Except Error (List Instruction)} (h : conditional span cs ys no = .ok is) :
    ∃ ns, no = .ok ns ∧ is = branch span cs ys ns ∧ ys.length + 2 < jumpLimit ∧
      ns.length + 1 < jumpLimit := by
  obtain ⟨_, hpast, h⟩ := except_bind_eq_ok h
  obtain ⟨ns, hn, h⟩ := except_bind_eq_ok h
  obtain ⟨_, hend, h⟩ := except_bind_eq_ok h
  cases h
  exact ⟨ns, hn, rfl, checkJump_eq_ok hpast, checkJump_eq_ok hend⟩

/-- The code of a call: its callee is looked up by name, or is a form like any other. -/
theorem Compile.call_eq_ok {unit : Nat} {tail : Bool} {head : Node} {items : List Node}
    {span : Span} {is : List Instruction} (hk : head.keyword? = none)
    (h : expression unit tail (.list (head :: items) span) = .ok is) :
    ∃ callee args, arguments unit items = .ok args ∧
      is = callee ++ args ++ [⟨invocation tail items.length, span⟩] ∧
      ((∃ f headSpan, head = .identifier f headSpan ∧ callee = [⟨.functionLookup f, headSpan⟩]) ∨
        (head.name? = none ∧ expression unit false head = .ok callee)) := by
  rw [expression.eq_def] at h
  simp only [hk] at h
  split at h
  · next f headSpan =>
    obtain ⟨callee, hc, h⟩ := except_bind_eq_ok h
    cases hc
    obtain ⟨args, ha, h⟩ := except_bind_eq_ok h
    cases h
    exact ⟨_, args, ha, rfl, .inl ⟨f, headSpan, rfl, rfl⟩⟩
  · next hother =>
    obtain ⟨callee, hc, h⟩ := except_bind_eq_ok h
    obtain ⟨args, ha, h⟩ := except_bind_eq_ok h
    cases h
    refine ⟨callee, args, ha, rfl, .inr ⟨?_, hc⟩⟩
    cases head with
    | identifier f headSpan => exact absurd rfl (hother f headSpan)
    | _ => rfl

/-- The code of a list, by the keyword at its head. -/
theorem Compile.list_eq_ok {unit : Nat} {tail : Bool} {head : Node} {items : List Node}
    {span : Span} {is : List Instruction}
    (h : expression unit tail (.list (head :: items) span) = .ok is) :
    match head.keyword? with
    | some .define => assignment unit "define" .storeNew span items = .ok is
    | some .assign => assignment unit "set!" .store span items = .ok is
    | some .lambda =>
      ∃ params body names js, items = params :: body ∧ parameterList params = .ok names ∧
        Compile.sequence unit true span body = .ok js ∧
          is = function unit none names params.span js span
    | some .defn =>
      ∃ name nameSpan params body names js, items = .identifier name nameSpan :: params :: body ∧
        parameterList params = .ok names ∧ Compile.sequence unit true span body = .ok js ∧
        is = function unit (some name) names params.span js span
    | some .branch =>
      (∃ condition yes cs ys, items = [condition, yes] ∧ expression unit false condition = .ok cs ∧
          expression unit tail yes = .ok ys ∧ ys.length + 2 < jumpLimit ∧
            is = branch span cs ys [⟨.loadConstant .null, span⟩]) ∨
        ∃ condition yes no cs ys ns, items = [condition, yes, no] ∧
          expression unit false condition = .ok cs ∧
          expression unit tail yes = .ok ys ∧ expression unit tail no = .ok ns ∧
            ys.length + 2 < jumpLimit ∧ ns.length + 1 < jumpLimit ∧ is = branch span cs ys ns
    | some .sequence => Compile.sequence unit tail span items = .ok is
    | some _ => False
    | none => ∃ callee args, arguments unit items = .ok args ∧
        is = callee ++ args ++ [⟨invocation tail items.length, span⟩] ∧
        ((∃ f headSpan, head = .identifier f headSpan ∧ callee = [⟨.functionLookup f, headSpan⟩]) ∨
          (head.name? = none ∧ expression unit false head = .ok callee)) := by
  have hcode := h
  rw [expression.eq_def] at h
  dsimp only at h
  match hk : head.keyword? with
  | some .define | some .assign | some .sequence =>
    rw [hk] at h
    exact h
  | some .lambda =>
    rw [hk] at h
    match items with
    | [] => cases h
    | params :: body =>
      obtain ⟨names, hp, h⟩ := except_bind_eq_ok h
      obtain ⟨js, hb, h⟩ := except_bind_eq_ok h
      cases h
      exact ⟨params, body, names, js, rfl, hp, hb, rfl⟩
  | some .defn =>
    rw [hk] at h
    match items with
    | [] => cases h
    | [_] => cases h
    | nameNode :: params :: body =>
      obtain ⟨name, hname, h⟩ := except_bind_eq_ok h
      obtain ⟨names, hp, h⟩ := except_bind_eq_ok h
      obtain ⟨js, hb, h⟩ := except_bind_eq_ok h
      cases h
      obtain ⟨nameSpan, rfl⟩ := bindingName_eq_ok hname
      exact ⟨name, nameSpan, params, body, names, js, rfl, hp, hb, rfl⟩
  | some .branch =>
    rw [hk] at h
    match items with
    | [] => cases h
    | [_] => cases h
    | [condition, yes] =>
      obtain ⟨cs, hc, h⟩ := except_bind_eq_ok h
      obtain ⟨ys, hy, h⟩ := except_bind_eq_ok h
      obtain ⟨_, hn, rfl, hpast, -⟩ := conditional_eq_ok h
      cases hn
      exact .inl ⟨condition, yes, cs, ys, rfl, hc, hy, hpast, rfl⟩
    | [condition, yes, no] =>
      obtain ⟨cs, hc, h⟩ := except_bind_eq_ok h
      obtain ⟨ys, hy, h⟩ := except_bind_eq_ok h
      obtain ⟨ns, hn, rfl, hpast, hend⟩ := conditional_eq_ok h
      exact .inr ⟨condition, yes, no, cs, ys, ns, rfl, hc, hy, hn, hpast, hend, rfl⟩
    | _ :: _ :: _ :: _ :: _ => cases h
  | some .null | some (.truth _) =>
    rw [hk] at h
    cases h
  | none => exact call_eq_ok hk hcode

mutual

theorem compiles_expression {unit : Nat} {tail : Bool} {node : Node} {is : List Instruction}
    (h : expression unit tail node = .ok is) : Compiles unit (.form tail node) is := by
  match node with
  | .number value span =>
    rw [expression] at h
    cases h
    exact .number
  | .text content span =>
    rw [expression] at h
    cases h
    exact .text
  | .identifier name span =>
    rw [expression] at h
    obtain ⟨i, hi, h⟩ := except_bind_eq_ok h
    cases h
    exact compiles_identifier hi
  | .list [] span =>
    rw [expression] at h
    cases h
  | .list (head :: items) span =>
    have hcases := list_eq_ok h
    match hk : head.keyword? with
    | some .define =>
      rw [hk] at hcases
      obtain ⟨name, nameSpan, value, js, rfl, hv, rfl⟩ := assignment_eq_ok hcases
      exact .define hk (compiles_expression hv)
    | some .assign =>
      rw [hk] at hcases
      obtain ⟨name, nameSpan, value, js, rfl, hv, rfl⟩ := assignment_eq_ok hcases
      exact .assign hk (compiles_expression hv)
    | some .lambda =>
      rw [hk] at hcases
      obtain ⟨params, body, names, js, rfl, hp, hb, rfl⟩ := hcases
      exact .lambda hk hp (compiles_sequence hb)
    | some .defn =>
      rw [hk] at hcases
      obtain ⟨name, nameSpan, params, body, names, js, rfl, hp, hb, rfl⟩ := hcases
      exact .defn hk hp (compiles_sequence hb)
    | some .branch =>
      rw [hk] at hcases
      obtain ⟨condition, yes, cs, ys, rfl, hc, hy, hpast, rfl⟩ |
        ⟨condition, yes, no, cs, ys, ns, rfl, hc, hy, hn, hpast, hend, rfl⟩ := hcases
      · exact .ifThen hk (compiles_expression hc) (compiles_expression hy) hpast
      · exact .ifThenElse hk (compiles_expression hc) (compiles_expression hy)
          (compiles_expression hn) hpast hend
    | some .sequence =>
      rw [hk] at hcases
      exact .sequence hk (compiles_sequence hcases)
    | some .null | some (.truth _) =>
      rw [hk] at hcases
      exact hcases.elim
    | none =>
      rw [hk] at hcases
      obtain ⟨callee, args, ha, rfl, ⟨f, headSpan, rfl, rfl⟩ | ⟨hname, hc⟩⟩ := hcases
      · exact .callName hk (compiles_arguments ha)
      · exact .call hname (compiles_expression hc) (compiles_arguments ha)
termination_by sizeOf node
decreasing_by
  all_goals
    subst_vars
    simp only [Node.list.sizeOf_spec, List.cons.sizeOf_spec]
    omega

theorem compiles_sequence {unit : Nat} {tail : Bool} {span : Span} {nodes : List Node}
    {is : List Instruction} (h : Compile.sequence unit tail span nodes = .ok is) :
    Compiles unit (.body tail span nodes) is := by
  match nodes with
  | [] =>
    rw [Compile.sequence] at h
    cases h
    exact .nothing
  | [last] =>
    rw [Compile.sequence] at h
    exact .last (compiles_expression h)
  | node :: other :: rest =>
    rw [Compile.sequence] at h
    · obtain ⟨first, hfirst, h⟩ := except_bind_eq_ok h
      obtain ⟨others, hothers, h⟩ := except_bind_eq_ok h
      cases h
      exact .next (compiles_expression hfirst) (compiles_sequence hothers)
    · simp
termination_by sizeOf nodes
decreasing_by
  all_goals
    subst_vars
    simp only [List.cons.sizeOf_spec]
    omega

theorem compiles_arguments {unit : Nat} {nodes : List Node} {is : List Instruction}
    (h : arguments unit nodes = .ok is) : Compiles unit (.arguments nodes) is := by
  match nodes with
  | [] =>
    rw [arguments] at h
    cases h
    exact .noArguments
  | node :: rest =>
    rw [arguments] at h
    obtain ⟨first, hfirst, h⟩ := except_bind_eq_ok h
    obtain ⟨others, hothers, h⟩ := except_bind_eq_ok h
    cases h
    exact .argument (compiles_expression hfirst) (compiles_arguments hothers)
termination_by sizeOf nodes
decreasing_by
  all_goals
    subst_vars
    simp only [List.cons.sizeOf_spec]
    omega

end

/-! ## Compiled code is sound -/

namespace Typed

variable {is : List Instruction} {n : Nat} {span : Span}

theorem bodies_any (body : Code) (h : some (.code body) ∈ Shape.any n) : body.Sound :=
  absurd h Shape.not_mem_any

theorem constant {v : Value} (hv : v.closures = []) :
    Typed (.any n) [⟨.loadConstant v, span⟩] (exit (.any (n + 1))) :=
  plain ⟨hv, rfl, rfl⟩ bodies_any

theorem lookup {op : Op} {name : String} (hop : op = .nameLookup name ∨ op = .functionLookup name) :
    Typed (.any n) [⟨op, span⟩] (exit (.any (n + 1))) := by
  rcases hop with rfl | rfl
  · exact plain ⟨rfl, rfl⟩ bodies_any
  · exact plain ⟨rfl, rfl⟩ bodies_any

theorem keep {op : Op} {name : String} (hop : op = .storeNew name ∨ op = .store name) :
    Typed (.any (n + 1)) [⟨op, span⟩] (exit (.any (n + 1))) := by
  rcases hop with rfl | rfl
  · exact plain ⟨nofun, rfl, rfl⟩ bodies_any
  · exact plain ⟨nofun, rfl, rfl⟩ bodies_any

theorem pop : Typed (.any (n + 1)) [⟨.pop, span⟩] (exit (.any n)) :=
  plain ⟨none, Shape.any n, rfl, rfl, rfl⟩ bodies_any

/-- The first branch jumps over the second, and the condition jumps to the second. -/
theorem branch {cs ys ns : List Instruction} (hc : Typed (.any n) cs (exit (.any (n + 1))))
    (hy : Typed (.any n) ys (exit (.any (n + 1)))) (hn : Typed (.any n) ns (exit (.any (n + 1)))) :
    Typed (.any n) (Compile.branch span cs ys ns) (exit (.any (n + 1))) := by
  have hskip : Typed (.any n) (cs ++ [⟨.jumpIfNot (ys.length + 2), span⟩])
      fun pc shape => (pc = 0 ∨ pc = ys.length + 1) ∧ shape = .any n := by
    refine hc.seq (single ?_ bodies_any)
    exact ⟨none, Shape.any n, rfl, ⟨0, rfl, .inl rfl, rfl⟩,
      ⟨ys.length + 1, by omega, .inr rfl, rfl⟩⟩
  have hyes : Typed (.any n) (cs ++ [⟨.jumpIfNot (ys.length + 2), span⟩] ++ ys)
      fun pc shape => (pc = 0 ∧ shape = .any (n + 1)) ∨ (pc = 1 ∧ shape = .any n) := by
    refine hskip.append (hy.mono fun pc shape h => .inl h) ?_
    rintro pc shape ⟨rfl | rfl, rfl⟩
    · exact .inl ⟨rfl, rfl⟩
    · exact .inr ⟨by omega, .inr ⟨by omega, rfl⟩⟩
  have hjump : Typed (.any n) (cs ++ [⟨.jumpIfNot (ys.length + 2), span⟩] ++ ys ++
    [⟨.jump (ns.length + 1), span⟩])
      fun pc shape => (pc = 0 ∧ shape = .any n) ∨ (pc = ns.length ∧ shape = .any (n + 1)) := by
    refine hyes.append (single ⟨ns.length, rfl, .inr ⟨rfl, rfl⟩⟩ bodies_any) ?_
    rintro pc shape (⟨rfl, rfl⟩ | ⟨rfl, rfl⟩)
    · exact .inl ⟨rfl, rfl⟩
    · exact .inr ⟨Nat.le_refl _, .inl ⟨rfl, rfl⟩⟩
  refine hjump.append hn ?_
  rintro pc shape (⟨rfl, rfl⟩ | ⟨rfl, rfl⟩)
  · exact .inl ⟨rfl, rfl⟩
  · exact .inr ⟨Nat.le_refl _, by omega, rfl⟩

/-- A body that leaves one value, with the instruction that returns it. -/
theorem sound_of_body {id : CodeId} (h : Typed (.any 0) is (exit (.any 1))) :
    Code.Sound ⟨id, is ++ [⟨.ret, span⟩]⟩ :=
  sound (h.seq (single rfl bodies_any))

theorem function {unit : Nat} {name : Option String} {params : List String} {paramsSpan : Span}
    (h : Typed (.any 0) is (exit (.any 1))) :
    Typed (.any n) (Compile.function unit name params paramsSpan is span)
      (exit (.any (n + 1))) := by
  have hparams : Typed (.any n) [⟨.push (.params params), paramsSpan⟩]
    (exit (some (.params params) :: Shape.any n)) :=
    plain ⟨rfl, rfl, rfl⟩ bodies_any
  have hcode : Typed (some (.params params) :: Shape.any n)
      [⟨.push (.code ⟨⟨unit, some span⟩, is ++ [⟨.ret, span⟩]⟩), span⟩]
      (exit (some (.code ⟨⟨unit, some span⟩, is ++ [⟨.ret, span⟩]⟩) :: some (.params params) ::
        Shape.any n)) :=
    plain ⟨rfl, rfl, rfl⟩ (by simp [Shape.not_mem_any])
  have hbuild : Typed (some (.code ⟨⟨unit, some span⟩, is ++ [⟨.ret, span⟩]⟩) ::
    some (.params params) :: Shape.any n)
      [⟨.buildFunction name, span⟩] (exit (.any (n + 1))) := by
    refine plain ⟨_, _, _, rfl, rfl, rfl⟩ fun body hbody => ?_
    simp only [List.mem_cons, Option.some.injEq, Value.code.injEq, reduceCtorEq, Shape.not_mem_any,
      or_false] at hbody
    rw [hbody]
    exact sound_of_body h
  exact hparams.seq (hcode.seq hbuild)

/-- A call finds its callee below its arguments. In tail position there is nothing below them. -/
theorem invocation {tail : Bool} {argc : Nat} (htail : tail = true → n = 0) :
    Typed (.any (n + 1 + argc)) [⟨Compile.invocation tail argc, span⟩] (exit (.any (n + 1))) := by
  refine plain ?_ bodies_any
  cases tail with
  | false =>
    refine ⟨by simp only [Shape.any, List.length_replicate]; omega, rfl, ?_⟩
    simp only [Shape.any, List.drop_replicate]
    rw [show n + 1 + argc - (argc + 1) = n by omega]
    rfl
  | true =>
    rw [htail rfl]
    exact ⟨by simp only [Shape.any, List.length_replicate]; omega, rfl, rfl⟩

end Typed

/-- What a part leaves on the stack: a form or a body one value, arguments one each. -/
def Part.Nets (is : List Instruction) : Part → Prop
  | .form tail _ => ∀ n, (tail = true → n = 0) → Typed (.any n) is (exit (.any (n + 1)))
  | .body tail _ _ => ∀ n, (tail = true → n = 0) → Typed (.any n) is (exit (.any (n + 1)))
  | .arguments nodes => ∀ n, Typed (.any n) is (exit (.any (n + nodes.length)))

theorem nets_of_compiles {unit : Nat} {part : Part} {is : List Instruction}
    (h : Compiles unit part is) :
    part.Nets is := by
  induction h with
  | number => exact fun n _ => .constant rfl
  | text => exact fun n _ => .constant rfl
  | @literal tail name span keyword v hk hv =>
    refine fun n _ => .constant ?_
    cases keyword <;> cases hv <;> rfl
  | name hk => exact fun n _ => .lookup (.inl rfl)
  | define hk hv ih => exact fun n _ => (ih n nofun).seq (.keep (.inl rfl))
  | assign hk hv ih => exact fun n _ => (ih n nofun).seq (.keep (.inr rfl))
  | lambda hk hp hb ih => exact fun n _ => .function (ih 0 fun _ => rfl)
  | defn hk hp hb ih => exact fun n _ => .function (ih 0 fun _ => rfl)
  | ifThen hk hc hy hpast ihc ihy =>
    exact fun n hn => .branch (ihc n nofun) (ihy n hn) (.constant rfl)
  | ifThenElse hk hc hy hn hpast hend ihc ihy ihn =>
    exact fun n hn => .branch (ihc n nofun) (ihy n hn) (ihn n hn)
  | sequence hk hs ih => exact ih
  | callName hk ha ih =>
    exact fun n hn => ((Typed.lookup (.inr rfl)).seq (ih (n + 1))).seq (.invocation hn)
  | call hname hc ha ihc iha =>
    exact fun n hn => ((ihc n nofun).seq (iha (n + 1))).seq (.invocation hn)
  | nothing => exact fun n _ => .constant rfl
  | last h ih => exact ih
  | next h hs ih ihs => exact fun n hn => ((ih n nofun).seq .pop).seq (ihs n hn)
  | noArguments => exact fun n => .nil ⟨rfl, rfl⟩
  | @argument node nodes is js h hs ih ihs =>
    intro n
    have hrest := ihs (n + 1)
    rw [show n + 1 + nodes.length = n + (node :: nodes).length by rw [List.length_cons]; omega]
      at hrest
    exact (ih n nofun).seq hrest

theorem Code.sound_ofProgram {unit : Nat} {root : Node} {code : Code}
    (h : Code.ofProgram unit root = .ok code) :
    code.Sound := by
  obtain ⟨is, his, h⟩ := except_bind_eq_ok h
  cases h
  exact Typed.sound_of_body (nets_of_compiles (compiles_expression his) 0 nofun)

theorem Code.sound_ofDefinition {unit : Nat} {d : Definition} {code : Code}
    (h : Code.ofDefinition unit d = .ok code) :
    code.Sound := by
  obtain ⟨is, his, h⟩ := except_bind_eq_ok h
  cases h
  exact Typed.sound_of_body (nets_of_compiles (compiles_sequence his) 0 fun _ => rfl)

end LiveLisp
