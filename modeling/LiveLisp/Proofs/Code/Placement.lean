/-
  Compilation looks at forms only. Where forms stand, and the number of a compilation, are for
  telling code apart and for reporting; programs of one form compile to code that does the same,
  whatever their places and numbers, or are refused with one message (`Code.ofProgram_concurs`).
-/
import LiveLisp.Proofs.Code.Twins
import LiveLisp.Proofs.Tree.SameForm

namespace LiveLisp

theorem reissued_nil (name : Option String) (params : List String) (code : Code) :
    reissued [] name params code = (params, code) := by
  cases name <;> rfl

/-- Code that does the same and makes the same functions. -/
abbrev SameCode : List Instruction → List Instruction → Prop :=
  Twinned [] fun _ => False

namespace Compile

theorem bindingName_concurs (role : String) {node node' : Node} (h : node.form = node'.form) :
    Concurs Eq (bindingName role node) (bindingName role node') := by
  cases node with
  | identifier name span =>
    obtain ⟨span', rfl⟩ := Node.identifier_of_form h.symm
    rw [bindingName, bindingName]
    cases (Keyword.ofName? name).isSome with
    | true => exact rfl
    | false => exact rfl
  | number value span =>
    obtain ⟨span', rfl⟩ := Node.number_of_form h.symm
    exact rfl
  | text content span =>
    obtain ⟨span', rfl⟩ := Node.text_of_form h.symm
    exact rfl
  | list items span =>
    obtain ⟨items', span', rfl, -⟩ := Node.list_of_form h.symm
    exact rfl

theorem parameters_concurs (seen : List String) {nodes nodes' : List Node}
    (h : Node.forms nodes = Node.forms nodes') :
    Concurs Eq (parameters seen nodes) (parameters seen nodes') := by
  induction nodes generalizing seen nodes' with
  | nil =>
    obtain rfl := Node.forms_eq_nil.mp h.symm
    exact rfl
  | cons node nodes ih =>
    obtain ⟨node', nodes', rfl, hnode, hnodes⟩ := Node.forms_eq_cons h.symm
    refine (bindingName_concurs "parameter" hnode.symm).bind fun name _ hname => ?_
    subst hname
    cases hseen : seen.contains name with
    | true => exact rfl
    | false =>
      exact (ih (name :: seen) hnodes.symm).bind fun _ _ hrest => congrArg (List.cons name) hrest

theorem parameterList_concurs {node node' : Node} (h : node.form = node'.form) :
    Concurs Eq (parameterList node) (parameterList node') := by
  cases node with
  | list items span =>
    obtain ⟨items', span', rfl, hitems⟩ := Node.list_of_form h.symm
    exact parameters_concurs [] hitems.symm
  | number value span =>
    obtain ⟨span', rfl⟩ := Node.number_of_form h.symm
    exact rfl
  | text content span =>
    obtain ⟨span', rfl⟩ := Node.text_of_form h.symm
    exact rfl
  | identifier name span =>
    obtain ⟨span', rfl⟩ := Node.identifier_of_form h.symm
    exact rfl

theorem identifier_concurs (name : String) (span span' : Span) :
    Concurs (fun i i' => SameCode [i] [i']) (identifier name span) (identifier name span') := by
  unfold identifier
  cases Keyword.ofName? name with
  | none => exact .single (.nameLookup name) trivial rfl span span'
  | some keyword =>
    cases keyword with
    | null => exact .single (.loadConstant .null) rfl rfl span span'
    | truth value => exact .single (.loadConstant (.bool value)) rfl rfl span span'
    | _ => exact rfl

/-- Functions with the same parameters, and bodies that do the same. -/
theorem sameCode_function (unit unit' : Nat) (name : Option String) (params : List String)
    (paramsSpan paramsSpan' span span' : Span) {is js : List Instruction} (h : SameCode is js) :
    SameCode (function unit name params paramsSpan is span)
      (function unit' name params paramsSpan' js span') := by
  have hbody : Twins [] (fun _ => False) (is ++ [⟨.ret, span⟩]) (js ++ [⟨.ret, span'⟩]) :=
    h.followed .ret
  exact .function ⟨by rw [reissued_nil], by
    rw [reissued_nil]; exact hbody, fun _ => rfl, fun _ => hbody⟩ ..

theorem sequence_cons (unit : Nat) (tail : Bool) (span : Span) (node other : Node)
    (rest : List Node) :
    Compile.sequence unit tail span (node :: other :: rest) = (do
      let first ← expression unit false node
      let others ← Compile.sequence unit tail span (other :: rest)
      return first ++ [⟨.pop, node.span⟩] ++ others) := by
  rw [Compile.sequence]
  simp

variable (unit unit' : Nat)

section Parts

variable {span span' : Span}

/-- A function with or without a name, if its bodies concur. -/
theorem function_concurs (name : Option String) {params params' : Node} {body body' : List Node}
    (hparams : params.form = params'.form)
    (hbody : Concurs SameCode (Compile.sequence unit true span body)
      (Compile.sequence unit' true span' body')) :
    Concurs SameCode
      (do
        let names ← parameterList params
        let code ← Compile.sequence unit true span body
        return function unit name names params.span code span)
      (do
        let names ← parameterList params'
        let code ← Compile.sequence unit' true span' body'
        return function unit' name names params'.span code span') := by
  refine (parameterList_concurs hparams).bind fun names _ hnames => ?_
  subst hnames
  exact hbody.bind fun _ _ hcode => sameCode_function unit unit' name names _ _ span span' hcode

/-- Branches, if their parts do the same. -/
theorem conditional_concurs {cs cs' ys ys' : List Instruction}
    {no no' : Except Error (List Instruction)} (hc : SameCode cs cs') (hy : SameCode ys ys')
    (hno : Concurs SameCode no no') :
    Concurs SameCode (conditional span cs ys no) (conditional span' cs' ys' no') := by
  have hcheck (offset : Nat) :
      Concurs (fun _ _ => True) (checkJump offset) (checkJump offset) := by
    cases checkJump offset with
    | ok a => exact trivial
    | error e => exact rfl
  unfold conditional
  rw [hy.length]
  refine (hcheck _).bind fun _ _ _ => hno.bind fun ns ns' hn => ?_
  rw [hn.length]
  exact (hcheck _).bind fun _ _ _ => .branch hc hy hn span span'

/-- A call, if its callees and its arguments concur. -/
theorem call_concurs (tail : Bool) (argc : Nat)
    {callee callee' args args' : Except Error (List Instruction)}
    (hcallee : Concurs SameCode callee callee') (hargs : Concurs SameCode args args') :
    Concurs SameCode (do return (← callee) ++ (← args) ++ [⟨invocation tail argc, span⟩])
      (do return (← callee') ++ (← args') ++ [⟨invocation tail argc, span'⟩]) :=
  hcallee.bind fun _ _ hcallee => hargs.bind fun _ _ hargs =>
    (hcallee.append hargs).append (.invocation ..)

end Parts

mutual

theorem expression_concurs (tail : Bool) (node node' : Node) (h : node.form = node'.form) :
    Concurs SameCode (expression unit tail node) (expression unit' tail node') := by
  match node with
  | .number value span =>
    obtain ⟨span', rfl⟩ := Node.number_of_form h.symm
    rw [expression, expression]
    exact .single (.loadConstant (.number value)) rfl rfl span span'
  | .text content span =>
    obtain ⟨span', rfl⟩ := Node.text_of_form h.symm
    rw [expression, expression]
    exact .single (.loadConstant (.text content)) rfl rfl span span'
  | .identifier name span =>
    obtain ⟨span', rfl⟩ := Node.identifier_of_form h.symm
    rw [expression, expression]
    exact (identifier_concurs name span span').bind fun _ _ hi => hi
  | .list [] span =>
    obtain ⟨items', span', rfl, hitems⟩ := Node.list_of_form h.symm
    obtain rfl := Node.forms_eq_nil.mp hitems
    rw [expression, expression]
    exact rfl
  | .list (head :: items) span =>
    obtain ⟨items', span', rfl, hitems⟩ := Node.list_of_form h.symm
    obtain ⟨head', items', rfl, hhead, hitems⟩ := Node.forms_eq_cons hitems
    have hitems := Node.forall₂_of_forms hitems.symm
    rw [expression.eq_def, expression.eq_def]
    dsimp only
    rw [Node.keyword?_eq_of_form hhead]
    match head.keyword? with
    | none =>
      have hargs := arguments_concurs items items' hitems
      rw [← hitems.length_eq]
      match head with
      | .identifier name headSpan =>
        obtain ⟨headSpan', rfl⟩ := Node.identifier_of_form hhead
        have hname : SameCode [⟨.functionLookup name, headSpan⟩]
          [⟨.functionLookup name, headSpan'⟩] :=
          .single (.functionLookup name) trivial rfl headSpan headSpan'
        exact call_concurs tail items.length hname hargs
      | .number value headSpan =>
        obtain ⟨headSpan', rfl⟩ := Node.number_of_form hhead
        exact call_concurs tail items.length
          (expression_concurs false (.number value headSpan) _ hhead.symm) hargs
      | .text content headSpan =>
        obtain ⟨headSpan', rfl⟩ := Node.text_of_form hhead
        exact call_concurs tail items.length
          (expression_concurs false (.text content headSpan) _ hhead.symm) hargs
      | .list nodes headSpan =>
        obtain ⟨nodes', headSpan', rfl, -⟩ := Node.list_of_form hhead
        exact call_concurs tail items.length
          (expression_concurs false (.list nodes headSpan) _ hhead.symm) hargs
    | some .define =>
      exact assignment_concurs "define" .storeNew (fun name =>
        .single (.storeNew name) trivial rfl _ _) items items'
        hitems
    | some .assign =>
      exact assignment_concurs "set!" .store (fun name =>
        .single (.store name) trivial rfl _ _) items items' hitems
    | some .lambda =>
      match items, items', hitems with
      | [], [], _ => exact rfl
      | params :: body, params' :: body', .cons hparams hbody =>
        exact function_concurs unit unit' none hparams
          (sequence_concurs true span span' body body' hbody)
    | some .defn =>
      match items, items', hitems with
      | [], [], _ => exact rfl
      | [_], [_], _ => exact rfl
      | name :: params :: body, name' :: params' :: body', .cons hname (.cons hparams hbody) =>
        refine (bindingName_concurs "defn" hname).bind fun f _ hf => ?_
        subst hf
        exact function_concurs unit unit' (some f) hparams
          (sequence_concurs true span span' body body' hbody)
    | some .branch =>
      match items, items', hitems with
      | [], [], _ => exact rfl
      | [_], [_], _ => exact rfl
      | [condition, yes], [condition', yes'], .cons hcondition (.cons hyes .nil) =>
        exact (expression_concurs false condition condition' hcondition).bind fun _ _ hc =>
          (expression_concurs tail yes yes' hyes).bind fun _ _ hy =>
            conditional_concurs hc hy (.single (.loadConstant .null) rfl rfl span span')
      | [condition, yes, no], [condition', yes', no'],
          .cons hcondition (.cons hyes (.cons hno .nil)) =>
        exact (expression_concurs false condition condition' hcondition).bind fun _ _ hc =>
          (expression_concurs tail yes yes' hyes).bind fun _ _ hy =>
            conditional_concurs hc hy (expression_concurs tail no no' hno)
      | _ :: _ :: _ :: _ :: _, _ :: _ :: _ :: _ :: _, _ => exact rfl
    | some .sequence => exact sequence_concurs tail span span' items items' hitems
    | some .null | some (.truth _) =>
      rw [Node.name?_eq_of_form hhead]
      exact rfl
termination_by structural node

theorem assignment_concurs (keyword : String) (op : String → Op) {span span' : Span}
    (hop : ∀ name, SameCode [⟨op name, span⟩] [⟨op name, span'⟩]) (nodes nodes' : List Node)
    (h : List.Forall₂ (fun a b => a.form = b.form) nodes nodes') :
    Concurs SameCode (assignment unit keyword op span nodes)
      (assignment unit' keyword op span' nodes') := by
  match nodes, nodes', h with
  | [], [], _ => exact rfl
  | [_], [_], _ => exact rfl
  | [name, value], [name', value'], .cons hname (.cons hvalue .nil) =>
    rw [assignment, assignment]
    refine (bindingName_concurs keyword hname).bind fun f _ hf => ?_
    subst hf
    exact (expression_concurs false value value' hvalue).bind fun _ _ his => his.append (hop f)
  | _ :: _ :: _ :: _, _ :: _ :: _ :: _, _ => exact rfl
termination_by structural nodes

theorem sequence_concurs (tail : Bool) (span span' : Span) (nodes nodes' : List Node)
    (h : List.Forall₂ (fun a b => a.form = b.form) nodes nodes') :
    Concurs SameCode (Compile.sequence unit tail span nodes)
      (Compile.sequence unit' tail span' nodes') := by
  match nodes, nodes', h with
  | [], [], _ =>
    rw [Compile.sequence, Compile.sequence]
    exact .single (.loadConstant .null) rfl rfl span span'
  | [last], [last'], .cons hlast .nil =>
    rw [Compile.sequence, Compile.sequence]
    exact expression_concurs tail last last' hlast
  | node :: other :: rest, node' :: other' :: rest', .cons hnode hrest =>
    rw [sequence_cons, sequence_cons]
    exact (expression_concurs false node node' hnode).bind fun _ _ hfirst =>
      (sequence_concurs tail span span' (other :: rest) (other' :: rest') hrest).bind
        fun _ _ hothers =>
        (hfirst.append (.single .pop trivial rfl node.span node'.span)).append hothers
termination_by structural nodes

theorem arguments_concurs (nodes nodes' : List Node)
    (h : List.Forall₂ (fun a b => a.form = b.form) nodes nodes') :
    Concurs SameCode (arguments unit nodes) (arguments unit' nodes') := by
  match nodes, nodes', h with
  | [], [], _ =>
    rw [arguments, arguments]
    exact .nil
  | node :: rest, node' :: rest', .cons hnode hrest =>
    rw [arguments, arguments]
    exact (expression_concurs false node node' hnode).bind fun _ _ hfirst =>
      (arguments_concurs rest rest' hrest).bind fun _ _ hothers => hfirst.append hothers
termination_by structural nodes

end

end Compile

/-- Programs of one form compile to code that does the same, or are refused with one message. -/
theorem Code.ofProgram_concurs (unit unit' : Nat) {root root' : Node} (h : root.form = root'.form) :
    Concurs (fun code code' => Twins [] (fun _ => False) code.instructions code'.instructions)
      (Code.ofProgram unit root) (Code.ofProgram unit' root') :=
  (Compile.expression_concurs unit unit' false root root' h).bind fun _ _ his => his.followed .ret

end LiveLisp
