/-
  The number of a compilation. It stands in the identities of bodies and nowhere else: under another
  number a form is refused as before, or compiles to the same code with that number in it
  (`Code.ofDefinition_renumbered`).
-/
import LiveLisp.Proofs.Code.Placement
import LiveLisp.Proofs.Outcome

namespace LiveLisp

mutual
def Value.renumbered (unit : Nat) : Value → Value
  | .code body => .code (Code.renumbered unit body)
  | v => v
/-- The same code as if compiled under this number, with all bodies in it. -/
def Code.renumbered (unit : Nat) : Code → Code
  | ⟨id, instructions⟩ => ⟨⟨unit, id.form⟩, Code.renumberedIn unit instructions⟩
def Code.renumberedIn (unit : Nat) : List Instruction → List Instruction
  | [] => []
  | ⟨op, origin⟩ :: rest => ⟨Op.renumbered unit op, origin⟩ :: Code.renumberedIn unit rest
def Op.renumbered (unit : Nat) : Op → Op
  | .push v => .push (Value.renumbered unit v)
  | op => op
end

namespace Code

variable (unit : Nat)

theorem renumberedIn_cons (op : Op) (origin : Span) (is : List Instruction) :
    renumberedIn unit (⟨op, origin⟩ :: is) = ⟨op.renumbered unit, origin⟩ :: renumberedIn unit is :=
      rfl

theorem renumberedIn_eq_map (is : List Instruction) :
    renumberedIn unit is = is.map fun i => ⟨i.op.renumbered unit, i.origin⟩ := by
  induction is with
  | nil => rfl
  | cons i is ih =>
    obtain ⟨op, origin⟩ := i
    rw [renumberedIn_cons, ih, List.map_cons]

@[simp] theorem renumberedIn_append (is js : List Instruction) :
    renumberedIn unit (is ++ js) = renumberedIn unit is ++ renumberedIn unit js := by
  simp only [renumberedIn_eq_map, List.map_append]

@[simp] theorem length_renumberedIn (is : List Instruction) :
  (renumberedIn unit is).length = is.length := by
  simp only [renumberedIn_eq_map, List.length_map]

end Code

/-- The second compiles what the first compiles, under this number. -/
def Renumbers (unit : Nat) (x y : Except Error (List Instruction)) : Prop :=
  y = x.map (Code.renumberedIn unit)

namespace Renumbers

variable {unit : Nat} {α : Type} {x y : Except Error (List Instruction)} {is js : List Instruction}

theorem ok (h : js = Code.renumberedIn unit is) : Renumbers unit (.ok is) (.ok js) :=
    congrArg Except.ok h

theorem error (e : Error) : Renumbers unit (.error e) (.error e) := rfl

theorem bind {f g : List Instruction → Except Error (List Instruction)} (h : Renumbers unit x y)
    (hf : ∀ is, Renumbers unit (f is) (g (Code.renumberedIn unit is))) :
    Renumbers unit (x >>= f) (y >>= g) := by
  subst h
  cases x with
  | ok is => exact hf is
  | error e => rfl

/-- What is found out beforehand does not depend on the number. -/
theorem after {x : Except Error α} {f g : α → Except Error (List Instruction)}
    (hf : ∀ a, Renumbers unit (f a) (g a)) :
    Renumbers unit (x >>= f) (x >>= g) := by
  cases x with
  | ok a => exact hf a
  | error e => rfl

end Renumbers

namespace Compile

variable (unit : Nat)

theorem renumberedIn_branch (span : Span) (cs ys ns : List Instruction) :
    Code.renumberedIn unit (branch span cs ys ns) =
      branch span (Code.renumberedIn unit cs) (Code.renumberedIn unit ys)
        (Code.renumberedIn unit ns) := by
  unfold branch
  simp only [Code.renumberedIn_append, Code.length_renumberedIn]
  rfl

theorem conditional_renumbers (span : Span) (cs ys : List Instruction)
    {x y : Except Error (List Instruction)} (hno : Renumbers unit x y) :
    Renumbers unit (conditional span cs ys x)
      (conditional span (Code.renumberedIn unit cs) (Code.renumberedIn unit ys) y) := by
  unfold conditional
  rw [Code.length_renumberedIn]
  refine .after fun _ => hno.bind fun ns => ?_
  rw [Code.length_renumberedIn]
  exact .after fun _ => .ok (renumberedIn_branch unit span cs ys ns).symm

theorem renumberedIn_function (unit' : Nat) (name : Option String)
    (params : List String) (paramsSpan : Span) (is : List Instruction) (span : Span) :
    Code.renumberedIn unit (function unit' name params paramsSpan is span) =
      function unit name params paramsSpan (Code.renumberedIn unit is) span := by
  have hbody : Code.renumbered unit ⟨⟨unit', some span⟩, is ++ [⟨.ret, span⟩]⟩ =
      ⟨⟨unit, some span⟩, Code.renumberedIn unit is ++ [⟨.ret, span⟩]⟩ :=
    congrArg (Code.mk ⟨unit, some span⟩) (Code.renumberedIn_append unit is [⟨.ret, span⟩])
  exact congrArg (fun body : Code =>
    ([⟨.push (.params params), paramsSpan⟩, ⟨.push (.code body), span⟩,
      ⟨.buildFunction name, span⟩] : List Instruction)) hbody

theorem renumberedIn_invocation (tail : Bool) (argc : Nat) (span : Span) :
    Code.renumberedIn unit [⟨invocation tail argc, span⟩] = [⟨invocation tail argc, span⟩] := by
  cases tail <;> rfl

theorem renumberedIn_identifier {name : String} {span : Span} {i : Instruction}
    (h : identifier name span = .ok i) :
    Code.renumberedIn unit [i] = [i] := by
  unfold identifier at h
  split at h <;> cases h <;> rfl

variable (unit' : Nat)

mutual

theorem expression_renumbers (tail : Bool) (node : Node) :
    Renumbers unit (expression unit' tail node) (expression unit tail node) := by
  match node with
  | .number value span =>
    rw [expression, expression]
    exact .ok rfl
  | .text content span =>
    rw [expression, expression]
    exact .ok rfl
  | .identifier name span =>
    rw [expression, expression]
    cases hi : identifier name span with
    | error e => exact .error e
    | ok i => exact .ok (renumberedIn_identifier unit hi).symm
  | .list [] span =>
    rw [expression, expression]
    exact .error _
  | .list (head :: items) span =>
    rw [expression.eq_def, expression.eq_def]
    dsimp only
    cases hk : head.keyword? with
    | none =>
      have hargs := arguments_renumbers items
      have hcall {x y : Except Error (List Instruction)} (hcallee : Renumbers unit x y) :
          Renumbers unit
            (do return (← x) ++ (← arguments unit' items) ++ [⟨invocation tail items.length, span⟩])
            (do return (← y) ++ (← arguments unit items) ++
                  [⟨invocation tail items.length, span⟩]) :=
        hcallee.bind fun _ => hargs.bind fun _ => .ok (by simp [renumberedIn_invocation])
      match head with
      | .identifier name headSpan => exact hcall (x := .ok _) (y := .ok _) (.ok rfl)
      | .number value headSpan => exact hcall (expression_renumbers false (.number value headSpan))
      | .text content headSpan => exact hcall (expression_renumbers false (.text content headSpan))
      | .list nodes headSpan => exact hcall (expression_renumbers false (.list nodes headSpan))
    | some keyword =>
      cases keyword with
      | define => exact assignment_renumbers "define" .storeNew (fun _ _ => rfl) span items
      | assign => exact assignment_renumbers "set!" .store (fun _ _ => rfl) span items
      | lambda =>
        match items with
        | [] => exact .error _
        | params :: body =>
          exact .after fun _ => (sequence_renumbers true span body).bind fun _ =>
            .ok (renumberedIn_function ..).symm
      | defn =>
        match items with
        | [] => exact .error _
        | [_] => exact .error _
        | name :: params :: body =>
          exact .after fun _ => .after fun _ => (sequence_renumbers true span body).bind fun _ =>
            .ok (renumberedIn_function ..).symm
      | branch =>
        match items with
        | [] => exact .error _
        | [_] => exact .error _
        | [condition, yes] =>
          exact (expression_renumbers false condition).bind fun _ =>
            (expression_renumbers tail yes).bind fun _ =>
            conditional_renumbers unit span _ _ (.ok rfl)
        | [condition, yes, no] =>
          exact (expression_renumbers false condition).bind fun _ =>
            (expression_renumbers tail yes).bind fun _ =>
            conditional_renumbers unit span _ _ (expression_renumbers tail no)
        | _ :: _ :: _ :: _ :: _ => exact .error _
      | sequence => exact sequence_renumbers tail span items
      | null => exact .error _
      | truth value => exact .error _
termination_by structural node

theorem assignment_renumbers (keyword : String) (op : String → Op)
    (hop : ∀ name span, Code.renumberedIn unit [⟨op name, span⟩] = [⟨op name, span⟩]) (span : Span)
    (nodes : List Node) :
    Renumbers unit (assignment unit' keyword op span nodes)
      (assignment unit keyword op span nodes) := by
  match nodes with
  | [name, value] =>
    rw [assignment, assignment]
    exact .after fun _ => (expression_renumbers false value).bind fun _ => .ok (by simp [hop])
  | [] => exact .error _
  | [_] => exact .error _
  | _ :: _ :: _ :: _ => exact .error _
termination_by structural nodes

theorem sequence_renumbers (tail : Bool) (span : Span) (nodes : List Node) :
    Renumbers unit (sequence unit' tail span nodes) (sequence unit tail span nodes) := by
  match nodes with
  | [] =>
    rw [Compile.sequence, Compile.sequence]
    exact .ok rfl
  | [last] =>
    rw [Compile.sequence, Compile.sequence]
    exact expression_renumbers tail last
  | node :: other :: rest =>
    rw [sequence_cons, sequence_cons]
    exact (expression_renumbers false node).bind fun _ =>
      (sequence_renumbers tail span (other :: rest)).bind fun _ =>
        .ok (by simp [Code.renumberedIn_cons]; rfl)
termination_by structural nodes

theorem arguments_renumbers (nodes : List Node) :
    Renumbers unit (arguments unit' nodes) (arguments unit nodes) := by
  match nodes with
  | [] =>
    rw [arguments, arguments]
    exact .ok rfl
  | node :: rest =>
    rw [arguments, arguments]
    exact (expression_renumbers false node).bind fun _ =>
      (arguments_renumbers rest).bind fun _ => .ok (by simp)
termination_by structural nodes

end

end Compile

/-- A definition compiles to the same code under every number. -/
theorem Code.ofDefinition_renumbered (unit : Nat) {unit' : Nat} {d : Definition} {code : Code}
    (h : ofDefinition unit' d = .ok code) : ofDefinition unit d = .ok (code.renumbered unit) := by
  obtain ⟨is, his, h⟩ := except_bind_eq_ok h
  cases h
  have hrenumbers := Compile.sequence_renumbers unit unit' true d.node.span d.body
  unfold Renumbers at hrenumbers
  rw [his] at hrenumbers
  unfold ofDefinition
  rw [hrenumbers]
  exact congrArg (fun is => Except.ok (Code.mk ⟨unit, some d.node.span⟩ is))
    (renumberedIn_append unit is [⟨.ret, d.node.span⟩]).symm

end LiveLisp
