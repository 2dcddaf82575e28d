/-
  From tree to code. Every form becomes a short run of instructions that leaves exactly one value.

  A call is in tail position when nothing of its function's body remains to be done after it: the
  last form of the body, of a `begin` or `do`, and both branches of an `if` inherit the position of
  what encloses them. Top-level code is never in tail position.

  `unit` names the compilation, so that code from different compilations is told apart.
-/
import LiveLisp.Code.Value
import LiveLisp.Tree.Definition
import LiveLisp.Tree.Keyword

namespace LiveLisp

namespace Compile

/-- The name that a node binds. -/
def bindingName (role : String) : Node → Except Error String
  | .identifier name span =>
    if (Keyword.ofName? name).isSome then .error (.compile (.reservedAsName name) span)
      else .ok name
  | node => .error (.compile (.notAName role) node.span)

/-- Parameter names, each bindable and none twice. -/
def parameters (seen : List String) : List Node → Except Error (List String)
  | [] => .ok []
  | node :: nodes => do
    let name ← bindingName "parameter" node
    if seen.contains name then throw (.compile (.repeatedParameter name) node.span)
    return name :: (← parameters (name :: seen) nodes)

def parameterList : Node → Except Error (List String)
  | .list nodes _ => parameters [] nodes
  | node => .error (.compile .parametersNotList node.span)

/-- An identifier used as a value. -/
def identifier (name : String) (span : Span) : Except Error Instruction :=
  match Keyword.ofName? name with
  | some .null => .ok ⟨.loadConstant .null, span⟩
  | some (.truth value) => .ok ⟨.loadConstant (.bool value), span⟩
  | some _ => .error (.compile (.reservedAsValue name) span)
  | none => .ok ⟨.nameLookup name, span⟩

/-- Take or skip the first branch; offsets count from the jumps. -/
def branch (span : Span) (condition yes no : List Instruction) : List Instruction :=
  condition ++ [⟨.jumpIfNot (yes.length + 2), span⟩] ++ yes ++ [⟨.jump (no.length + 1), span⟩] ++ no

/-- Jumps have 32 bits, and one of them is the sign. -/
def jumpLimit : Nat := 0x80000000

def checkJump (offset : Nat) : Except Error Unit :=
  if offset < jumpLimit then .ok () else .error (.internal .jumpTooFar)

/-- A branch whose parts have been compiled, all but the second one. A jump is checked as soon as
its target is known, which for the first one is before the second part. -/
def conditional (span : Span) (condition yes : List Instruction)
    (no : Except Error (List Instruction)) : Except Error (List Instruction) := do
  checkJump (yes.length + 2)
  let no ← no
  checkJump (no.length + 1)
  return branch span condition yes no

/-- The operands of a function and the instruction that builds it. -/
def function (unit : Nat) (name : Option String) (params : List String) (paramsSpan : Span)
    (body : List Instruction) (span : Span) : List Instruction :=
  [⟨.push (.params params), paramsSpan⟩,
   ⟨.push (.code ⟨⟨unit, some span⟩, body ++ [⟨.ret, span⟩]⟩), span⟩,
   ⟨.buildFunction name, span⟩]

def invocation (tail : Bool) (argc : Nat) : Op :=
  if tail then .tailCall argc else .call argc

mutual

def expression (unit : Nat) (tail : Bool) : Node → Except Error (List Instruction)
  | .number value span => .ok [⟨.loadConstant (.number value), span⟩]
  | .text content span => .ok [⟨.loadConstant (.text content), span⟩]
  | .identifier name span => do return [← identifier name span]
  | .list [] span => .error (.compile .emptyForm span)
  | .list (head :: items) span =>
    match head.keyword? with
    | some .define => assignment unit "define" .storeNew span items
    | some .assign => assignment unit "set!" .store span items
    | some .lambda =>
      match items with
      | params :: body => do
        let names ← parameterList params
        let code ← sequence unit true span body
        return function unit none names params.span code span
      | [] => .error (.compile .lambdaShape span)
    | some .defn =>
      match items with
      | name :: params :: body => do
        let name ← bindingName "defn" name
        let names ← parameterList params
        let code ← sequence unit true span body
        return function unit (some name) names params.span code span
      | _ => .error (.compile .defnShape span)
    | some .branch =>
      match items with
      | [condition, yes] => do
        let condition ← expression unit false condition
        let yes ← expression unit tail yes
        conditional span condition yes (.ok [⟨.loadConstant .null, span⟩])
      | [condition, yes, no] => do
        let condition ← expression unit false condition
        let yes ← expression unit tail yes
        conditional span condition yes (expression unit tail no)
      | _ => .error (.compile .ifShape span)
    | some .sequence => sequence unit tail span items
    | some _ => .error (.compile (.reservedAsCallee (head.name?.getD "")) head.span)
    | none => do
      let callee ← match head with
        | .identifier name headSpan => pure [⟨.functionLookup name, headSpan⟩]
        | _ => expression unit false head
      let args ← arguments unit items
      return callee ++ args ++ [⟨invocation tail items.length, span⟩]

/-- What `define` and `set!` make of the nodes after them. -/
def assignment (unit : Nat) (keyword : String) (op : String → Op) (span : Span) :
    List Node → Except Error (List Instruction)
  | [name, value] => do
    let name ← bindingName keyword name
    let value ← expression unit false value
    return value ++ [⟨op name, span⟩]
  | _ => .error (.compile (.assignmentShape keyword) span)

/-- Forms in order, of which only the last leaves its value; none at all leaves `null`. -/
def sequence (unit : Nat) (tail : Bool) (span : Span) : List Node → Except Error (List Instruction)
  | [] => .ok [⟨.loadConstant .null, span⟩]
  | [last] => expression unit tail last
  | form :: forms => do
    let first ← expression unit false form
    let rest ← sequence unit tail span forms
    return first ++ [⟨.pop, form.span⟩] ++ rest

/-- Forms in order, each leaving its value. -/
def arguments (unit : Nat) : List Node → Except Error (List Instruction)
  | [] => .ok []
  | arg :: args => do
    let first ← expression unit false arg
    let rest ← arguments unit args
    return first ++ rest

end

end Compile

namespace Code

/-- The code of a whole program. -/
def ofProgram (unit : Nat) (root : Node) : Except Error Code := do
  let instructions ← Compile.expression unit false root
  return ⟨⟨unit, none⟩, instructions ++ [⟨.ret, root.span⟩]⟩

/-- The code of a function's body, as its `defn` form pushes it. -/
def ofDefinition (unit : Nat) (d : Definition) : Except Error Code := do
  let instructions ← Compile.sequence unit true d.node.span d.body
  return ⟨⟨unit, some d.node.span⟩, instructions ++ [⟨.ret, d.node.span⟩]⟩

end Code

end LiveLisp
