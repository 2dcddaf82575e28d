/-
  Code as text: one instruction, and a listing of a whole program with function bodies indented
  below the instruction that pushes them.
-/
import LiveLisp.Code.Value
import LiveLisp.Error

namespace LiveLisp

def Op.render : Op → String
  | loadConstant value => "load-constant " ++ value.inspect
  | push value => "push " ++ value.inspect
  | pop => "pop"
  | nameLookup name => "name-lookup " ++ name
  | functionLookup name => "function-lookup " ++ name
  | storeNew name => "store-new " ++ name
  | store name => "store " ++ name
  | buildFunction (some name) => "build-function " ++ name
  | buildFunction none => "build-function"
  | call argc => s!"call {argc}"
  | tailCall argc => s!"tail-call {argc}"
  | jump offset => "jump " ++ signed offset
  | jumpIfNot offset => "jump-if-not " ++ signed offset
  | ret => "return"

def padRight (width : Nat) (s : String) : String :=
  s ++ String.ofList (List.replicate (width - s.length) ' ')

def padLeft (width : Nat) (s : String) : String :=
  String.ofList (List.replicate (width - s.length) ' ') ++ s

/-- The instruction and, in a column of its own, where it comes from. -/
def Instruction.render (i : Instruction) : String :=
  padRight 28 i.op.render ++ " ; " ++ i.origin.brief

mutual
def Code.listingAt (indent : Nat) : Code → String
  | ⟨_, instructions⟩ => Code.listingFrom indent 0 instructions
def Code.listingFrom (indent index : Nat) : List Instruction → String
  | [] => ""
  | i :: rest =>
    padLeft indent "" ++ padLeft 4 (toString index) ++ "  " ++ i.render ++ "\n"
      ++ Code.listingBody indent i ++ Code.listingFrom indent (index + 1) rest
def Code.listingBody (indent : Nat) : Instruction → String
  | ⟨.push (.code body), _⟩ => Code.listingAt (indent + 6) body
  | _ => ""
end

/-- One line for each instruction. -/
def Code.listing (code : Code) : String :=
  code.listingAt 0

end LiveLisp
