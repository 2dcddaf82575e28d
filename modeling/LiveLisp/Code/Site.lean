/-
  Sites: where a program registers a named function. A site is the body that some `defn` instruction
  pushes, and it is told from others of the same name by the place of its form.
-/
import LiveLisp.Code.Compile

namespace LiveLisp

namespace Code

/-- Whether the next instruction registers a function under this name. -/
def registers (name : String) : List Instruction → Bool
  | ⟨.buildFunction (some other), _⟩ :: _ => other == name
  | _ => false

mutual
def sitesAt (name : String) (span : Span) : Code → List Code
  | ⟨_, instructions⟩ => sitesIn name span instructions
def sitesIn (name : String) (span : Span) : List Instruction → List Code
  | [] => []
  | ⟨.push (.code body), origin⟩ :: rest =>
    (if registers name rest && origin == span then [body] else [])
      ++ sitesAt name span body ++ sitesIn name span rest
  | _ :: rest => sitesIn name span rest
end

/-- The bodies pushed for a definition, in this code and in every function body inside it. -/
def sites (code : Code) (d : Definition) : List Code :=
  code.sitesAt d.name d.node.span

end Code

end LiveLisp
