/-
  The identifiers with a meaning of their own. None of them can be bound, and only the three
  literals can be used as values.
-/
import LiveLisp.Tree.Node

namespace LiveLisp

inductive Keyword where
  | null
  | truth (value : Bool)
  | define
  | assign
  | lambda
  | defn
  | branch
  | sequence
deriving DecidableEq, Repr

namespace Keyword

def ofName? (name : String) : Option Keyword :=
  if name = "null" then some null
  else if name = "true" then some (truth true)
  else if name = "false" then some (truth false)
  else if name = "define" then some define
  else if name = "set!" then some assign
  else if name = "lambda" then some lambda
  else if name = "defn" then some defn
  else if name = "if" then some branch
  else if name = "begin" then some sequence
  else if name = "do" then some sequence
  else none

end Keyword

/-- The keyword that a node is, if it is one. -/
def Node.keyword? (node : Node) : Option Keyword :=
  node.name?.bind Keyword.ofName?

end LiveLisp
