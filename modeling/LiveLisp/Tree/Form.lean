/-
  Forms: what a program says, without where it says it. Two forms are alike when their numbers
  compare equal and all else is the same; the printed form is one line.
-/
import LiveLisp.Decimal.Shortest

namespace LiveLisp

inductive Form where
  | number (value : Float)
  | text (content : String)
  | identifier (name : String)
  | list (items : List Form)
deriving Repr

namespace Form

mutual
def alike : Form → Form → Bool
  | number a, number b => a == b
  | text a, text b => a == b
  | identifier a, identifier b => a == b
  | list as, list bs => allAlike as bs
  | _, _ => false
def allAlike : List Form → List Form → Bool
  | [], [] => true
  | a :: as, b :: bs => alike a b && allAlike as bs
  | _, _ => false
end

mutual
def render : Form → String
  | number value => Decimal.render value
  | text content => "\"" ++ content ++ "\""
  | identifier name => name
  | list items => "(" ++ String.intercalate " " (renderAll items) ++ ")"
def renderAll : List Form → List String
  | [] => []
  | item :: items => render item :: renderAll items
end

end Form

end LiveLisp
