/-
  Named functions: finding the `(defn name (params ...) body ...)` forms of a program, and telling
  which of them an edit changed.

  Definitions are listed by depth and then by place, and of two with one name the shallower counts.
  The signature of a definition leaves out the bodies of the definitions inside it, so that an edit
  belongs to the innermost function around it.
-/
import LiveLisp.Tree.Node

namespace LiveLisp

structure Definition where
  name : String
  params : List String
  body : List Node
  /-- The whole form. -/
  node : Node
  /-- Number of enclosing lists; the forms of a program have depth 1. -/
  depth : Nat
deriving Repr, Inhabited

namespace Definition

/-- The names of a list of identifiers. -/
def names? (nodes : List Node) : Option (List String) :=
  nodes.mapM Node.name?

/-- The definition that a node is, if it is well formed. -/
def ofNode? (node : Node) (depth : Nat) : Option Definition :=
  match node with
  | .list (.identifier "defn" _ :: .identifier name _ :: .list params _ :: body) _ =>
    (names? params).map fun params => ⟨name, params, body, node, depth⟩
  | _ => none

mutual
/-- The form of a node inside a definition: a `defn` is cut to its head, name and parameters. -/
def mask : Node → Form
  | .list (.identifier "defn" span :: items) _ =>
    .list (Node.forms ((.identifier "defn" span :: items).take 3))
  | .list items _ => .list (masks items)
  | node => node.form
def masks : List Node → List Form
  | [] => []
  | node :: nodes => mask node :: masks nodes
end

/-- What is compared to decide whether the definition itself was edited. -/
def signature (d : Definition) : Form :=
  match d.node with
  | .list items _ => .list (masks items)
  | node => node.form

end Definition

/-- What a search has found so far: the names it has met at each depth, and the definition that
stands for each name, in the order in which they were met. -/
structure Discovery where
  seen : List (String × Nat)
  found : List Definition

namespace Discovery

def empty : Discovery := ⟨[], []⟩

/-- Takes a definition in. No other may have its name at its depth; it stands for its name if no
other does yet. -/
def add (t : Discovery) (d : Definition) : Except Error Discovery :=
  if t.seen.contains (d.name, d.depth) then
    .error (.parse (.definedTwice d.name) d.node.span)
  else
    .ok ⟨(d.name, d.depth) :: t.seen,
      if t.found.any (·.name == d.name) then t.found else t.found ++ [d]⟩

/-- Looks at one item of a list that has `depth` lists around it. -/
def addItem (depth : Nat) (t : Discovery) (item : Node) : Except Error Discovery :=
  match Definition.ofNode? item (depth + 1) with
  | some d => t.add d
  | none => .ok t

/-- Goes through the nodes of a queue, each with the number of lists around it: looks at the items
of the first one, and puts them behind the others. -/
def traverse (t : Discovery) (queue : List (Node × Nat)) : Except Error Discovery :=
  match queue with
  | [] => .ok t
  | (node, depth) :: queue => do
    let t ← node.children.foldlM (addItem depth) t
    traverse t (queue ++ node.children.map (·, depth + 1))
termination_by sizeOf (queue.map (·.1))
decreasing_by
  have hchildren := node.sizeOf_children_le
  have happend := Node.sizeOf_append (queue.map (·.1)) node.children
  simp only [List.map_append, List.map_map, Function.comp_def, List.map_id', List.map_cons,
    List.cons.sizeOf_spec]
  omega

end Discovery

namespace Definition

/-- The named functions of a program. -/
def find (root : Node) : Except Error (List Definition) := do
  let t ← Discovery.empty.traverse [(root, 0)]
  return t.found

def get? (ds : List Definition) (name : String) : Option Definition :=
  ds.find? (·.name == name)

/-- The names defined both before and after an edit whose parameters or body differ, in the new
order. -/
def changed (before after : List Definition) : List String :=
  (after.filter fun d =>
    match get? before d.name with
    | some previous => !previous.signature.alike d.signature
    | none => false).map (·.name)

/-- The names that an edit of a program is attributed to. -/
def diff (before after : Node) : Except Error (List String) := do
  return changed (← find before) (← find after)

end Definition

end LiveLisp
