/-
  The definitions of a tree, level by level. The nodes that have equally many lists around them are
  a layer, and the definitions of a program are those of its layers, one after the other
  (`Node.definitions`). The search with a queue meets them in this order (`traverse_eq`): what waits
  in the queue is the rest of one layer, and the items that the search has passed in it are the next
  one. So it fails at the first name that is repeated in a layer, and finds the first definition of
  each name (`find_eq`).
-/
import Mathlib.Data.List.Basic
import LiveLisp.Tree.Definition

namespace LiveLisp

namespace Node

mutual
/-- How many levels of nodes there are, the node itself included. -/
def height : Node → Nat
  | list items _ => heights items + 1
  | _ => 1
def heights : List Node → Nat
  | [] => 0
  | node :: nodes => max (height node) (heights nodes)
end

/-- The nodes that have exactly `depth` lists around them, in order. -/
def layer : Nat → Node → List Node
  | 0, node => [node]
  | depth + 1, node => node.children.flatMap (layer depth)

/-- Every well-formed definition below the root, by depth and then by place. -/
def definitions (root : Node) : List Definition :=
  (List.range root.height).flatMap fun depth =>
    (root.layer (depth + 1)).filterMap (Definition.ofNode? · (depth + 1))

end Node

namespace Definition

/-- Fails at the first definition that repeats the name of an earlier one at its own depth. -/
def checkRepeats : List Definition → List Definition → Except Error Unit
  | _, [] => .ok ()
  | seen, d :: ds =>
    if seen.any fun e => e.name == d.name && e.depth == d.depth then
      .error (.parse (.definedTwice d.name) d.node.span)
    else checkRepeats (d :: seen) ds

/-- The first definition of each name, in order. -/
def firstOfEach : List String → List Definition → List Definition
  | _, [] => []
  | seen, d :: ds =>
    if seen.contains d.name then firstOfEach seen ds
    else d :: firstOfEach (d.name :: seen) ds

end Definition

namespace Discovery

/-! ## The order of the search -/

variable {depth : Nat} {nodes next : List Node} {t : Discovery}

/-- The items of some lists are looked at for the definitions among them. -/
theorem foldlM_addItem (depth : Nat) (t : Discovery) (items : List Node) :
    items.foldlM (addItem depth) t =
      (items.filterMap (Definition.ofNode? · (depth + 1))).foldlM add t := by
  induction items generalizing t with
  | nil => rfl
  | cons item items ih =>
    rw [List.foldlM_cons, addItem, List.filterMap_cons]
    cases Definition.ofNode? item (depth + 1) with
    | none => exact ih t
    | some d => exact congrArg _ (funext ih)

/-- When the rest of a layer has been gone through, the items of its lists stand in the queue behind
those that were there. -/
theorem traverse_layer (depth : Nat) (t : Discovery) (nodes next : List Node) :
    traverse t (nodes.map (·, depth) ++ next.map (·, depth + 1)) = (do
      let t ← (nodes.flatMap Node.children).foldlM (addItem depth) t
      traverse t ((next ++ nodes.flatMap Node.children).map (·, depth + 1))) := by
  induction nodes generalizing t next with
  | nil => rw [List.flatMap_nil, List.append_nil]; rfl
  | cons node nodes ih =>
    rw [List.map_cons, List.cons_append, traverse, List.flatMap_cons, List.foldlM_append,
      bind_assoc]
    refine congrArg _ (funext fun t => ?_)
    rw [List.append_assoc, ← List.map_append, ih, List.append_assoc]

/-- The definitions strictly below some nodes that have `depth` lists around them. -/
def below (depth : Nat) (nodes : List Node) : List Definition :=
  (List.range (Node.heights nodes)).flatMap fun k =>
    (nodes.flatMap (Node.layer (k + 1))).filterMap (Definition.ofNode? · (depth + k + 1))

theorem heights_append (nodes nodes' : List Node) :
    Node.heights (nodes ++ nodes') = max (Node.heights nodes) (Node.heights nodes') := by
  induction nodes with
  | nil => exact (Nat.zero_max _).symm
  | cons node nodes ih => rw [List.cons_append, Node.heights, ih, Node.heights, Nat.max_assoc]

theorem height_eq (node : Node) : node.height = Node.heights node.children + 1 := by
  cases node <;> rfl

/-- One level less lies below the items of some nodes than below the nodes. -/
theorem heights_eq (nodes : List Node) (hne : nodes ≠ []) :
    Node.heights nodes = Node.heights (nodes.flatMap Node.children) + 1 := by
  induction nodes with
  | nil => exact absurd rfl hne
  | cons node nodes ih =>
    rw [Node.heights, List.flatMap_cons, heights_append, height_eq]
    cases nodes with
    | nil => simp [Node.heights]
    | cons other nodes => rw [ih (List.cons_ne_nil _ _)]; omega

theorem below_eq (depth : Nat) (nodes : List Node) (hne : nodes ≠ []) :
    below depth nodes =
      (nodes.flatMap Node.children).filterMap (Definition.ofNode? · (depth + 1)) ++
        below (depth + 1) (nodes.flatMap Node.children) := by
  have hfirst : nodes.flatMap (Node.layer 1) = nodes.flatMap Node.children :=
    List.flatMap_congr fun node _ => List.flatMap_singleton' node.children
  have hlater : ∀ k, nodes.flatMap (Node.layer (k + 2)) =
      (nodes.flatMap Node.children).flatMap (Node.layer (k + 1)) :=
    fun k => List.flatMap_assoc.symm
  rw [below, heights_eq nodes hne, List.range_succ_eq_map, List.flatMap_cons, List.flatMap_map,
    hfirst, below]
  refine congrArg _ (List.flatMap_congr fun k _ => ?_)
  rw [Nat.succ_eq_add_one, hlater, Nat.add_assoc depth 1 k, Nat.add_comm 1 k]

/-- The search takes the definitions in layer by layer. -/
theorem traverse_eq (depth : Nat) (t : Discovery) (nodes : List Node) :
    traverse t (nodes.map (·, depth)) = (below depth nodes).foldlM add t := by
  induction hn : Node.heights nodes generalizing depth t nodes with
  | zero =>
    have hnil : nodes = [] := by
      by_contra hne
      have := heights_eq nodes hne
      omega
    rw [hnil, List.map_nil, traverse]
    rfl
  | succ n ih =>
    have hne : nodes ≠ [] := by rintro rfl; cases hn
    have hlayer := traverse_layer depth t nodes []
    rw [List.map_nil, List.append_nil, List.nil_append] at hlayer
    rw [hlayer, foldlM_addItem, below_eq depth nodes hne, List.foldlM_append]
    refine congrArg _ (funext fun t => ih (depth + 1) t _ ?_)
    have := heights_eq nodes hne
    omega

theorem below_root (root : Node) : below 0 [root] = root.definitions := by
  simp [below, Node.definitions, Node.heights]

/-! ## What is found -/

/-- Of definitions that are taken in one after the other, the first repetition is reported, and the
first of each name is kept. -/
theorem foldlM_add (t : Discovery) (seen : List Definition) (names : List String)
    (ds : List Definition)
    (hseen : ∀ d : Definition, t.seen.contains (d.name, d.depth) =
      seen.any fun e => e.name == d.name && e.depth == d.depth)
    (hnames : ∀ name, t.found.any (·.name == name) = names.contains name) :
    (do let t ← ds.foldlM add t; return t.found) = (do
      Definition.checkRepeats seen ds
      return t.found ++ Definition.firstOfEach names ds) := by
  induction ds generalizing t seen names with
  | nil => exact congrArg Except.ok (List.append_nil _).symm
  | cons d ds ih =>
    rw [List.foldlM_cons, add, hseen, hnames, Definition.checkRepeats, Definition.firstOfEach]
    by_cases hrepeats : (seen.any fun e => e.name == d.name && e.depth == d.depth) = true
    · rw [if_pos hrepeats, if_pos hrepeats]
      rfl
    · rw [if_neg hrepeats, if_neg hrepeats]
      have hseen' : ∀ e : Definition, ((d.name, d.depth) :: t.seen).contains (e.name, e.depth) =
          (d :: seen).any fun e' => e'.name == e.name && e'.depth == e.depth := fun e => by
        rw [List.contains_cons, hseen, List.any_cons]
        exact congrArg (· || _) (congrArg₂ and BEq.comm BEq.comm)
      by_cases hnew : names.contains d.name = true
      · rw [if_pos hnew, if_pos hnew]
        exact ih ⟨_, t.found⟩ (d :: seen) names hseen' hnames
      · rw [if_neg hnew, if_neg hnew]
        have hnames' : ∀ name, (t.found ++ [d]).any (·.name == name) =
            (d.name :: names).contains name := fun name => by
          rw [List.any_append, hnames, List.contains_cons, Bool.or_comm, List.any_cons,
            List.any_nil, Bool.or_false, BEq.comm]
        have hrest := ih ⟨_, t.found ++ [d]⟩ (d :: seen) (d.name :: names) hseen' hnames'
        rw [List.append_assoc, List.singleton_append] at hrest
        exact hrest

end Discovery

namespace Definition

/-- The search fails at the first repetition, and finds the first definition of each name. -/
theorem find_eq (root : Node) : find root = (do
    checkRepeats [] root.definitions
    return firstOfEach [] root.definitions) := by
  have htraverse := Discovery.traverse_eq 0 .empty [root]
  rw [Discovery.below_root, List.map_singleton] at htraverse
  rw [find, htraverse]
  exact Discovery.foldlM_add .empty [] [] root.definitions (fun _ => rfl) fun _ => rfl

end Definition

end LiveLisp
