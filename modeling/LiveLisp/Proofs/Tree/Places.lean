/-
  Every node of a program begins at a place of its own, that of its first token
  (`starts_of_readForms`). So the span of a definition tells it from all others of its program
  (`Definition.eq_of_span`), also from those of the same name.
-/
import LiveLisp.Proofs.Text.Lossless
import LiveLisp.Proofs.Tree.Grammar
import LiveLisp.Proofs.Tree.Outline
import Mathlib.Data.List.Pairwise

namespace LiveLisp

namespace Node

mutual
/-- Where a node and all nodes below it begin, in the order of the text. -/
def starts : Node → List Nat
  | list items span => span.start :: allStarts items
  | node => [node.span.start]
def allStarts : List Node → List Nat
  | [] => []
  | node :: nodes => starts node ++ allStarts nodes
end

theorem allStarts_eq_flatMap (nodes : List Node) : allStarts nodes = nodes.flatMap starts := by
  induction nodes with
  | nil => rfl
  | cons node nodes ih => rw [allStarts, ih, List.flatMap_cons]

@[simp] theorem allStarts_append (nodes others : List Node) :
    allStarts (nodes ++ others) = allStarts nodes ++ allStarts others := by
  rw [allStarts_eq_flatMap, allStarts_eq_flatMap, allStarts_eq_flatMap, List.flatMap_append]

theorem starts_eq (node : Node) : node.starts = node.span.start :: allStarts node.children := by
  cases node <;> rfl

/-! ## Nodes with different places -/

theorem start_mem_starts {a node : Node} {k : Nat} (h : node ∈ a.layer k) :
    node.span.start ∈ a.starts := by
  rw [starts_eq]
  induction k generalizing a with
  | zero =>
    rw [List.mem_singleton.mp h]
    exact List.mem_cons_self ..
  | succ k ih =>
    obtain ⟨child, hchild, h⟩ := List.mem_flatMap.mp h
    refine List.mem_cons_of_mem _ ?_
    rw [allStarts_eq_flatMap]
    refine List.mem_flatMap.mpr ⟨child, hchild, ?_⟩
    rw [starts_eq]
    exact ih h

/-- What begins at one place lies below one of the nodes. -/
theorem eq_of_mem_starts {nodes : List Node} (h : (allStarts nodes).Nodup) {a b : Node}
    (ha : a ∈ nodes) (hb : b ∈ nodes) {n : Nat} (hna : n ∈ a.starts)
    (hnb : n ∈ b.starts) : a = b := by
  rw [allStarts_eq_flatMap, List.nodup_flatMap] at h
  by_contra hne
  have : Std.Symm (Function.onFun List.Disjoint starts) := ⟨fun _ _ hapart _ hb ha => hapart ha hb⟩
  exact h.2.forall ha hb hne hna hnb

theorem nodup_starts {nodes : List Node} (h : (allStarts nodes).Nodup) {a : Node}
    (ha : a ∈ nodes) : a.starts.Nodup := by
  rw [allStarts_eq_flatMap, List.nodup_flatMap] at h
  exact h.1 a ha

/-- Nothing below a node begins where the node does. -/
theorem start_ne_below {a node : Node} (h : a.starts.Nodup) {k : Nat}
    (hnode : node ∈ a.children.flatMap (layer k)) :
    a.span.start ≠ node.span.start := by
  obtain ⟨child, hchild, hnode⟩ := List.mem_flatMap.mp hnode
  rw [starts_eq, List.nodup_cons, allStarts_eq_flatMap] at h
  intro heq
  exact h.1 (heq ▸ List.mem_flatMap.mpr ⟨child, hchild, start_mem_starts hnode⟩)

/-- Below nodes that all begin at different places, the place tells a node and its depth. -/
theorem eq_of_start {nodes : List Node} (h : (allStarts nodes).Nodup)
    {node node' : Node} {k k' : Nat} (hnode : node ∈ nodes.flatMap (layer k))
    (hnode' : node' ∈ nodes.flatMap (layer k')) (hstart : node.span.start = node'.span.start) :
    node = node' ∧ k = k' := by
  induction k generalizing nodes k' with
  | zero =>
    obtain ⟨a, ha, hnode⟩ := List.mem_flatMap.mp hnode
    obtain ⟨b, hb, hnode'⟩ := List.mem_flatMap.mp hnode'
    obtain rfl := eq_of_mem_starts h ha hb (start_mem_starts hnode)
      (hstart ▸ start_mem_starts hnode')
    obtain rfl := List.mem_singleton.mp hnode
    cases k' with
    | zero => exact ⟨(List.mem_singleton.mp hnode').symm, rfl⟩
    | succ k' => exact absurd hstart (start_ne_below (nodup_starts h ha) hnode')
  | succ k ih =>
    obtain ⟨a, ha, hnode⟩ := List.mem_flatMap.mp hnode
    obtain ⟨b, hb, hnode'⟩ := List.mem_flatMap.mp hnode'
    obtain rfl := eq_of_mem_starts h ha hb (start_mem_starts hnode)
      (hstart ▸ start_mem_starts hnode')
    have hstarts := nodup_starts h ha
    cases k' with
    | zero =>
      obtain rfl := List.mem_singleton.mp hnode'
      exact absurd hstart.symm (start_ne_below hstarts hnode)
    | succ k' =>
      rw [starts_eq, List.nodup_cons] at hstarts
      obtain ⟨hsame, hdepth⟩ := ih hstarts.2 hnode hnode'
      exact ⟨hsame, congrArg Nat.succ hdepth⟩

end Node

/-! ## Reading -/

namespace Reading

/-- Where the open lists and their items begin, the outermost list first. -/
def nestStarts : List OpenList → List Nat
  | [] => []
  | inner :: outer => nestStarts outer ++ inner.span.start :: Node.allStarts inner.items.reverse

/-- Where all that has been read so far begins. -/
def starts (r : Reading) : List Nat :=
  Node.allStarts r.forms.reverse ++ nestStarts r.nest

theorem starts_add (r : Reading) (node : Node) : (r.add node).starts = r.starts ++ node.starts := by
  unfold starts add
  split
  · next hnest => simp [hnest, nestStarts, Node.allStarts]
  · next inner outer hnest => simp [hnest, nestStarts, Node.allStarts]

/-- A token begins a node, unless it closes a list. -/
def begun (x : Lexeme) : List Nat :=
  if x.token.isClosing then [] else [x.span.start]

variable {stray : ParseProblem} {r r' : Reading} {x : Lexeme} {lexemes : List Lexeme}

theorem eq_of_mem_begun {n : Nat} (h : n ∈ begun x) : n = x.span.start := by
  unfold begun at h
  split at h
  · cases h
  · exact List.mem_singleton.mp h

theorem starts_next (h : r.next stray x = .ok r') (hbefore : ∀ n ∈ r.starts, n ≤ x.span.start) :
    r'.starts = r.starts ++ begun x := by
  unfold next at h
  unfold begun
  cases hx : x.token with
  | number value =>
    rw [hx] at h
    cases h
    exact starts_add r _
  | text content =>
    rw [hx] at h
    cases h
    exact starts_add r _
  | identifier name =>
    rw [hx] at h
    cases h
    exact starts_add r _
  | opening =>
    rw [hx] at h
    dsimp only at h
    split at h
    · cases h
    · cases h
      simp [starts, nestStarts, Node.allStarts, Token.isClosing]
  | closing =>
    obtain ⟨nest, forms⟩ := r
    cases nest with
    | nil =>
      rw [hx] at h
      cases h
    | cons inner outer =>
      rw [hx] at h
      cases h
      -- the list begins where it was opened
      have hopened : min inner.span.start x.span.start = inner.span.start :=
        Nat.min_eq_left (hbefore _ (by simp [starts, nestStarts]))
      rw [starts_add]
      simp [starts, nestStarts, Node.starts, Span.to, hopened, Token.isClosing]

theorem starts_foldlM (hordered : lexemes.Pairwise fun a b => a.span.start ≤ b.span.start)
    (hbefore : ∀ n ∈ r.starts, ∀ x ∈ lexemes, n ≤ x.span.start)
    (h : lexemes.foldlM (next stray) r = .ok r') :
    r'.starts = r.starts ++ lexemes.flatMap begun := by
  induction lexemes generalizing r with
  | nil =>
    cases h
    simp
  | cons x lexemes ih =>
    obtain ⟨hx, hordered⟩ := List.pairwise_cons.mp hordered
    rw [List.foldlM_cons] at h
    obtain ⟨r₁, hnext, h⟩ := except_bind_eq_ok h
    have hstarts := starts_next hnext fun n hn => hbefore n hn x (List.mem_cons_self ..)
    rw [ih hordered ?_ h, hstarts, List.flatMap_cons, List.append_assoc]
    intro n hn y hy
    rw [hstarts] at hn
    rcases List.mem_append.mp hn with hn | hn
    · exact hbefore n hn y (List.mem_cons_of_mem _ hy)
    · rw [eq_of_mem_begun hn]
      exact hx y hy

end Reading

namespace Node

theorem scan_eq_ok {source : String} {lexemes : List Lexeme} (h : scan source = .ok lexemes) :
    Token.scan source = .ok lexemes := by
  unfold scan at h
  split at h
  · next hscan =>
    cases h
    exact hscan
  · cases h

/-- The forms of a program begin, one node after the other, where the tokens do that do not close a
list. -/
theorem starts_of_readForms {lexemes : List Lexeme} {forms : List Node}
    (hordered : lexemes.Pairwise fun a b => a.span.start ≤ b.span.start)
    (h : readForms lexemes = .ok forms) :
    allStarts forms = lexemes.flatMap Reading.begun := by
  obtain ⟨r, hr, h⟩ := except_bind_eq_ok h
  have hstarts := Reading.starts_foldlM hordered (by
    simp [Reading.starts, Reading.nestStarts, Reading.empty, allStarts]) hr
  unfold Reading.finish at h
  split at h
  · next hnest =>
    cases h
    simpa [Reading.starts, Reading.nestStarts, Reading.empty, allStarts, hnest] using hstarts
  · cases h

/-- The nodes in the forms of a program begin one after the other. -/
theorem sorted_starts_of_ofProgram {source : String} {root : Node}
    (h : ofProgram source = .ok root) :
    ∃ forms doSpan span, root = .list (.identifier "do" doSpan :: forms) span ∧
      (allStarts forms).Pairwise (· < ·) := by
  obtain ⟨lexemes, hscan, h⟩ := except_bind_eq_ok h
  obtain ⟨forms, hforms, h⟩ := except_bind_eq_ok h
  cases h
  refine ⟨forms, _, _, rfl, ?_⟩
  have hlossless := Token.lossless_of_scan (scan_eq_ok hscan)
  -- a token begins after all that begin before it
  have hordered : lexemes.Pairwise fun a b => a.span.start < b.span.start :=
    hlossless.ordered.imp_of_mem fun ha _ hle => Nat.lt_of_lt_of_le (hlossless.nonempty _ ha) hle
  rw [starts_of_readForms (hordered.imp Nat.le_of_lt) hforms]
  refine List.pairwise_flatMap.mpr ⟨fun x _ => ?_, hordered.imp fun {x y} hlt n hn n' hn' => ?_⟩
  · unfold Reading.begun
    split
    · exact .nil
    · exact List.pairwise_singleton ..
  · rw [Reading.eq_of_mem_begun hn, Reading.eq_of_mem_begun hn']
    exact hlt

/-- No two nodes in the forms of a program begin at one place. -/
theorem nodup_starts_of_ofProgram {source : String} {root : Node}
    (h : ofProgram source = .ok root) :
    ∃ forms doSpan span, root = .list (.identifier "do" doSpan :: forms) span ∧
      (allStarts forms).Nodup := by
  obtain ⟨forms, doSpan, span, hroot, hsorted⟩ := sorted_starts_of_ofProgram h
  exact ⟨forms, doSpan, span, hroot, hsorted.imp Nat.ne_of_lt⟩

end Node

namespace Definition

theorem ofNode?_eq_some {node : Node} {depth : Nat} {d : Definition}
    (h : ofNode? node depth = some d) :
    d.node = node ∧ d.body ⊆ node.children := by
  unfold ofNode? at h
  split at h
  · obtain ⟨names, -, rfl⟩ := Option.map_eq_some_iff.mp h
    exact ⟨rfl, List.subset_append_right [_, _, _] _⟩
  · cases h

/-- A definition of a program stands in one of its forms. -/
theorem mem_layer_of_mem {doSpan span : Span} {forms : List Node} {d : Definition}
    (h : d ∈ (Node.list (.identifier "do" doSpan :: forms) span).definitions) :
    ∃ k, d.node ∈ forms.flatMap (Node.layer k) ∧ ofNode? d.node (k + 1) = some d := by
  obtain ⟨k, -, h⟩ := List.mem_flatMap.mp h
  obtain ⟨node, hnode, hd⟩ := List.mem_filterMap.mp h
  obtain ⟨rfl, -⟩ := ofNode?_eq_some hd
  refine ⟨k, ?_, hd⟩
  rcases List.mem_append.mp hnode with hhead | hforms
  · cases k with
    | zero =>
      rw [List.mem_singleton.mp hhead] at hd
      cases hd
    | succ k => cases hhead
  · exact hforms

/-- Two definitions of one program stand at different places. -/
theorem eq_of_span {source : String} {root : Node} (h : Node.ofProgram source = .ok root)
    {d d' : Definition} (hd : d ∈ root.definitions) (hd' : d' ∈ root.definitions)
    (hspan : d.node.span = d'.node.span) : d = d' := by
  obtain ⟨forms, doSpan, span, rfl, hstarts⟩ := Node.nodup_starts_of_ofProgram h
  obtain ⟨k, hnode, hof⟩ := mem_layer_of_mem hd
  obtain ⟨k', hnode', hof'⟩ := mem_layer_of_mem hd'
  obtain ⟨hsame, rfl⟩ := Node.eq_of_start hstarts hnode hnode' (congrArg Span.start hspan)
  rw [hsame, hof'] at hof
  exact (Option.some.inj hof).symm

end Definition

end LiveLisp
