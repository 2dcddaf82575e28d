/-
  Where the nodes of a program stand. A leaf is its token, a list is the text from its parenthesis
  to the one that closes it, and what stands in a list stands inside it, one thing after the other;
  so no two nodes have the same range, and the place of a definition can stand for it
  (`spans_laminar`). Lines and columns have 32 bits: a node of a text that is long enough is placed
  elsewhere (`spans_laminar_far_name`).

  Everything is said of the lexemes first. `MadeOf` cuts the lexemes of a node into those of its
  parts, the reader keeps such a cut of all that it has read (`Reading.Holds` says the same of the
  tokens alone), and the lexemes of a text are in order.
-/
import LiveLisp.Proofs.Code.Sites

namespace LiveLisp

/-! ## Places -/

/-- The span is the range of a word in a text, placed where its first character is as far as 32 bits
hold the place. -/
def Span.Cuts (span : Span) (source : String) (word : List Char) : Prop :=
  ∃ before after, source.toList = before ++ word ++ after ∧
    span.start = (String.ofList before).utf8ByteSize ∧
    span.stop = (String.ofList (before ++ word)).utf8ByteSize ∧
    span.line = UInt32.ofNat (before.count '\n' + 1) ∧
    span.column = UInt32.ofNat ((before.reverse.takeWhile (· != '\n')).length + 1)

theorem Span.cuts_between {source : String} {before word after : List Char}
    (h : source.toList = before ++ word ++ after) :
    (between (.advanceAll .start before) (.advanceAll .start (before ++ word))).Cuts source word :=
  ⟨before, after, h, by simp only [between, Position.advanceAll_start, and_self]⟩

/-- A span that cuts a word out is placed where its start is, as far as 32 bits hold the place. -/
theorem Span.Cuts.place_eq {span : Span} {source : String} {word : List Char}
    (h : span.Cuts source word) :
    span.line = UInt32.ofNat (Position.ofOffset source span.start).line ∧
      span.column = UInt32.ofNat (Position.ofOffset source span.start).column := by
  obtain ⟨before, after, hsource, hstart, -, hline, hcolumn⟩ := h
  have hseek := Position.seek_advanceAll .start before (word ++ after)
  rw [Position.advanceAll_start, ← List.append_assoc, ← hsource, ← hstart] at hseek
  rw [Position.ofOffset, hseek]
  exact ⟨hline, hcolumn⟩

/-- In a text that is short enough for 32 bits it is placed exactly there. -/
theorem Span.Cuts.ofOffset_eq {span : Span} {source : String} {word : List Char}
    (h : span.Cuts source word) (hsize : source.utf8ByteSize < 2 ^ 32 - 1) :
    Position.ofOffset source span.start =
      ⟨span.start, span.line.toNat, span.column.toNat⟩ := by
  obtain ⟨hline, hcolumn⟩ := h.place_eq
  obtain ⟨before, after, hsource, hstart, -⟩ := h
  have hsource' : source.toList = before ++ (word ++ after) := by rw [hsource, List.append_assoc]
  have hboundary : LineIndex.IsBoundary source span.start :=
    .inl (hstart ▸ LineIndex.isValid_append hsource')
  have hle : span.start ≤ source.utf8ByteSize := by
    rw [hstart, ← String.ofList_toList (s := source), hsource', utf8ByteSize_ofList_append]
    exact Nat.le_add_right _ _
  obtain ⟨line, column, -, -, -, -, -, hread⟩ := hboundary.place_eq hsize
  rw [hread] at hline hcolumn
  rw [hread, hline, hcolumn, UInt32.ofNat_toNat, UInt32.ofNat_toNat, Nat.min_eq_left hle]

/-- From one span to a later one. -/
theorem Span.to_eq {a b : Span} (ha : a.start < a.stop) (hb : b.start < b.stop)
    (hab : a.stop ≤ b.start) :
    a.to b = ⟨a.start, b.stop, a.line, a.column⟩ := by
  rw [Span.to, Nat.min_eq_left (by omega), Nat.max_eq_right (by omega)]

/-! ## The lexemes of a node -/

namespace Node

mutual
/-- The lexemes that a node was read from: the one of a leaf, or the parentheses of a list and those
of its items. -/
def MadeOf : Node → List Lexeme → Prop
  | list items span, lexemes => ∃ x inside y, lexemes = x :: inside ++ [y] ∧
    x.token = .opening ∧ y.token = .closing ∧ span = x.span.to y.span ∧ AllMadeOf items inside
  | node, lexemes => ∃ x, lexemes = [x] ∧ node.form.tokens = [x.token] ∧ node.span = x.span
def AllMadeOf : List Node → List Lexeme → Prop
  | [], lexemes => lexemes = []
  | node :: nodes, lexemes =>
    ∃ first rest, lexemes = first ++ rest ∧ MadeOf node first ∧ AllMadeOf nodes rest
end

variable {a node : Node} {nodes items : List Node} {span : Span} {lexemes more : List Lexeme}

theorem madeOf_leaf {x : Lexeme} (hleaf : node.items? = none)
    (htokens : node.form.tokens = [x.token]) (hspan : node.span = x.span) : node.MadeOf [x] := by
  cases node with
  | list items span => cases hleaf
  | _ => exact ⟨x, rfl, htokens, hspan⟩

theorem AllMadeOf.concat (h : AllMadeOf nodes lexemes) (hnode : node.MadeOf more) :
    AllMadeOf (nodes ++ [node]) (lexemes ++ more) := by
  induction nodes generalizing lexemes with
  | nil =>
    obtain rfl : lexemes = [] := h
    exact ⟨more, [], by simp, hnode, rfl⟩
  | cons first nodes ih =>
    obtain ⟨part, rest, rfl, hfirst, hrest⟩ := h
    exact ⟨part, rest ++ more, List.append_assoc .., hfirst, ih hrest⟩

mutual
/-- The tokens of these lexemes are the flattened node. -/
theorem MadeOf.tokens_eq (node : Node) {lexemes : List Lexeme} (h : node.MadeOf lexemes) :
    Lexeme.tokens lexemes = node.form.tokens := by
  cases node with
  | list items span =>
    obtain ⟨x, inside, y, rfl, hx, hy, -, hitems⟩ := h
    have hinside := AllMadeOf.tokens_eq items hitems
    rw [form, Form.tokens, ← hinside, ← hx, ← hy]
    simp [Lexeme.tokens]
  | _ =>
    obtain ⟨x, rfl, htokens, -⟩ := h
    exact htokens.symm
termination_by structural node
theorem AllMadeOf.tokens_eq (nodes : List Node) {lexemes : List Lexeme}
    (h : AllMadeOf nodes lexemes) :
    Lexeme.tokens lexemes = Form.allTokens (forms nodes) := by
  cases nodes with
  | nil =>
    obtain rfl : lexemes = [] := h
    rfl
  | cons node nodes =>
    obtain ⟨first, rest, rfl, hnode, hnodes⟩ := h
    rw [forms, Form.allTokens, ← MadeOf.tokens_eq node hnode, ← AllMadeOf.tokens_eq nodes hnodes]
    exact List.map_append
termination_by structural nodes
end

mutual
/-- A node below is made of a part of the lexemes. -/
theorem MadeOf.below (node : Node) {lexemes : List Lexeme} (h : node.MadeOf lexemes)
    (ha : a ∈ node.subnodes) :
    ∃ part, part <:+: lexemes ∧ a.MadeOf part := by
  cases node with
  | list items span =>
    rcases List.mem_cons.mp ha with rfl | ha
    · exact ⟨lexemes, List.infix_refl _, h⟩
    · obtain ⟨x, inside, y, rfl, -, -, -, hitems⟩ := h
      obtain ⟨part, hpart, hmade⟩ := AllMadeOf.below items hitems ha
      exact ⟨part, hpart.trans ⟨[x], [y], rfl⟩, hmade⟩
  | _ =>
    obtain rfl := List.mem_singleton.mp ha
    exact ⟨lexemes, List.infix_refl _, h⟩
termination_by structural node
theorem AllMadeOf.below (nodes : List Node) {lexemes : List Lexeme} (h : AllMadeOf nodes lexemes)
    (ha : a ∈ allSubnodes nodes) : ∃ part, part <:+: lexemes ∧ a.MadeOf part := by
  cases nodes with
  | nil => cases ha
  | cons node nodes =>
    obtain ⟨first, rest, rfl, hnode, hnodes⟩ := h
    rcases List.mem_append.mp ha with ha | ha
    · obtain ⟨part, hpart, hmade⟩ := MadeOf.below node hnode ha
      exact ⟨part, hpart.trans (List.prefix_append _ _).isInfix, hmade⟩
    · obtain ⟨part, hpart, hmade⟩ := AllMadeOf.below nodes hnodes ha
      exact ⟨part, hpart.trans (List.suffix_append _ _).isInfix, hmade⟩
termination_by structural nodes
end

end Node

/-! ## Lexemes in order -/

/-- Lexemes with a width, one after the other. -/
structure Lexeme.InOrder (lexemes : List Lexeme) : Prop where
  nonempty : ∀ x ∈ lexemes, x.span.start < x.span.stop
  ordered : lexemes.Pairwise fun x y => x.span.stop ≤ y.span.start

theorem Lexeme.InOrder.of_infix {part lexemes : List Lexeme} (h : InOrder lexemes)
    (hpart : part <:+: lexemes) :
    InOrder part where
  nonempty := fun x hx => h.nonempty x (hpart.subset hx)
  ordered := h.ordered.sublist hpart.sublist

theorem Token.Lossless.inOrder {source : String} {lexemes : List Lexeme}
    (h : Lossless source lexemes) :
    Lexeme.InOrder lexemes := ⟨h.nonempty, h.ordered⟩

/-- From the first of them to the last one. -/
theorem Lexeme.InOrder.start_lt_stop {lexemes : List Lexeme} (h : InOrder lexemes) {x y : Lexeme}
    (hx : lexemes.head? = some x) (hy : lexemes.getLast? = some y) :
    x.span.start < y.span.stop := by
  obtain ⟨rest, rfl⟩ := List.head?_eq_some_iff.mp hx
  have hwidth := h.nonempty x List.mem_cons_self
  rcases List.mem_cons.mp (List.mem_of_getLast? hy) with rfl | hlater
  · exact hwidth
  · have hbefore := (List.pairwise_cons.mp h.ordered).1 y hlater
    have hlast := h.nonempty y (List.mem_cons_of_mem x hlater)
    omega

namespace Node

/-- Nodes with a width, one after the other. -/
structure InOrder (nodes : List Node) : Prop where
  nonempty : ∀ a ∈ nodes, a.span.start < a.span.stop
  ordered : nodes.Pairwise fun a b => a.span.stop ≤ b.span.start

variable {a node : Node} {nodes items : List Node} {span : Span} {lexemes more : List Lexeme}

/-- A list reaches from its one parenthesis to its other one. -/
theorem MadeOf.list_ends (h : (list items span).MadeOf lexemes)
    (hordered : Lexeme.InOrder lexemes) :
    ∃ x inside y, lexemes = x :: inside ++ [y] ∧ x.token = .opening ∧ y.token = .closing ∧
      x.span.stop ≤ y.span.start ∧
      AllMadeOf items inside ∧ span = ⟨x.span.start, y.span.stop, x.span.line, x.span.column⟩ := by
  obtain ⟨x, inside, y, rfl, hx, hy, rfl, hitems⟩ := h
  have hxy : x.span.stop ≤ y.span.start := (List.pairwise_cons.mp hordered.ordered).1 y (by simp)
  exact ⟨x, inside, y, rfl, hx, hy, hxy, hitems,
    Span.to_eq (hordered.nonempty x (by simp)) (hordered.nonempty y (by simp)) hxy⟩

/-- A node reaches from its first lexeme to its last one. -/
theorem MadeOf.span_eq (h : node.MadeOf lexemes) (hordered : Lexeme.InOrder lexemes) : ∃ x y,
    lexemes.head? = some x ∧ lexemes.getLast? = some y ∧
      node.span = ⟨x.span.start, y.span.stop, x.span.line, x.span.column⟩ := by
  cases node with
  | list items span =>
    obtain ⟨x, inside, y, rfl, -, -, -, -, hspan⟩ := h.list_ends hordered
    exact ⟨x, y, rfl, List.getLast?_concat, hspan⟩
  | _ =>
    obtain ⟨x, rfl, -, hspan⟩ := h
    exact ⟨x, x, rfl, rfl, hspan⟩

theorem MadeOf.start_lt_stop (h : node.MadeOf lexemes) (hordered : Lexeme.InOrder lexemes) :
    node.span.start < node.span.stop := by
  obtain ⟨x, y, hx, hy, hspan⟩ := h.span_eq hordered
  rw [hspan]
  exact hordered.start_lt_stop hx hy

/-- What is before all lexemes of a node is before the node. -/
theorem MadeOf.le_start (h : node.MadeOf lexemes) (hordered : Lexeme.InOrder lexemes) {n : Nat}
    (hbefore : ∀ x ∈ lexemes, n ≤ x.span.start) : n ≤ node.span.start := by
  obtain ⟨x, y, hx, -, hspan⟩ := h.span_eq hordered
  rw [hspan]
  exact hbefore x (List.mem_of_head? hx)

theorem MadeOf.stop_le (h : node.MadeOf lexemes) (hordered : Lexeme.InOrder lexemes) {n : Nat}
    (hafter : ∀ x ∈ lexemes, x.span.stop ≤ n) : node.span.stop ≤ n := by
  obtain ⟨x, y, -, hy, hspan⟩ := h.span_eq hordered
  rw [hspan]
  exact hafter y (List.mem_of_getLast? hy)

theorem subset_allSubnodes (nodes : List Node) : nodes ⊆ allSubnodes nodes := fun a ha => by
  rw [allSubnodes_eq_flatMap]
  exact List.mem_flatMap.mpr ⟨a, ha, self_mem_subnodes a⟩

/-- Nodes stand where their lexemes do, in the same order. -/
theorem AllMadeOf.inOrder (h : AllMadeOf nodes lexemes)
    (hordered : Lexeme.InOrder lexemes) : InOrder nodes := by
  induction nodes generalizing lexemes with
  | nil => exact ⟨nofun, .nil⟩
  | cons node nodes ih =>
    obtain ⟨first, rest, rfl, hnode, hnodes⟩ := h
    have hfirst := hordered.of_infix (List.prefix_append first rest).isInfix
    have hrest := hordered.of_infix (List.suffix_append first rest).isInfix
    obtain ⟨hnonempty, hsorted⟩ := ih hnodes hrest
    refine ⟨List.forall_mem_cons.mpr ⟨hnode.start_lt_stop hfirst, hnonempty⟩,
      .cons (fun later hlater => ?_) hsorted⟩
    obtain ⟨part, hpart, hmade⟩ := hnodes.below nodes (subset_allSubnodes nodes hlater)
    -- every lexeme of the first node is before every lexeme of a later one
    refine hnode.stop_le hfirst fun x hx => hmade.le_start (hrest.of_infix hpart) fun y hy => ?_
    exact (List.pairwise_append.mp hordered.ordered).2.2 x hx y (hpart.subset hy)

/-- The items of a list are in order between its parentheses. -/
theorem MadeOf.items_inside (h : (list items span).MadeOf lexemes)
    (hordered : Lexeme.InOrder lexemes) :
    InOrder items ∧ ∀ child ∈ items, span.start < child.span.start ∧
      child.span.stop < span.stop := by
  obtain ⟨x, inside, y, rfl, -, -, -, hitems, rfl⟩ := h.list_ends hordered
  have hinside : inside <:+: x :: inside ++ [y] := ⟨[x], [y], rfl⟩
  refine ⟨hitems.inOrder (hordered.of_infix hinside), fun child hchild => ?_⟩
  obtain ⟨part, hpart, hmade⟩ := hitems.below items (subset_allSubnodes items hchild)
  have hchild := hordered.of_infix (hpart.trans hinside)
  have hopened := hordered.nonempty x (by simp)
  have hclosed := hordered.nonempty y (by simp)
  have hafter : x.span.stop ≤ child.span.start := hmade.le_start hchild fun z hz =>
    (List.pairwise_cons.mp hordered.ordered).1 z (List.mem_append_left _ (hpart.subset hz))
  have hbefore : child.span.stop ≤ y.span.start := hmade.stop_le hchild fun z hz =>
    (List.pairwise_append.mp hordered.ordered).2.2 z (List.mem_cons_of_mem _ (hpart.subset hz)) y
      (List.mem_singleton_self _)
  exact ⟨Nat.lt_of_lt_of_le hopened hafter, Nat.lt_of_le_of_lt hbefore hclosed⟩

end Node

/-! ## The reader -/

namespace Reading

variable {r : Reading} {lexemes more : List Lexeme} {node : Node} {x : Lexeme}

/-- What has been read, cut into the finished forms and, for every open list, its parenthesis and
its items so far. -/
inductive MadeOf : Reading → List Lexeme → Prop
  | finished {forms : List Node} {lexemes : List Lexeme}
    (h : Node.AllMadeOf forms.reverse lexemes) :
    MadeOf ⟨[], forms⟩ lexemes
  | nested {outer : List OpenList} {forms : List Node} {before after : List Lexeme} {x : Lexeme}
      {items : List Node}
      (houter : MadeOf ⟨outer, forms⟩ before) (hx : x.token = .opening)
        (h : Node.AllMadeOf items.reverse after) :
    MadeOf ⟨⟨x.span, items⟩ :: outer, forms⟩ (before ++ x :: after)

theorem MadeOf.add (h : r.MadeOf lexemes) (hnode : node.MadeOf more) :
    (r.add node).MadeOf (lexemes ++ more) := by
  cases h with
  | finished h =>
    refine .finished ?_
    rw [List.reverse_cons]
    exact h.concat hnode
  | nested houter hx h =>
    rw [List.append_assoc, List.cons_append]
    refine .nested houter hx ?_
    rw [List.reverse_cons]
    exact h.concat hnode

theorem madeOf_of_next (stray : ParseProblem) (h : r.MadeOf lexemes) (x : Lexeme) :
    Ends (fun r' : Reading => r'.MadeOf (lexemes ++ [x])) (fun _ => True) (r.next stray x) := by
  unfold next
  cases hx : x.token with
  | number value => exact h.add (Node.madeOf_leaf rfl (by rw [hx]; rfl) rfl)
  | text content => exact h.add (Node.madeOf_leaf rfl (by rw [hx]; rfl) rfl)
  | identifier name => exact h.add (Node.madeOf_leaf rfl (by rw [hx]; rfl) rfl)
  | opening =>
    dsimp only
    split
    · trivial
    · exact .nested h hx rfl
  | closing =>
    obtain ⟨nest, forms⟩ := r
    cases h with
    | finished h => trivial
    | @nested _ _ before after y items houter hy h =>
      -- the list that is closed is made of all that was read since it was opened
      rw [List.append_assoc]
      exact houter.add ⟨y, after, x, rfl, hy, hx, rfl, h⟩

end Reading

/-! ## Programs -/

/-- One lexeme closes the list that another one opens: all lists that are opened between them are
closed between them. -/
def Lexeme.Matches (lexemes : List Lexeme) (x y : Lexeme) : Prop :=
  ∃ before inside after, lexemes = before ++ x :: inside ++ y :: after ∧ x.token = .opening ∧
    y.token = .closing ∧
    Token.NeverStray (tokens inside) ∧ Token.closings (tokens inside) =
      Token.openings (tokens inside)

/-- What stands from one parenthesis to a later one begins and ends with them. -/
theorem Token.Lossless.cuts_to {source : String} {lexemes : List Lexeme}
    (h : Lossless source lexemes) {x y : Lexeme} (hx : x ∈ lexemes) (hy : y ∈ lexemes)
    (hopening : x.token = .opening) (hclosing : y.token = .closing)
    (hxy : x.span.stop ≤ y.span.start) :
    ∃ within, Span.Cuts ⟨x.span.start, y.span.stop, x.span.line,
      x.span.column⟩ source ('(' :: within ++ [')']) := by
  obtain ⟨before, word, after, hsource, hstands⟩ := h.stands x hx
  obtain ⟨before', word', after', hsource', hstands'⟩ := h.stands y hy
  have hspells := hstands.spells
  have hspells' := hstands'.spells
  rw [hopening] at hspells
  rw [hclosing] at hspells'
  cases hspells
  cases hspells'
  -- what stands before the second parenthesis goes on from the first one
  have hwithin : ∃ within, before' = before ++ ['('] ++ within := by
    have hfirst : before ++ ['('] <+: source.toList := ⟨after, hsource.symm⟩
    have hsecond : before' <+: source.toList :=
      ⟨[')'] ++ after', by rw [hsource', List.append_assoc]⟩
    rcases List.prefix_or_prefix_of_prefix hfirst hsecond with ⟨within, hwithin⟩ | ⟨more, hmore⟩
    · exact ⟨within, hwithin.symm⟩
    · rcases eq_or_ne more [] with rfl | hne
      · exact ⟨[], by rw [← hmore, List.append_nil, List.append_nil]⟩
      · have hlt := Position.offset_lt_append before' hne
        rw [hstands.span_eq, hstands'.span_eq, ← hmore] at hxy
        exact absurd hlt (Nat.not_lt_of_le hxy)
  obtain ⟨within, rfl⟩ := hwithin
  have hwhole : source.toList = before ++ ('(' :: within ++ [')']) ++ after' := by
    rw [hsource']
    simp
  have hcuts := Span.cuts_between hwhole
  rw [hstands.span_eq, hstands'.span_eq]
  refine ⟨within, ?_⟩
  simpa [Span.between] using hcuts

/-- Where the nodes of a program stand, other than the root and its head: a leaf is the word of its
token, a list the text from its parenthesis to the one that closes it; what stands next to each
other stands apart and in order, and in a list it stands inside; no two nodes have the same range;
and each is placed where its first character is, as far as 32 bits hold the place, so exactly there
in a text that is short enough. -/
structure Node.Laminar (source : String) (lexemes : List Lexeme) (nodes : List Node) : Prop where
  leaf : ∀ a ∈ allSubnodes nodes, a.items? = none → ∃ x ∈ lexemes,
    a.form.tokens = [x.token] ∧ a.span = x.span ∧ ∃ word, x.token.Spells word ∧
      a.span.Cuts source word
  list : ∀ items span, .list items span ∈ allSubnodes nodes → ∃ x y, Lexeme.Matches lexemes x y ∧
    span.start = x.span.start ∧ span.stop = y.span.stop ∧
      ∃ within, span.Cuts source ('(' :: within ++ [')'])
  inside : ∀ items span, .list items span ∈ allSubnodes nodes →
    InOrder items ∧ ∀ child ∈ items, span.start < child.span.start ∧ child.span.stop < span.stop
  forms : InOrder nodes
  ranges : ((allSubnodes nodes).map fun a => (a.span.start, a.span.stop)).Nodup
  placed : ∀ a ∈ allSubnodes nodes,
    a.span.line = UInt32.ofNat (Position.ofOffset source a.span.start).line ∧
      a.span.column = UInt32.ofNat (Position.ofOffset source a.span.start).column
  placedExactly : source.utf8ByteSize < 2 ^ 32 - 1 → ∀ a ∈ allSubnodes nodes,
    Position.ofOffset source a.span.start = ⟨a.span.start, a.span.line.toNat, a.span.column.toNat⟩

namespace Node

/-- The forms of a program are made of its lexemes. -/
theorem madeOf_of_readForms {lexemes : List Lexeme} {nodes : List Node}
    (h : readForms lexemes = .ok nodes) :
    AllMadeOf nodes lexemes := by
  obtain ⟨r, hr, hfinish⟩ := except_bind_eq_ok h
  have hmade := Reading.ends_foldlM (P := fun before r => r.MadeOf before)
    (Q := fun _ _ _ => True) (.finished rfl)
    (fun r before x hr => Reading.madeOf_of_next .leftover hr x) lexemes
  rw [hr] at hmade
  cases hmade with
  | finished hforms =>
    cases hfinish
    exact hforms
  | nested => cases hfinish

variable {source : String} {root a : Node} {nodes items : List Node} {span : Span}
    {lexemes part : List Lexeme}

/-- A leaf stands where its token does. -/
theorem MadeOf.leaf_cuts (h : a.MadeOf part) (hleaf : a.items? = none) (hpart : part ⊆ lexemes)
    (hlossless : Token.Lossless source lexemes) :
      ∃ x ∈ lexemes, a.form.tokens = [x.token] ∧ a.span = x.span ∧
      ∃ word, x.token.Spells word ∧ a.span.Cuts source word := by
  have hx : ∃ x, part = [x] ∧ a.form.tokens = [x.token] ∧ a.span = x.span := by
    cases a with
    | list items span => cases hleaf
    | _ => exact h
  obtain ⟨x, rfl, htokens, hspan⟩ := hx
  have hmem : x ∈ lexemes := hpart (List.mem_singleton_self x)
  obtain ⟨before, word, after, hsource, hstands⟩ := hlossless.stands x hmem
  refine ⟨x, hmem, htokens, hspan, word, hstands.spells, ?_⟩
  rw [hspan, hstands.span_eq]
  exact Span.cuts_between hsource

/-- A list stands from its parenthesis to the one that closes it. -/
theorem MadeOf.list_cuts (h : (list items span).MadeOf part) (hpart : part <:+: lexemes)
    (hlossless : Token.Lossless source lexemes) : ∃ x y, Lexeme.Matches lexemes x y ∧
      span.start = x.span.start ∧
      span.stop = y.span.stop ∧ ∃ within, span.Cuts source ('(' :: within ++ [')']) := by
  obtain ⟨x, inside, y, rfl, hopening, hclosing, hxy, hitems, rfl⟩ :=
    h.list_ends (hlossless.inOrder.of_infix hpart)
  have htokens := hitems.tokens_eq
  refine ⟨x, y, ?_, rfl, rfl, ?_⟩
  · obtain ⟨before, after, rfl⟩ := hpart
    refine ⟨before, inside, after, by simp, hopening, hclosing, fun begun hbegun => ?_, ?_⟩
    · exact (Form.prefix_allTokens _ (htokens ▸ hbegun)).1
    · rw [htokens, Form.openings_allTokens]
  · exact hlossless.cuts_to (hpart.subset (by simp)) (hpart.subset (by simp)) hopening hclosing hxy

/-- Whatever its kind, a node cuts a word out of the text. -/
theorem MadeOf.exists_cuts (h : a.MadeOf part) (hpart : part <:+: lexemes)
    (hlossless : Token.Lossless source lexemes) :
    ∃ word, a.span.Cuts source word := by
  cases hitems : a.items? with
  | none =>
    obtain ⟨x, -, -, -, word, -, hcuts⟩ := h.leaf_cuts hitems hpart.subset hlossless
    exact ⟨word, hcuts⟩
  | some items =>
    cases a with
    | list items span =>
      obtain ⟨x, y, -, -, -, within, hcuts⟩ := h.list_cuts hpart hlossless
      exact ⟨_, hcuts⟩
    | _ => cases hitems

theorem AllMadeOf.laminar (h : AllMadeOf nodes lexemes) (hlossless : Token.Lossless source lexemes)
    (hstarts : (allStarts nodes).Nodup) : Laminar source lexemes nodes := by
  have hordered := hlossless.inOrder
  constructor
  case leaf =>
    intro a ha hleaf
    obtain ⟨part, hpart, hmade⟩ := h.below nodes ha
    exact hmade.leaf_cuts hleaf hpart.subset hlossless
  case list =>
    intro items span ha
    obtain ⟨part, hpart, hmade⟩ := h.below nodes ha
    exact hmade.list_cuts hpart hlossless
  case inside =>
    intro items span ha
    obtain ⟨part, hpart, hmade⟩ := h.below nodes ha
    exact hmade.items_inside (hordered.of_infix hpart)
  case forms => exact h.inOrder hordered
  case ranges =>
    refine .of_map Prod.fst ?_
    rw [List.map_map]
    exact allStarts_eq_map nodes ▸ hstarts
  case placed =>
    intro a ha
    obtain ⟨part, hpart, hmade⟩ := h.below nodes ha
    obtain ⟨word, hcuts⟩ := hmade.exists_cuts hpart hlossless
    exact hcuts.place_eq
  case placedExactly =>
    intro hsize a ha
    obtain ⟨part, hpart, hmade⟩ := h.below nodes ha
    obtain ⟨word, hcuts⟩ := hmade.exists_cuts hpart hlossless
    exact hcuts.ofOffset_eq hsize

/-- In every program that is read, the nodes stand as they should. -/
theorem spans_laminar (h : ofProgram source = .ok root) :
    ∃ lexemes nodes, Token.scan source = .ok lexemes ∧ root = ofForms source nodes ∧
      Laminar source lexemes nodes := by
  obtain ⟨nodes, doSpan, span, hroot, hstarts⟩ := nodup_starts_of_ofProgram h
  obtain ⟨lexemes, hscan, h⟩ := except_bind_eq_ok h
  obtain ⟨forms, hforms, h⟩ := except_bind_eq_ok h
  cases h
  cases hroot
  have hscan := scan_eq_ok hscan
  exact ⟨lexemes, nodes, hscan, (ofForms_eq source nodes).symm,
    (madeOf_of_readForms hforms).laminar (Token.lossless_of_scan hscan) hstarts⟩

/-- A list within a list on the second line, a character of two bytes before it, and a form after
both. -/
theorem spans_laminar_two_lines : ∃ root, ofProgram "(f \"é\"\n  (g)) x" = .ok root ∧
    (allSubnodes root.children.tail).map (·.span) =
      [⟨0, 14, 1, 1⟩, ⟨1, 2, 1, 2⟩, ⟨3, 7, 1, 4⟩, ⟨10, 13, 2, 3⟩, ⟨11, 12, 2, 4⟩, ⟨15, 16, 2, 8⟩] ∧
    ∃ lexemes nodes, Token.scan "(f \"é\"\n  (g)) x" = .ok lexemes ∧
      root = ofForms "(f \"é\"\n  (g)) x" nodes ∧
      Laminar "(f \"é\"\n  (g)) x" lexemes nodes := by
  have hread : yields (fun root => decide ((allSubnodes root.children.tail).map (·.span) =
        [⟨0, 14, 1, 1⟩, ⟨1, 2, 1, 2⟩, ⟨3, 7, 1, 4⟩, ⟨10, 13, 2, 3⟩, ⟨11, 12, 2, 4⟩,
          ⟨15, 16, 2, 8⟩]))
      (ofProgram "(f \"é\"\n  (g)) x") = true := by decide +kernel
  obtain ⟨root, hroot, hspans⟩ := yields_iff.mp hread
  exact ⟨root, hroot, of_decide_eq_true hspans, spans_laminar hroot⟩

/-! ## A text that is too long -/

/-- Blanks, and a name after them. -/
def nameAfterBlanks (n : Nat) : String :=
  String.ofList (List.replicate n ' ' ++ ['x'])

theorem advanceAll_blanks (n : Nat) :
    Position.advanceAll .start (List.replicate n ' ') = ⟨n, 1, n + 1⟩ := by
  have hsize : (String.ofList (List.replicate n ' ')).utf8ByteSize = n := by
    induction n with
    | zero => rfl
    | succ n ih =>
      rw [List.replicate_succ, utf8ByteSize_ofList_cons, ih, Nat.add_comm]
      rfl
  rw [Position.advanceAll_start, hsize, List.reverse_replicate, List.takeWhile_replicate]
  simp [List.count_replicate]

theorem scanFrom_blanks (index : LineIndex) (offset n : Nat) (rest : List Char) :
    Token.scanFrom index offset (List.replicate n ' ' ++ rest) =
      Token.scanFrom index (offset + n) rest := by
  induction n generalizing offset with
  | zero => rfl
  | succ n ih =>
    have hblank : Text.isBlank ' ' = true := by decide
    have hsize : ' '.utf8Size = 1 := rfl
    rw [List.replicate_succ, List.cons_append, Token.scanFrom, if_pos hblank, ih, hsize,
      Nat.add_assoc, Nat.add_comm 1]

theorem scanFrom_name (index : LineIndex) (offset : Nat) :
    Token.scanFrom index offset ['x'] =
      .ok [⟨.identifier "x", index.span offset (offset + 1)⟩] := by
  rw [Token.scanFrom, if_neg (by decide), if_neg (by decide), if_neg (by decide),
    if_neg (by decide), if_neg (by decide)]
  simp [Token.scanFrom, Token.ofAtom, Token.advance, Decimal.literal?, Decimal.splitPoint,
    Decimal.isDigit, Char.utf8Size]

/-- The name stands behind the blanks, and its column is what 32 bits leave of their number. -/
theorem ofProgram_nameAfterBlanks (n : Nat) :
    ∃ name, ofProgram (nameAfterBlanks n) = .ok (ofForms (nameAfterBlanks n) [name]) ∧
      name.span.column = UInt32.ofNat (n + 1) ∧
      Position.ofOffset (nameAfterBlanks n) name.span.start = ⟨n, 1, n + 1⟩ := by
  have htext : (nameAfterBlanks n).toList = List.replicate n ' ' ++ ['x'] := String.toList_ofList
  have hscan : Token.scan (nameAfterBlanks n) =
      .ok [⟨.identifier "x", (LineIndex.ofText (nameAfterBlanks n)).span n (n + 1)⟩] := by
    rw [Token.scan, htext, scanFrom_blanks, scanFrom_name, Nat.zero_add]
  have hspan := LineIndex.span_eq (htext.trans (List.append_nil _).symm)
  have hstart : (String.ofList (List.replicate n ' ')).utf8ByteSize = n := by
    have hoffset := congrArg Position.offset (advanceAll_blanks n)
    rwa [Position.advanceAll_start] at hoffset
  have hseek := Position.seek_advanceAll .start (List.replicate n ' ') ['x']
  rw [utf8ByteSize_concat, hstart, Span.between, advanceAll_blanks] at hspan
  rw [advanceAll_blanks, ← htext] at hseek
  refine ⟨.identifier "x" ((LineIndex.ofText (nameAfterBlanks n)).span n (n + 1)), ?_, ?_, ?_⟩
  · rw [ofForms_eq, ofProgram, scan, hscan]
    rfl
  · exact congrArg Span.column hspan
  · exact hseek

/-- After so many blanks the name is said to stand in the first column. -/
theorem spans_laminar_far_name : ∃ root, ofProgram (nameAfterBlanks (2 ^ 32)) = .ok root ∧
    ∃ a ∈ allSubnodes root.children.tail, a.span.column = 1 ∧
      (Position.ofOffset (nameAfterBlanks (2 ^ 32)) a.span.start).column = 2 ^ 32 + 1 := by
  obtain ⟨name, hroot, hcolumn, hplace⟩ := ofProgram_nameAfterBlanks (2 ^ 32)
  have hmem : name ∈ allSubnodes [name] := by
    cases name <;> simp [allSubnodes, subnodes]
  exact ⟨_, hroot, name, hmem, hcolumn, congrArg Position.column hplace⟩

end Node

end LiveLisp
