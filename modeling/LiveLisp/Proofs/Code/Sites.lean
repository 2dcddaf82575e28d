/-
  Every definition of a program has one site. Compiled code has as many sites of a name and place as
  its nodes have definitions of that name and place (`length_sitesIn`), and no two nodes of a
  program stand at one place. So the code of a program has one body for each definition that was
  found, the one that the definition compiles to by itself, and the code of a definition has one for
  each definition inside it (`sites_of_definitions`).
-/
import LiveLisp.Proofs.Code.Making
import LiveLisp.Proofs.Code.Renumbered

namespace LiveLisp

namespace Node

mutual
/-- A node and all nodes below it, in the order of the text. -/
def subnodes : Node → List Node
  | list items span => list items span :: allSubnodes items
  | node => [node]
def allSubnodes : List Node → List Node
  | [] => []
  | node :: nodes => subnodes node ++ allSubnodes nodes
end

/-- One node lies strictly inside another. -/
def Inside (a b : Node) : Prop :=
  ∃ k, a ∈ b.layer (k + 1)

variable {a b node head : Node} {items nodes others : List Node} {span place : Span} {f : String}

theorem subnodes_eq (node : Node) : node.subnodes = node :: allSubnodes node.children := by
  cases node <;> rfl

theorem allSubnodes_cons (node : Node) (nodes : List Node) :
    allSubnodes (node :: nodes) = subnodes node ++ allSubnodes nodes := rfl

theorem allSubnodes_eq_flatMap (nodes : List Node) :
    allSubnodes nodes = nodes.flatMap subnodes := by
  induction nodes with
  | nil => rfl
  | cons node nodes ih => rw [allSubnodes_cons, ih, List.flatMap_cons]

mutual
theorem starts_eq_map (node : Node) : node.starts = node.subnodes.map (·.span.start) := by
  cases node with
  | list items span => exact congrArg (span.start :: ·) (allStarts_eq_map items)
  | _ => rfl
termination_by structural node
theorem allStarts_eq_map (nodes : List Node) :
    allStarts nodes = (allSubnodes nodes).map (·.span.start) := by
  cases nodes with
  | nil => rfl
  | cons node nodes =>
    rw [allSubnodes_cons, List.map_append, ← starts_eq_map node, ← allStarts_eq_map nodes]
    rfl
termination_by structural nodes
end

theorem self_mem_subnodes (node : Node) : node ∈ node.subnodes := by
  rw [subnodes_eq]
  exact List.mem_cons_self ..

theorem subnodes_subset_of_layer {k : Nat} (h : a ∈ node.layer k) : a.subnodes ⊆ node.subnodes := by
  induction k generalizing node with
  | zero =>
    rw [List.mem_singleton.mp h]
    exact List.Subset.refl _
  | succ k ih =>
    obtain ⟨child, hchild, h⟩ := List.mem_flatMap.mp h
    intro b hb
    rw [subnodes_eq, allSubnodes_eq_flatMap]
    exact List.mem_cons_of_mem _ (List.mem_flatMap.mpr ⟨child, hchild, ih h hb⟩)

mutual
theorem exists_layer (node : Node) (h : a ∈ node.subnodes) : ∃ k, a ∈ node.layer k := by
  cases node with
  | list items span =>
    rcases List.mem_cons.mp h with rfl | h
    · exact ⟨0, List.mem_singleton_self _⟩
    · obtain ⟨k, hk⟩ := exists_layer_all items h
      exact ⟨k + 1, hk⟩
  | _ => exact ⟨0, h⟩
termination_by structural node
theorem exists_layer_all (nodes : List Node) (h : a ∈ allSubnodes nodes) :
    ∃ k, a ∈ nodes.flatMap (layer k) := by
  cases nodes with
  | nil => cases h
  | cons node nodes =>
    rcases List.mem_append.mp h with h | h
    · obtain ⟨k, hk⟩ := exists_layer node h
      exact ⟨k, List.mem_append_left _ hk⟩
    · obtain ⟨k, hk⟩ := exists_layer_all nodes h
      exact ⟨k, List.mem_append_right _ hk⟩
termination_by structural nodes
end

theorem mem_allSubnodes_iff : a ∈ allSubnodes nodes ↔ ∃ k, a ∈ nodes.flatMap (layer k) := by
  refine ⟨exists_layer_all nodes, fun ⟨k, h⟩ => ?_⟩
  obtain ⟨node, hnode, h⟩ := List.mem_flatMap.mp h
  rw [allSubnodes_eq_flatMap]
  exact List.mem_flatMap.mpr ⟨node, hnode, subnodes_subset_of_layer h (self_mem_subnodes a)⟩

theorem inside_iff : a.Inside b ↔ a ∈ allSubnodes b.children :=
  mem_allSubnodes_iff.symm

/-! ## Definitions among nodes -/

/-- Whether a node is a definition of this name, at this place. -/
def declares (f : String) (place : Span) (node : Node) : Bool :=
  node.span == place && (Definition.ofNode? node 0).map (·.name) == some f

/-- How many definitions of a name there are at a place. -/
def tally (f : String) (place : Span) (nodes : List Node) : Nat :=
  (allSubnodes nodes).countP (declares f place)

theorem tally_cons (node : Node) (nodes : List Node) :
    tally f place (node :: nodes) = tally f place [node] + tally f place nodes := by
  unfold tally
  rw [allSubnodes_cons, allSubnodes_cons, List.countP_append, List.countP_append]
  rfl

theorem tally_singleton (node : Node) :
    tally f place [node] = tally f place node.children + if declares f place node
      then 1 else 0 := by
  unfold tally
  rw [allSubnodes_cons, subnodes_eq, List.cons_append, List.countP_cons]
  exact congrArg (fun nodes => List.countP _ nodes + _) (List.append_nil _)

/-- What a definition looks like. -/
theorem eq_list_of_declares (h : declares f place node = true) :
    ∃ headSpan nameSpan params paramsSpan body names,
    node = .list (.identifier "defn" headSpan :: .identifier f nameSpan ::
      .list params paramsSpan :: body) place ∧
      Definition.names? params = some names := by
  unfold declares Definition.ofNode? at h
  rw [Bool.and_eq_true, beq_iff_eq, beq_iff_eq] at h
  obtain ⟨hplace, h⟩ := h
  split at h
  · cases hnames : Definition.names? _ with
    | none =>
      rw [hnames] at h
      cases h
    | some names =>
      rw [hnames] at h
      cases h
      cases hplace
      exact ⟨_, _, _, _, _, names, rfl, hnames⟩
  · cases h

theorem declares_list (hhead : head.keyword? ≠ some .defn) :
    declares f place (.list (head :: items) span) = false := by
  by_contra h
  obtain ⟨_, _, _, _, _, _, hnode, -⟩ := eq_list_of_declares (Bool.not_eq_false _ ▸ h)
  cases hnode
  exact hhead rfl

theorem tally_list (hhead : head.keyword? ≠ some .defn) :
    tally f place [.list (head :: items) span] = tally f place (head :: items) := by
  rw [tally_singleton, declares_list hhead]
  rfl

/-- What is no list is no definition, and nothing is below it. -/
theorem tally_leaf (h : ∀ items span, node ≠ .list items span) : tally f place [node] = 0 := by
  have hself : declares f place node = false := by
    by_contra hdeclares
    obtain ⟨_, _, _, _, _, _, hnode, -⟩ := eq_list_of_declares (Bool.not_eq_false _ ▸ hdeclares)
    exact h _ _ hnode
  rw [tally_singleton, hself]
  cases node with
  | list items span => exact absurd rfl (h items span)
  | _ => rfl

theorem tally_identifier (name : String) (span : Span) :
    tally f place [.identifier name span] = 0 :=
  tally_leaf nofun

theorem tally_head {keyword : Keyword} (hk : head.keyword? = some keyword) :
    tally f place [head] = 0 := by
  obtain ⟨name, hname, -⟩ := Option.bind_eq_some_iff.mp hk
  cases head with
  | identifier other span => exact tally_identifier other span
  | _ => cases hname

/-- A form that begins with a keyword, if it is no `defn`. -/
theorem tally_form {keyword : Keyword} (hk : head.keyword? = some keyword) (hne : keyword ≠ .defn) :
    tally f place [.list (head :: items) span] = tally f place items := by
  rw [tally_list (by rw [hk]; simpa using hne), tally_cons, tally_head hk, Nat.zero_add]

theorem identifiers_of_names? {names : List String} (h : Definition.names? nodes = some names) :
    ∀ node ∈ nodes, ∃ name span, node = .identifier name span := by
  induction nodes generalizing names with
  | nil => exact fun _ hmem => (by cases hmem)
  | cons node nodes ih =>
    unfold Definition.names? at h ih
    rw [List.mapM_cons] at h
    obtain ⟨name, hname, h⟩ := Option.bind_eq_some_iff.mp h
    obtain ⟨rest, hrest, -⟩ := Option.bind_eq_some_iff.mp h
    refine List.forall_mem_cons.mpr ⟨?_, ih hrest⟩
    cases node with
    | identifier other span => exact ⟨other, span, rfl⟩
    | _ => cases hname

/-- A list of parameters is no definition, and none is in it. -/
theorem tally_params {names : List String} (h : Definition.names? nodes = some names) :
    tally f place [.list nodes span] = 0 := by
  have hleaves := identifiers_of_names? h
  have hself : declares f place (.list nodes span) = false := by
    by_contra hdeclares
    obtain ⟨_, _, params, paramsSpan, _, _, hnode, -⟩ :=
      eq_list_of_declares (Bool.not_eq_false _ ▸ hdeclares)
    cases hnode
    obtain ⟨_, _, hlist⟩ := hleaves (.list params paramsSpan) (by simp)
    cases hlist
  have hbelow : ∀ nodes : List Node, (∀ node ∈ nodes, ∃ name span, node = .identifier name span) →
      tally f place nodes = 0 := by
    intro nodes
    induction nodes with
    | nil => exact fun _ => rfl
    | cons node nodes ih =>
      intro h
      obtain ⟨⟨name, span, rfl⟩, hnodes⟩ := List.forall_mem_cons.mp h
      rw [tally_cons, tally_identifier, ih hnodes]
  rw [tally_singleton, hself]
  exact hbelow nodes hleaves

end Node

/-! ## Sites in compiled code -/

namespace Code

open Node

variable {f : String} {place span : Span} {is js : List Instruction}

/-- Only what pushes may be followed by sites of its own. -/
theorem sitesIn_skip {op : Op} (hop : ∀ v, op ≠ .push v) (origin : Span) :
    sitesIn f place (⟨op, origin⟩ :: is) = sitesIn f place is := by
  cases op with
  | push v => exact absurd rfl (hop v)
  | _ => rfl

theorem invocation_ne_push (tail : Bool) (argc : Nat) (v : Value) :
    Compile.invocation tail argc ≠ .push v := by
  cases tail <;> exact nofun

variable {unit : Nat}

theorem length_sitesIn_branch {cs ys ns : List Instruction} {c y n : Nat}
    (hc : ∀ js, (sitesIn f place (cs ++ js)).length = c + (sitesIn f place js).length)
    (hy : ∀ js, (sitesIn f place (ys ++ js)).length = y + (sitesIn f place js).length)
    (hn : ∀ js, (sitesIn f place (ns ++ js)).length = n + (sitesIn f place js).length)
    (js : List Instruction) :
    (sitesIn f place (Compile.branch span cs ys ns ++ js)).length = c + (y + n) +
    (sitesIn f place js).length := by
  unfold Compile.branch
  simp only [List.append_assoc, List.cons_append, List.nil_append]
  rw [hc, sitesIn_skip (by simp), hy, sitesIn_skip (by simp), hn]
  omega

theorem length_sitesIn_function {paramsSpan : Span} {name : Option String}
    {params : List String} {n : Nat} (h : ∀ js, (sitesIn f place (is ++ js)).length = n +
      (sitesIn f place js).length) (js : List Instruction) :
    (sitesIn f place (Compile.function unit name params paramsSpan is span ++ js)).length =
      (if name = some f ∧ span = place then 1 else 0) + n + (sitesIn f place js).length := by
  have hbody : (sitesAt f place ⟨⟨unit, some span⟩, is ++ [⟨.ret, span⟩]⟩).length = n :=
    h [⟨.ret, span⟩]
  have hself : (if registers f (⟨.buildFunction name, span⟩ :: js) && span == place then
      [(⟨⟨unit, some span⟩, is ++ [⟨.ret, span⟩]⟩ : Code)] else []).length =
      if name = some f ∧ span = place then 1 else 0 := by
    cases name with
    | none => simp [registers]
    | some other =>
      by_cases hother : other = f <;> by_cases hspan :
        span = place <;> simp [registers, hother, hspan]
  unfold Compile.function
  rw [List.cons_append, List.cons_append, List.cons_append, List.nil_append,
    sitesIn_function, List.length_append, List.length_append, hself, hbody]

/-- A form with one more instruction after its code. -/
theorem length_sitesIn_then {op : Op} {n : Nat} (hop : ∀ v, op ≠ .push v)
    (h : ∀ js, (sitesIn f place (is ++ js)).length = n + (sitesIn f place js).length)
    (js : List Instruction) :
    (sitesIn f place (is ++ [⟨op, span⟩] ++ js)).length = n + (sitesIn f place js).length := by
  rw [List.append_assoc, h, List.cons_append, List.nil_append, sitesIn_skip hop]

theorem length_sitesIn_append {n m : Nat}
    (h : ∀ js, (sitesIn f place (is ++ js)).length = n + (sitesIn f place js).length)
    {is' : List Instruction}
    (h' : ∀ js, (sitesIn f place (is' ++ js)).length = m + (sitesIn f place js).length)
    (js : List Instruction) :
    (sitesIn f place (is ++ is' ++ js)).length = n + m + (sitesIn f place js).length := by
  rw [List.append_assoc, h, h']
  omega

theorem length_sitesIn_constant (v : Value) (js : List Instruction) :
    (sitesIn f place ([⟨.loadConstant v, span⟩] ++ js)).length = 0 +
    (sitesIn f place js).length := by
  rw [List.cons_append, List.nil_append, sitesIn_skip (by simp), Nat.zero_add]

theorem tally_defn {head params : Node} {name : String} {nameSpan : Span}
    {names : List String} {body : List Node} (hk : head.keyword? = some .defn)
    (hp : Compile.parameterList params = .ok names) :
    tally f place [.list (head :: .identifier name nameSpan :: params :: body) span] =
      (if some name = some f ∧ span = place then 1 else 0) + tally f place body := by
  have hself : declares f place (.list (head :: .identifier name nameSpan :: params :: body) span) =
      (span == place && some name == some f) := by
    unfold declares
    rw [Definition.ofNode?_defn hk hp]
    rfl
  obtain ⟨nodes, paramsSpan, rfl, hnames⟩ := Compile.parameterList_eq_ok hp
  rw [tally_singleton, hself]
  show tally f place (head :: .identifier name nameSpan :: .list nodes paramsSpan :: body) + _ = _
  rw [tally_cons, tally_head hk, tally_cons, tally_identifier, tally_cons (.list nodes paramsSpan),
    tally_params hnames]
  by_cases hname : name = f <;> by_cases hspan : span = place <;> simp [hname, hspan, Nat.add_comm]

/-- Compiled code has as many sites as its nodes have definitions. Whatever follows it has sites of
its own. -/
theorem length_sitesIn {part : Part} (h : Compiles unit part is) (f : String) (place : Span)
    (js : List Instruction) :
    (sitesIn f place (is ++ js)).length = tally f place part.nodes +
    (sitesIn f place js).length := by
  induction h generalizing js with
  | number =>
    rw [Part.nodes, tally_leaf (by simp)]
    exact length_sitesIn_constant _ js
  | text =>
    rw [Part.nodes, tally_leaf (by simp)]
    exact length_sitesIn_constant _ js
  | literal =>
    rw [Part.nodes, tally_identifier]
    exact length_sitesIn_constant _ js
  | name =>
    rw [Part.nodes, tally_identifier, Nat.zero_add]
    exact congrArg List.length (sitesIn_skip (by simp) _)
  | define hk _ ih =>
    rw [Part.nodes, tally_form hk (by decide), tally_cons, tally_identifier, Nat.zero_add]
    exact length_sitesIn_then (by simp) ih js
  | assign hk _ ih =>
    rw [Part.nodes, tally_form hk (by decide), tally_cons, tally_identifier, Nat.zero_add]
    exact length_sitesIn_then (by simp) ih js
  | lambda hk hp _ ih =>
    obtain ⟨nodes, paramsSpan, rfl, hnames⟩ := Compile.parameterList_eq_ok hp
    rw [Part.nodes, tally_form hk (by decide), tally_cons, tally_params hnames,
      length_sitesIn_function ih]
    simp [Part.nodes]
  | defn hk hp _ ih =>
    rw [Part.nodes, tally_defn hk hp]
    exact length_sitesIn_function ih js
  | ifThen hk _ _ _ ihc ihy =>
    rw [Part.nodes, tally_form hk (by decide), tally_cons]
    exact length_sitesIn_branch ihc ihy (length_sitesIn_constant .null) js
  | ifThenElse hk _ _ _ _ _ ihc ihy ihn =>
    rw [Part.nodes, tally_form hk (by decide), tally_cons _ [_, _], tally_cons _ [_]]
    exact length_sitesIn_branch ihc ihy ihn js
  | sequence hk _ ih =>
    rw [Part.nodes, tally_form hk (by decide)]
    exact ih js
  | @callName tail name items headSpan span args hk _ ih =>
    have hhead : (Node.identifier name headSpan).keyword? ≠ some .defn := by
      rw [Node.keyword?, Node.name?, Option.bind_some, hk]
      simp
    rw [Part.nodes, tally_list hhead, tally_cons, tally_identifier, Nat.zero_add]
    refine length_sitesIn_then (invocation_ne_push _ _) (fun js => ?_) js
    rw [List.append_assoc, List.cons_append, List.nil_append, sitesIn_skip (by simp)]
    exact ih js
  | @call tail head items span callee args hname _ _ ihc iha =>
    have hhead : head.keyword? ≠ some .defn := by
      rw [Node.keyword?, hname]
      simp
    rw [Part.nodes, tally_list hhead, tally_cons]
    exact length_sitesIn_then (invocation_ne_push _ _) (length_sitesIn_append ihc iha) js
  | nothing => exact length_sitesIn_constant .null js
  | last _ ih => exact ih js
  | next _ _ ih ihs =>
    rw [Part.nodes, tally_cons]
    exact length_sitesIn_append (length_sitesIn_then (by simp) ih) ihs js
  | noArguments => exact (Nat.zero_add _).symm
  | argument _ _ ih ihs =>
    rw [Part.nodes, tally_cons]
    exact length_sitesIn_append ih ihs js

theorem length_sites_ofProgram {root : Node} {code : Code}
    (h : ofProgram unit root = .ok code) (d : Definition) :
    (code.sites d).length = tally d.name d.node.span [root] := by
  obtain ⟨is, his, h⟩ := except_bind_eq_ok h
  cases h
  exact length_sitesIn (compiles_expression his) d.name d.node.span [⟨.ret, root.span⟩]

theorem length_sites_ofDefinition {e : Definition} {code : Code}
    (h : ofDefinition unit e = .ok code) (d : Definition) :
    (code.sites d).length = tally d.name d.node.span e.body := by
  obtain ⟨is, his, rfl⟩ := ofDefinition_eq_ok h
  exact length_sitesIn his d.name d.node.span [⟨.ret, e.node.span⟩]

end Code

/-! ## Definitions and their places -/

namespace Node

variable {nodes : List Node} {node : Node} {d : Definition} {depth : Nat}

theorem declares_of_ofNode? (h : Definition.ofNode? node depth = some d) :
    declares d.name d.node.span d.node = true := by
  unfold Definition.ofNode? at h
  split at h
  · obtain ⟨names, hnames, rfl⟩ := Option.map_eq_some_iff.mp h
    simp [declares, Definition.ofNode?, hnames]
  · cases h

/-- Below a definition only its body counts. -/
theorem tally_children {f : String} {place : Span} (h : Definition.ofNode? node depth = some d) :
    tally f place node.children = tally f place d.body := by
  unfold Definition.ofNode? at h
  split at h
  · obtain ⟨names, hnames, rfl⟩ := Option.map_eq_some_iff.mp h
    rw [children, tally_cons, tally_identifier, tally_cons, tally_identifier, tally_cons,
      tally_params hnames]
    simp
  · cases h

/-- Where nodes stand at different places, a definition is counted once if it is there. -/
theorem tally_eq_one (hplaces : (allStarts nodes).Nodup)
    (hd : Definition.ofNode? node depth = some d) (hmem : d.node ∈ allSubnodes nodes) :
    tally d.name d.node.span nodes = 1 := by
  have hle : tally d.name d.node.span nodes ≤ (allStarts nodes).count d.node.span.start := by
    rw [allStarts_eq_map, List.count, List.countP_map]
    refine List.countP_mono_left fun a _ ha => ?_
    obtain ⟨_, _, _, _, _, _, rfl, -⟩ := eq_list_of_declares ha
    exact beq_self_eq_true d.node.span.start
  have honce := List.nodup_iff_count_le_one.mp hplaces d.node.span.start
  have hpos : 0 < tally d.name d.node.span nodes :=
    List.countP_pos_iff.mpr ⟨d.node, hmem, declares_of_ofNode? hd⟩
  omega

theorem tally_eq_zero {f : String} {place : Span} (h : ∀ a ∈ allSubnodes nodes, a.span ≠ place) :
    tally f place nodes = 0 := by
  refine List.countP_eq_zero.mpr fun a ha hdeclares => ?_
  obtain ⟨_, _, _, _, _, _, rfl, -⟩ := eq_list_of_declares hdeclares
  exact h _ ha rfl

theorem nodup_starts_of_layer (hplaces : (allStarts nodes).Nodup) {k : Nat}
    (h : node ∈ nodes.flatMap (layer k)) :
    node.starts.Nodup := by
  induction k generalizing nodes with
  | zero =>
    obtain ⟨a, ha, h⟩ := List.mem_flatMap.mp h
    rw [List.mem_singleton.mp h]
    exact nodup_starts hplaces ha
  | succ k ih =>
    obtain ⟨a, ha, h⟩ := List.mem_flatMap.mp h
    have hbelow := nodup_starts hplaces ha
    rw [starts_eq, List.nodup_cons] at hbelow
    exact ih hbelow.2 h

end Node

namespace Code

open Node

variable {root : Node} {unit : Nat} {code : Code} {d e : Definition}

/-- A site of a definition is what the definition compiles to by itself. -/
theorem compiled_of_mem_sites {source : String} (hroot : Node.ofProgram source = .ok root)
    (hcode : ofProgram unit root = .ok code) (hd : d ∈ root.definitions) {site : Code}
    (hsite : site ∈ code.sites d) :
    ofDefinition unit d = .ok site := by
  obtain ⟨forms, doSpan, span, hforms, -⟩ := nodup_starts_of_ofProgram hroot
  unfold sites at hsite
  rw [← sitesIn_instructions] at hsite
  obtain ⟨⟨params, hknown⟩, hform⟩ :=
    (unmarks_of_program (operands root unit) hforms hcode).of_mem_sitesIn
    (stampedIn_instructions.mpr (stamped_ofProgram hcode)) hsite
  obtain ⟨d', hd', -, -, hcompiled⟩ := hknown d.name rfl
  rw [id_of_ofDefinition hcompiled] at hform
  obtain rfl := Definition.eq_of_span hroot hd' hd (Option.some.inj hform)
  exact hcompiled

/-- In the code of a program there is one site for each definition. -/
theorem length_sites_of_mem {source : String} (hroot : Node.ofProgram source = .ok root)
    (hcode : ofProgram unit root = .ok code) (hd : d ∈ root.definitions) :
    (code.sites d).length = 1 := by
  obtain ⟨forms, doSpan, span, rfl, hplaces⟩ := nodup_starts_of_ofProgram hroot
  obtain ⟨k, hlayer, hof⟩ := Definition.mem_layer_of_mem hd
  have hdo : (Node.identifier "do" doSpan).keyword? = some .sequence := rfl
  rw [length_sites_ofProgram hcode, tally_form hdo (by decide)]
  exact tally_eq_one hplaces hof (mem_allSubnodes_iff.mpr ⟨k, hlayer⟩)

/-- What stands in a definition at the place of another one is that one. -/
theorem eq_node_of_span {source : String} (hroot : Node.ofProgram source = .ok root)
    (hd : d ∈ root.definitions) (he : e ∈ root.definitions) {a : Node} (ha : a ∈ e.node.subnodes)
    (hspan : a.span = d.node.span) : a = d.node := by
  obtain ⟨forms, doSpan, span, rfl, hplaces⟩ := nodup_starts_of_ofProgram hroot
  obtain ⟨k, hlayer, -⟩ := Definition.mem_layer_of_mem hd
  obtain ⟨j, hlayer', -⟩ := Definition.mem_layer_of_mem he
  obtain ⟨form, hform, he'⟩ := List.mem_flatMap.mp hlayer'
  obtain ⟨i, hi⟩ := exists_layer form (subnodes_subset_of_layer he' ha)
  exact (eq_of_start hplaces (List.mem_flatMap.mpr ⟨form, hform, hi⟩) hlayer
    (congrArg Span.start hspan)).1

/-- In the code of a definition there is one site for each definition inside it. -/
theorem length_sites_inside {source : String} (hroot : Node.ofProgram source = .ok root)
    (hcode : ofDefinition unit e = .ok code) (he : e ∈ root.definitions)
    (hd : d ∈ root.definitions) :
    (d.node.Inside e.node → (code.sites d).length = 1) ∧
    (¬ d.node.Inside e.node → (code.sites d).length = 0) := by
  have hsame {a : Node} (ha : a ∈ allSubnodes e.node.children) (hspan : a.span = d.node.span) :
    a = d.node :=
    eq_node_of_span hroot hd he (by rw [subnodes_eq]; exact List.mem_cons_of_mem _ ha) hspan
  obtain ⟨forms, doSpan, span, rfl, hplaces⟩ := nodup_starts_of_ofProgram hroot
  obtain ⟨k, -, hof⟩ := Definition.mem_layer_of_mem hd
  obtain ⟨j, hlayer, hof'⟩ := Definition.mem_layer_of_mem he
  rw [length_sites_ofDefinition hcode, ← tally_children hof', inside_iff]
  have hbelow := nodup_starts_of_layer hplaces hlayer
  rw [starts_eq, List.nodup_cons] at hbelow
  refine ⟨tally_eq_one hbelow.2 hof, fun houtside => tally_eq_zero fun a ha hspan => houtside ?_⟩
  rwa [← hsame ha hspan]

end Code

/-- Every definition that is found compiles by itself, under any number. The code of the program has
one site of it, with the same instructions and places but for the number; the code of another
definition has one if the one lies strictly inside the other, and none if not. -/
theorem Definition.sites_of_definitions {source : String} {root : Node} {ds : List Definition}
    {unit : Nat} {code : Code} (hroot : Node.ofProgram source = .ok root)
    (hfind : Definition.find root = .ok ds) (hcode : Code.ofProgram unit root = .ok code) :
    ∀ d ∈ ds, ∀ number : Nat,
      (∃ fresh body, Code.ofDefinition number d = .ok fresh ∧ code.sites d = [body] ∧
        body.renumbered number = fresh) ∧
      ∀ e ∈ ds, ∃ outer, Code.ofDefinition number e = .ok outer ∧
        (d.node.Inside e.node → ∃ inner, outer.sites d = [inner]) ∧
        (¬ d.node.Inside e.node → outer.sites d = []) := by
  have hsubset := (find_eq_ok hfind).2
  have hcompiles : ∀ d ∈ ds, ∀ number : Nat, ∃ fresh body,
      Code.ofDefinition number d = .ok fresh ∧ code.sites d = [body] ∧
        body.renumbered number = fresh := by
    intro d hd number
    obtain ⟨body, hbody⟩ :=
      List.length_eq_one_iff.mp (Code.length_sites_of_mem hroot hcode (hsubset hd))
    have hcompiled :=
      Code.compiled_of_mem_sites hroot hcode (hsubset hd) (hbody ▸ List.mem_singleton_self body)
    exact ⟨_, body, Code.ofDefinition_renumbered number hcompiled, hbody, rfl⟩
  intro d hd number
  refine ⟨hcompiles d hd number, fun e he => ?_⟩
  obtain ⟨outer, -, houter, -, -⟩ := hcompiles e he number
  obtain ⟨hinside, houtside⟩ := Code.length_sites_inside hroot houter (hsubset he) (hsubset hd)
  exact ⟨outer, houter, fun h => List.length_eq_one_iff.mp (hinside h),
    fun h => List.length_eq_zero_iff.mp (houtside h)⟩

/-- One function inside another: the program and the outer body have a site of the inner one, the
inner body has none of the outer one. -/
theorem Definition.sites_of_definitions_nested : ∃ root ds code,
    Node.ofProgram "(defn f () (defn g () 1)) (f)" = .ok root ∧ find root = .ok ds ∧
      Code.ofProgram 0 root = .ok code ∧
    ∃ f ∈ ds, ∃ g ∈ ds, f.name = "f" ∧ g.name = "g" ∧
      (∃ fresh body, Code.ofDefinition 1 g = .ok fresh ∧ code.sites g = [body] ∧
        body.renumbered 1 = fresh) ∧
      (∃ outer inner, Code.ofDefinition 1 f = .ok outer ∧ outer.sites g = [inner]) ∧
      ∃ outer, Code.ofDefinition 1 g = .ok outer ∧ outer.sites f = [] := by
  have hrun : yields (fun root => yields (fun ds => yields (fun _ =>
        ds.any fun f => ds.any fun g => f.name == "f" && g.name == "g" &&
          ((f.node.layer 1).any fun a => a.span == g.node.span) && g.node.height == 2 &&
            f.node.height == 3)
        (Code.ofProgram 0 root)) (find root))
      (Node.ofProgram "(defn f () (defn g () 1)) (f)") = true := by decide +kernel
  obtain ⟨root, hroot, hrun⟩ := yields_iff.mp hrun
  obtain ⟨ds, hfind, hrun⟩ := yields_iff.mp hrun
  obtain ⟨code, hcode, hrun⟩ := yields_iff.mp hrun
  simp only [List.any_eq_true, Bool.and_eq_true, beq_iff_eq] at hrun
  obtain ⟨f, hf, g, hg, ⟨⟨⟨hfname, hgname⟩, a, ha, hspan⟩, hgheight⟩, hfheight⟩ := hrun
  have hsubset := (find_eq_ok hfind).2
  have hinside : g.node.Inside f.node := by
    have hmem := Node.subnodes_subset_of_layer ha (Node.self_mem_subnodes a)
    exact ⟨0, Code.eq_node_of_span hroot (hsubset hg) (hsubset hf) hmem hspan ▸ ha⟩
  have houtside : ¬ f.node.Inside g.node := by
    rintro ⟨k, hk⟩
    have hlt := Node.lt_height_of_mem_layer hk
    obtain rfl : k = 0 := by omega
    obtain ⟨child, hchild, hsame⟩ := List.mem_flatMap.mp hk
    have := Node.height_lt_of_mem_children hchild
    rw [← List.mem_singleton.mp hsame] at this
    omega
  have hsites := sites_of_definitions hroot hfind hcode
  obtain ⟨hfresh, hinner⟩ := hsites g hg 1
  obtain ⟨outer, houter, hone, -⟩ := hinner f hf
  obtain ⟨inner, hinner, -, hnone⟩ := (hsites f hf 1).2 g hg
  obtain ⟨site, hsite⟩ := hone hinside
  exact ⟨root, ds, code, hroot, hfind, hcode, f, hf, g, hg, hfname, hgname, hfresh,
    ⟨outer, site, houter, hsite⟩, inner,
    hinner, hnone houtside⟩

end LiveLisp
