/-
  The functions of a program without the places they stand at: each is a name and a signature, and
  both are read off the form. In a program that compiles every list that begins with `defn` is a
  definition (`isDefinition_of_compiles`), so the definitions that are found by depth are those that
  a walk through the form meets, in another order (`Node.perm_functions`).
-/
import Mathlib.Data.List.Perm.Basic
import LiveLisp.Proofs.Code.Sites
import LiveLisp.Proofs.Tree.Outline

namespace LiveLisp

namespace Form

/-! ## Functions of a form -/

/-- A list that begins with `defn`. -/
def isDefn : Form → Bool
  | list (identifier name :: _) => name == "defn"
  | _ => false

mutual
/-- The `defn` lists in a form, itself included, in the order of the text. -/
def defns : Form → List Form
  | list items => if (list items).isDefn then list items :: allDefns items else allDefns items
  | _ => []
def allDefns : List Form → List Form
  | [] => []
  | form :: forms => defns form ++ allDefns forms
end

mutual
/-- The form with every `defn` in it cut to its head, name and parameters. -/
def mask : Form → Form
  | list items => if (list items).isDefn then list (items.take 3) else list (masks items)
  | form => form
def masks : List Form → List Form
  | [] => []
  | form :: forms => mask form :: masks forms
end

/-- The name of a `defn` list, and its signature. -/
def function? : Form → Option (String × Form)
  | list (head :: identifier name :: items) =>
    some (name, list (masks (head :: identifier name :: items)))
  | _ => none

/-- Names and signatures of the functions in a form. -/
def functions (form : Form) : List (String × Form) :=
  form.defns.filterMap function?

def allFunctions (forms : List Form) : List (String × Form) :=
  (allDefns forms).filterMap function?

/-- A definition as it is written. -/
def definition (name : String) (params : List String) (body : List Form) : Form :=
  list (identifier "defn" :: identifier name :: list (params.map identifier) :: body)

/-- The signature of a definition. -/
def signature (name : String) (params : List String) (body : List Form) : Form :=
  list (masks (identifier "defn" :: identifier name :: list (params.map identifier) :: body))

def IsDefinition (form : Form) : Prop :=
  ∃ name params body, "defn" ∉ params ∧ form = definition name params body

variable {f g : Form} {fs gs items : List Form} {name : String} {params : List String}

theorem defns_list (items : List Form) :
    (list items).defns = if (list items).isDefn then list items :: allDefns items
    else allDefns items := rfl

theorem allDefns_cons (f : Form) (fs : List Form) :
    allDefns (f :: fs) = f.defns ++ allDefns fs := rfl

theorem allDefns_append (fs gs : List Form) : allDefns (fs ++ gs) = allDefns fs ++ allDefns gs := by
  induction fs with
  | nil => rfl
  | cons f fs ih => rw [List.cons_append, allDefns_cons, allDefns_cons, ih, List.append_assoc]

theorem defns_subset_of_mem (h : f ∈ fs) : f.defns ⊆ allDefns fs := by
  obtain ⟨before, after, rfl⟩ := List.append_of_mem h
  rw [allDefns_append, allDefns_cons]
  exact List.Subset.trans (List.subset_append_left _ _) (List.subset_append_right _ _)

theorem allDefns_identifiers (names : List String) : allDefns (names.map identifier) = [] := by
  induction names with
  | nil => rfl
  | cons name names ih => exact ih

theorem allDefns_subset (items : List Form) : allDefns items ⊆ (list items).defns := by
  rw [defns_list]
  split
  · exact List.subset_cons_self _ _
  · exact List.Subset.refl _

theorem allFunctions_subset (items : List Form) : allFunctions items ⊆ (list items).functions :=
  List.filterMap_subset _ (allDefns_subset items)

theorem self_mem_defns (h : f.isDefn = true) : f ∈ f.defns := by
  cases f with
  | list items =>
    rw [defns_list, if_pos h]
    exact List.mem_cons_self ..
  | _ => cases h

theorem IsDefinition.free {body : List Form} (h : (definition name params body).IsDefinition) :
    "defn" ∉ params := by
  obtain ⟨other, params', body', hfree, heq⟩ := h
  simp only [definition, Form.list.injEq, List.cons.injEq, Form.identifier.injEq, true_and] at heq
  intro hmem
  have hmem' := List.mem_map_of_mem (f := identifier) hmem
  rw [heq.2.1] at hmem'
  obtain ⟨param, hparam, hname⟩ := List.mem_map.mp hmem'
  cases hname
  exact hfree hparam

theorem isDefn_params (h : "defn" ∉ params) : (list (params.map identifier)).isDefn = false := by
  cases params with
  | nil => rfl
  | cons param params =>
    rw [List.mem_cons, not_or] at h
    exact beq_false_of_ne (Ne.symm h.1)

theorem defns_params (h : "defn" ∉ params) : (list (params.map identifier)).defns = [] := by
  rw [defns_list, isDefn_params h, allDefns_identifiers]
  rfl

theorem mask_list (items : List Form) :
    (list items).mask = if (list items).isDefn then list (items.take 3) else list (masks items) :=
    rfl

theorem masks_eq_map (fs : List Form) : masks fs = fs.map mask := by
  induction fs with
  | nil => rfl
  | cons f fs ih => rw [masks, ih, List.map_cons]

theorem allFunctions_append (fs gs : List Form) :
    allFunctions (fs ++ gs) = allFunctions fs ++ allFunctions gs := by
  rw [allFunctions, allDefns_append, List.filterMap_append]
  rfl

theorem allFunctions_cons (f : Form) (fs : List Form) :
    allFunctions (f :: fs) = f.functions ++ allFunctions fs :=
  List.filterMap_append

theorem functions_list (h : (list items).isDefn = false) :
    (list items).functions = allFunctions items := by
  rw [functions, defns_list, h]
  rfl

theorem defns_definition (h : "defn" ∉ params) (name : String) (body : List Form) :
    (definition name params body).defns = definition name params body :: allDefns body := by
  show definition name params body :: ((list (params.map identifier)).defns ++ allDefns body) = _
  rw [defns_params h]
  rfl

theorem functions_definition (h : "defn" ∉ params) (name : String) (body : List Form) :
    (definition name params body).functions = (name, signature name params body) ::
    allFunctions body := by
  rw [functions, defns_definition h]
  rfl

end Form

/-! ## Programs that compile -/

open Compile Form

theorem Compile.parameterList_form {node : Node} {names : List String}
    (h : parameterList node = .ok names) :
    node.form = .list (names.map Form.identifier) ∧ "defn" ∉ names := by
  cases node with
  | list nodes span =>
    obtain ⟨hforms, hfree⟩ := parameters_identifiers h
    exact ⟨congrArg Form.list hforms, hfree⟩
  | _ => cases h

namespace Node

variable {head : Node} {items : List Node} {span : Span} {k : Keyword}

/-- A keyword is an identifier. -/
theorem form_of_keyword? (h : head.keyword? = some k) :
    ∃ name, head.form = .identifier name ∧ Keyword.ofName? name = some k := by
  obtain ⟨name, hname, hk⟩ := Option.bind_eq_some_iff.mp h
  cases head with
  | identifier other span =>
    cases hname
    exact ⟨name, rfl, hk⟩
  | _ => cases hname

theorem defns_keyword (hk : head.keyword? = some k) (hne : k ≠ .defn) :
    (list (head :: items) span).form.defns = allDefns (forms items) := by
  obtain ⟨name, hname, hk⟩ := form_of_keyword? hk
  have hisDefn : (Form.list (forms (head :: items))).isDefn = false := by
    rw [forms, hname]
    refine beq_false_of_ne ?_
    rintro rfl
    exact hne (Option.some.inj hk).symm
  rw [form, defns_list, hisDefn, forms, hname]
  rfl

theorem defns_name {name : String} (hk : Keyword.ofName? name = none) (headSpan : Span) :
    (list (identifier name headSpan :: items) span).form.defns = allDefns (forms items) := by
  have hisDefn : (Form.list (forms (identifier name headSpan :: items))).isDefn = false := by
    refine beq_false_of_ne ?_
    rintro rfl
    cases hk
  rw [form, defns_list, hisDefn]
  rfl

theorem form_defn {params : Node} {name : String} {names : List String} {nameSpan : Span}
    (hk : head.keyword? = some .defn) (hparams : params.form = .list (names.map Form.identifier)) :
    (list (head :: identifier name nameSpan :: params :: items) span).form =
    definition name names (forms items) := by
  obtain ⟨headName, hhead, hk⟩ := form_of_keyword? hk
  simp only [form, forms, hhead, hparams, Keyword.ofName?_eq_defn hk, definition]

theorem defns_call (hname : head.name? = none) :
    (list (head :: items) span).form.defns = allDefns (forms (head :: items)) := by
  cases head with
  | identifier name span => cases hname
  | _ => rfl

end Node

/-- The `defn` lists in what is compiled as a whole. -/
def Part.defns : Part → List Form
  | .form _ node => node.form.defns
  | .body _ _ nodes => allDefns (Node.forms nodes)
  | .arguments nodes => allDefns (Node.forms nodes)

/-- In what compiles, every list that begins with `defn` is a definition. -/
theorem isDefinition_of_compiles {unit : Nat} {part : Part} {is : List Instruction}
    (h : Compiles unit part is) :
    ∀ e ∈ part.defns, e.IsDefinition := by
  have hcons {node : Node} {nodes : List Node} (hnode : ∀ e ∈ node.form.defns, e.IsDefinition)
      (hnodes : ∀ e ∈ allDefns (Node.forms nodes), e.IsDefinition) :
      ∀ e ∈ allDefns (Node.forms (node :: nodes)), e.IsDefinition :=
    fun e he => (List.mem_append.mp he).elim (hnode e) (hnodes e)
  have hnone : ∀ e ∈ ([] : List Form), e.IsDefinition := List.forall_mem_nil _
  induction h with
  | number => exact hnone
  | text => exact hnone
  | literal => exact hnone
  | name => exact hnone
  | define hk hv ih | assign hk hv ih =>
    rw [Part.defns, Node.defns_keyword hk (by decide)]
    exact hcons hnone (hcons ih hnone)
  | lambda hk hp hb ih =>
    obtain ⟨hparams, hfree⟩ := parameterList_form hp
    rw [Part.defns, Node.defns_keyword hk (by decide)]
    refine hcons ?_ ih
    rw [hparams, defns_params hfree]
    exact hnone
  | defn hk hp hb ih =>
    obtain ⟨hparams, hfree⟩ := parameterList_form hp
    rw [Part.defns, Node.form_defn hk hparams, defns_definition hfree]
    exact List.forall_mem_cons.mpr ⟨⟨_, _, _, hfree, rfl⟩, ih⟩
  | ifThen hk hc hy hpast ihc ihy =>
    rw [Part.defns, Node.defns_keyword hk (by decide)]
    exact hcons ihc (hcons ihy hnone)
  | ifThenElse hk hc hy hn hpast hend ihc ihy ihn =>
    rw [Part.defns, Node.defns_keyword hk (by decide)]
    exact hcons ihc (hcons ihy (hcons ihn hnone))
  | sequence hk hs ih =>
    rw [Part.defns, Node.defns_keyword hk (by decide)]
    exact ih
  | callName hk ha ih =>
    rw [Part.defns, Node.defns_name hk]
    exact ih
  | call hname hc ha ihc iha =>
    rw [Part.defns, Node.defns_call hname]
    exact hcons ihc iha
  | nothing => exact hnone
  | last h ih => exact hcons ih hnone
  | next h hs ih ihs => exact hcons ih ihs
  | noArguments => exact hnone
  | argument h hs ih ihs => exact hcons ih ihs

/-! ## Definitions that are found -/

namespace Node

variable {root a : Node}

/-- Walking by depth meets the same nodes as walking in the order of the text. -/
theorem perm_subnodes (node : Node) {n : Nat} (h : node.height ≤ n) :
    ((List.range n).flatMap (layer · node)).Perm node.subnodes := by
  have hswap (n : Nat) (nodes : List Node) :
    ((List.range n).flatMap fun k => nodes.flatMap (layer k)).Perm
      (nodes.flatMap fun node => (List.range n).flatMap (layer · node)) := by
    induction nodes with
    | nil => simp
    | cons node nodes ih =>
      simp only [List.flatMap_cons]
      exact (List.flatMap_append_perm _ _ _).symm.trans (ih.append_left _)
  induction n generalizing node with
  | zero => cases node <;> simp [height] at h
  | succ n ih =>
    rw [List.range_succ_eq_map, List.flatMap_cons, List.flatMap_map, subnodes_eq,
      allSubnodes_eq_flatMap]
    refine .cons node ((hswap n node.children).trans
      (List.Perm.flatMap_left _ fun child hchild => ?_))
    exact ih child (by have := height_lt_of_mem_children hchild; omega)

/-- A `defn` list begins with the identifier. -/
theorem isDefn_forms_iff {items : List Node} :
    (Form.list (forms items)).isDefn = true ↔ ∃ headSpan rest, items =
    .identifier "defn" headSpan :: rest := by
  constructor
  · intro h
    match items with
    | .identifier name headSpan :: rest => exact ⟨headSpan, rest, by rw [beq_iff_eq.mp h]⟩
    | [] => cases h
    | .number .. :: _ => cases h
    | .text .. :: _ => cases h
    | .list .. :: _ => cases h
  · rintro ⟨headSpan, rest, rfl⟩
    rfl

end Node

namespace Definition

mutual
theorem mask_eq (node : Node) : mask node = node.form.mask := by
  cases node with
  | list items span =>
    rw [mask.eq_def]
    split
    · next headSpan rest _ heq =>
      cases heq
      have hdefn := Node.isDefn_forms_iff.mpr ⟨headSpan, rest, rfl⟩
      rw [Node.form, mask_list, if_pos hdefn, Node.forms_eq_map, Node.forms_eq_map, List.map_take]
    · next _ hother heq =>
      cases heq
      have hisDefn : (Form.list (Node.forms items)).isDefn = false := by
        by_contra hdefn
        obtain ⟨headSpan, rest, rfl⟩ := Node.isDefn_forms_iff.mp (Bool.of_not_eq_false hdefn)
        exact hother _ _ rfl
      rw [Node.form, mask_list, hisDefn, masks_eq items]
      rfl
    · next hother =>
      exact absurd rfl (hother _ _)
  | _ => rfl
theorem masks_eq (nodes : List Node) : masks nodes = Form.masks (Node.forms nodes) := by
  cases nodes with
  | nil => rfl
  | cons node nodes => rw [masks, mask_eq node, masks_eq nodes, Node.forms, Form.masks]
end

/-- The name and the signature. -/
def entry (d : Definition) : String × Form :=
  (d.name, d.signature)

variable {node : Node} {d : Definition} {depth : Nat}

/-- A definition is a `defn` list, and its name and signature can be read off the form. -/
theorem function?_of_ofNode? (h : ofNode? node depth = some d) :
    node.form.isDefn = true ∧ node.form.function? = some d.entry := by
  unfold ofNode? at h
  split at h
  · obtain ⟨names, -, rfl⟩ := Option.map_eq_some_iff.mp h
    refine ⟨rfl, ?_⟩
    simp only [entry, signature, masks_eq]
    rfl
  · cases h

theorem form_of_ofNode? (h : ofNode? node depth = some d) :
    node.form = Form.definition d.name d.params (Node.forms d.body) := by
  unfold ofNode? at h
  split at h
  · obtain ⟨names, hnames, rfl⟩ := Option.map_eq_some_iff.mp h
    simp only [Node.form, Node.forms, names?_eq_some_iff.mp hnames, Form.definition]
  · cases h

theorem exists_ofNode? (h : node.form.IsDefinition) (depth : Nat) :
    ∃ d, ofNode? node depth = some d := by
  obtain ⟨name, params, body, -, hform⟩ := h
  obtain ⟨items, span, rfl, hitems⟩ := Node.list_of_form hform
  obtain ⟨head, items, rfl, hhead, hitems⟩ := Node.forms_eq_cons hitems
  obtain ⟨nameNode, items, rfl, hname, hitems⟩ := Node.forms_eq_cons hitems
  obtain ⟨paramsNode, items, rfl, hparams, hitems⟩ := Node.forms_eq_cons hitems
  obtain ⟨headSpan, rfl⟩ := Node.identifier_of_form hhead
  obtain ⟨nameSpan, rfl⟩ := Node.identifier_of_form hname
  obtain ⟨nodes, paramsSpan, rfl, hnodes⟩ := Node.list_of_form hparams
  exact ⟨_, congrArg (Option.map _) (names?_eq_some_iff.mpr hnodes)⟩

/-- The name and signature of the definition that a node is. -/
def entryOf? (node : Node) : Option (String × Form) :=
  (ofNode? node 0).map entry

theorem map_ofNode? (node : Node) (depth : Nat) :
    (ofNode? node depth).map entry = entryOf? node := by
  unfold entryOf? ofNode?
  split
  · rw [Option.map_map, Option.map_map]
    rfl
  · rfl

end Definition

namespace Node

open Definition

variable {root : Node}

mutual
theorem filterMap_subnodes (node : Node) (h : ∀ e ∈ node.form.defns, e.IsDefinition) :
    node.subnodes.filterMap entryOf? = node.form.functions := by
  cases node with
  | list items span =>
    have hitems := filterMap_allSubnodes items fun e he => h e (allDefns_subset _ he)
    rw [subnodes, functions, form, defns_list]
    split
    · next hdefn =>
      have hdefinition : (list items span).form.IsDefinition := h _ (self_mem_defns hdefn)
      obtain ⟨d, hd⟩ := exists_ofNode? hdefinition 0
      have hentry : entryOf? (list items span) = some d.entry := by
        rw [entryOf?, hd]
        rfl
      rw [List.filterMap_cons_some hentry, hitems]
      exact (List.filterMap_cons_some (function?_of_ofNode? hd).2).symm
    · next hdefn =>
      have hentry : entryOf? (list items span) = none := by
        rw [entryOf?, Option.map_eq_none_iff, Option.eq_none_iff_forall_ne_some]
        exact fun d hd => hdefn (function?_of_ofNode? hd).1
      rw [List.filterMap_cons_none hentry]
      exact hitems
  | _ => rfl
theorem filterMap_allSubnodes (nodes : List Node)
    (h : ∀ e ∈ allDefns (forms nodes), e.IsDefinition) :
    (allSubnodes nodes).filterMap entryOf? = allFunctions (forms nodes) := by
  cases nodes with
  | nil => rfl
  | cons node nodes =>
    rw [allSubnodes_cons, List.filterMap_append, forms, allFunctions_cons,
      filterMap_subnodes node fun e he => h e (List.mem_append_left _ he),
      filterMap_allSubnodes nodes fun e he => h e (List.mem_append_right _ he)]
end

/-- The definitions below a node are the functions in its parts. -/
theorem perm_functions (h : ∀ e ∈ allDefns (forms root.children), e.IsDefinition) :
    (root.definitions.map entry).Perm (allFunctions (forms root.children)) := by
  have hentries : (root.definitions.map entry) =
      ((List.range root.height).flatMap fun k => root.layer (k + 1)).filterMap entryOf? := by
    rw [definitions, List.map_flatMap, List.filterMap_flatMap]
    refine List.flatMap_congr fun k _ => ?_
    rw [List.map_filterMap]
    exact List.filterMap_congr fun node _ => map_ofNode? node (k + 1)
  have hbelow : ((List.range root.height).flatMap fun k => root.layer (k + 1)).Perm
    (allSubnodes root.children) := by
    have hall := root.perm_subnodes (n := root.height + 1) (by omega)
    rw [List.range_succ_eq_map, List.flatMap_cons, List.flatMap_map, subnodes_eq] at hall
    exact hall.cons_inv
  rw [hentries, ← filterMap_allSubnodes root.children h]
  exact hbelow.filterMap entryOf?

end Node

end LiveLisp
