/-
  Outlines: what a program says outside its named functions. An outline keeps the name of every
  `defn` and nothing else of it, so two programs have one outline when they differ in parameters and
  bodies of named functions only.

  A `defn` form that compiles is among the definitions of its program, with the depth at which it
  stands (`mem_definitions_of_layer`).
-/
import Mathlib.Data.List.Nodup
import LiveLisp.Proofs.Code.Compiled
import LiveLisp.Proofs.Tree.SameForm

namespace LiveLisp

namespace Node

mutual
/-- The form of a node, with every `defn` cut to its head and name. -/
def outline : Node → Form
  | .list (head :: items) _ =>
    if head.name? = some "defn" then .list (forms (head :: items.take 1))
    else .list (outline head :: outlines items)
  | node => node.form
def outlines : List Node → List Form
  | [] => []
  | node :: nodes => outline node :: outlines nodes
end

variable {a b head : Node} {items nodes nodes' : List Node} {span : Span}

theorem outline_cons (head : Node) (items : List Node) (span : Span) :
    (list (head :: items) span).outline =
    if head.name? = some "defn" then .list (forms (head :: items.take 1))
      else .list (outline head :: outlines items) := rfl

theorem outlines_cons (node : Node) (nodes : List Node) :
    outlines (node :: nodes) = outline node :: outlines nodes := rfl

theorem outline_defn (h : head.name? = some "defn") :
    (list (head :: items) span).outline = .list (forms (head :: items.take 1)) := by
  rw [outline_cons, if_pos h]

theorem outline_list (h : head.name? ≠ some "defn") :
    (list (head :: items) span).outline = .list (outline head :: outlines items) := by
  rw [outline_cons, if_neg h]

/-- Only a list has a list for its outline. -/
theorem outline_eq_identifier {name : String} : a.outline = .identifier name ↔
    a.name? = some name := by
  cases a with
  | identifier other span =>
    show Form.identifier other = _ ↔ some other = _
    simp
  | number value span => exact ⟨nofun, nofun⟩
  | text content span => exact ⟨nofun, nofun⟩
  | list items span =>
    cases items with
    | nil => exact ⟨nofun, nofun⟩
    | cons head items =>
      rw [outline_cons]
      split <;> simp [name?]

@[simp] theorem outline_identifier (name : String) (span : Span) :
  (identifier name span).outline = .identifier name := by
  rw [outline_eq_identifier]
  rfl

theorem identifier_of_outline {name : String} (h : a.outline = (identifier name span).outline) :
    ∃ span', a = identifier name span' := by
  rw [outline_identifier, outline_eq_identifier] at h
  cases a with
  | identifier other span' =>
    cases h
    exact ⟨span', rfl⟩
  | _ => cases h

theorem number_of_outline {value : Float} (h : a.outline = (number value span).outline) :
    ∃ span', a = number value span' := by
  cases a with
  | number other span' =>
    cases h
    exact ⟨span', rfl⟩
  | list items span' =>
    cases items with
    | nil => cases h
    | cons head items =>
      rw [outline_cons] at h
      split at h <;> cases h
  | _ => cases h

theorem text_of_outline {content : String} (h : a.outline = (text content span).outline) :
    ∃ span', a = text content span' := by
  cases a with
  | text other span' =>
    cases h
    exact ⟨span', rfl⟩
  | list items span' =>
    cases items with
    | nil => cases h
    | cons head items =>
      rw [outline_cons] at h
      split at h <;> cases h
  | _ => cases h

theorem name?_eq_of_outline (h : a.outline = b.outline) : a.name? = b.name? := by
  cases hb : b.name? with
  | some name => rw [← outline_eq_identifier, h, outline_eq_identifier, hb]
  | none =>
    cases ha : a.name? with
    | none => rfl
    | some name =>
      rw [← outline_eq_identifier, h, outline_eq_identifier, hb] at ha
      cases ha

theorem keyword?_eq_of_outline (h : a.outline = b.outline) : a.keyword? = b.keyword? := by
  unfold keyword?
  rw [name?_eq_of_outline h]

/-- A head that makes something else than a `defn` of its list. -/
theorem name?_ne_defn (h : head.keyword? ≠ some .defn) : head.name? ≠ some "defn" := by
  intro hname
  rw [keyword?, hname] at h
  exact h rfl

theorem outlines_eq_nil (h : outlines nodes = outlines []) : nodes = [] := by
  cases nodes with
  | nil => rfl
  | cons => cases h

theorem outlines_eq_cons (h : outlines nodes = outlines (b :: nodes')) :
    ∃ a rest, nodes = a :: rest ∧ a.outline = b.outline ∧ outlines rest = outlines nodes' := by
  cases nodes with
  | nil => cases h
  | cons a rest =>
    rw [outlines_cons, outlines_cons, List.cons.injEq] at h
    exact ⟨a, rest, rfl, h⟩

theorem length_eq_of_outlines (h : outlines nodes = outlines nodes') :
    nodes.length = nodes'.length := by
  induction nodes' generalizing nodes with
  | nil => rw [outlines_eq_nil h]
  | cons b nodes' ih =>
    obtain ⟨a, rest, rfl, -, hrest⟩ := outlines_eq_cons h
    rw [List.length_cons, List.length_cons, ih hrest]

/-- What has the outline of a form that is no `defn` is such a form. -/
theorem list_of_outline (hhead : head.name? ≠ some "defn")
    (h : a.outline = (list (head :: items) span).outline) :
    ∃ head' items' span', a = list (head' :: items') span' ∧ head'.outline = head.outline ∧
      outlines items' = outlines items := by
  rw [outline_list hhead] at h
  cases a with
  | list nodes span' =>
    cases nodes with
    | nil => cases h
    | cons head' items' =>
      by_cases hhead' : head'.name? = some "defn"
      · rw [outline_defn hhead', forms, Form.list.injEq, List.cons.injEq] at h
        have hname : head.outline = .identifier "defn" := by
          rw [← h.1]
          cases head' with
          | identifier name span => cases hhead'; rfl
          | _ => cases hhead'
        exact absurd (outline_eq_identifier.mp hname) hhead
      · rw [outline_list hhead', Form.list.injEq, List.cons.injEq] at h
        exact ⟨head', items', span', rfl, h⟩
  | _ => cases h

/-- What has the outline of a `defn` is a `defn` of the same name. -/
theorem defn_of_outline {name : String} {nameSpan : Span} (hhead : head.name? = some "defn")
    (h : a.outline = (list (head :: identifier name nameSpan :: items) span).outline) :
    ∃ head' nameSpan' items' span', a = list (head' :: identifier name nameSpan' :: items') span' ∧
      head'.name? = some "defn" := by
  rw [outline_defn hhead] at h
  cases a with
  | list nodes span' =>
    cases nodes with
    | nil => cases h
    | cons head' items' =>
      by_cases hhead' : head'.name? = some "defn"
      · rw [outline_defn hhead'] at h
        cases items' with
        | nil => simp [forms] at h
        | cons nameNode rest =>
          simp only [List.take_succ_cons, List.take_zero, forms, Form.list.injEq, List.cons.injEq,
            and_true] at h
          obtain ⟨nameSpan', rfl⟩ := identifier_of_form h.2
          exact ⟨head', nameSpan', rest, span', rfl, hhead'⟩
      · rw [outline_list hhead', forms, Form.list.injEq, List.cons.injEq] at h
        have hname : head'.outline = .identifier "defn" := by
          rw [h.1]
          cases head with
          | identifier name span => cases hhead; rfl
          | _ => cases hhead
        exact absurd (outline_eq_identifier.mp hname) hhead'
  | _ => cases h

/-! ## Layers -/

theorem mem_layer_succ {root : Node} {k : Nat} (ha : a ∈ root.layer k) (hb : b ∈ a.children) :
    b ∈ root.layer (k + 1) := by
  induction k generalizing root with
  | zero =>
    rw [layer, List.mem_singleton] at ha
    subst ha
    exact List.mem_flatMap.mpr ⟨b, hb, List.mem_singleton_self b⟩
  | succ k ih =>
    obtain ⟨child, hchild, ha⟩ := List.mem_flatMap.mp ha
    exact List.mem_flatMap.mpr ⟨child, hchild, ih ha⟩

theorem height_le_heights (h : a ∈ nodes) : a.height ≤ heights nodes := by
  induction nodes with
  | nil => cases h
  | cons node nodes ih =>
    rw [heights]
    rcases List.mem_cons.mp h with rfl | h
    · exact Nat.le_max_left ..
    · exact Nat.le_trans (ih h) (Nat.le_max_right ..)

theorem height_lt_of_mem_children (h : b ∈ a.children) : b.height < a.height := by
  cases a with
  | list items span => exact Nat.lt_succ_of_le (height_le_heights h)
  | _ => cases h

theorem lt_height_of_mem_layer {root : Node} {k : Nat} (h : a ∈ root.layer k) :
    k < root.height := by
  induction k generalizing root with
  | zero => cases root <;> simp [height]
  | succ k ih =>
    obtain ⟨child, hchild, h⟩ := List.mem_flatMap.mp h
    have hlt := height_lt_of_mem_children hchild
    have := ih h
    omega

theorem mem_definitions_of_layer {root : Node} {k : Nat} {d : Definition}
    (h : a ∈ root.layer (k + 1)) (hd : Definition.ofNode? a (k + 1) = some d) :
    d ∈ root.definitions := by
  have hlt := lt_height_of_mem_layer h
  exact List.mem_flatMap.mpr ⟨k, List.mem_range.mpr (by omega), List.mem_filterMap.mpr ⟨a, h, hd⟩⟩

end Node

/-! ## Definitions -/

namespace Compile

/-- A name that can be bound is no keyword. -/
theorem keyword?_of_bindingName {role name : String} {node : Node}
    (h : bindingName role node = .ok name) :
    node.keyword? = none := by
  cases node with
  | identifier other span =>
    simp only [bindingName] at h
    split at h
    · cases h
    · next hk => exact Option.not_isSome_iff_eq_none.mp hk
  | _ => cases h

/-- Parameters are identifiers, none of them a keyword. -/
theorem parameters_identifiers {seen names : List String} {nodes : List Node}
    (h : parameters seen nodes = .ok names) :
    Node.forms nodes = names.map Form.identifier ∧ "defn" ∉ names := by
  induction nodes generalizing seen names with
  | nil =>
    cases h
    exact ⟨rfl, List.not_mem_nil⟩
  | cons node nodes ih =>
    rw [parameters] at h
    obtain ⟨name, hname, h⟩ := except_bind_eq_ok h
    split at h
    · cases h
    · obtain ⟨rest, hrest, h⟩ := except_bind_eq_ok h
      cases h
      obtain ⟨hforms, hfree⟩ := ih hrest
      have hkeyword := keyword?_of_bindingName hname
      obtain ⟨span, rfl⟩ := bindingName_eq_ok hname
      refine ⟨congrArg (Form.identifier name :: ·) hforms, ?_⟩
      rw [List.mem_cons, not_or]
      refine ⟨?_, hfree⟩
      rintro rfl
      cases hkeyword

theorem names?_eq_of_outlines {nodes nodes' : List Node}
    (h : Node.outlines nodes = Node.outlines nodes') :
    Definition.names? nodes = Definition.names? nodes' := by
  induction nodes' generalizing nodes with
  | nil => rw [Node.outlines_eq_nil h]
  | cons node' nodes' ih =>
    obtain ⟨node, rest, rfl, hnode, hrest⟩ := Node.outlines_eq_cons h
    have hnames := ih hrest
    unfold Definition.names? at hnames ⊢
    rw [List.mapM_cons, List.mapM_cons, hnames, Node.name?_eq_of_outline hnode]

theorem parameterList_eq_ok {node : Node} {names : List String}
    (h : parameterList node = .ok names) :
    ∃ nodes span, node = .list nodes span ∧ Definition.names? nodes = some names := by
  cases node with
  | list nodes span =>
    exact ⟨nodes, span, rfl, Definition.names?_eq_some_iff.mpr (parameters_identifiers h).1⟩
  | _ => cases h

/-- Parameter lists with one outline have the same names. -/
theorem parameterList_of_outline {node node' : Node} {names names' : List String}
    (h : node.outline = node'.outline) (hn : parameterList node = .ok names)
    (hn' : parameterList node' = .ok names') : names = names' := by
  obtain ⟨nodes, span, rfl, hnames⟩ := parameterList_eq_ok hn
  obtain ⟨nodes', span', rfl, hnames'⟩ := parameterList_eq_ok hn'
  have hsame : Node.outlines nodes = Node.outlines nodes' := by
    cases nodes' with
    | nil =>
      cases nodes with
      | nil => rfl
      | cons head items =>
        rw [Node.outline_cons] at h
        split at h <;> cases h
    | cons head' items' =>
      rw [parameterList, parameters] at hn'
      obtain ⟨name, hname, -⟩ := except_bind_eq_ok hn'
      have hhead : head'.name? ≠ some "defn" :=
        Node.name?_ne_defn (by rw [keyword?_of_bindingName hname]; decide)
      obtain ⟨head, items, span, heq, hhead, hitems⟩ := Node.list_of_outline hhead h
      cases heq
      rw [Node.outlines, Node.outlines, hhead, hitems]
  rw [names?_eq_of_outlines hsame, hnames'] at hnames
  cases hnames
  rfl

end Compile

namespace Keyword

theorem ofName?_eq_defn {name : String} (h : ofName? name = some .defn) : name = "defn" := by
  simp only [ofName?, ite_eq_iff, Option.some.injEq, reduceCtorEq, and_false, false_or,
    or_false, and_true] at h
  exact h.2.2.2.2.2.2

end Keyword

namespace Definition

theorem name?_of_defn {head : Node} (h : head.keyword? = some .defn) :
    head.name? = some "defn" := by
  unfold Node.keyword? at h
  obtain ⟨name, hname, hk⟩ := Option.bind_eq_some_iff.mp h
  rw [hname, Keyword.ofName?_eq_defn hk]

/-- A `defn` that compiles is a definition. -/
theorem ofNode?_defn {head params : Node} {name : String} {nameSpan span : Span}
    {names : List String} {body : List Node} (hk : head.keyword? = some .defn)
    (hp : Compile.parameterList params = .ok names) (depth : Nat) :
    ofNode? (.list (head :: .identifier name nameSpan :: params :: body) span) depth =
      some ⟨name, names, body, .list (head :: .identifier name nameSpan :: params :: body) span,
        depth⟩ := by
  obtain ⟨nodes, paramsSpan, rfl, hnames⟩ := Compile.parameterList_eq_ok hp
  cases head with
  | identifier headName headSpan =>
    cases name?_of_defn hk
    simp only [ofNode?, hnames, Option.map_some]
  | _ => cases name?_of_defn hk

/-- The same parameters, and the same body outside the definitions in it. -/
structure Agrees (d d' : Definition) : Prop where
  params : d.params = d'.params
  body : Node.outlines d.body = Node.outlines d'.body

/-- A function of both programs whose own code differs. -/
def Edited (before after : List Definition) (name : String) : Prop :=
  ∃ d ∈ before, ∃ d' ∈ after, d.name = name ∧ d'.name = name ∧ ¬ d.Agrees d'

/-- No name is defined twice. -/
def Distinct (ds : List Definition) : Prop :=
  (ds.map (·.name)).Nodup

theorem Distinct.eq {ds : List Definition} (h : Distinct ds) {d d' : Definition}
    (hd : d ∈ ds) (hd' : d' ∈ ds) (hname : d.name = d'.name) : d = d' :=
  List.inj_on_of_nodup_map h hd hd' hname

theorem firstOfEach_of_distinct {ds : List Definition} (h : Distinct ds) {seen : List String}
    (hseen : ∀ d ∈ ds, d.name ∉ seen) : firstOfEach seen ds = ds := by
  induction ds generalizing seen with
  | nil => rfl
  | cons d ds ih =>
    obtain ⟨hd, hds⟩ := List.nodup_cons.mp h
    have hnew : seen.contains d.name = false := by
      rw [List.contains_eq_mem]
      exact decide_eq_false (hseen d (List.mem_cons_self ..))
    rw [firstOfEach, hnew, if_neg (by decide)]
    refine congrArg (d :: ·) (ih hds fun e he => ?_)
    rw [List.mem_cons, not_or]
    refine ⟨fun hname => hd ?_, hseen e (List.mem_cons_of_mem _ he)⟩
    exact List.mem_map.mpr ⟨e, he, hname⟩

/-- A program without repeated names is found to have just its definitions. -/
theorem find_of_distinct {root : Node} {ds : List Definition} (h : Distinct root.definitions)
    (hfind : find root = .ok ds) :
    ds = root.definitions := by
  rw [find_eq] at hfind
  obtain ⟨-, -, hds⟩ := except_bind_eq_ok hfind
  cases hds
  exact firstOfEach_of_distinct h fun _ _ => List.not_mem_nil

theorem get?_of_distinct {ds : List Definition} (h : Distinct ds) {d : Definition} (hd : d ∈ ds) :
    get? ds d.name = some d := by
  cases hget : get? ds d.name with
  | none =>
    have hnone := List.find?_eq_none.mp hget d hd
    exact absurd (beq_self_eq_true d.name) hnone
  | some e =>
    have hname := List.find?_some hget
    rw [h.eq (List.mem_of_find?_eq_some hget) hd (beq_iff_eq.mp hname)]

theorem firstOfEach_distinct (seen : List String) (ds : List Definition) :
    Distinct (firstOfEach seen ds) ∧ ∀ d ∈ firstOfEach seen ds, d.name ∉ seen ∧ d ∈ ds := by
  induction ds generalizing seen with
  | nil => exact ⟨.nil, fun d hd => by cases hd⟩
  | cons d ds ih =>
    rw [firstOfEach]
    split
    · obtain ⟨hdistinct, hrest⟩ := ih seen
      exact ⟨hdistinct, fun e he => ⟨(hrest e he).1, List.mem_cons_of_mem _ (hrest e he).2⟩⟩
    · next hseen =>
      obtain ⟨hdistinct, hrest⟩ := ih (d.name :: seen)
      refine ⟨List.nodup_cons.mpr ⟨fun hname => ?_, hdistinct⟩, fun e he => ?_⟩
      · obtain ⟨e, he, hsame⟩ := List.mem_map.mp hname
        exact (hrest e he).1 (hsame ▸ List.mem_cons_self ..)
      · rcases List.mem_cons.mp he with rfl | he
        · exact ⟨fun hmem => hseen (List.contains_iff_mem.mpr hmem), List.mem_cons_self ..⟩
        · exact ⟨fun hmem =>
            (hrest e he).1 (List.mem_cons_of_mem _ hmem), List.mem_cons_of_mem _ (hrest e he).2⟩

/-- What is found of a program are some of its definitions, of different names. -/
theorem find_eq_ok {root : Node} {ds : List Definition} (h : find root = .ok ds) :
    Distinct ds ∧ ds ⊆ root.definitions := by
  rw [find_eq] at h
  obtain ⟨-, -, h⟩ := except_bind_eq_ok h
  cases h
  obtain ⟨hdistinct, hmem⟩ := firstOfEach_distinct [] root.definitions
  exact ⟨hdistinct, fun d hd => (hmem d hd).2⟩

theorem get?_eq_some {ds : List Definition} {name : String} {d : Definition}
    (h : get? ds name = some d) :
    d ∈ ds ∧ d.name = name := by
  have hname := List.find?_some h
  exact ⟨List.mem_of_find?_eq_some h, beq_iff_eq.mp hname⟩

end Definition

end LiveLisp
