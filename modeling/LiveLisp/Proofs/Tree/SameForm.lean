/-
  Nodes of one form. They are of one kind and have parts of one form, wherever they stand; and so
  programs of one form have the same definitions at the same depths, or are refused with one message
  (`Definition.find_concurs`).
-/
import Mathlib.Data.List.Forall2
import LiveLisp.Proofs.Tree.Levels
import LiveLisp.Tree.Keyword

namespace LiveLisp

/-! ## Nodes of one form -/

namespace Node

variable {a b : Node} {nodes : List Node}

theorem number_of_form {value : Float} (h : a.form = .number value) :
    ∃ span, a = number value span := by
  cases a with
  | number other span =>
    cases h
    exact ⟨span, rfl⟩
  | _ => cases h

theorem text_of_form {content : String} (h : a.form = .text content) :
    ∃ span, a = text content span := by
  cases a with
  | text other span =>
    cases h
    exact ⟨span, rfl⟩
  | _ => cases h

theorem identifier_of_form {name : String} (h : a.form = .identifier name) :
    ∃ span, a = identifier name span := by
  cases a with
  | identifier other span =>
    cases h
    exact ⟨span, rfl⟩
  | _ => cases h

theorem list_of_form {forms : List Form} (h : a.form = .list forms) :
    ∃ items span, a = list items span ∧ Node.forms items = forms := by
  cases a with
  | list items span =>
    cases h
    exact ⟨items, span, rfl, rfl⟩
  | _ => cases h

theorem forms_eq_nil : forms nodes = [] ↔ nodes = [] := by
  rw [forms_eq_map, List.map_eq_nil_iff]

theorem forms_eq_cons {f : Form} {fs : List Form} (h : forms nodes = f :: fs) :
    ∃ node rest, nodes = node :: rest ∧ node.form = f ∧ forms rest = fs := by
  rw [forms_eq_map] at h
  obtain ⟨node, rest, rfl, hnode, hrest⟩ := List.map_eq_cons_iff.mp h
  exact ⟨node, rest, rfl, hnode, by rw [forms_eq_map, hrest]⟩

theorem forall₂_of_forms {nodes' : List Node} (h : forms nodes = forms nodes') :
    List.Forall₂ (fun a b => a.form = b.form) nodes nodes' := by
  rw [forms_eq_map, forms_eq_map, ← List.forall₂_eq_eq_eq] at h
  exact List.forall₂_map_right_iff.mp (List.forall₂_map_left_iff.mp h)

theorem name?_eq_of_form (h : a.form = b.form) : a.name? = b.name? := by
  cases b with
  | number value span =>
    obtain ⟨span', rfl⟩ := number_of_form h
    rfl
  | text content span =>
    obtain ⟨span', rfl⟩ := text_of_form h
    rfl
  | identifier name span =>
    obtain ⟨span', rfl⟩ := identifier_of_form h
    rfl
  | list items span =>
    obtain ⟨items', span', rfl, -⟩ := list_of_form h
    rfl

theorem keyword?_eq_of_form (h : a.form = b.form) : a.keyword? = b.keyword? := by
  unfold keyword?
  rw [name?_eq_of_form h]

end Node

/-! ## Answers that concur -/

/-- Both succeed, with answers that have to do with each other, or both fail with one message. -/
def Concurs {α β : Type} (R : α → β → Prop) : Except Error α → Except Error β → Prop
  | .ok a, .ok b => R a b
  | .error e, .error e' => e.message = e'.message
  | _, _ => False

namespace Concurs

variable {α β γ δ : Type} {R : α → β → Prop} {S : γ → δ → Prop}

theorem bind {x : Except Error α} {y : Except Error β} {f : α → Except Error γ}
    {g : β → Except Error δ} (h : Concurs R x y) (hfg : ∀ a b, R a b → Concurs S (f a) (g b)) :
    Concurs S (x >>= f) (y >>= g) := by
  cases x with
  | ok a =>
    cases y with
    | ok b => exact hfg a b h
    | error e => exact h.elim
  | error e =>
    cases y with
    | ok b => exact h.elim
    | error e' => exact h

theorem of_ok {x : Except Error α} {y : Except Error β} {a : α}
    (h : Concurs R x y) (hx : x = .ok a) :
    ∃ b, y = .ok b ∧ R a b := by
  subst hx
  cases y with
  | ok b => exact ⟨b, rfl, h⟩
  | error e => exact h.elim

end Concurs

/-! ## Definitions -/

namespace Node

theorem forms_append (nodes nodes' : List Node) :
    forms (nodes ++ nodes') = forms nodes ++ forms nodes' := by
  rw [forms_eq_map, forms_eq_map, forms_eq_map, List.map_append]

theorem children_forms {a b : Node} (h : a.form = b.form) :
    forms a.children = forms b.children := by
  cases b with
  | number value span =>
    obtain ⟨span', rfl⟩ := number_of_form h
    rfl
  | text content span =>
    obtain ⟨span', rfl⟩ := text_of_form h
    rfl
  | identifier name span =>
    obtain ⟨span', rfl⟩ := identifier_of_form h
    rfl
  | list items span =>
    obtain ⟨items', span', rfl, hitems⟩ := list_of_form h
    exact hitems

mutual
theorem height_eq_of_form (a b : Node) (h : a.form = b.form) : a.height = b.height := by
  cases a with
  | number value span =>
    obtain ⟨span', rfl⟩ := number_of_form h.symm
    rfl
  | text content span =>
    obtain ⟨span', rfl⟩ := text_of_form h.symm
    rfl
  | identifier name span =>
    obtain ⟨span', rfl⟩ := identifier_of_form h.symm
    rfl
  | list items span =>
    obtain ⟨items', span', rfl, hitems⟩ := list_of_form h.symm
    rw [height, height, heights_eq_of_forms items items' hitems.symm]
theorem heights_eq_of_forms (nodes nodes' : List Node) (h : forms nodes = forms nodes') :
    heights nodes = heights nodes' := by
  cases nodes with
  | nil =>
    obtain rfl := forms_eq_nil.mp h.symm
    rfl
  | cons node rest =>
    obtain ⟨node', rest', rfl, hnode, hrest⟩ := forms_eq_cons h.symm
    rw [heights, heights, height_eq_of_form node node' hnode.symm,
      heights_eq_of_forms rest rest' hrest.symm]
end

theorem layer_forms (depth : Nat) {a b : Node} (h : a.form = b.form) :
    forms (a.layer depth) = forms (b.layer depth) := by
  induction depth generalizing a b with
  | zero => exact congrArg (fun f => [f]) h
  | succ depth ih =>
    have hall (nodes nodes' : List Node) (h : forms nodes = forms nodes') :
        forms (nodes.flatMap (layer depth)) = forms (nodes'.flatMap (layer depth)) := by
      induction nodes generalizing nodes' with
      | nil =>
        obtain rfl := forms_eq_nil.mp h.symm
        rfl
      | cons node rest ihnodes =>
        obtain ⟨node', rest', rfl, hnode, hrest⟩ := forms_eq_cons h.symm
        rw [List.flatMap_cons, List.flatMap_cons, forms_append, forms_append, ih hnode.symm,
          ihnodes rest' hrest.symm]
    exact hall _ _ (children_forms h)

end Node

namespace Definition

/-- What repetitions are told by. -/
def key (d : Definition) : String × Nat :=
  (d.name, d.depth)

theorem names?_eq_some_iff {nodes : List Node} {names : List String} :
    names? nodes = some names ↔ Node.forms nodes = names.map Form.identifier := by
  unfold names?
  induction nodes generalizing names with
  | nil => simp [Node.forms, eq_comm]
  | cons node nodes ih =>
    rw [List.mapM_cons, Node.forms]
    cases node with
    | identifier name span =>
      cases names with
      | nil => simp [Node.name?, Option.bind_eq_some_iff]
      | cons first rest => simp [Node.name?, Node.form, Option.bind_eq_some_iff, ih, and_left_comm]
    | _ => cases names <;> simp [Node.name?, Node.form]

theorem names?_eq_of_forms {nodes nodes' : List Node} (h : Node.forms nodes = Node.forms nodes') :
    names? nodes = names? nodes' :=
  Option.ext fun names => by rw [names?_eq_some_iff, names?_eq_some_iff, h]

theorem ofNode?_of_form {depth : Nat} {a b : Node} {d : Definition} (h : a.form = b.form)
    (hd : ofNode? a depth = some d) : ∃ d', ofNode? b depth = some d' ∧ d'.key = d.key := by
  unfold ofNode? at hd
  split at hd
  · next defnSpan name nameSpan params paramsSpan body span =>
    obtain ⟨names, hnames, rfl⟩ := Option.map_eq_some_iff.mp hd
    obtain ⟨items, span', rfl, hitems⟩ := Node.list_of_form h.symm
    obtain ⟨head, items, rfl, hhead, hitems⟩ := Node.forms_eq_cons hitems
    obtain ⟨nameNode, items, rfl, hname, hitems⟩ := Node.forms_eq_cons hitems
    obtain ⟨paramsNode, body', rfl, hparams, -⟩ := Node.forms_eq_cons hitems
    obtain ⟨defnSpan', rfl⟩ := Node.identifier_of_form hhead
    obtain ⟨nameSpan', rfl⟩ := Node.identifier_of_form hname
    obtain ⟨params', paramsSpan', rfl, hparams⟩ := Node.list_of_form hparams
    have hnames' := (names?_eq_of_forms (Form.list.inj hparams)).trans hnames
    exact ⟨_, congrArg (Option.map _) hnames', rfl⟩
  · cases hd

theorem ofNode?_key (depth : Nat) {a b : Node} (h : a.form = b.form) :
    (ofNode? a depth).map key = (ofNode? b depth).map key := by
  cases ha : ofNode? a depth with
  | some d =>
    obtain ⟨d', hb, hkey⟩ := ofNode?_of_form h ha
    rw [hb, Option.map_some, Option.map_some, hkey]
  | none =>
    cases hb : ofNode? b depth with
    | none => rfl
    | some d =>
      obtain ⟨d', ha', -⟩ := ofNode?_of_form h.symm hb
      cases ha.symm.trans ha'

theorem definitions_keys {root root' : Node} (h : root.form = root'.form) :
    root.definitions.map key = root'.definitions.map key := by
  have hlayer (depth : Nat) (nodes nodes' : List Node) (h : Node.forms nodes = Node.forms nodes') :
      nodes.filterMap (fun node => (ofNode? node depth).map key) =
        nodes'.filterMap (fun node => (ofNode? node depth).map key) := by
    induction nodes generalizing nodes' with
    | nil =>
      obtain rfl := Node.forms_eq_nil.mp h.symm
      rfl
    | cons node rest ih =>
      obtain ⟨node', rest', rfl, hnode, hrest⟩ := Node.forms_eq_cons h.symm
      rw [List.filterMap_cons, List.filterMap_cons, ofNode?_key depth hnode, ih rest' hrest.symm]
  unfold Node.definitions
  rw [Node.height_eq_of_form root root' h, List.map_flatMap, List.map_flatMap]
  refine congrArg (List.flatMap · _) (funext fun depth => ?_)
  rw [List.map_filterMap, List.map_filterMap]
  exact hlayer _ _ _ (Node.layer_forms (depth + 1) h)

theorem checkRepeats_concurs {seen seen' ds ds' : List Definition}
    (hseen : seen.map key = seen'.map key) (h : ds.map key = ds'.map key) :
    Concurs (fun _ _ => True) (checkRepeats seen ds) (checkRepeats seen' ds') := by
  induction ds generalizing seen seen' ds' with
  | nil =>
    obtain rfl := List.map_eq_nil_iff.mp h.symm
    exact trivial
  | cons d ds ih =>
    obtain ⟨d', ds', rfl, hkey, hrest⟩ := List.map_eq_cons_iff.mp h.symm
    obtain ⟨hname, hdepth⟩ := Prod.mk.inj hkey
    have hrepeated : (seen.any fun e => e.name == d.name && e.depth == d.depth) =
        seen'.any fun e => e.name == d'.name && e.depth == d'.depth := by
      have hany (l : List Definition) (d : Definition) :
          (l.any fun e => e.name == d.name && e.depth == d.depth) =
          (l.map key).any fun k => k.1 == d.name && k.2 == d.depth := by
        rw [List.any_map]
        rfl
      rw [hany, hany, hseen, hname, hdepth]
    rw [checkRepeats, checkRepeats, hrepeated]
    split
    · exact congrArg (fun name => ParseProblem.message (.definedTwice name)) hname.symm
    · exact ih (by rw [List.map_cons, List.map_cons, hkey, hseen]) hrest.symm

/-- Programs of one form have definitions, or are refused with one message. -/
theorem find_concurs {root root' : Node} (h : root.form = root'.form) :
    Concurs (fun _ _ => True) (find root) (find root') := by
  rw [find_eq, find_eq]
  exact (checkRepeats_concurs rfl (definitions_keys h)).bind fun _ _ _ => trivial

end Definition

end LiveLisp
