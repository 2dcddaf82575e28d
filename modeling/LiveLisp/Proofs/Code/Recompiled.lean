/-
  An edited program, compiled anew, is the twin of the program before the edit (`twins_of_program`).
  The two programs have one outline; wherever the old code registers a function, the revisions cover
  the place, and put a body there that is compiled from the same nodes as the new program's.

  Sites are what ties revisions to code: all that is registered in a piece of code is a site of the
  code around it (`Within`), and of a whole program every definition has its sites (`Reissues`).

  What stood where the new program has a form is said once for every form, with the code that it had
  (`Precedes`). The induction on the new program's code then has only twins to join.
-/
import LiveLisp.Code.Site
import LiveLisp.Proofs.Code.Twins
import LiveLisp.Proofs.Tree.Outline

namespace LiveLisp

/-! ## Sites -/

namespace Code

variable {name : String} {span : Span} {is js : List Instruction}

theorem sitesIn_push_code (name : String) (span : Span) (body : Code) (origin : Span)
    (is : List Instruction) :
    sitesIn name span (⟨.push (.code body), origin⟩ :: is) =
      (if registers name is && origin == span then [body] else []) ++ body.sitesAt name span ++
      sitesIn name span is := rfl

/-- The sites in the operands of a function, and after it. -/
theorem sitesIn_function (f : String) (place : Span) (name : Option String)
    (params : List String) (code : Code) (o₁ o₂ o₃ : Span) (is : List Instruction) :
    sitesIn f place
      (⟨.push (.params params), o₁⟩ :: ⟨.push (.code code), o₂⟩ ::
        ⟨.buildFunction name, o₃⟩ :: is) =
    (if registers f (⟨.buildFunction name, o₃⟩ :: is) && o₂ == place then [code] else []) ++
      code.sitesAt f place ++
      sitesIn f place is := rfl

theorem registers_append (h : registers name is = true) : registers name (is ++ js) = true := by
  cases is with
  | nil => cases h
  | cons i is =>
    obtain ⟨op, origin⟩ := i
    cases op with
    | buildFunction other =>
      cases other with
      | none => cases h
      | some other => exact h
    | _ => cases h

theorem sitesIn_append_left (name : String) (span : Span) (is js : List Instruction) :
    sitesIn name span is ⊆ sitesIn name span (is ++ js) := by
  induction is with
  | nil => exact List.nil_subset _
  | cons i is ih =>
    obtain ⟨op, origin⟩ := i
    cases op with
    | push v =>
      cases v with
      | code body =>
        rw [List.cons_append, sitesIn_push_code, sitesIn_push_code]
        refine List.append_subset.mpr ⟨List.append_subset.mpr ⟨?_, ?_⟩, ?_⟩
        · split
          · next h =>
            rw [Bool.and_eq_true] at h
            rw [registers_append h.1, h.2, Bool.true_and, if_pos rfl]
            exact fun body hbody => List.mem_append_left _ (List.mem_append_left _ hbody)
          · exact List.nil_subset _
        · exact fun body hbody => List.mem_append_left _ (List.mem_append_right _ hbody)
        · exact fun body hbody => List.mem_append_right _ (ih hbody)
      | _ => exact ih
    | _ => exact ih

theorem sitesIn_cons (name : String) (span : Span) (i : Instruction) (is : List Instruction) :
    sitesIn name span is ⊆ sitesIn name span (i :: is) := by
  obtain ⟨op, origin⟩ := i
  cases op with
  | push v =>
    cases v with
    | code body =>
      rw [sitesIn_push_code]
      exact List.subset_append_right ..
    | _ => exact List.Subset.refl _
  | _ => exact List.Subset.refl _

theorem sitesIn_append_right (name : String) (span : Span) (is js : List Instruction) :
    sitesIn name span js ⊆ sitesIn name span (is ++ js) := by
  induction is with
  | nil => exact List.Subset.refl _
  | cons i is ih => exact List.Subset.trans ih (sitesIn_cons name span i (is ++ js))

end Code

/-- All that is registered in these instructions is a site of the code. -/
def Within (whole : Code) (is : List Instruction) : Prop :=
  ∀ name span, Code.sitesIn name span is ⊆ whole.sitesAt name span

namespace Within

variable {whole : Code} {is js : List Instruction}

theorem self : Within whole whole.instructions := fun _ _ => by
  obtain ⟨id, instructions⟩ := whole
  exact List.Subset.refl _

theorem left (h : Within whole (is ++ js)) : Within whole is :=
  fun name span => List.Subset.trans (Code.sitesIn_append_left name span is js) (h name span)

theorem right (h : Within whole (is ++ js)) : Within whole js :=
  fun name span => List.Subset.trans (Code.sitesIn_append_right name span is js) (h name span)

section Functions

variable {unit : Nat} {params : List String} {paramsSpan span : Span}

theorem body {name : Option String}
    (h : Within whole (Compile.function unit name params paramsSpan is span)) :
    Within whole is := by
  intro f place site hsite
  refine h f place ?_
  rw [Compile.function, Code.sitesIn_function]
  exact List.mem_append_left _ (List.mem_append_right _
    (Code.sitesIn_append_left f place is _ hsite))

/-- The body that a `defn` pushes is a site of its name and place. -/
theorem mem_sitesAt {name : String}
    (h : Within whole (Compile.function unit (some name) params paramsSpan is span)) :
    ⟨⟨unit, some span⟩, is ++ [⟨.ret, span⟩]⟩ ∈ whole.sitesAt name span := by
  refine h name span ?_
  rw [Compile.function, Code.sitesIn_function]
  refine List.mem_append_left _ (List.mem_append_left _ ?_)
  rw [if_pos (by simp [Code.registers])]
  exact List.mem_singleton_self _

end Functions

end Within

/-! ## What compiled forms are made of -/

/-- A list that compiles, by the keyword at its head. -/
theorem Compiles.list_cases {unit : Nat} {tail : Bool} {head : Node}
    {items : List Node} {span : Span} {is : List Instruction}
    (h : Compiles unit (.form tail (.list (head :: items) span)) is) :
    match head.keyword? with
    | some .define => ∃ name nameSpan value js, items = [.identifier name nameSpan, value] ∧
        Compiles unit (.form false value) js ∧ is = js ++ [⟨.storeNew name, span⟩]
    | some .assign => ∃ name nameSpan value js, items = [.identifier name nameSpan, value] ∧
        Compiles unit (.form false value) js ∧ is = js ++ [⟨.store name, span⟩]
    | some .lambda =>
      ∃ params body names js, items = params :: body ∧ Compile.parameterList params = .ok names ∧
        Compiles unit (.body true span body) js ∧
          is = Compile.function unit none names params.span js span
    | some .defn =>
      ∃ name nameSpan params body names js, items = .identifier name nameSpan :: params :: body ∧
        Compile.parameterList params = .ok names ∧ Compiles unit (.body true span body) js ∧
        is = Compile.function unit (some name) names params.span js span
    | some .branch =>
      (∃ condition yes cs ys, items = [condition, yes] ∧ Compiles unit (.form false condition) cs ∧
          Compiles unit (.form tail yes) ys ∧
            is = Compile.branch span cs ys [⟨.loadConstant .null, span⟩]) ∨
        ∃ condition yes no cs ys ns, items = [condition, yes, no] ∧
          Compiles unit (.form false condition) cs ∧
          Compiles unit (.form tail yes) ys ∧ Compiles unit (.form tail no) ns ∧
            is = Compile.branch span cs ys ns
    | some .sequence => Compiles unit (.body tail span items) is
    | some _ => False
    | none => ∃ callee args, Compiles unit (.arguments items) args ∧
        is = callee ++ args ++ [⟨Compile.invocation tail items.length, span⟩] ∧
        ((∃ f headSpan, head = .identifier f headSpan ∧ callee = [⟨.functionLookup f, headSpan⟩]) ∨
          (head.name? = none ∧ Compiles unit (.form false head) callee)) := by
  cases h with
  | define hk hv =>
    rw [hk]
    exact ⟨_, _, _, _, rfl, hv, rfl⟩
  | assign hk hv =>
    rw [hk]
    exact ⟨_, _, _, _, rfl, hv, rfl⟩
  | lambda hk hp hb =>
    rw [hk]
    exact ⟨_, _, _, _, rfl, hp, hb, rfl⟩
  | defn hk hp hb =>
    rw [hk]
    exact ⟨_, _, _, _, _, _, rfl, hp, hb, rfl⟩
  | ifThen hk hc hy hpast =>
    rw [hk]
    exact .inl ⟨_, _, _, _, rfl, hc, hy, rfl⟩
  | ifThenElse hk hc hy hn hpast hend =>
    rw [hk]
    exact .inr ⟨_, _, _, _, _, _, rfl, hc, hy, hn, rfl⟩
  | sequence hk hs =>
    rw [hk]
    exact hs
  | @callName _ f _ headSpan _ _ hk ha =>
    have hnone : (Node.identifier f headSpan).keyword? = none := hk
    rw [hnone]
    exact ⟨_, _, ha, rfl, .inl ⟨f, headSpan, rfl, rfl⟩⟩
  | call hname hc ha =>
    have hnone : head.keyword? = none := by rw [Node.keyword?, hname]; rfl
    rw [hnone]
    exact ⟨_, _, ha, rfl, .inr ⟨hname, hc⟩⟩

/-- The nodes that a part is made of. -/
def Part.nodes : Part → List Node
  | .form _ node => [node]
  | .body _ _ nodes => nodes
  | .arguments nodes => nodes

/-- All nodes of the part stand so deep in the program. -/
def Part.In (root : Node) (depth : Nat) (part : Part) : Prop :=
  ∀ node ∈ part.nodes, node ∈ root.layer (depth + 1)

/-- Parts with one outline. -/
inductive Part.SameOutline : Part → Part → Prop where
  | form {tail : Bool} {node node' : Node} (h : node.outline = node'.outline) :
    SameOutline (.form tail node) (.form tail node')
  | body {tail : Bool} {span span' : Span} {nodes nodes' : List Node}
      (h : Node.outlines nodes = Node.outlines nodes') :
    SameOutline (.body tail span nodes) (.body tail span' nodes')
  | arguments {nodes nodes' : List Node} (h : Node.outlines nodes = Node.outlines nodes') :
    SameOutline (.arguments nodes) (.arguments nodes')

namespace Part

variable {root : Node} {depth : Nat} {tail tail' : Bool} {head node : Node}
    {items nodes : List Node} {span span' : Span}

section In

variable (h : (form tail (.list items span)).In root depth)

include h

theorem In.item (hnode : node ∈ items) (tail' : Bool) : (form tail' node).In root (depth + 1) := by
  intro other hother
  rw [List.mem_singleton.mp hother]
  exact Node.mem_layer_succ (h _ (List.mem_singleton_self _)) hnode

theorem In.body (hnodes : nodes ⊆ items) (tail' : Bool) (span' : Span) :
    (body tail' span' nodes).In root (depth + 1) :=
  fun _ hnode => Node.mem_layer_succ (h _ (List.mem_singleton_self _)) (hnodes hnode)

theorem In.arguments (hnodes : nodes ⊆ items) : (arguments nodes).In root (depth + 1) :=
  fun _ hnode => Node.mem_layer_succ (h _ (List.mem_singleton_self _)) (hnodes hnode)

end In

theorem In.mono {part part' : Part} (h : part.In root depth) (hnodes : part'.nodes ⊆ part.nodes) :
    part'.In root depth :=
  fun node hnode => h node (hnodes hnode)

/-- What has the outline of a form that is no `defn`. -/
theorem SameOutline.list {part : Part} (hk : head.keyword? ≠ some .defn)
    (h : part.SameOutline (.form tail (.list (head :: items) span))) :
    ∃ head' items' span', part = .form tail (.list (head' :: items') span') ∧
      head'.outline = head.outline ∧
      Node.outlines items' = Node.outlines items := by
  cases h with
  | form h =>
    obtain ⟨head', items', span', rfl, hhead, hitems⟩ :=
      Node.list_of_outline (Node.name?_ne_defn hk) h
    exact ⟨head', items', span', rfl, hhead, hitems⟩

end Part

/-! ## The twins of an edit -/

section Edit

variable (revisions : NameMap Revision) (edited : String → Prop) (new : Node)

/-- A program that the code `whole` belongs to, with what the revisions make of it. They cover its
sites of every function that is at the same depth in the new program; and where a function is not
edited, it says the same there. -/
structure Revises (root : Node) (whole : Code) : Prop where
  covers : ∀ d ∈ root.definitions, ∀ d' ∈ new.definitions, d.name = d'.name → d.depth = d'.depth →
    ∀ body ∈ whole.sitesAt d.name d.node.span,
      ∀ revision, revisions.get? d.name = some revision → revision.covers body = true
  agrees : ∀ d ∈ root.definitions, ∀ d' ∈ new.definitions, d.name = d'.name →
    ¬ edited d.name → d.Agrees d'

/-- There is a revision for each function of the new program, and its body has been compiled from
the new program. -/
def Reissues : Prop :=
  ∀ d ∈ new.definitions, ∃ revision unit, revisions.get? d.name = some revision ∧
    revision.params = d.params ∧
    Code.ofDefinition unit d = .ok revision.code ∧ Revises revisions edited new new revision.code

variable {revisions edited new}

theorem reissued_of_covers {name : String} {params : List String} {code : Code}
    {revision : Revision} (hrevision : revisions.get? name = some revision)
    (hcovers : revision.covers code = true) :
    reissued revisions (some name) params code = (revision.params, revision.code) := by
  unfold reissued
  rw [Option.bind_some, hrevision]
  exact if_pos hcovers

theorem Code.ofDefinition_eq_ok {unit : Nat} {d : Definition} {code : Code}
    (h : Code.ofDefinition unit d = .ok code) :
    ∃ is, Compiles unit (.body true d.node.span d.body) is ∧
      code = ⟨⟨unit, some d.node.span⟩, is ++ [⟨.ret, d.node.span⟩]⟩ := by
  obtain ⟨is, his, h⟩ := except_bind_eq_ok h
  cases h
  exact ⟨is, compiles_sequence his, rfl⟩

theorem closures_of_literal? {keyword : Keyword} {v : Value} (h : keyword.literal? = some v) :
    v.closures = [] := by
  cases keyword with
  | null =>
    cases h
    rfl
  | truth value =>
    cases h
    rfl
  | _ => cases h

/-- Two bodies of one function, each with its `ret`. -/
theorem Twinned.returns {is js : List Instruction} (h : Twinned revisions edited is js)
    (span span' : Span) :
    Twins revisions edited (is ++ [⟨.ret, span⟩]) (js ++ [⟨.ret, span'⟩]) :=
  h.followed .ret

/-! ## What stood in a part's place before the edit -/

variable (revisions edited new) in
/-- The code of a part of the program before the edit, where the new program has `part'`: a part of
the same outline and at the same depth. All that the code registers is a site of code that the
revisions cover. -/
inductive Precedes (is : List Instruction) (part' : Part) : Prop where
  | intro {root : Node} {whole : Code} {unit depth : Nat} {part : Part}
    (hroot : Revises revisions edited new root whole)
      (hcode : Compiles unit part is) (hsame : part.SameOutline part') (hin : part.In root depth)
      (hin' : part'.In new depth) (hwithin : Within whole is)

namespace Precedes

variable {is : List Instruction} {tail : Bool} {name : String} {names : List String}
    {span nameSpan : Span}
  {head node other value params condition yes no : Node} {items nodes body : List Node}

theorem number {value : Float}
    (h : Precedes revisions edited new is (.form tail (.number value span))) :
    ∃ origin, is = [⟨.loadConstant (.number value), origin⟩] := by
  obtain ⟨-, hcode, hsame, -, -, -⟩ := h
  cases hsame with
  | form houtline =>
    obtain ⟨origin, rfl⟩ := Node.number_of_outline houtline
    cases hcode
    exact ⟨origin, rfl⟩

theorem text {content : String}
    (h : Precedes revisions edited new is (.form tail (.text content span))) :
    ∃ origin, is = [⟨.loadConstant (.text content), origin⟩] := by
  obtain ⟨-, hcode, hsame, -, -, -⟩ := h
  cases hsame with
  | form houtline =>
    obtain ⟨origin, rfl⟩ := Node.text_of_outline houtline
    cases hcode
    exact ⟨origin, rfl⟩

theorem literal {keyword : Keyword} {v : Value} (hk : Keyword.ofName? name = some keyword)
    (hv : keyword.literal? = some v)
    (h : Precedes revisions edited new is (.form tail (.identifier name span))) :
    ∃ origin, is = [⟨.loadConstant v, origin⟩] := by
  obtain ⟨-, hcode, hsame, -, -, -⟩ := h
  cases hsame with
  | form houtline =>
    obtain ⟨origin, rfl⟩ := Node.identifier_of_outline houtline
    cases hcode with
    | literal hk' hv' =>
      cases hk.symm.trans hk'
      cases hv.symm.trans hv'
      exact ⟨origin, rfl⟩
    | name hk' => cases hk.symm.trans hk'

theorem lookup (hk : Keyword.ofName? name = none)
    (h : Precedes revisions edited new is (.form tail (.identifier name span))) :
    ∃ origin, is = [⟨.nameLookup name, origin⟩] := by
  obtain ⟨-, hcode, hsame, -, -, -⟩ := h
  cases hsame with
  | form houtline =>
    obtain ⟨origin, rfl⟩ := Node.identifier_of_outline houtline
    cases hcode with
    | literal hk' hv' => cases hk.symm.trans hk'
    | name hk' => exact ⟨origin, rfl⟩

theorem stored {keyword : Keyword} {op : String → Op} (hk : head.keyword? = some keyword)
    (hop : keyword = .define ∧ op = .storeNew ∨ keyword = .assign ∧ op = .store)
    (h : Precedes revisions edited new is
      (.form tail (.list [head, .identifier name nameSpan, value] span))) :
    ∃ ks origin, is = ks ++ [⟨op name, origin⟩] ∧
      Precedes revisions edited new ks (.form false value) := by
  obtain ⟨hroot, hcode, hsame, hin, hin', hwithin⟩ := h
  have hdefn : head.keyword? ≠ some .defn := by
    rw [hk]
    rcases hop with ⟨rfl, -⟩ | ⟨rfl, -⟩ <;> decide
  obtain ⟨head, items, origin, rfl, hhead, hitems⟩ := hsame.list hdefn
  have hcases := hcode.list_cases
  rw [Node.keyword?_eq_of_outline hhead, hk] at hcases
  obtain ⟨name, nameSpan, value, ks, rfl, hvalue, rfl⟩ : ∃ name nameSpan value ks,
      items = [.identifier name nameSpan, value] ∧ Compiles _ (.form false value) ks ∧
        is = ks ++ [⟨op name, origin⟩] := by
    rcases hop with ⟨rfl, rfl⟩ | ⟨rfl, rfl⟩
    · exact hcases
    · exact hcases
  simp only [Node.outlines, Node.outline_identifier, List.cons.injEq,
    Form.identifier.injEq, and_true] at hitems
  obtain ⟨rfl, houtline⟩ := hitems
  exact ⟨ks, origin, rfl,
    hroot, hvalue, .form houtline, hin.item (by simp) false,
      hin'.item (by simp) false, hwithin.left⟩

theorem lambda (hk : head.keyword? = some .lambda) (hp : Compile.parameterList params = .ok names)
    (h : Precedes revisions edited new is (.form tail (.list (head :: params :: body) span))) :
    ∃ unit paramsSpan ks origin, is = Compile.function unit none names paramsSpan ks origin ∧
      Precedes revisions edited new ks (.body true span body) := by
  obtain ⟨hroot, hcode, hsame, hin, hin', hwithin⟩ := h
  obtain ⟨head, items, origin, rfl, hhead, hitems⟩ := hsame.list (by rw [hk]; decide)
  have hcases := hcode.list_cases
  rw [Node.keyword?_eq_of_outline hhead, hk] at hcases
  obtain ⟨params, body, names, ks, rfl, hp', hbody, rfl⟩ := hcases
  simp only [Node.outlines, List.cons.injEq] at hitems
  obtain rfl := Compile.parameterList_of_outline hitems.1 hp' hp
  exact ⟨_, _, ks, origin, rfl,
    hroot, hbody, .body hitems.2, hin.body (by simp) true origin,
      hin'.body (by simp) true span, hwithin.body⟩

/-- The function that stood where the new program has a `defn`: its revision is compiled from the
new program's own nodes, and if the function is not edited, it was the same before. -/
theorem defn (hnew : Reissues revisions edited new) (hk : head.keyword? = some .defn)
    (hp : Compile.parameterList params = .ok names)
    (h : Precedes revisions edited new is
      (.form tail (.list (head :: .identifier name nameSpan :: params :: body) span))) :
    ∃ unit names' paramsSpan ks origin, is = Compile.function unit
      (some name) names' paramsSpan ks origin ∧
      (∃ id rs origin', reissued revisions (some name) names' ⟨⟨unit, some origin⟩,
        ks ++ [⟨.ret, origin⟩]⟩ =
        (names, ⟨id, rs ++ [⟨.ret, origin'⟩]⟩) ∧
        Precedes revisions edited new rs (.body true span body)) ∧
      (¬ edited name → names' = names ∧
        Precedes revisions edited new ks (.body true span body)) := by
  obtain ⟨hroot, hcode, hsame, hin, hin', hwithin⟩ := h
  cases hsame with
  | form houtline =>
    obtain ⟨head', nameSpan', items, origin, rfl, hhead⟩ :=
      Node.defn_of_outline (Definition.name?_of_defn hk) houtline
    have hk' : head'.keyword? = some .defn := by
      rw [Node.keyword?, hhead]
      rfl
    have hcases := hcode.list_cases
    rw [hk'] at hcases
    obtain ⟨_, _, params', body', names', ks, heq, hp', hbody, rfl⟩ := hcases
    cases heq
    -- both forms are definitions of their programs, at one depth
    have hd := Node.mem_definitions_of_layer (hin _ (List.mem_singleton_self _))
      (Definition.ofNode?_defn hk' hp' _)
    have hd' := Node.mem_definitions_of_layer (hin' _ (List.mem_singleton_self _))
      (Definition.ofNode?_defn hk hp _)
    have hnodes := hin.body (List.subset_append_right [_, _, _] body') true origin
    have hnodes' := hin'.body (List.subset_append_right [_, _, _] body) true span
    refine ⟨_, names', _, ks, origin, rfl, ?_, fun huntouched => ?_⟩
    · obtain ⟨revision, u, hrevision, hparams, hrevised, hrevises⟩ := hnew _ hd'
      have hcovers := hroot.covers _ hd _ hd' rfl rfl _ hwithin.mem_sitesAt revision hrevision
      obtain ⟨rs, hrs, hinstructions⟩ := Code.ofDefinition_eq_ok hrevised
      have hself : Within revision.code revision.code.instructions := .self
      rw [hinstructions] at hself
      refine ⟨⟨u, some span⟩, rs, span, ?_, hrevises, hrs, .body rfl, hnodes', hnodes', ?_⟩
      · rw [reissued_of_covers hrevision hcovers, hparams, hinstructions]
        rfl
      · rw [hinstructions]
        exact hself.left
    · have hagrees := hroot.agrees _ hd _ hd' rfl huntouched
      exact ⟨hagrees.params, hroot, hbody, .body hagrees.body, hnodes, hnodes', hwithin.body⟩

theorem ifThen (hk : head.keyword? = some .branch)
    (h : Precedes revisions edited new is (.form tail (.list [head, condition, yes] span))) :
    ∃ cs ys origin, is = Compile.branch origin cs ys [⟨.loadConstant .null, origin⟩] ∧
      Precedes revisions edited new cs (.form false condition) ∧
        Precedes revisions edited new ys (.form tail yes) := by
  obtain ⟨hroot, hcode, hsame, hin, hin', hwithin⟩ := h
  obtain ⟨head, items, origin, rfl, hhead, hitems⟩ := hsame.list (by rw [hk]; decide)
  have hcases := hcode.list_cases
  rw [Node.keyword?_eq_of_outline hhead, hk] at hcases
  obtain ⟨condition, yes, cs, ys, rfl, hc, hy, rfl⟩ | ⟨_, _, _, _, _, _, rfl, -, -, -, -⟩ := hcases
  · simp only [Node.outlines, List.cons.injEq, and_true] at hitems
    unfold Compile.branch at hwithin
    have hfirst := hwithin.left.left
    exact ⟨cs, ys, origin, rfl,
      ⟨hroot, hc, .form hitems.1, hin.item (by simp) false, hin'.item (by simp) false,
        hfirst.left.left⟩,
      ⟨hroot, hy, .form hitems.2, hin.item (by simp) tail, hin'.item (by simp) tail, hfirst.right⟩⟩
  · simp [Node.outlines] at hitems

theorem ifThenElse (hk : head.keyword? = some .branch)
    (h : Precedes revisions edited new is (.form tail (.list [head, condition, yes, no] span))) :
    ∃ cs ys ns origin, is = Compile.branch origin cs ys ns ∧
      Precedes revisions edited new cs (.form false condition) ∧
      Precedes revisions edited new ys (.form tail yes) ∧
        Precedes revisions edited new ns (.form tail no) := by
  obtain ⟨hroot, hcode, hsame, hin, hin', hwithin⟩ := h
  obtain ⟨head, items, origin, rfl, hhead, hitems⟩ := hsame.list (by rw [hk]; decide)
  have hcases := hcode.list_cases
  rw [Node.keyword?_eq_of_outline hhead, hk] at hcases
  obtain ⟨_, _, _, _, rfl, -, -, -⟩ | ⟨condition, yes, no, cs, ys, ns, rfl, hc, hy, hn, rfl⟩ :=
    hcases
  · simp [Node.outlines] at hitems
  · simp only [Node.outlines, List.cons.injEq, and_true] at hitems
    obtain ⟨hcondition, hyes, hno⟩ := hitems
    unfold Compile.branch at hwithin
    have hfirst := hwithin.left.left
    exact ⟨cs, ys, ns, origin, rfl,
      ⟨hroot, hc, .form hcondition, hin.item (by simp) false, hin'.item (by simp) false,
        hfirst.left.left⟩,
      ⟨hroot, hy, .form hyes, hin.item (by simp) tail, hin'.item (by simp) tail, hfirst.right⟩,
      ⟨hroot, hn, .form hno, hin.item (by simp) tail, hin'.item (by simp) tail, hwithin.right⟩⟩

theorem sequence (hk : head.keyword? = some .sequence)
    (h : Precedes revisions edited new is (.form tail (.list (head :: items) span))) :
    Precedes revisions edited new is (.body tail span items) := by
  obtain ⟨hroot, hcode, hsame, hin, hin', hwithin⟩ := h
  obtain ⟨head, items, origin, rfl, hhead, hitems⟩ := hsame.list (by rw [hk]; decide)
  have hcases := hcode.list_cases
  rw [Node.keyword?_eq_of_outline hhead, hk] at hcases
  exact ⟨hroot, hcases, .body hitems, hin.body (List.subset_cons_self ..) tail origin,
    hin'.body (List.subset_cons_self ..) tail span, hwithin⟩

theorem callName (hk : Keyword.ofName? name = none)
    (h : Precedes revisions edited new is
      (.form tail (.list (.identifier name nameSpan :: items) span))) :
    ∃ args origin origin', is =
        [⟨.functionLookup name, origin⟩] ++ args ++
        [⟨Compile.invocation tail items.length, origin'⟩] ∧
      Precedes revisions edited new args (.arguments items) := by
  obtain ⟨hroot, hcode, hsame, hin, hin', hwithin⟩ := h
  have hkeyword (span : Span) : (Node.identifier name span).keyword? = none := hk
  obtain ⟨head, items', origin', rfl, hhead, hitems⟩ := hsame.list (by rw [hkeyword]; decide)
  obtain ⟨origin, rfl⟩ := Node.identifier_of_outline hhead
  have hcases := hcode.list_cases
  rw [hkeyword] at hcases
  obtain ⟨_, args, hargs, rfl, ⟨_, _, heq, rfl⟩ | ⟨hnone, -⟩⟩ := hcases
  · cases heq
    rw [Node.length_eq_of_outlines hitems] at hwithin ⊢
    exact ⟨args, origin, origin', rfl, hroot, hargs, .arguments hitems,
      hin.arguments (List.subset_cons_self ..),
      hin'.arguments (List.subset_cons_self ..), hwithin.left.right⟩
  · cases hnone

theorem call (hname : head.name? = none)
    (h : Precedes revisions edited new is (.form tail (.list (head :: items) span))) :
    ∃ callee args origin, is = callee ++ args ++ [⟨Compile.invocation tail items.length, origin⟩] ∧
      Precedes revisions edited new callee (.form false head) ∧
      Precedes revisions edited new args (.arguments items) := by
  obtain ⟨hroot, hcode, hsame, hin, hin', hwithin⟩ := h
  have hkeyword : head.keyword? = none := by rw [Node.keyword?, hname]; rfl
  obtain ⟨head', items', origin, rfl, hhead, hitems⟩ := hsame.list (by rw [hkeyword]; decide)
  have hcases := hcode.list_cases
  rw [Node.keyword?_eq_of_outline hhead, hkeyword] at hcases
  obtain ⟨callee, args, hargs, rfl, ⟨_, _, rfl, -⟩ | ⟨-, hcallee⟩⟩ := hcases
  · rw [← Node.name?_eq_of_outline hhead] at hname
    cases hname
  · rw [Node.length_eq_of_outlines hitems] at hwithin ⊢
    exact ⟨callee, args, origin, rfl,
      ⟨hroot, hcallee, .form hhead, hin.item (by simp) false, hin'.item (by simp) false,
        hwithin.left.left⟩,
      ⟨hroot, hargs, .arguments hitems, hin.arguments (List.subset_cons_self ..),
        hin'.arguments (List.subset_cons_self ..), hwithin.left.right⟩⟩

theorem nothing (h : Precedes revisions edited new is (.body tail span [])) :
    ∃ origin, is = [⟨.loadConstant .null, origin⟩] := by
  obtain ⟨-, hcode, hsame, -, -, -⟩ := h
  cases hsame with
  | body houtlines =>
    obtain rfl := Node.outlines_eq_nil houtlines
    cases hcode
    exact ⟨_, rfl⟩

theorem last (h : Precedes revisions edited new is (.body tail span [node])) :
    Precedes revisions edited new is (.form tail node) := by
  obtain ⟨hroot, hcode, hsame, hin, hin', hwithin⟩ := h
  cases hsame with
  | body houtlines =>
    obtain ⟨node, rest, rfl, hnode, hrest⟩ := Node.outlines_eq_cons houtlines
    obtain rfl := Node.outlines_eq_nil hrest
    cases hcode with
    | last hcode => exact ⟨hroot, hcode, .form hnode, hin, hin', hwithin⟩

theorem next (h : Precedes revisions edited new is (.body tail span (node :: other :: nodes))) :
    ∃ ks origin ls, is = ks ++ [⟨.pop, origin⟩] ++ ls ∧
      Precedes revisions edited new ks (.form false node) ∧
      Precedes revisions edited new ls (.body tail span (other :: nodes)) := by
  obtain ⟨hroot, hcode, hsame, hin, hin', hwithin⟩ := h
  cases hsame with
  | body houtlines =>
    obtain ⟨node, rest, rfl, hnode, hrest⟩ := Node.outlines_eq_cons houtlines
    obtain ⟨other, rest, rfl, -, -⟩ := Node.outlines_eq_cons hrest
    cases hcode with
    | next hfirst hothers =>
      exact ⟨_, _, _, rfl,
        ⟨hroot, hfirst, .form hnode, hin.mono (by simp [Part.nodes]),
          hin'.mono (by simp [Part.nodes]), hwithin.left.left⟩,
        ⟨hroot, hothers, .body hrest, hin.mono (List.subset_cons_self ..),
          hin'.mono (List.subset_cons_self ..),
          hwithin.right⟩⟩

theorem noArguments (h : Precedes revisions edited new is (.arguments [])) : is = [] := by
  obtain ⟨-, hcode, hsame, -, -, -⟩ := h
  cases hsame with
  | arguments houtlines =>
    obtain rfl := Node.outlines_eq_nil houtlines
    cases hcode
    rfl

theorem argument (h : Precedes revisions edited new is (.arguments (node :: nodes))) :
    ∃ ks ls, is = ks ++ ls ∧ Precedes revisions edited new ks (.form false node) ∧
      Precedes revisions edited new ls (.arguments nodes) := by
  obtain ⟨hroot, hcode, hsame, hin, hin', hwithin⟩ := h
  cases hsame with
  | arguments houtlines =>
    obtain ⟨node, rest, rfl, hnode, hrest⟩ := Node.outlines_eq_cons houtlines
    cases hcode with
    | argument hfirst hothers =>
      exact ⟨_, _, rfl,
        ⟨hroot, hfirst, .form hnode, hin.mono (by simp [Part.nodes]),
          hin'.mono (by simp [Part.nodes]), hwithin.left⟩,
        ⟨hroot, hothers, .arguments hrest, hin.mono (List.subset_cons_self ..),
          hin'.mono (List.subset_cons_self ..),
          hwithin.right⟩⟩

end Precedes

/-- Compiled code is the twin of what the new program is compiled to, part by part. -/
theorem twinned_of_compiles (hnew : Reissues revisions edited new) {unit : Nat} {part : Part}
    {is js : List Instruction} (hcode : Compiles unit part js)
    (h : Precedes revisions edited new is part) : Twinned revisions edited is js := by
  induction hcode generalizing is with
  | @number _ value =>
    obtain ⟨origin, rfl⟩ := h.number
    exact .single (.loadConstant (.number value)) rfl rfl _ _
  | @text _ content =>
    obtain ⟨origin, rfl⟩ := h.text
    exact .single (.loadConstant (.text content)) rfl rfl _ _
  | @literal _ _ _ _ v hk hv =>
    obtain ⟨origin, rfl⟩ := h.literal hk hv
    exact .single (.loadConstant v) (closures_of_literal? hv) rfl _ _
  | @name _ name _ hk =>
    obtain ⟨origin, rfl⟩ := h.lookup hk
    exact .single (.nameLookup name) trivial rfl _ _
  | @define _ _ _ name _ _ _ hk hv ih =>
    obtain ⟨ks, origin, rfl, hvalue⟩ := h.stored hk (.inl ⟨rfl, rfl⟩)
    exact (ih hvalue).append (.single (.storeNew name) trivial rfl _ _)
  | @assign _ _ _ name _ _ _ hk hv ih =>
    obtain ⟨ks, origin, rfl, hvalue⟩ := h.stored hk (.inr ⟨rfl, rfl⟩)
    exact (ih hvalue).append (.single (.store name) trivial rfl _ _)
  | lambda hk hp hb ih =>
    obtain ⟨unit, paramsSpan, ks, origin, rfl, hbody⟩ := h.lambda hk hp
    exact .function ⟨rfl, (ih hbody).returns _ _, fun _ => rfl, fun _ => (ih hbody).returns _ _⟩ ..
  | @defn _ _ _ _ _ _ name _ _ hk hp hb ih =>
    obtain ⟨unit, names', paramsSpan, ks, origin, rfl,
      ⟨id, rs, origin', hreissued, hrevised⟩, hown⟩ :=
      h.defn hnew hk hp
    refine .function ⟨by
      rw [hreissued], ?_, fun huntouched => (hown (huntouched name rfl)).1, fun huntouched => ?_⟩ ..
    · rw [hreissued]
      exact (ih hrevised).returns _ _
    · exact (ih (hown (huntouched name rfl)).2).returns _ _
  | ifThen hk hc hy hpast ihc ihy =>
    obtain ⟨cs, ys, origin, rfl, hcondition, hyes⟩ := h.ifThen hk
    exact .branch (ihc hcondition) (ihy hyes) (.single (.loadConstant .null) rfl rfl _ _) _ _
  | ifThenElse hk hc hy hn hpast hend ihc ihy ihn =>
    obtain ⟨cs, ys, ns, origin, rfl, hcondition, hyes, hno⟩ := h.ifThenElse hk
    exact .branch (ihc hcondition) (ihy hyes) (ihn hno) _ _
  | sequence hk hs ih => exact ih (h.sequence hk)
  | @callName _ name _ _ _ _ hk ha ih =>
    obtain ⟨args, origin, origin', rfl, hargs⟩ := h.callName hk
    exact (Twinned.append (.single (.functionLookup name) trivial rfl _ _) (ih hargs)).append
      (.invocation ..)
  | call hname hc ha ihc iha =>
    obtain ⟨callee, args, origin, rfl, hcallee, hargs⟩ := h.call hname
    exact ((ihc hcallee).append (iha hargs)).append (.invocation ..)
  | nothing =>
    obtain ⟨origin, rfl⟩ := h.nothing
    exact .single (.loadConstant .null) rfl rfl _ _
  | last hn ih => exact ih h.last
  | next hn hs ihn ihs =>
    obtain ⟨ks, origin, ls, rfl, hfirst, hothers⟩ := h.next
    exact ((ihn hfirst).append (.single .pop trivial rfl _ _)).append (ihs hothers)
  | noArguments =>
    obtain rfl := h.noArguments
    exact .nil
  | argument hn hs ihn ihs =>
    obtain ⟨ks, ls, rfl, hfirst, hothers⟩ := h.argument
    exact (ihn hfirst).append (ihs hothers)

/-- The code of a whole program is the twin of the new program's. -/
theorem twins_of_program (hnew : Reissues revisions edited new) {old : Node}
    {unit unit' : Nat} {code code' : Code} (hold : Revises revisions edited new old code)
    (houtline : old.outline = new.outline) (hcode : Code.ofProgram unit old = .ok code)
    (hcode' : Code.ofProgram unit' new = .ok code') {doSpan span : Span} {forms : List Node}
    (hnode : new = .list (.identifier "do" doSpan :: forms) span) :
    Twins revisions edited code.instructions code'.instructions := by
  obtain ⟨is, his, hcode⟩ := except_bind_eq_ok hcode
  obtain ⟨js, hjs, hcode'⟩ := except_bind_eq_ok hcode'
  cases hcode
  cases hcode'
  subst hnode
  obtain ⟨head, forms', span', rfl, hhead, hforms⟩ :=
    Node.list_of_outline (by simp [Node.name?]) houtline
  obtain ⟨doSpan', rfl⟩ := Node.identifier_of_outline hhead
  have hin {forms : List Node} {doSpan span : Span} :
      (Part.body false span forms).In (.list (.identifier "do" doSpan :: forms) span) 0 :=
    fun _ hnode => Node.mem_layer_succ (List.mem_singleton_self _) (List.mem_cons_of_mem _ hnode)
  have hbody := (compiles_expression his).list_cases
  have hbody' := (compiles_expression hjs).list_cases
  exact (twinned_of_compiles hnew hbody' ⟨hold, hbody, .body hforms, hin, hin,
    Within.self.left⟩).returns _ _

end Edit

end LiveLisp
