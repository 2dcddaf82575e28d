/-
  How a text is refused. Reading and compiling fail with errors of their own stages only: none of
  them is a runtime error or an error of the interpreter, but for the one of a jump that 32 bits do
  not hold, and this one takes a text of `2 ^ 30` bytes.
-/
import LiveLisp.Proofs.Code.Size
import LiveLisp.Proofs.Tree.Printed

namespace LiveLisp

/-- An error of reading or of compiling. -/
def Error.Static : Error → Prop
  | .parse _ _ => True
  | .compile _ _ => True
  | _ => False

/-- If it fails, then by reading or compiling; or else what there is of a text is so much that a
jump in its code may be too far. -/
def Refuses {α : Type} (size : Nat) (x : Except Error α) : Prop :=
  ∀ e, x = .error e → e.Static ∨ e = .internal .jumpTooFar ∧ 2 ^ 30 ≤ size

section Rules

variable {α β : Type} {size : Nat}

theorem Refuses.ok (a : α) : Refuses size (.ok a : Except Error α) := nofun

theorem Refuses.error {e : Error} (h : e.Static) : Refuses size (.error e : Except Error α) := by
  rintro _ ⟨⟩
  exact .inl h

theorem Refuses.bind {x : Except Error α} {f : α → Except Error β} (hx : Refuses size x)
    (hf : ∀ a, x = .ok a → Refuses size (f a)) :
    Refuses size (x >>= f) := by
  cases x with
  | ok a => exact hf a rfl
  | error e =>
    rintro _ ⟨⟩
    exact hx e rfl

theorem Refuses.foldlM {f : β → α → Except Error β} (hf : ∀ b a, Refuses size (f b a))
    (items : List α) (b : β) :
    Refuses size (items.foldlM f b) := by
  induction items generalizing b with
  | nil => exact .ok b
  | cons a items ih => exact .bind (hf b a) fun b _ => ih b

end Rules

variable {size : Nat}

/-! ## Reading -/

theorem scan_refuses (source : String) : Refuses size (Node.scan source) := by
  unfold Node.scan
  split
  · exact .ok _
  · exact .error trivial

theorem next_refuses (stray : ParseProblem) (r : Reading) (lexeme : Lexeme) :
    Refuses size (r.next stray lexeme) := by
  unfold Reading.next
  split
  · exact .ok _
  · exact .ok _
  · exact .ok _
  · split
    · exact .error trivial
    · exact .ok _
  · split
    · exact .error trivial
    · exact .ok _

theorem finish_refuses (r : Reading) : Refuses size r.finish := by
  unfold Reading.finish
  split
  · exact .ok _
  · exact .error trivial

theorem ofProgram_refuses (source : String) : Refuses size (Node.ofProgram source) := by
  refine .bind (scan_refuses source) fun lexemes _ => .bind ?_ fun forms _ => .ok _
  exact .bind (.foldlM (next_refuses .leftover) lexemes .empty) fun r _ => finish_refuses r

theorem checkRepeats_refuses (seen ds : List Definition) :
    Refuses size (Definition.checkRepeats seen ds) := by
  induction ds generalizing seen with
  | nil => exact .ok _
  | cons d ds ih =>
    unfold Definition.checkRepeats
    split
    · exact .error trivial
    · exact ih (d :: seen)

theorem find_refuses (root : Node) : Refuses size (Definition.find root) :=
  Definition.find_eq root ▸ .bind (checkRepeats_refuses [] root.definitions) fun _ _ => .ok _

/-! ## Compiling -/

namespace Compile

theorem bindingName_refuses (role : String) (node : Node) :
    Refuses size (bindingName role node) := by
  unfold bindingName
  split
  · split
    · exact .error trivial
    · exact .ok _
  · exact .error trivial

theorem parameters_refuses (seen : List String) (nodes : List Node) :
    Refuses size (parameters seen nodes) := by
  induction nodes generalizing seen with
  | nil => exact .ok _
  | cons node nodes ih =>
    refine .bind (bindingName_refuses "parameter" node) fun name _ => ?_
    simp only
    split
    · exact .error trivial
    · exact .bind (ih (name :: seen)) fun _ _ => .ok _

theorem parameterList_refuses (node : Node) : Refuses size (parameterList node) := by
  unfold parameterList
  split
  · exact parameters_refuses [] _
  · exact .error trivial

theorem identifier_refuses (name : String) (span : Span) : Refuses size (identifier name span) := by
  unfold identifier
  split
  · exact .ok _
  · exact .ok _
  · exact .error trivial
  · exact .ok _

/-- A jump is too far only over more instructions than so few tokens compile to. -/
theorem checkJump_refuses {offset : Nat} (h : offset ≤ 2 * size + 1) :
    Refuses size (checkJump offset) := by
  unfold checkJump jumpLimit
  split
  · exact .ok _
  · rintro _ ⟨⟩
    exact .inr ⟨rfl, by omega⟩

theorem conditional_refuses {span : Span} {condition yes : List Instruction}
    {no : Except Error (List Instruction)} (hyes : yes.length < 2 * size) (hno : Refuses size no)
    (hlength : ∀ is, no = .ok is → is.length < 2 * size) :
    Refuses size (conditional span condition yes no) :=
  .bind (checkJump_refuses (by omega)) fun _ _ => .bind hno fun is his => by
    have := hlength is his
    exact .bind (checkJump_refuses (by omega)) fun _ _ => .ok _

mutual

/-- A conditional has four tokens at least besides each of its branches. -/
theorem expression_refuses (unit : Nat) (tail : Bool) (node : Node)
    (hsize : node.form.tokens.length ≤ size + 4) : Refuses size (expression unit tail node) := by
  match node with
  | .number value span =>
    rw [expression]
    exact .ok _
  | .text content span =>
    rw [expression]
    exact .ok _
  | .identifier name span =>
    rw [expression]
    exact .bind (identifier_refuses name span) fun _ _ => .ok _
  | .list [] span =>
    rw [expression]
    exact .error trivial
  | .list (head :: items) span =>
    have hhead := head.length_tokens_pos
    rw [Node.length_tokens_list, Node.length_allTokens_cons] at hsize
    rw [expression.eq_def]
    dsimp only
    split
    · exact assignment_refuses unit "define" .storeNew span items (by omega)
    · exact assignment_refuses unit "set!" .store span items (by omega)
    · match items with
      | [] => exact .error trivial
      | params :: body =>
        rw [Node.length_allTokens_cons] at hsize
        exact .bind (parameterList_refuses params) fun _ _ =>
          .bind (sequence_refuses unit true span body (by omega)) fun _ _ => .ok _
    · match items with
      | [] => exact .error trivial
      | [_] => exact .error trivial
      | name :: params :: body =>
        rw [Node.length_allTokens_cons, Node.length_allTokens_cons] at hsize
        exact .bind (bindingName_refuses "defn" name) fun _ _ =>
          .bind (parameterList_refuses params) fun _ _ =>
          .bind (sequence_refuses unit true span body (by omega)) fun _ _ => .ok _
    · match items with
      | [] => exact .error trivial
      | [_] => exact .error trivial
      | [condition, yes] =>
        have hcondition := condition.length_tokens_pos
        have hyes := yes.length_tokens_pos
        rw [Node.length_allTokens_cons, Node.length_allTokens_cons] at hsize
        refine .bind (expression_refuses unit false condition (by omega)) fun _ _ =>
          .bind (expression_refuses unit tail yes (by omega)) fun ys hy => ?_
        have hlength : ys.length < 2 * yes.form.tokens.length :=
          bounds_of_compiles (compiles_expression hy)
        refine conditional_refuses (by omega) (.ok _) fun is his => ?_
        cases his
        rw [List.length_singleton]
        omega
      | [condition, yes, no] =>
        have hcondition := condition.length_tokens_pos
        have hyes := yes.length_tokens_pos
        have hno := no.length_tokens_pos
        rw [Node.length_allTokens_cons, Node.length_allTokens_cons,
          Node.length_allTokens_cons] at hsize
        refine .bind (expression_refuses unit false condition (by omega)) fun _ _ =>
          .bind (expression_refuses unit tail yes (by omega)) fun ys hy => ?_
        have hlength : ys.length < 2 * yes.form.tokens.length :=
          bounds_of_compiles (compiles_expression hy)
        refine conditional_refuses (by omega) (expression_refuses unit tail no (by omega))
          fun ns hn => ?_
        have hlength' : ns.length < 2 * no.form.tokens.length :=
          bounds_of_compiles (compiles_expression hn)
        omega
      | _ :: _ :: _ :: _ :: _ => exact .error trivial
    · exact sequence_refuses unit tail span items (by omega)
    · exact .error trivial
    · have hargs := arguments_refuses unit items (by omega)
      match head with
      | .identifier name headSpan => exact .bind (.ok _) fun _ _ => .bind hargs fun _ _ => .ok _
      | .number value headSpan =>
        exact .bind (expression_refuses unit false (.number value headSpan) (by omega)) fun _ _ =>
          .bind hargs fun _ _ => .ok _
      | .text content headSpan =>
        exact .bind (expression_refuses unit false (.text content headSpan) (by omega)) fun _ _ =>
          .bind hargs fun _ _ => .ok _
      | .list nodes headSpan =>
        exact .bind (expression_refuses unit false (.list nodes headSpan) (by omega)) fun _ _ =>
          .bind hargs fun _ _ => .ok _

theorem assignment_refuses (unit : Nat) (keyword : String) (op : String → Op) (span : Span)
    (nodes : List Node) (hsize : (Form.allTokens (Node.forms nodes)).length ≤ size + 4) :
    Refuses size (assignment unit keyword op span nodes) := by
  match nodes with
  | [name, value] =>
    rw [Node.length_allTokens_cons, Node.length_allTokens_cons] at hsize
    rw [assignment]
    exact .bind (bindingName_refuses keyword name) fun _ _ =>
      .bind (expression_refuses unit false value (by omega)) fun _ _ => .ok _
  | [] => simp [assignment, Refuses, Error.Static]
  | [_] => simp [assignment, Refuses, Error.Static]
  | _ :: _ :: _ :: _ => simp [assignment, Refuses, Error.Static]

theorem sequence_refuses (unit : Nat) (tail : Bool) (span : Span) (nodes : List Node)
    (hsize : (Form.allTokens (Node.forms nodes)).length ≤ size + 4) :
    Refuses size (sequence unit tail span nodes) := by
  match nodes with
  | [] =>
    rw [sequence]
    exact .ok _
  | [last] =>
    rw [Node.length_allTokens_cons] at hsize
    rw [sequence]
    exact expression_refuses unit tail last (by omega)
  | node :: other :: rest =>
    rw [Node.length_allTokens_cons] at hsize
    rw [sequence]
    · exact .bind (expression_refuses unit false node (by omega)) fun _ _ =>
        .bind (sequence_refuses unit tail span (other :: rest) (by omega)) fun _ _ => .ok _
    · simp

theorem arguments_refuses (unit : Nat) (nodes : List Node)
    (hsize : (Form.allTokens (Node.forms nodes)).length ≤ size + 4) :
    Refuses size (arguments unit nodes) := by
  match nodes with
  | [] =>
    rw [arguments]
    exact .ok _
  | node :: rest =>
    rw [Node.length_allTokens_cons] at hsize
    rw [arguments]
    exact .bind (expression_refuses unit false node (by omega)) fun _ _ =>
      .bind (arguments_refuses unit rest (by omega)) fun _ _ => .ok _

end

end Compile

namespace Code

variable {source : String} {root : Node}

theorem ofProgram_refuses (unit : Nat) (hroot : Node.ofProgram source = .ok root) :
    Refuses source.utf8ByteSize (Code.ofProgram unit root) := by
  have hsize := Node.length_tokens_le hroot
  exact .bind (Compile.expression_refuses unit false root (by omega)) fun _ _ => .ok _

theorem ofDefinition_refuses (unit : Nat) (hroot : Node.ofProgram source = .ok root)
    {d : Definition} (hd : d ∈ root.definitions) :
    Refuses source.utf8ByteSize (Code.ofDefinition unit d) := by
  obtain ⟨k, -, hd⟩ := List.mem_flatMap.mp hd
  obtain ⟨node, hnode, hd⟩ := List.mem_filterMap.mp hd
  have hsize := Node.length_tokens_le hroot
  have hlayer := (Node.tokens_sublist_of_layer hnode).length_le
  have hbody := Definition.length_tokens_body_le hd
  exact .bind (Compile.sequence_refuses unit true d.node.span d.body (by omega)) fun _ _ => .ok _

end Code

/-! ## A text with a jump too far -/

/-- A branch with so many names in it. -/
def longBranch (n : Nat) : Form :=
  .list [.identifier "if", .identifier "t",
    .list (.identifier "do" :: List.replicate n (.identifier "t"))]

theorem allTokens_names (n : Nat) :
    Form.allTokens (List.replicate n (.identifier "t")) = List.replicate n (.identifier "t") := by
  induction n with
  | zero => rfl
  | succ n ih => rw [List.replicate_succ, Form.allTokens, ih]; rfl

theorem depths_names (n : Nat) : Form.depths (List.replicate n (.identifier "t")) = 0 := by
  induction n with
  | zero => rfl
  | succ n ih => rw [List.replicate_succ, Form.depths, ih]; rfl

theorem depth_longBranch (n : Nat) : (longBranch n).depth = 2 := by
  simp [longBranch, Form.depth, Form.depths, depths_names]

/-- All its tokens are read as they are printed. -/
theorem spells_longBranch (n : Nat) :
    ∀ t ∈ (longBranch n).tokens, t.Spells t.render.toList := by
  have hname (run : List Char) (hrun : ∀ c ∈ run, Token.isAtomChar c) (hne : run ≠ [])
      (hliteral : (Decimal.literal? run).isSome = false) :
      (Token.identifier (String.ofList run)).Spells
        (Token.identifier (String.ofList run)).render.toList := by
    rw [Token.render, String.toList_ofList]
    refine .identifier hrun hne fun hnumeral => ?_
    rw [(Decimal.literal?_isSome_iff run).mpr hnumeral] at hliteral
    cases hliteral
  intro t ht
  simp only [longBranch, Form.tokens, Form.allTokens, allTokens_names, List.mem_cons,
    List.mem_append, List.not_mem_nil, or_false, List.mem_replicate] at ht
  rcases ht with rfl | (rfl | rfl | (rfl | (rfl | ⟨-, rfl⟩) | rfl)) | rfl
  · exact .opening
  · exact hname ['i', 'f'] (by simp [Token.isAtomChar, Text.isBlank]) (by decide) rfl
  · exact hname ['t'] (by simp [Token.isAtomChar, Text.isBlank]) (by decide) rfl
  · exact .opening
  · exact hname ['d', 'o'] (by simp [Token.isAtomChar, Text.isBlank]) (by decide) rfl
  · exact hname ['t'] (by simp [Token.isAtomChar, Text.isBlank]) (by decide) rfl
  · exact .closing
  · exact .closing

/-- A text that is printed from one form without numbers is read as a program of this form. -/
theorem Node.exists_ofProgram_render {f : Form} (hspells : ∀ t ∈ f.tokens, t.Spells t.render.toList)
    (hdepth : f.depth ≤ maxNesting) :
    ∃ node, ofProgram f.render = .ok (ofForms f.render [node]) ∧ node.form = f := by
  obtain ⟨lexemes, hscan, htokens⟩ := Token.scan_render hspells
  have hall : Form.allTokens [f] = Lexeme.tokens lexemes := by
    rw [Form.allTokens, Form.allTokens, List.append_nil, htokens]
  have hbalanced : Token.Balanced (Lexeme.tokens lexemes) :=
    hall ▸ Form.balanced_allTokens (by simpa [Form.depths] using hdepth)
  obtain ⟨nodes, hroot, hnodes⟩ := exists_ofProgram hscan hbalanced
  have hforms : forms nodes = [f] := Form.allTokens_inj (hnodes.trans hall.symm)
  obtain ⟨node, rest, rfl, rfl, hrest⟩ := forms_eq_cons hforms
  rw [forms_eq_nil.mp hrest] at hroot
  exact ⟨node, hroot, rfl⟩

theorem Compile.sequence_names (unit : Nat) (tail : Bool) (span : Span) {n : Nat}
    {nodes : List Node} (h : Node.forms nodes = List.replicate (n + 1) (.identifier "t")) :
    ∃ is, Compile.sequence unit tail span nodes = .ok is ∧ is.length = 2 * n + 1 := by
  induction n generalizing nodes with
  | zero =>
    obtain ⟨node, rest, rfl, hnode, hrest⟩ := Node.forms_eq_cons h
    obtain rfl := Node.forms_eq_nil.mp hrest
    obtain ⟨place, rfl⟩ := Node.identifier_of_form hnode
    exact ⟨[⟨.nameLookup "t", place⟩], by rw [Compile.sequence, expression]; rfl, rfl⟩
  | succ n ih =>
    obtain ⟨node, rest, rfl, hnode, hrest⟩ := Node.forms_eq_cons h
    obtain ⟨place, rfl⟩ := Node.identifier_of_form hnode
    obtain ⟨is, his, hlength⟩ := ih hrest
    obtain ⟨other, others, rfl, -, -⟩ := Node.forms_eq_cons hrest
    refine ⟨[⟨.nameLookup "t", place⟩] ++ [⟨.pop, place⟩] ++ is, ?_, ?_⟩
    · rw [Compile.sequence, his, expression]
      · rfl
      · simp
    · simp only [List.length_append, List.length_singleton]
      omega

/-- The nodes of a long branch. -/
theorem Node.eq_longBranch {n : Nat} {node : Node} (h : node.form = longBranch n) :
    ∃ ifSpan t doSpan names yesSpan span,
      node = .list [.identifier "if" ifSpan, .identifier "t" t,
        .list (.identifier "do" doSpan :: names) yesSpan] span ∧
      forms names = List.replicate n (.identifier "t") := by
  obtain ⟨items, span, rfl, hitems⟩ := list_of_form h
  obtain ⟨head, rest, rfl, hhead, hrest⟩ := forms_eq_cons hitems
  obtain ⟨condition, rest, rfl, hcondition, hrest⟩ := forms_eq_cons hrest
  obtain ⟨yes, rest, rfl, hyes, hrest⟩ := forms_eq_cons hrest
  obtain rfl := forms_eq_nil.mp hrest
  obtain ⟨ifSpan, rfl⟩ := identifier_of_form hhead
  obtain ⟨t, rfl⟩ := identifier_of_form hcondition
  obtain ⟨body, yesSpan, rfl, hbody⟩ := list_of_form hyes
  obtain ⟨sequence, names, rfl, hsequence, hnames⟩ := forms_eq_cons hbody
  obtain ⟨doSpan, rfl⟩ := identifier_of_form hsequence
  exact ⟨ifSpan, t, doSpan, names, yesSpan, span, rfl, hnames⟩

/-- The jump past the branch is too far. -/
theorem Compile.expression_longBranch (unit : Nat) (tail : Bool) {n : Nat} (hn : 2 ^ 30 ≤ n)
    {node : Node} (h : node.form = longBranch n) :
    expression unit tail node = .error (.internal .jumpTooFar) := by
  obtain ⟨ifSpan, t, doSpan, names, yesSpan, span, rfl, hnames⟩ := Node.eq_longBranch h
  obtain ⟨m, rfl⟩ : ∃ m, n = m + 1 := ⟨n - 1, by omega⟩
  obtain ⟨is, his, hlength⟩ := sequence_names unit tail yesSpan hnames
  have hyes : expression unit tail (.list (.identifier "do" doSpan :: names) yesSpan) = .ok is := by
    rw [expression.eq_def]
    exact his
  have hfar : ¬ is.length + 2 < jumpLimit := by
    unfold jumpLimit
    omega
  have hcondition : expression unit false (.identifier "t" t) = .ok [⟨.nameLookup "t", t⟩] := by
    rw [expression]
    rfl
  have hbranch : expression unit tail (.list [.identifier "if" ifSpan, .identifier "t" t,
      .list (.identifier "do" doSpan :: names) yesSpan] span) = (do
        let condition ← expression unit false (.identifier "t" t)
        let yes ← expression unit tail (.list (.identifier "do" doSpan :: names) yesSpan)
        conditional span condition yes (.ok [⟨.loadConstant .null, span⟩])) := by
    rw [expression.eq_def]
    rfl
  rw [hbranch, hcondition, hyes]
  show conditional span _ is _ = _
  rw [conditional, checkJump, if_neg hfar]
  rfl

/-- A program without the word `defn` has no definitions. -/
theorem Node.definitions_eq_nil {root : Node} (h : .identifier "defn" ∉ root.form.tokens) :
    root.definitions = [] := by
  refine List.flatMap_eq_nil_iff.mpr fun k _ => List.filterMap_eq_nil_iff.mpr fun node hnode => ?_
  have hword : .identifier "defn" ∉ node.form.tokens :=
    fun hmem => h ((tokens_sublist_of_layer hnode).subset hmem)
  unfold Definition.ofNode?
  split
  · simp [form, forms, Form.tokens, Form.allTokens] at hword
  · rfl

/-- It is read as a program, and has no definitions, but it is not compiled. -/
theorem exists_ofProgram_longBranch {n : Nat} (hn : 2 ^ 30 ≤ n) :
    ∃ root, Node.ofProgram (longBranch n).render = .ok root ∧
      Definition.find root = .ok [] ∧
      ∀ unit, Code.ofProgram unit root = .error (.internal .jumpTooFar) := by
  have hdepth : (longBranch n).depth ≤ maxNesting := by
    rw [depth_longBranch]
    decide
  obtain ⟨node, hroot, hnode⟩ := Node.exists_ofProgram_render (spells_longBranch n) hdepth
  refine ⟨_, hroot, ?_, fun unit => ?_⟩
  · have hword : .identifier "defn" ∉ (Node.ofForms (longBranch n).render [node]).form.tokens := by
      simp [Node.ofForms, Node.form, Node.forms, hnode, longBranch, Form.tokens, Form.allTokens,
        allTokens_names]
    rw [Definition.find_eq, Node.definitions_eq_nil hword]
    rfl
  · have hcode := Compile.expression_longBranch unit false hn hnode
    rw [Code.ofProgram, Node.ofForms, Compile.expression.eq_def]
    show ((Compile.expression unit false node) >>= _) = _
    rw [hcode]
    rfl

end LiveLisp
