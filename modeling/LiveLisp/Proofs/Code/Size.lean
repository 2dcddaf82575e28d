/-
  How long code is and how far it jumps. A form compiles to fewer than two instructions for each of
  its tokens (`bounds_of_compiles`), and every token of a text has at least one byte
  (`length_tokens_le`); so only a text of `2 ^ 30` bytes has a jump that 32 bits do not hold. All
  jumps of compiled code are held by them (`fits_ofProgram`).
-/
import LiveLisp.Proofs.Text.Lossless
import LiveLisp.Proofs.Tree.Places

namespace LiveLisp

open Compile

/-! ## Tokens -/

namespace Node

theorem length_tokens_pos (node : Node) : 0 < node.form.tokens.length :=
  List.length_pos_iff.mpr node.form.tokens_ne_nil

theorem length_tokens_list (items : List Node) (span : Span) :
    (list items span).form.tokens.length = (Form.allTokens (forms items)).length + 2 := by
  simp [form, Form.tokens]

theorem length_allTokens_cons (node : Node) (nodes : List Node) :
    (Form.allTokens (forms (node :: nodes))).length =
      node.form.tokens.length + (Form.allTokens (forms nodes)).length := by
  rw [forms, Form.allTokens, List.length_append]

theorem tokens_sublist_of_mem {a : Node} {nodes : List Node} (h : a ∈ nodes) :
    a.form.tokens.Sublist (Form.allTokens (forms nodes)) := by
  induction nodes with
  | nil => cases h
  | cons node nodes ih =>
    rw [forms, Form.allTokens]
    rcases List.mem_cons.mp h with rfl | h
    · exact List.sublist_append_left _ _
    · exact (ih h).trans (List.sublist_append_right _ _)

/-- A node inside another is written with some of its tokens. -/
theorem tokens_sublist_of_layer {a node : Node} {k : Nat} (h : a ∈ node.layer k) :
    a.form.tokens.Sublist node.form.tokens := by
  induction k generalizing node with
  | zero => rw [List.mem_singleton.mp h]
  | succ k ih =>
    obtain ⟨child, hchild, hbelow⟩ := List.mem_flatMap.mp h
    cases node with
    | list items span =>
      have hitems : child.form.tokens.Sublist (Form.allTokens (forms items)) :=
        tokens_sublist_of_mem hchild
      rw [form, Form.tokens]
      exact ((ih hbelow).trans hitems).trans ((List.sublist_append_left _ _).cons _)
    | _ => cases hchild

end Node

/-- A body has fewer tokens than its definition. -/
theorem Definition.length_tokens_body_le {node : Node} {depth : Nat} {d : Definition}
    (h : ofNode? node depth = some d) :
    (Form.allTokens (Node.forms d.body)).length ≤ node.form.tokens.length := by
  unfold ofNode? at h
  split at h
  · obtain ⟨names, -, rfl⟩ := Option.map_eq_some_iff.mp h
    simp only [Node.length_tokens_list, Node.length_allTokens_cons]
    omega
  · cases h

/-- What stands apart in a text, with a byte each, is not more than the text has bytes. -/
theorem length_le_of_pairwise {lexemes : List Lexeme} {start stop : Nat}
    (hnonempty : ∀ x ∈ lexemes, x.span.start < x.span.stop)
    (hordered : lexemes.Pairwise fun a b => a.span.stop ≤ b.span.start)
    (hwithin : ∀ x ∈ lexemes, start ≤ x.span.start ∧ x.span.stop ≤ stop) (hle : start ≤ stop) :
    start + lexemes.length ≤ stop := by
  induction lexemes generalizing start with
  | nil => exact hle
  | cons x lexemes ih =>
    obtain ⟨hx, hnonempty⟩ := List.forall_mem_cons.mp hnonempty
    obtain ⟨hafter, hordered⟩ := List.pairwise_cons.mp hordered
    obtain ⟨hwithinx, hwithin⟩ := List.forall_mem_cons.mp hwithin
    have hrest := ih hnonempty hordered (fun y hy => ⟨hafter y hy, (hwithin y hy).2⟩) hwithinx.2
    rw [List.length_cons]
    omega

/-- The tokens of a program are no more than its bytes, and the three of the `do` around it. -/
theorem Node.length_tokens_le {source : String} {root : Node} (h : ofProgram source = .ok root) :
    root.form.tokens.length ≤ source.utf8ByteSize + 3 := by
  obtain ⟨lexemes, hscan, -⟩ := except_bind_eq_ok h
  have hscan := scan_eq_ok hscan
  have haccepts := ofProgram_accepts hscan
  rw [h] at haccepts
  obtain ⟨-, nodes, rfl, htokens⟩ := haccepts
  have hlossless := Token.lossless_of_scan hscan
  have hle : 0 + lexemes.length ≤ source.utf8ByteSize :=
    length_le_of_pairwise hlossless.nonempty hlossless.ordered
      (fun x hx => ⟨Nat.zero_le _, (hlossless.boundaries x hx).2.le_rawEndPos⟩) (Nat.zero_le _)
  have hlength : (Lexeme.tokens lexemes).length = lexemes.length := List.length_map ..
  rw [ofForms, length_tokens_list, length_allTokens_cons, htokens, hlength]
  simp only [form, Form.tokens, List.length_singleton]
  omega

/-! ## Instructions -/

/-- How long the code of a part is at most. -/
def Part.Bounds (is : List Instruction) : Part → Prop
  | .form _ node => is.length < 2 * node.form.tokens.length
  | .body _ _ nodes => is.length ≤ 2 * (Form.allTokens (Node.forms nodes)).length + 1
  | .arguments nodes => is.length ≤ 2 * (Form.allTokens (Node.forms nodes)).length

theorem bounds_of_compiles {unit : Nat} {part : Part} {is : List Instruction}
    (h : Compiles unit part is) : part.Bounds is := by
  induction h with
  | number | text | literal | name => exact Nat.one_lt_two
  | define _ _ ih | assign _ _ ih =>
    simp only [Part.Bounds, Node.length_tokens_list, Node.length_allTokens_cons,
      List.length_append, List.length_singleton] at ih ⊢
    omega
  | @lambda _ head =>
    have := head.length_tokens_pos
    simp only [Part.Bounds, Node.length_tokens_list, Node.length_allTokens_cons, function,
      List.length_cons, List.length_nil]
    omega
  | @defn _ head =>
    have := head.length_tokens_pos
    simp only [Part.Bounds, Node.length_tokens_list, Node.length_allTokens_cons, function,
      List.length_cons, List.length_nil]
    omega
  | ifThen _ _ _ _ ihc ihy =>
    simp only [Part.Bounds, Node.length_tokens_list, Node.length_allTokens_cons, branch,
      List.length_append, List.length_singleton] at ihc ihy ⊢
    omega
  | ifThenElse _ _ _ _ _ _ ihc ihy ihn =>
    simp only [Part.Bounds, Node.length_tokens_list, Node.length_allTokens_cons, branch,
      List.length_append, List.length_singleton] at ihc ihy ihn ⊢
    omega
  | sequence _ _ ih =>
    simp only [Part.Bounds, Node.length_tokens_list, Node.length_allTokens_cons] at ih ⊢
    omega
  | callName _ _ ih =>
    simp only [Part.Bounds, Node.length_tokens_list, Node.length_allTokens_cons,
      List.length_append, List.length_singleton] at ih ⊢
    omega
  | call _ _ _ ihc iha =>
    simp only [Part.Bounds, Node.length_tokens_list, Node.length_allTokens_cons,
      List.length_append, List.length_singleton] at ihc iha ⊢
    omega
  | nothing => exact Nat.le_add_left 1 _
  | last _ ih =>
    simp only [Part.Bounds, Node.length_allTokens_cons] at ih ⊢
    omega
  | next _ _ ih ihs =>
    simp only [Part.Bounds, Node.length_allTokens_cons, List.length_append,
      List.length_singleton] at ih ihs ⊢
    omega
  | noArguments => exact Nat.zero_le _
  | argument _ _ ih ihs =>
    simp only [Part.Bounds, Node.length_allTokens_cons, List.length_append] at ih ihs ⊢
    omega

/-! ## Jumps -/

namespace Code

mutual
/-- The offsets of the jumps in a code, those of the function bodies inside it included. -/
def offsets : Code → List Int
  | ⟨_, instructions⟩ => offsetsIn instructions
def offsetsIn : List Instruction → List Int
  | [] => []
  | ⟨.push (.code body), _⟩ :: rest => offsets body ++ offsetsIn rest
  | ⟨.jump offset, _⟩ :: rest => offset :: offsetsIn rest
  | ⟨.jumpIfNot offset, _⟩ :: rest => offset :: offsetsIn rest
  | _ :: rest => offsetsIn rest
end

theorem offsetsIn_append (is js : List Instruction) :
    offsetsIn (is ++ js) = offsetsIn is ++ offsetsIn js := by
  induction is with
  | nil => rfl
  | cons i is ih =>
    obtain ⟨op, origin⟩ := i
    cases op with
    | push v => cases v <;> simp [offsetsIn, ih]
    | _ => simp [offsetsIn, ih]

/-- All offsets are forward, and 32 bits hold them. -/
def Fits (is : List Instruction) : Prop :=
  ∀ offset ∈ offsetsIn is, 0 < offset ∧ offset < jumpLimit

namespace Fits

variable {is js : List Instruction} {span : Span}

theorem append (h : Fits is) (h' : Fits js) : Fits (is ++ js) := fun offset hoffset => by
  rw [offsetsIn_append] at hoffset
  exact (List.mem_append.mp hoffset).elim (h offset) (h' offset)

theorem quiet {i : Instruction} (h : offsetsIn [i] = []) : Fits [i] := fun offset hoffset => by
  rw [h] at hoffset
  cases hoffset

theorem invocation {tail : Bool} {argc : Nat} : Fits [⟨Compile.invocation tail argc, span⟩] := by
  cases tail <;> exact .quiet rfl

theorem function {unit : Nat} {name : Option String} {params : List String} {paramsSpan : Span}
    (h : Fits is) : Fits (Compile.function unit name params paramsSpan is span) := by
  intro offset hoffset
  refine h offset ?_
  simpa [Compile.function, offsetsIn, offsets, offsetsIn_append] using hoffset

theorem branch {cs ys ns : List Instruction} (hc : Fits cs) (hy : Fits ys) (hn : Fits ns)
    (hpast : ys.length + 2 < jumpLimit) (hend : ns.length + 1 < jumpLimit) :
    Fits (Compile.branch span cs ys ns) := by
  have hfirst : Fits [⟨.jumpIfNot (ys.length + 2), span⟩] := by
    simp only [Fits, offsetsIn, List.mem_singleton, forall_eq]
    omega
  have hsecond : Fits [⟨.jump (ns.length + 1), span⟩] := by
    simp only [Fits, offsetsIn, List.mem_singleton, forall_eq]
    omega
  exact (((hc.append hfirst).append hy).append hsecond).append hn

end Fits

theorem fits_of_compiles {unit : Nat} {part : Part} {is : List Instruction}
    (h : Compiles unit part is) : Fits is := by
  induction h with
  | number | text | literal | name | nothing => exact .quiet rfl
  | define _ _ ih | assign _ _ ih => exact .append ih (.quiet rfl)
  | lambda _ _ _ ih | defn _ _ _ ih => exact .function ih
  | ifThen _ _ _ hpast ihc ihy =>
    have hend : 1 + 1 < jumpLimit := by decide
    exact .branch ihc ihy (.quiet rfl) hpast hend
  | ifThenElse _ _ _ _ hpast hend ihc ihy ihn => exact .branch ihc ihy ihn hpast hend
  | sequence _ _ ih | last _ ih => exact ih
  | callName _ _ ih => exact (Fits.append (.quiet rfl) ih).append .invocation
  | call _ _ _ ihc iha => exact (ihc.append iha).append .invocation
  | next _ _ ih ihs => exact (ih.append (.quiet rfl)).append ihs
  | noArguments => exact fun _ hoffset => by cases hoffset
  | argument _ _ ih ihs => exact ih.append ihs

/-- No jump of a program that is compiled is cut off. -/
theorem fits_ofProgram {unit : Nat} {root : Node} {code : Code}
    (h : Code.ofProgram unit root = .ok code) :
    ∀ offset ∈ code.offsets, 0 < offset ∧ offset < jumpLimit := by
  obtain ⟨is, his, h⟩ := except_bind_eq_ok h
  cases h
  exact (fits_of_compiles (compiles_expression his)).append (.quiet rfl)

end Code

end LiveLisp
