/-
  What code makes functions of. `Makes O` says of what is left to run that whatever function it
  makes, or a body in it makes, `O` holds of the operands: the name, if it has one, the parameters
  and the body.

  Of compiled code it holds that every such body is compiled from a definition of the program, and
  is the site of that definition; and whatever is a site of a definition is named after its place
  (`from_ofProgram`, `from_ofDefinition`).
-/
import LiveLisp.Proofs.Code.Unmarked
import LiveLisp.Proofs.Tree.Places

namespace LiveLisp

/-- What is left to run. Wherever a jump may lead, the same is known of the rest. -/
inductive Makes (O : Option String → List String → Code → Prop) : List Instruction → Prop where
  | ret {origin : Span} : Makes O [⟨.ret, origin⟩]
  | plain {op : Op} {origin : Span} {is : List Instruction} (hop : op.Plain)
      (hskip : ∀ k, op.skip? = some k → Makes O (is.drop k)) (hnext : Makes O is) :
        Makes O (⟨op, origin⟩ :: is)
  | function {name : Option String} {params : List String} {code : Code} {o₁ o₂ o₃ : Span}
      {is : List Instruction}
      (hmade : O name params code) (hcode : Makes O code.instructions) (hnext : Makes O is) :
    Makes O (⟨.push (.params params), o₁⟩ :: ⟨.push (.code code), o₂⟩ ::
      ⟨.buildFunction name, o₃⟩ :: is)

/-- What is known of the operands of named functions only. -/
def Named (O : String → List String → Code → Prop) (name : Option String) (params : List String)
    (code : Code) : Prop :=
  ∀ f, name = some f → O f params code

/-- A body that is itself known as an operand, and makes its functions from known ones. -/
structure Code.Made (O : Option String → List String → Code → Prop) (code : Code) : Prop where
  operand : ∃ name params, O name params code
  makes : Makes O code.instructions

variable {O O' : String → List String → Code → Prop} {P : Option String → List String → Code → Prop}
  {is js : List Instruction} {whole : Code}

theorem Makes.imp (h : Makes (Named O) is)
    (hO : ∀ f params code, O f params code → O' f params code) :
    Makes (Named O') is := by
  induction h with
  | ret => exact .ret
  | plain hop _ _ ihskip ihnext => exact .plain hop ihskip ihnext
  | function hmade _ _ ihcode ihnext =>
    exact .function (fun f hf => hO _ _ _ (hmade f hf)) ihcode ihnext

/-- Of functions without a name nothing has to be known. -/
theorem Makes.made {code : Code} (h : Makes (Named O) code.instructions) : code.Made (Named O) :=
  ⟨⟨none, [], nofun⟩, h⟩

/-! ## Bodies and the places of their forms -/

namespace Code

mutual
/-- All bodies in the code are named after the place that they are pushed at. -/
def Stamped : Code → Prop
  | ⟨_, instructions⟩ => StampedIn instructions
def StampedIn : List Instruction → Prop
  | [] => True
  | ⟨.push (.code body), origin⟩ :: rest =>
    body.id.form = some origin ∧ Stamped body ∧ StampedIn rest
  | _ :: rest => StampedIn rest
end

theorem stampedIn_instructions : StampedIn whole.instructions ↔ whole.Stamped := by
  obtain ⟨id, instructions⟩ := whole
  exact Iff.rfl

theorem stampedIn_push_code {body : Code} {origin : Span} :
    StampedIn (⟨.push (.code body), origin⟩ :: is) ↔
    body.id.form = some origin ∧ body.Stamped ∧ StampedIn is := Iff.rfl

theorem stampedIn_cons_iff {i : Instruction} : StampedIn (i :: is) ↔
    (∀ body, i.op = .push (.code body) → body.id.form = some i.origin ∧ body.Stamped) ∧
    StampedIn is := by
  obtain ⟨op, origin⟩ := i
  have hskip (h : StampedIn (⟨op, origin⟩ :: is) ↔ StampedIn is)
    (hop : ∀ body, op ≠ .push (.code body)) :
      StampedIn (⟨op, origin⟩ :: is) ↔
        (∀ body, op = .push (.code body) → body.id.form = some origin ∧ body.Stamped) ∧
          StampedIn is :=
    h.trans ⟨fun his => ⟨fun body hbody => absurd hbody (hop body), his⟩, And.right⟩
  cases op with
  | push v =>
    cases v with
    | code body => simp [stampedIn_push_code, and_assoc]
    | _ => exact hskip Iff.rfl (by simp)
  | _ => exact hskip Iff.rfl (by simp)

theorem stampedIn_append : StampedIn (is ++ js) ↔ StampedIn is ∧ StampedIn js := by
  induction is with
  | nil => exact ⟨fun h => ⟨trivial, h⟩, And.right⟩
  | cons i is ih => rw [List.cons_append, stampedIn_cons_iff, stampedIn_cons_iff, ih, and_assoc]

theorem stampedIn_drop (h : StampedIn is) (k : Nat) : StampedIn (is.drop k) := by
  rw [← List.take_append_drop k is, stampedIn_append] at h
  exact h.2

theorem stampedIn_single {op : Op} (hop : ∀ body, op ≠ .push (.code body)) (origin : Span) :
    StampedIn [⟨op, origin⟩] :=
  stampedIn_cons_iff.mpr ⟨fun body hbody => absurd hbody (hop body), trivial⟩

theorem stampedIn_invocation (tail : Bool) (argc : Nat) (origin : Span) :
    StampedIn [⟨Compile.invocation tail argc, origin⟩] := by
  cases tail with
  | true => exact stampedIn_single (by simp [Compile.invocation]) origin
  | false => exact stampedIn_single (by simp [Compile.invocation]) origin

theorem stampedIn_returns (h : StampedIn is) (span : Span) : StampedIn (is ++ [⟨.ret, span⟩]) :=
  stampedIn_append.mpr ⟨h, stampedIn_single (by simp) span⟩

theorem stampedIn_function (unit : Nat) (name : Option String)
    (params : List String) (paramsSpan : Span) (h : StampedIn is)
    (span : Span) : StampedIn (Compile.function unit name params paramsSpan is span) := by
  have hbody : (⟨⟨unit, some span⟩, is ++ [⟨.ret, span⟩]⟩ : Code).Stamped :=
    stampedIn_returns h span
  unfold Compile.function
  refine stampedIn_cons_iff.mpr ⟨by simp, stampedIn_push_code.mpr ⟨rfl, hbody, ?_⟩⟩
  exact stampedIn_single (by simp) span

theorem stampedIn_branch {cs ys ns : List Instruction} (hc : StampedIn cs)
    (hy : StampedIn ys) (hn : StampedIn ns) (span : Span) :
    StampedIn (Compile.branch span cs ys ns) := by
  have hjumpIfNot : StampedIn [⟨.jumpIfNot (ys.length + 2), span⟩] :=
    stampedIn_single (by simp) span
  have hjump : StampedIn [⟨.jump (ns.length + 1), span⟩] := stampedIn_single (by simp) span
  unfold Compile.branch
  simp only [stampedIn_append]
  exact ⟨⟨⟨⟨hc, hjumpIfNot⟩, hy⟩, hjump⟩, hn⟩

theorem stampedIn_of_compiles {unit : Nat} {part : Part}
    (h : Compiles unit part is) : StampedIn is := by
  induction h with
  | number => exact stampedIn_single (by simp) _
  | text => exact stampedIn_single (by simp) _
  | literal => exact stampedIn_single (by simp) _
  | name => exact stampedIn_single (by simp) _
  | define _ _ ih => exact stampedIn_append.mpr ⟨ih, stampedIn_single (by simp) _⟩
  | assign _ _ ih => exact stampedIn_append.mpr ⟨ih, stampedIn_single (by simp) _⟩
  | lambda _ _ _ ih => exact stampedIn_function _ _ _ _ ih _
  | defn _ _ _ ih => exact stampedIn_function _ _ _ _ ih _
  | ifThen _ _ _ _ ihc ihy => exact stampedIn_branch ihc ihy (stampedIn_single (by simp) _) _
  | ifThenElse _ _ _ _ _ _ ihc ihy ihn => exact stampedIn_branch ihc ihy ihn _
  | sequence _ _ ih => exact ih
  | callName _ _ ih =>
    exact stampedIn_append.mpr ⟨stampedIn_append.mpr ⟨stampedIn_single (by simp) _, ih⟩,
      stampedIn_invocation ..⟩
  | call _ _ _ ihc iha =>
    exact stampedIn_append.mpr ⟨stampedIn_append.mpr ⟨ihc, iha⟩, stampedIn_invocation ..⟩
  | nothing => exact stampedIn_single (by simp) _
  | last _ ih => exact ih
  | next _ _ ih ihs =>
    exact stampedIn_append.mpr ⟨stampedIn_append.mpr ⟨ih, stampedIn_single (by simp) _⟩, ihs⟩
  | noArguments => trivial
  | argument _ _ ih ihs => exact stampedIn_append.mpr ⟨ih, ihs⟩

theorem stamped_ofProgram {unit : Nat} {root : Node} {code : Code}
    (h : ofProgram unit root = .ok code) :
    code.Stamped := by
  obtain ⟨is, his, h⟩ := except_bind_eq_ok h
  cases h
  exact stampedIn_returns (stampedIn_of_compiles (compiles_expression his)) _

theorem stamped_ofDefinition {unit : Nat} {d : Definition} {code : Code}
    (h : ofDefinition unit d = .ok code) :
    code.Stamped := by
  obtain ⟨is, his, rfl⟩ := ofDefinition_eq_ok h
  exact stampedIn_returns (stampedIn_of_compiles his) _

end Code

/-! ## Sites -/

namespace Code

variable {f : String} {span : Span}

theorem sitesIn_instructions (code : Code) :
    sitesIn f span code.instructions = code.sitesAt f span := by
  obtain ⟨id, instructions⟩ := code
  rfl

theorem mem_sitesIn_function {name : Option String} {params : List String}
    {code site : Code} {o₁ o₂ o₃ : Span} :
    site ∈ sitesIn f span
      (⟨.push (.params params), o₁⟩ :: ⟨.push (.code code), o₂⟩ ::
        ⟨.buildFunction name, o₃⟩ :: is) ↔
    (name = some f ∧ o₂ = span ∧ site = code) ∨ site ∈ code.sitesAt f span ∨
    site ∈ sitesIn f span is := by
  rw [sitesIn_function]
  cases name with
  | none => simp [registers]
  | some other =>
    by_cases hother : other = f <;> by_cases hplace : o₂ = span <;> simp [registers, hother, hplace]

theorem sitesIn_plain {op : Op} (hop : op.Plain) (origin : Span) :
    sitesIn f span (⟨op, origin⟩ :: is) = sitesIn f span is := by
  cases op with
  | push v => exact hop.elim
  | _ => rfl

end Code

namespace Unmarks

/-- Code of which all operands are known makes its functions from these, and they are sites of the
code around it. -/
theorem makes (h : Unmarks P is js) (hstamped : Code.StampedIn is) (hwithin : Within whole is) :
    Makes (Named fun f params code => P (some f) params code ∧
      ∃ span, code.id.form = some span ∧ code ∈ whole.sitesAt f span) is := by
  induction h with
  | ret => exact .ret
  | @plain op origin is js hop _ _ ihskip ihnext =>
    rw [Code.stampedIn_cons_iff] at hstamped
    have hall : Within whole ([⟨op, origin⟩] ++ is) := hwithin
    have hrest := hall.right
    refine .plain hop (fun k hk => ihskip k hk (Code.stampedIn_drop hstamped.2 k) ?_)
      (ihnext hstamped.2 hrest)
    rw [← List.take_append_drop k is] at hrest
    exact hrest.right
  | @tailCall argc origin is js _ _ ihnext =>
    rw [Code.stampedIn_cons_iff] at hstamped
    have hrest : Within whole ([⟨.tailCall argc, origin⟩] ++ is) := hwithin
    exact .plain trivial (fun k hk => by cases hk) (ihnext hstamped.2 hrest.right)
  | @function name params code code' o₁ o₂ o₃ is js hmade _ _ _ ihcode ihnext =>
    obtain ⟨hform, hbody, hrest⟩ :=
      Code.stampedIn_push_code.mp (Code.stampedIn_cons_iff.mp hstamped).2
    have hrest := (Code.stampedIn_cons_iff.mp hrest).2
    refine .function (fun f hf => ⟨hf ▸ hmade, o₂, hform, ?_⟩)
      (ihcode ?_ fun f span site hsite => ?_)
      (ihnext hrest fun f span site hsite => ?_)
    · exact hwithin f o₂ (Code.mem_sitesIn_function.mpr (.inl ⟨hf, rfl, rfl⟩))
    · exact Code.stampedIn_instructions.mpr hbody
    · rw [Code.sitesIn_instructions] at hsite
      exact hwithin f span (Code.mem_sitesIn_function.mpr (.inr (.inl hsite)))
    · exact hwithin f span (Code.mem_sitesIn_function.mpr (.inr (.inr hsite)))

/-- A site is made from operands that are known, at its place. -/
theorem of_mem_sitesIn (h : Unmarks P is js) (hstamped : Code.StampedIn is) {f : String}
    {span : Span} {site : Code} (hsite : site ∈ Code.sitesIn f span is) :
    (∃ params, P (some f) params site) ∧ site.id.form = some span := by
  induction h with
  | ret => cases hsite
  | plain hop _ _ _ ihnext =>
    rw [Code.stampedIn_cons_iff] at hstamped
    rw [Code.sitesIn_plain hop] at hsite
    exact ihnext hstamped.2 hsite
  | tailCall _ _ ihnext =>
    rw [Code.stampedIn_cons_iff] at hstamped
    exact ihnext hstamped.2 hsite
  | function hmade _ _ _ ihcode ihnext =>
    obtain ⟨hform, hbody, hrest⟩ :=
      Code.stampedIn_push_code.mp (Code.stampedIn_cons_iff.mp hstamped).2
    have hrest := (Code.stampedIn_cons_iff.mp hrest).2
    rcases Code.mem_sitesIn_function.mp hsite with ⟨rfl, rfl, rfl⟩ | hinner | hnext
    · exact ⟨⟨_, hmade⟩, hform⟩
    · rw [← Code.sitesIn_instructions] at hinner
      exact ihcode (Code.stampedIn_instructions.mpr hbody) hinner
    · exact ihnext hrest hnext

end Unmarks

/-! ## Compiled programs -/

/-- The body has been compiled from the definition, as part of this code. -/
structure Definition.CompiledIn (d : Definition) (whole site : Code) : Prop where
  compiled : Code.ofDefinition whole.id.unit d = .ok site
  site : site ∈ whole.sites d

/-- The operands are those of a definition of the program. -/
def OfProgram (root : Node) (whole : Code) (f : String) (params : List String)
    (site : Code) : Prop :=
  ∃ d ∈ root.definitions, d.name = f ∧ d.params = params ∧ d.CompiledIn whole site

/-- Code that has been compiled from a program, or from the body of one of its definitions. -/
structure Code.From (root : Node) (whole : Code) : Prop where
  makes : Makes (Named (OfProgram root whole)) whole.instructions
  sites : ∀ d ∈ root.definitions, ∀ site ∈ whole.sites d, site.id =
    ⟨whole.id.unit, some d.node.span⟩

namespace Code

variable {root : Node}

theorem id_of_ofDefinition {unit : Nat} {d : Definition} {code : Code}
    (h : ofDefinition unit d = .ok code) :
    code.id = ⟨unit, some d.node.span⟩ := by
  obtain ⟨is, -, rfl⟩ := ofDefinition_eq_ok h
  rfl

theorem from_of_unmarks (hstamped : whole.Stamped)
    (h : Unmarks (fun name params body => ∀ f, name = some f →
      ∃ d ∈ root.definitions, d.name = f ∧ d.params = params ∧
        ofDefinition whole.id.unit d = .ok body)
    whole.instructions js) : From root whole where
  makes := by
    refine (h.makes (stampedIn_instructions.mpr hstamped) .self).imp fun f params site hsite => ?_
    obtain ⟨hknown, span, hform, hmem⟩ := hsite
    obtain ⟨d, hd, rfl, hparams, hcompiled⟩ := hknown f rfl
    rw [id_of_ofDefinition hcompiled] at hform
    cases hform
    exact ⟨d, hd, rfl, hparams, hcompiled, hmem⟩
  sites := fun d _ site hsite => by
    unfold sites at hsite
    rw [← sitesIn_instructions] at hsite
    obtain ⟨⟨params, hknown⟩, hform⟩ := h.of_mem_sitesIn (stampedIn_instructions.mpr hstamped) hsite
    obtain ⟨d', -, -, -, hcompiled⟩ := hknown d.name rfl
    rw [id_of_ofDefinition hcompiled] at hform ⊢
    exact congrArg (CodeId.mk whole.id.unit) hform

/-- All operands are known in what is compiled from nodes of the program. -/
theorem operands (root : Node) (unit : Nat) : Operands (fun name params body => ∀ f, name = some f →
    ∃ d ∈ root.definitions, d.name = f ∧ d.params = params ∧
      ofDefinition unit d = .ok body) root unit where
  defn := fun d hd body hbody f hf => ⟨d, hd, Option.some.inj hf, rfl, hbody⟩
  lambda := fun _ _ f hf => by cases hf

theorem unit_of_ofProgram {unit : Nat} (h : ofProgram unit root = .ok whole) :
    whole.id.unit = unit := by
  obtain ⟨is, -, h⟩ := except_bind_eq_ok h
  cases h
  rfl

theorem from_ofProgram {unit : Nat} {source : String} (hroot : Node.ofProgram source = .ok root)
    (h : ofProgram unit root = .ok whole) : From root whole := by
  obtain ⟨forms, doSpan, span, hforms, -⟩ := Node.nodup_starts_of_ofProgram hroot
  exact from_of_unmarks (stamped_ofProgram h)
    (unmarks_of_program (unit_of_ofProgram h ▸ operands root unit) hforms h)

theorem from_ofDefinition {unit : Nat} {d : Definition} (hd : d ∈ root.definitions)
    (h : ofDefinition unit d = .ok whole) : From root whole := by
  have hunit : whole.id.unit = unit := by rw [id_of_ofDefinition h]
  obtain ⟨k, -, hlayer⟩ := List.mem_flatMap.mp hd
  obtain ⟨node, hnode, hof⟩ := List.mem_filterMap.mp hlayer
  have hbody : (Part.body true d.node.span d.body).In root (k + 1) := fun child hchild =>
    Node.mem_layer_succ hnode ((Definition.ofNode?_eq_some hof).2 hchild)
  exact from_of_unmarks (stamped_ofDefinition h)
    (unmarks_of_definition (hunit ▸ operands root unit) hbody h)

end Code

end LiveLisp
