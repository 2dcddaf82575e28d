/-
  What the reader accepts. A form is flattened into tokens (`Form.tokens`), and no two forests have
  the same flattening (`Form.allTokens_inj`). A program is read iff its parentheses are balanced: no
  prefix of its tokens closes more lists than it opens or leaves more than `maxNesting` open, and
  all of them close as many as they open. What is read is the forest with these tokens, and what is
  refused is refused at the first fault (`reads_balanced`).

  The reader is one pass with a stack, so the invariant goes along the lexemes read so far:
  `Reading.Holds` says which of them each open list began with and that those after it are the items
  read since. A step keeps it or stops at a fault (`reads_of_next`), and the theorems follow by
  induction on the lexemes from the right.
-/
import Mathlib.Data.List.Induction
import Mathlib.Data.List.Infix
import LiveLisp.Proofs.Outcome
import LiveLisp.Proofs.Source.LineIndex
import LiveLisp.Tree.Node

namespace LiveLisp

namespace Token

def isOpening : Token → Bool
  | opening => true
  | _ => false

def isClosing : Token → Bool
  | closing => true
  | _ => false

/-- How many lists the tokens open. -/
def openings (tokens : List Token) : Nat :=
  tokens.countP isOpening

/-- How many lists the tokens close. -/
def closings (tokens : List Token) : Nat :=
  tokens.countP isClosing

/-- At no place have more lists been closed than opened. -/
def NeverStray (tokens : List Token) : Prop :=
  ∀ before, before <+: tokens → closings before ≤ openings before

/-- At no place are more lists open than may be. -/
def NeverDeep (tokens : List Token) : Prop :=
  ∀ before, before <+: tokens → openings before ≤ closings before + maxNesting

/-- Every list is closed after it has been opened, and never are too many open at once. -/
structure Balanced (tokens : List Token) : Prop where
  neverStray : NeverStray tokens
  neverDeep : NeverDeep tokens
  closings_eq : closings tokens = openings tokens

end Token

namespace Form

mutual
/-- The form as it is written, token by token. -/
def tokens : Form → List Token
  | number value => [.number value]
  | text content => [.text content]
  | identifier name => [.identifier name]
  | list items => .opening :: (allTokens items ++ [.closing])
def allTokens : List Form → List Token
  | [] => []
  | form :: forms => tokens form ++ allTokens forms
end

mutual
/-- How many lists are open at once where the form is nested deepest. -/
def depth : Form → Nat
  | list items => depths items + 1
  | _ => 0
def depths : List Form → Nat
  | [] => 0
  | form :: forms => max (depth form) (depths forms)
end

end Form

/-- The tokens of lexemes, without their places. -/
def Lexeme.tokens (lexemes : List Lexeme) : List Token :=
  lexemes.map Lexeme.token

/-- What is wrong with the lexemes of a program, and where: the first lexeme at which too many lists
are open or none is left to close, or else the innermost list that is never closed. -/
inductive Fault (lexemes : List Lexeme) : String → Span → Prop
  | tooDeep {before after : List Lexeme} {x : Lexeme} (h : lexemes = before ++ x :: after)
    (hx : x.token = .opening)
      (hstray : Token.NeverStray (Lexeme.tokens before))
        (hdeep : Token.NeverDeep (Lexeme.tokens before))
      (hopen : Token.openings (Lexeme.tokens before) =
        Token.closings (Lexeme.tokens before) + 256) :
    Fault lexemes "forms nested deeper than 256 levels" x.span
  | stray {before after : List Lexeme} {x : Lexeme} (h : lexemes = before ++ x :: after)
      (hx : x.token = .closing)
      (hstray : Token.NeverStray (Lexeme.tokens before))
        (hdeep : Token.NeverDeep (Lexeme.tokens before))
      (hopen : Token.openings (Lexeme.tokens before) = Token.closings (Lexeme.tokens before)) :
    Fault lexemes "didn't finish parse" x.span
  | unclosed {before after : List Lexeme} {x : Lexeme} (h : lexemes = before ++ x :: after)
      (hx : x.token = .opening)
      (hstray : Token.NeverStray (Lexeme.tokens lexemes))
        (hdeep : Token.NeverDeep (Lexeme.tokens lexemes))
      (hafter : Token.NeverStray (Lexeme.tokens after))
      (hclosed : Token.closings (Lexeme.tokens after) = Token.openings (Lexeme.tokens after)) :
    Fault lexemes "forgot to close something" x.span

namespace Token

/-! ## Counting parentheses -/

section

variable (ts us : List Token)

@[simp] theorem openings_append :
  openings (ts ++ us) = openings ts + openings us := List.countP_append

@[simp] theorem closings_append :
  closings (ts ++ us) = closings ts + closings us := List.countP_append

@[simp] theorem openings_opening : openings (opening :: ts) = openings ts + 1 := List.countP_cons

@[simp] theorem openings_closing : openings (closing :: ts) = openings ts := List.countP_cons

@[simp] theorem closings_opening : closings (opening :: ts) = closings ts := List.countP_cons

@[simp] theorem closings_closing : closings (closing :: ts) = closings ts + 1 := List.countP_cons

@[simp] theorem openings_nil : openings [] = 0 := rfl

@[simp] theorem closings_nil : closings [] = 0 := rfl

end

theorem prefix_append_cases {ts us before : List Token} (h : before <+: ts ++ us) :
    before <+: ts ∨ ∃ more, before = ts ++ more ∧ more <+: us := by
  obtain ⟨after, h⟩ := h
  rcases List.append_eq_append_iff.mp h with ⟨more, rfl, _⟩ | ⟨more, rfl, hus⟩
  · exact .inl ⟨more, rfl⟩
  · exact .inr ⟨more, rfl, after, hus.symm⟩

theorem neverStray_concat {ts : List Token} {t : Token} (h : NeverStray ts)
    (hall : closings (ts ++ [t]) ≤ openings (ts ++ [t])) : NeverStray (ts ++ [t]) := by
  intro before hbefore
  rcases List.prefix_concat_iff.mp hbefore with rfl | hbefore
  · exact hall
  · exact h before hbefore

theorem neverDeep_concat {ts : List Token} {t : Token} (h : NeverDeep ts)
    (hall : openings (ts ++ [t]) ≤ closings (ts ++ [t]) + maxNesting) : NeverDeep (ts ++ [t]) := by
  intro before hbefore
  rcases List.prefix_concat_iff.mp hbefore with rfl | hbefore
  · exact hall
  · exact h before hbefore

end Token

namespace Lexeme

theorem tokens_append_cons (before after : List Lexeme) (x : Lexeme) :
    tokens (before ++ x :: after) = tokens before ++ x.token :: tokens after := by
  simp [tokens]

theorem concat_prefix_tokens (before after : List Lexeme) (x : Lexeme) :
    tokens before ++ [x.token] <+: tokens (before ++ x :: after) :=
  ⟨tokens after, by simp [tokens_append_cons]⟩

end Lexeme

/-! ## Flattened forms -/

namespace Form

open Token (openings closings)

theorem allTokens_append (fs gs : List Form) :
    allTokens (fs ++ gs) = allTokens fs ++ allTokens gs := by
  induction fs with
  | nil => rfl
  | cons f fs ih => rw [List.cons_append, allTokens, allTokens, ih, List.append_assoc]

mutual
/-- A form closes every list it opens. -/
theorem openings_tokens (f : Form) : openings f.tokens = closings f.tokens := by
  cases f with
  | list items =>
    have hitems := openings_allTokens items
    simp [tokens, hitems]
  | _ => rfl
theorem openings_allTokens (fs : List Form) :
    openings (allTokens fs) = closings (allTokens fs) := by
  cases fs with
  | nil => rfl
  | cons f fs => rw [allTokens, Token.openings_append, Token.closings_append, openings_tokens f,
      openings_allTokens fs]
end

/-- What a list is written as, begun but not closed. -/
theorem prefix_list_cases {items : List Form} {before : List Token}
    (h : before <+: (list items).tokens) :
    before = [] ∨ before = (list items).tokens ∨ ∃ more, before = .opening :: more ∧
      more <+: allTokens items := by
  rw [tokens, List.prefix_cons_iff] at h
  rcases h with rfl | ⟨more, rfl, hmore⟩
  · exact .inl rfl
  · rcases List.prefix_concat_iff.mp hmore with rfl | hmore
    · exact .inr (.inl rfl)
    · exact .inr (.inr ⟨more, rfl, hmore⟩)

mutual
/-- Within a form, at least as many lists have been opened as closed, and no more than its depth are
open. -/
theorem prefix_tokens (f : Form) {before : List Token} (h : before <+: f.tokens) :
    closings before ≤ openings before ∧ openings before ≤ closings before + f.depth := by
  cases f with
  | list items =>
    rcases prefix_list_cases h with rfl | rfl | ⟨more, rfl, hmore⟩
    · simp
    · have := openings_tokens (list items)
      omega
    · have hitems := prefix_allTokens items hmore
      rw [Token.openings_opening, Token.closings_opening, depth]
      omega
  | _ =>
    rcases List.prefix_cons_iff.mp h with rfl | ⟨more, rfl, hmore⟩
    · simp
    · rw [List.prefix_nil.mp hmore]
      exact ⟨Nat.le_refl _, Nat.le_add_right _ _⟩
theorem prefix_allTokens (fs : List Form) {before : List Token} (h : before <+: allTokens fs) :
    closings before ≤ openings before ∧ openings before ≤ closings before + depths fs := by
  cases fs with
  | nil =>
    rw [List.prefix_nil.mp h]
    simp
  | cons f fs =>
    rw [allTokens] at h
    rw [depths]
    rcases Token.prefix_append_cases h with h | ⟨more, rfl, hmore⟩
    · have := prefix_tokens f h
      omega
    · have hrest := prefix_allTokens fs hmore
      have hform := openings_tokens f
      rw [Token.openings_append, Token.closings_append]
      omega
end

mutual
/-- Somewhere within a form as many lists are open as it is deep. -/
theorem exists_prefix_tokens (f : Form) :
    ∃ before, before <+: f.tokens ∧ openings before = closings before + f.depth := by
  cases f with
  | list items =>
    obtain ⟨before, hbefore, hopen⟩ := exists_prefix_allTokens items
    refine ⟨.opening :: before, ?_, ?_⟩
    · rw [tokens, List.prefix_cons_inj]
      exact hbefore.trans (List.prefix_append _ _)
    · rw [Token.openings_opening, Token.closings_opening, hopen, depth]
      omega
  | _ => exact ⟨[], List.nil_prefix, rfl⟩
theorem exists_prefix_allTokens (fs : List Form) :
    ∃ before, before <+: allTokens fs ∧ openings before = closings before + depths fs := by
  cases fs with
  | nil => exact ⟨[], List.nil_prefix, rfl⟩
  | cons f fs =>
    rw [allTokens, depths]
    rcases Nat.le_total (depths fs) f.depth with hle | hle
    · obtain ⟨before, hbefore, hopen⟩ := exists_prefix_tokens f
      exact ⟨before, hbefore.trans (List.prefix_append _ _), by omega⟩
    · obtain ⟨before, hbefore, hopen⟩ := exists_prefix_allTokens fs
      have hform := openings_tokens f
      refine ⟨f.tokens ++ before, (List.prefix_append_right_inj _).mpr hbefore, ?_⟩
      rw [Token.openings_append, Token.closings_append]
      omega
end

/-- The depth of a forest is within the limit iff its tokens never leave too many lists open. -/
theorem neverDeep_allTokens_iff (fs : List Form) : Token.NeverDeep (allTokens fs) ↔
    depths fs ≤ maxNesting := by
  constructor
  · intro h
    obtain ⟨before, hbefore, hopen⟩ := exists_prefix_allTokens fs
    have := h before hbefore
    omega
  · intro h before hbefore
    have := prefix_allTokens fs hbefore
    omega

theorem balanced_allTokens {fs : List Form} (h : depths fs ≤ maxNesting) :
    Token.Balanced (allTokens fs) where
  neverStray := fun _ hbefore => (prefix_allTokens fs hbefore).1
  neverDeep := (neverDeep_allTokens_iff fs).mpr h
  closings_eq := (openings_allTokens fs).symm

/-! ## Unique readability -/

/-- A form does not begin by closing a list. -/
theorem tokens_ne_closing (f : Form) {rest rest' : List Token} :
    f.tokens ++ rest ≠ .closing :: rest' := by
  cases f <;> simp [tokens]

mutual
/-- The first form of a list of tokens is determined by them. -/
theorem tokens_append_inj (f g : Form) {rest rest' : List Token}
    (h : f.tokens ++ rest = g.tokens ++ rest') :
    f = g ∧ rest = rest' := by
  cases f with
  | list items =>
    cases g with
    | list items' =>
      simp only [tokens, List.cons_append, List.append_assoc, List.nil_append] at h
      obtain ⟨rfl, hrest⟩ := allTokens_closing_inj items items' (List.cons.inj h).2
      exact ⟨rfl, hrest⟩
    | _ => cases h
  | number value =>
    cases g with
    | number value' =>
      cases h
      exact ⟨rfl, rfl⟩
    | _ => cases h
  | text content =>
    cases g with
    | text content' =>
      cases h
      exact ⟨rfl, rfl⟩
    | _ => cases h
  | identifier name =>
    cases g with
    | identifier name' =>
      cases h
      exact ⟨rfl, rfl⟩
    | _ => cases h
/-- So are the items of a list that is closed. -/
theorem allTokens_closing_inj (fs gs : List Form) {rest rest' : List Token}
    (h : allTokens fs ++ .closing :: rest = allTokens gs ++ .closing :: rest') :
    fs = gs ∧ rest = rest' := by
  cases fs with
  | nil =>
    cases gs with
    | nil => exact ⟨rfl, (List.cons.inj h).2⟩
    | cons g gs =>
      rw [allTokens, allTokens, List.append_assoc] at h
      exact absurd h.symm (tokens_ne_closing g)
  | cons f fs =>
    cases gs with
    | nil =>
      rw [allTokens, allTokens, List.append_assoc] at h
      exact absurd h (tokens_ne_closing f)
    | cons g gs =>
      rw [allTokens, allTokens, List.append_assoc, List.append_assoc] at h
      obtain ⟨rfl, hitems⟩ := tokens_append_inj f g h
      obtain ⟨rfl, hrest⟩ := allTokens_closing_inj fs gs hitems
      exact ⟨rfl, hrest⟩
end

/-- No two forests have the same flattening. -/
theorem allTokens_inj {fs gs : List Form} (h : allTokens fs = allTokens gs) : fs = gs :=
  (allTokens_closing_inj fs gs (congrArg (· ++ [.closing]) h)).1

theorem tokens_inj {f g : Form} (h : f.tokens = g.tokens) : f = g :=
  (tokens_append_inj f g (congrArg (· ++ []) h)).1

end Form

/-! ## The invariant of a reading -/

namespace Reading

open Token (openings closings)

/-- What a reading holds is the lexemes read so far: the finished forms, and for every open list its
parenthesis and the items after it. -/
inductive Holds : Reading → List Lexeme → Prop
  | finished {forms : List Node} {lexemes : List Lexeme}
      (h : Lexeme.tokens lexemes = Form.allTokens (Node.forms forms.reverse)) :
    Holds ⟨[], forms⟩ lexemes
  | nested {outer : List OpenList} {forms : List Node} {before after : List Lexeme} {x : Lexeme}
      {items : List Node}
      (houter : Holds ⟨outer, forms⟩ before) (hx : x.token = .opening)
      (h : Lexeme.tokens after = Form.allTokens (Node.forms items.reverse)) :
    Holds ⟨⟨x.span, items⟩ :: outer, forms⟩ (before ++ x :: after)

variable {r r' : Reading} {lexemes : List Lexeme} {x : Lexeme}

theorem allTokens_forms_concat (nodes : List Node) (node : Node) :
    Form.allTokens (Node.forms (node :: nodes).reverse) =
      Form.allTokens (Node.forms nodes.reverse) ++ node.form.tokens := by
  rw [List.reverse_cons, Node.forms_eq_map, Node.forms_eq_map, List.map_append,
    Form.allTokens_append]
  simp [Form.allTokens]

theorem Holds.add {more : List Lexeme} {node : Node} (h : r.Holds lexemes)
    (hmore : Lexeme.tokens more = node.form.tokens) : (r.add node).Holds (lexemes ++ more) := by
  cases h with
  | finished h =>
    refine .finished ?_
    rw [allTokens_forms_concat, ← h, ← hmore]
    exact List.map_append
  | nested houter hx h =>
    rw [List.append_assoc, List.cons_append]
    refine .nested houter hx ?_
    rw [allTokens_forms_concat, ← h, ← hmore]
    exact List.map_append

/-- As many lists are open as have been opened and not closed. -/
theorem Holds.openings_eq (h : r.Holds lexemes) :
    openings (Lexeme.tokens lexemes) = closings (Lexeme.tokens lexemes) + r.nest.length := by
  induction h with
  | finished h =>
    rw [h]
    exact Form.openings_allTokens _
  | @nested outer forms before after x items houter hx h ih =>
    have hitems := Form.openings_allTokens (Node.forms items.reverse)
    rw [Lexeme.tokens_append_cons, hx, h, Token.openings_append, Token.closings_append,
      Token.openings_opening, Token.closings_opening, List.length_cons]
    dsimp only at ih
    omega

/-- The reader is in good order: it holds what it has read, and has not passed a fault. -/
structure Reads (r : Reading) (lexemes : List Lexeme) : Prop where
  holds : r.Holds lexemes
  neverStray : Token.NeverStray (Lexeme.tokens lexemes)
  neverDeep : Token.NeverDeep (Lexeme.tokens lexemes)

theorem reads_empty : empty.Reads [] where
  holds := .finished rfl
  neverStray := fun before h => by rw [List.prefix_nil.mp h]; exact Nat.le_refl _
  neverDeep := fun before h => by rw [List.prefix_nil.mp h]; exact Nat.zero_le _

theorem Reads.nest_le (h : r.Reads lexemes) : r.nest.length ≤ maxNesting := by
  have hdeep := h.neverDeep _ (List.prefix_refl _)
  have hopen := h.holds.openings_eq
  omega

/-- What holds one lexeme more, and not too many open lists, is still in good order. -/
theorem Reads.of_holds (h : r.Reads lexemes) (hholds : r'.Holds (lexemes ++ [x]))
    (hnest : r'.nest.length ≤ maxNesting) : r'.Reads (lexemes ++ [x]) := by
  have htokens : Lexeme.tokens (lexemes ++ [x]) = Lexeme.tokens lexemes ++ [x.token] :=
    List.map_append
  have hopen := hholds.openings_eq
  refine ⟨hholds, ?_, ?_⟩
  · rw [htokens] at hopen ⊢
    exact Token.neverStray_concat h.neverStray (by omega)
  · rw [htokens] at hopen ⊢
    exact Token.neverDeep_concat h.neverDeep (by omega)

theorem nest_add_length (r : Reading) (node : Node) : (r.add node).nest.length = r.nest.length := by
  unfold add
  split
  · next h => rw [h]
  · next h => rw [h]; rfl

theorem Reads.leaf {node : Node} (h : r.Reads lexemes) (hx : node.form.tokens = [x.token]) :
    (r.add node).Reads (lexemes ++ [x]) :=
  h.of_holds (h.holds.add hx.symm) (by rw [nest_add_length]; exact h.nest_le)

/-- A lexeme that cannot be read after others: it opens a list too many, or closes one where none is
open. -/
def Breaks (stray : ParseProblem) (before : List Lexeme) (x : Lexeme) (e : Error) : Prop :=
  (e = .parse .tooDeep x.span ∧ x.token = .opening ∧
    openings (Lexeme.tokens before) = closings (Lexeme.tokens before) + maxNesting) ∨
  e = .parse stray x.span ∧ x.token = .closing ∧
    openings (Lexeme.tokens before) = closings (Lexeme.tokens before)

/-- One lexeme is read in good order, or it is the parenthesis that is one too many. -/
theorem reads_of_next (stray : ParseProblem) (h : r.Reads lexemes) (x : Lexeme) :
    Ends (fun r' : Reading => r'.Reads (lexemes ++ [x])) (Breaks stray lexemes x)
      (r.next stray x) := by
  have hopen := h.holds.openings_eq
  have hnest := h.nest_le
  unfold next
  cases hx : x.token with
  | number value => exact h.leaf (by rw [hx]; rfl)
  | text content => exact h.leaf (by rw [hx]; rfl)
  | identifier name => exact h.leaf (by rw [hx]; rfl)
  | opening =>
    dsimp only
    by_cases hdeep : maxNesting ≤ r.nest.length
    · rw [if_pos hdeep]
      exact .inl ⟨rfl, hx, by omega⟩
    · rw [if_neg hdeep]
      exact h.of_holds (.nested h.holds hx rfl) (Nat.lt_of_not_le hdeep)
  | closing =>
    obtain ⟨nest, forms⟩ := r
    cases nest with
    | nil => exact .inr ⟨rfl, hx, hopen⟩
    | cons inner outer =>
      refine h.of_holds ?_ (by rw [nest_add_length]; exact Nat.le_of_succ_le hnest)
      cases h.holds with
      | @nested _ _ before after y items houter hy hafter =>
        rw [List.append_assoc]
        refine houter.add ?_
        rw [Node.form, Form.tokens, ← hafter, ← hx, ← hy]
        exact List.map_append

/-! ## Whole runs -/

/-- A pass over lexemes keeps what each step keeps, and stops where a step does. -/
theorem ends_foldlM {f : Reading → Lexeme → Except Error Reading} {P : List Lexeme → Reading → Prop}
    {Q : List Lexeme → Lexeme → Error → Prop} (hempty : P [] empty)
    (hstep : ∀ r before x, P before r → Ends (P (before ++ [x])) (Q before x) (f r x))
    (lexemes : List Lexeme) :
    Ends (P lexemes) (fun e => ∃ before x after, lexemes = before ++ x :: after ∧ Q before x e)
      (lexemes.foldlM f empty) := by
  induction lexemes using List.reverseRecOn with
  | nil => exact hempty
  | append_singleton before x ih =>
    rw [List.foldlM_append]
    refine Ends.bind (ih.imp (fun _ => id) ?_) fun r hr => ?_
    · rintro e ⟨before', y, after, rfl, hstop⟩
      exact ⟨before', y, after ++ [x], by simp, hstop⟩
    · rw [List.foldlM_cons]
      exact Ends.bind ((hstep r before x hr).imp (fun _ => id) fun e he =>
        ⟨before, x, [], rfl, he⟩) fun _ => id

/-- A whole program is read in good order, or up to its first fault. -/
theorem reads_program (lexemes : List Lexeme) :
    Ends (fun r : Reading => r.Reads lexemes)
      (fun e => ∃ before x after, lexemes = before ++ x :: after ∧
        Token.NeverStray (Lexeme.tokens before) ∧
        Token.NeverDeep (Lexeme.tokens before) ∧ Breaks .leftover before x e)
      (lexemes.foldlM (next .leftover) empty) := by
  refine ends_foldlM (P := fun before r => r.Reads before) reads_empty
    (fun r before x h => ?_) lexemes
  exact (reads_of_next .leftover h x).imp (fun _ => id) fun e he => ⟨h.neverStray, h.neverDeep, he⟩

/-- The reader of a single form has finished nothing yet, or one form and is not amid another. -/
def IsOne (r : Reading) : Prop :=
  r.forms = [] ∨ r.nest = [] ∧ ∃ node, r.forms = [node]

theorem isOne_add {node : Node} (h : r.forms = []) : (r.add node).IsOne := by
  unfold add
  split
  · next hnest => exact .inr ⟨hnest, node, by rw [h]⟩
  · exact .inl h

theorem isOne_of_next {stray : ParseProblem} (h : r.forms = []) : Ends IsOne (fun _ => True)
    (r.next stray x) := by
  unfold next
  split
  · exact isOne_add h
  · exact isOne_add h
  · exact isOne_add h
  · split
    · trivial
    · exact .inl h
  · split
    · trivial
    · exact isOne_add h

/-- What stops the reader of a single form: what stops the reader of programs, or a lexeme after a
form. -/
def BreaksOne (before : List Lexeme) (x : Lexeme) (e : Error) : Prop :=
  Breaks .strayClose before x e ∨ ∃ form : Form, Lexeme.tokens before = form.tokens

theorem Reads.allTokens_eq (h : r.Reads lexemes) (hnest : r.nest = []) :
    Lexeme.tokens lexemes = Form.allTokens (Node.forms r.forms.reverse) := by
  obtain ⟨nest, forms⟩ := r
  cases hnest
  cases h.holds with
  | finished h => exact h

theorem Reads.tokens_eq {node : Node} (h : r.Reads lexemes) (hnest : r.nest = [])
    (hforms : r.forms = [node]) :
    Lexeme.tokens lexemes = node.form.tokens := by
  rw [h.allTokens_eq hnest, hforms]
  exact List.append_nil _

theorem reads_of_nextOfOne (h : r.Reads lexemes) (hone : r.IsOne) (x : Lexeme) :
    Ends (fun r' : Reading => r'.Reads (lexemes ++ [x]) ∧ r'.IsOne) (BreaksOne lexemes x)
      (r.nextOfOne x) := by
  unfold nextOfOne
  rcases hone with hforms | ⟨hnest, node, hforms⟩
  · rw [if_neg (by simp [hforms])]
    exact ((reads_of_next .strayClose h x).and (isOne_of_next hforms)).imp (fun _ => id) fun e he =>
      .inl he.1
  · rw [if_pos (by simp [hnest, hforms])]
    exact .inr ⟨node.form, h.tokens_eq hnest hforms⟩

theorem reads_one (lexemes : List Lexeme) :
    Ends (fun r : Reading => r.Reads lexemes ∧ r.IsOne)
      (fun e => ∃ before x after, lexemes = before ++ x :: after ∧ BreaksOne before x e)
      (lexemes.foldlM nextOfOne empty) :=
  ends_foldlM (P := fun before r => r.Reads before ∧ r.IsOne) ⟨reads_empty, .inl rfl⟩
    (fun _ _ x h => reads_of_nextOfOne h.1 h.2 x) lexemes

/-- At the end of the text, the forms are the flattened text, or the innermost open list is never
closed. -/
theorem Reads.finish (h : r.Reads lexemes) :
    Ends (fun nodes => Token.Balanced (Lexeme.tokens lexemes) ∧
        Form.allTokens (Node.forms nodes) = Lexeme.tokens lexemes)
      (fun e => ∃ inner outer, r.nest = inner :: outer ∧
        e = .parse .unclosed inner.span) r.finish := by
  unfold Reading.finish
  split
  · next hnest =>
    have hopen := h.holds.openings_eq
    rw [hnest] at hopen
    exact ⟨⟨h.neverStray, h.neverDeep, hopen.symm⟩, (h.allTokens_eq hnest).symm⟩
  · next inner outer hnest => exact ⟨inner, outer, hnest, rfl⟩

theorem Reads.fault {inner : OpenList} {outer : List OpenList} (h : r.Reads lexemes)
    (hnest : r.nest = inner :: outer) :
    Fault lexemes "forgot to close something" inner.span := by
  obtain ⟨nest, forms⟩ := r
  cases hnest
  obtain ⟨hholds, hstray, hdeep⟩ := h
  cases hholds with
  | @nested _ _ before after x items houter hx hafter =>
    refine .unclosed rfl hx hstray hdeep ?_ ?_
    · rw [hafter]
      exact fun before hbefore => (Form.prefix_allTokens _ hbefore).1
    · rw [hafter, Form.openings_allTokens]

end Reading

/-! ## Accepted programs -/

open Token (openings closings)

theorem Fault.not_balanced {lexemes : List Lexeme} {text : String} {span : Span}
    (h : Fault lexemes text span) :
    ¬ Token.Balanced (Lexeme.tokens lexemes) := by
  intro hbalanced
  cases h with
  | @tooDeep before after x h hx hstray hdeep hopen =>
    subst h
    have hall := hbalanced.neverDeep _ (Lexeme.concat_prefix_tokens before after x)
    simp only [hx, Token.openings_append, Token.closings_append, Token.openings_opening,
      Token.closings_opening, Token.openings_nil, Token.closings_nil, maxNesting] at hall
    omega
  | @stray before after x h hx hstray hdeep hopen =>
    subst h
    have hall := hbalanced.neverStray _ (Lexeme.concat_prefix_tokens before after x)
    simp only [hx, Token.openings_append, Token.closings_append, Token.openings_closing,
      Token.closings_closing, Token.openings_nil, Token.closings_nil] at hall
    omega
  | @unclosed before after x h hx hstray hdeep hafter hclosed =>
    subst h
    have hbefore := hstray (Lexeme.tokens before)
      (by rw [Lexeme.tokens_append_cons]; exact List.prefix_append _ _)
    have hall := hbalanced.closings_eq
    rw [Lexeme.tokens_append_cons, hx, Token.openings_append, Token.closings_append,
      Token.openings_opening, Token.closings_opening] at hall
    omega

/-- A program is read iff its lexemes are balanced, and it is read as the forest that they are the
flattening of. -/
theorem readForms_accepts (lexemes : List Lexeme) :
    Ends (fun nodes => Token.Balanced (Lexeme.tokens lexemes) ∧
        Form.allTokens (Node.forms nodes) = Lexeme.tokens lexemes)
      (fun e => ∃ problem span, e = .parse problem span ∧ Fault lexemes problem.message span)
      (Node.readForms lexemes) := by
  unfold Node.readForms
  refine ((Reading.reads_program lexemes).imp (fun _ => id) ?_).bind fun r hr => ?_
  · rintro e ⟨before, x, after, rfl, hstray, hdeep, ⟨rfl, hx, hopen⟩ | ⟨rfl, hx, hopen⟩⟩
    · exact ⟨_, _, rfl, .tooDeep rfl hx hstray hdeep hopen⟩
    · exact ⟨_, _, rfl, .stray rfl hx hstray hdeep hopen⟩
  · refine hr.finish.imp (fun _ => id) ?_
    rintro e ⟨inner, outer, hnest, rfl⟩
    exact ⟨_, _, rfl, hr.fault hnest⟩

/-- The tree of a whole program with these forms. -/
def Node.ofForms (source : String) (nodes : List Node) : Node :=
  .list (.identifier "do" (.point .start) :: nodes) (.between .start (.endOf source))

theorem Node.ofForms_eq (source : String) (nodes : List Node) :
    Node.ofForms source nodes =
      .list (.identifier "do" ((LineIndex.ofText source).span 0 0) :: nodes)
        ((LineIndex.ofText source).span 0 source.utf8ByteSize) := by
  have hstart : (LineIndex.ofText source).span 0 0 = .point .start :=
    @LineIndex.span_eq source [] [] source.toList rfl
  have hwhole := @LineIndex.span_eq source [] source.toList [] (List.append_nil _).symm
  rw [List.nil_append, String.ofList_toList] at hwhole
  rw [ofForms, hstart]
  exact congrArg _ hwhole.symm

theorem ofProgram_accepts {source : String} {lexemes : List Lexeme}
    (hscan : Token.scan source = .ok lexemes) :
    Ends (fun root => Token.Balanced (Lexeme.tokens lexemes) ∧
        ∃ nodes, root = Node.ofForms source nodes ∧
          Form.allTokens (Node.forms nodes) = Lexeme.tokens lexemes)
      (fun e => ∃ problem span, e = .parse problem span ∧ Fault lexemes problem.message span)
      (Node.ofProgram source) := by
  unfold Node.ofProgram Node.scan
  rw [hscan]
  exact (readForms_accepts lexemes).bind fun nodes h =>
    ⟨h.1, nodes, (Node.ofForms_eq source nodes).symm, h.2⟩

/-- A lexeme that stops the reader of a single form is not what a form goes on with. -/
theorem tokens_ne_of_breaksOne {before after : List Lexeme} {x : Lexeme} {e : Error}
    (h : Reading.BreaksOne before x e) {f : Form} (hdepth : f.depth ≤ maxNesting) :
    f.tokens ≠ Lexeme.tokens (before ++ x :: after) := by
  intro htokens
  have hinitial := Form.prefix_tokens f (htokens ▸ Lexeme.concat_prefix_tokens before after x)
  rcases h with (⟨_, hx, hopen⟩ | ⟨_, hx, hopen⟩) | ⟨g, hg⟩
  · simp only [hx, Token.openings_append, Token.closings_append, Token.openings_opening,
      Token.closings_opening, Token.openings_nil, Token.closings_nil] at hinitial
    omega
  · simp only [hx, Token.openings_append, Token.closings_append, Token.openings_closing,
      Token.closings_closing, Token.openings_nil, Token.closings_nil] at hinitial
    omega
  · rw [Lexeme.tokens_append_cons, hg] at htokens
    have hrest := (Form.tokens_append_inj f g ((List.append_nil _).trans htokens)).2
    cases hrest

theorem Form.tokens_ne_nil (f : Form) : f.tokens ≠ [] := by
  cases f <;> simp [Form.tokens]

/-- At the end of the text the reader of a single form has read nothing, one form, or not all of a
form. -/
theorem Reading.Reads.finish_one {lexemes : List Lexeme} {r : Reading}
    (h : r.Reads lexemes) (hone : r.IsOne) :
    Ends (fun nodes => (nodes = [] ∧ Lexeme.tokens lexemes = []) ∨
        ∃ node, nodes = [node] ∧ node.form.depth ≤ maxNesting ∧
          node.form.tokens = Lexeme.tokens lexemes)
      (fun _ => closings (Lexeme.tokens lexemes) < openings (Lexeme.tokens lexemes)) r.finish := by
  have hopen := h.holds.openings_eq
  unfold Reading.finish
  split
  · next hnest =>
    rcases hone with hforms | ⟨_, node, hforms⟩
    · have htokens := h.allTokens_eq hnest
      rw [hforms] at htokens ⊢
      exact .inl ⟨rfl, htokens⟩
    · have htokens := h.tokens_eq hnest hforms
      obtain ⟨before, hbefore, hdeepest⟩ := Form.exists_prefix_tokens node.form
      have hdeep := h.neverDeep before (htokens ▸ hbefore)
      rw [hforms]
      exact .inr ⟨node, rfl, by omega, htokens.symm⟩
  · next inner outer hnest =>
    rw [hnest, List.length_cons] at hopen
    change closings (Lexeme.tokens lexemes) < openings (Lexeme.tokens lexemes)
    omega

/-- A single form is read iff the lexemes are the flattening of one, and it is read as that form. -/
theorem ofForm_accepts {source : String} {lexemes : List Lexeme}
    (hscan : Token.scan source = .ok lexemes) :
    Ends (fun node => node.form.depth ≤ maxNesting ∧ node.form.tokens = Lexeme.tokens lexemes)
      (fun _ => ∀ form : Form, form.depth ≤ maxNesting → form.tokens ≠ Lexeme.tokens lexemes)
      (Node.ofForm source) := by
  unfold Node.ofForm Node.scan
  rw [hscan]
  refine ((Reading.reads_one lexemes).imp (fun _ => id) ?_).bind fun r hr => ?_
  · rintro e ⟨before, x, after, rfl, hbreaks⟩ f hdepth
    exact tokens_ne_of_breaksOne hbreaks hdepth
  · refine ((hr.1.finish_one hr.2).imp (fun _ => id) fun e hopen f _ htokens =>
      ?_).bind fun nodes hnodes => ?_
    · have hform := Form.openings_tokens f
      rw [htokens] at hform
      omega
    · rcases hnodes with ⟨rfl, hnil⟩ | ⟨node, rfl, hnode⟩
      · exact fun f _ htokens => f.tokens_ne_nil (htokens.trans hnil)
      · exact hnode

/-- Balanced lexemes have no fault, so a program that consists of them is read. -/
theorem exists_ofProgram {source : String} {lexemes : List Lexeme}
    (hscan : Token.scan source = .ok lexemes) (hbalanced : Token.Balanced (Lexeme.tokens lexemes)) :
    ∃ nodes, Node.ofProgram source = .ok (Node.ofForms source nodes) ∧
      Form.allTokens (Node.forms nodes) = Lexeme.tokens lexemes := by
  have hprogram := ofProgram_accepts hscan
  cases hroot : Node.ofProgram source with
  | ok root =>
    rw [hroot] at hprogram
    obtain ⟨_, nodes, rfl, htokens⟩ := hprogram
    exact ⟨nodes, rfl, htokens⟩
  | error e =>
    rw [hroot] at hprogram
    obtain ⟨_, _, _, hfault⟩ := hprogram
    exact absurd hbalanced hfault.not_balanced

/-- The reader accepts exactly the balanced texts and loses nothing of them. -/
theorem reads_balanced {source : String} {lexemes : List Lexeme}
    (hscan : Token.scan source = .ok lexemes) :
    ((∃ root, Node.ofProgram source = .ok root) ↔ Token.Balanced (Lexeme.tokens lexemes)) ∧
    (∀ root, Node.ofProgram source = .ok root →
      ∃ nodes, root = Node.ofForms source nodes ∧
        Form.allTokens (Node.forms nodes) = Lexeme.tokens lexemes) ∧
    (∀ forms, Form.depths forms ≤ maxNesting → Form.allTokens forms = Lexeme.tokens lexemes →
      ∃ nodes, Node.ofProgram source = .ok (Node.ofForms source nodes) ∧ Node.forms nodes = forms) ∧
    (∀ e, Node.ofProgram source = .error e →
      ∃ problem span, e = .parse problem span ∧ Fault lexemes problem.message span) ∧
    ((∃ node, Node.ofForm source = .ok node) ↔
      ∃! form : Form, form.depth ≤ maxNesting ∧ form.tokens = Lexeme.tokens lexemes) ∧
    ∀ node, Node.ofForm source = .ok node → node.form.tokens = Lexeme.tokens lexemes := by
  have hprogram := ofProgram_accepts hscan
  have hform := ofForm_accepts hscan
  refine ⟨⟨?_, fun hbalanced => ?_⟩, ?_, ?_, ?_, ⟨?_, ?_⟩, ?_⟩
  · rintro ⟨root, hroot⟩
    rw [hroot] at hprogram
    exact hprogram.1
  · obtain ⟨nodes, hroot, _⟩ := exists_ofProgram hscan hbalanced
    exact ⟨_, hroot⟩
  · intro root hroot
    rw [hroot] at hprogram
    exact hprogram.2
  · intro forms hdepth htokens
    obtain ⟨nodes, hroot, hnodes⟩ :=
      exists_ofProgram hscan (htokens ▸ Form.balanced_allTokens hdepth)
    exact ⟨nodes, hroot, Form.allTokens_inj (hnodes.trans htokens.symm)⟩
  · intro e he
    rw [he] at hprogram
    exact hprogram
  · rintro ⟨node, hnode⟩
    rw [hnode] at hform
    exact ⟨node.form, hform, fun other hother => Form.tokens_inj (hother.2.trans hform.2.symm)⟩
  · rintro ⟨form, ⟨hdepth, htokens⟩, _⟩
    cases hnode : Node.ofForm source with
    | ok node => exact ⟨node, rfl⟩
    | error e =>
      rw [hnode] at hform
      exact absurd htokens (hform form hdepth)
  · intro node hnode
    rw [hnode] at hform
    exact hform.2

/-- A list within a list, and a name after it. -/
theorem reads_balanced_two_forms :
    Token.scan "(f (g)) x" = .ok [⟨.opening, ⟨0, 1, 1, 1⟩⟩, ⟨.identifier "f", ⟨1, 2, 1, 2⟩⟩,
      ⟨.opening, ⟨3, 4, 1, 4⟩⟩, ⟨.identifier "g", ⟨4, 5, 1, 5⟩⟩, ⟨.closing, ⟨5, 6, 1, 6⟩⟩,
        ⟨.closing, ⟨6, 7, 1, 7⟩⟩,
      ⟨.identifier "x", ⟨8, 9, 1, 9⟩⟩] ∧
    ∃ nodes, Node.ofProgram "(f (g)) x" = .ok (Node.ofForms "(f (g)) x" nodes) ∧
      Node.forms nodes = [.list [.identifier "f", .list [.identifier "g"]], .identifier "x"] := by
  refine ⟨?scan, (reads_balanced ?scan).2.2.1 _ (by decide) rfl⟩
  simp only [Token.scan]
  simp [Token.scanFrom, Token.advance, Text.isBlank, Token.isAtomChar, Token.ofAtom,
    Decimal.literal?, Decimal.splitPoint, Decimal.isDigit, Char.utf8Size]
  decide +kernel

end LiveLisp
