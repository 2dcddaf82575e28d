/-
  What the scan makes of a text, said of the text alone. A place of a text lies in the code, in a
  comment or inside a string, and which of these follows from the characters before it (`zone`). The
  scan fails where the code has a double quote and the text no other after it; otherwise its tokens
  stand in the code, apart and in order, each spelled as its kind is, and every character that no
  token covers is blank or belongs to a comment (`scan_lossless`).

  In between stands a grammar: `Splits` cuts what is left of a text into blanks, comments and
  tokens. The scan follows it (`scanFrom_splits`), and the statements about the text are read off it
  by induction.
-/
import Mathlib.Data.List.Basic
import Mathlib.Data.List.TakeWhile
import LiveLisp.Token
import LiveLisp.Proofs.Source.LineIndex

namespace LiveLisp

/-! ## Numerals -/

namespace Decimal

/-- Digits with at most one point, and at least one digit. -/
def IsUnsigned (cs : List Char) : Prop :=
  (∀ c ∈ cs, isDigit c ∨ c = '.') ∧ cs.count '.' ≤ 1 ∧ ∃ c ∈ cs, isDigit c

/-- An optional minus sign before digits with at most one point, and at least one digit. -/
def IsNumeral (cs : List Char) : Prop :=
  ∃ sign unsigned, cs = sign ++ unsigned ∧ (sign = [] ∨ sign = ['-']) ∧ IsUnsigned unsigned

theorem not_isDigit_point : isDigit '.' = false := by decide

theorem splitPoint_cases (cs : List Char) :
    (splitPoint cs = (cs, none) ∧ '.' ∉ cs) ∨
      ∃ whole fraction, splitPoint cs = (whole, some fraction) ∧ cs = whole ++ '.' :: fraction ∧
        '.' ∉ whole := by
  have hsplit := List.takeWhile_append_dropWhile (p := (· != '.')) (l := cs)
  have hwhole : '.' ∉ cs.takeWhile (· != '.') := fun h => by simpa using List.mem_takeWhile_imp h
  unfold splitPoint
  split
  · next hdrop =>
    rw [hdrop, List.append_nil] at hsplit
    exact .inl ⟨rfl, hsplit ▸ hwhole⟩
  · next c fraction hdrop =>
    have hc : c = '.' := by
      simpa [hdrop] using List.head_dropWhile_not (· != '.') (l := cs) (by simp [hdrop])
    subst hc
    exact .inr ⟨_, _, rfl, by rw [← hdrop, hsplit], hwhole⟩

/-- Without its point, if it has one, the text is a non-empty run of digits. -/
theorem splitPoint_isUnsigned_iff (cs : List Char) :
    let digits := (splitPoint cs).1 ++ (splitPoint cs).2.getD []
    (digits.all isDigit && !digits.isEmpty) = true ↔ IsUnsigned cs := by
  have hpoint : ∀ {c : Char}, isDigit c → c ≠ '.' :=
    fun h hc => by simp [hc, not_isDigit_point] at h
  rcases splitPoint_cases cs with ⟨heq, hno⟩ | ⟨whole, fraction, heq, rfl, hno⟩
  · simp only [heq, Option.getD_none, List.append_nil, Bool.and_eq_true, List.all_eq_true,
      Bool.not_eq_true', List.isEmpty_eq_false_iff]
    constructor
    · intro ⟨hall, hne⟩
      obtain ⟨c, hc⟩ := List.exists_mem_of_ne_nil cs hne
      exact ⟨fun d hd => .inl (hall d hd), by simp [List.count_eq_zero.mpr hno], c, hc, hall c hc⟩
    · intro ⟨hall, _, c, hc, _⟩
      refine ⟨fun d hd => (hall d hd).resolve_right ?_, List.ne_nil_of_mem hc⟩
      exact fun h => hno (h ▸ hd)
  · simp only [heq, Option.getD_some, Bool.and_eq_true, List.all_eq_true, Bool.not_eq_true',
      List.isEmpty_eq_false_iff, List.mem_append]
    constructor
    · intro ⟨hall, hne⟩
      have hfraction : '.' ∉ fraction := fun h => hpoint (hall _ (.inr h)) rfl
      obtain ⟨c, hc⟩ := List.exists_mem_of_ne_nil _ hne
      refine ⟨fun d hd => ?_, ?_, c, ?_, hall c (List.mem_append.mp hc)⟩
      · rcases List.mem_append.mp hd with hd | hd
        · exact .inl (hall d (.inl hd))
        · exact (List.mem_cons.mp hd).symm.imp (fun h => hall d (.inr h)) id
      · simp [List.count_eq_zero.mpr hno, List.count_eq_zero.mpr hfraction]
      · simp only [List.mem_append, List.mem_cons] at hc ⊢
        exact hc.imp_right .inr
    · intro ⟨hall, hcount, c, hc, hdigit⟩
      have hfraction : '.' ∉ fraction := by
        rw [List.count_append, List.count_cons_self] at hcount
        exact List.count_eq_zero.mp (by omega)
      have hmem : c ∈ whole ++ fraction := by
        simp only [List.mem_append, List.mem_cons] at hc ⊢
        exact hc.imp_right fun h => h.resolve_left (hpoint hdigit)
      refine ⟨fun d hd => ?_, List.ne_nil_of_mem hmem⟩
      rcases hd with hd | hd
      · exact (hall d (by simp [hd])).resolve_right fun h => hno (h ▸ hd)
      · exact (hall d (by simp [hd])).resolve_right fun h => hfraction (h ▸ hd)

theorem literal?_minus (cs : List Char) : (literal? ('-' :: cs)).isSome ↔ IsUnsigned cs := by
  refine Iff.trans ?_ (splitPoint_isUnsigned_iff cs)
  simp [literal?]

theorem literal?_of_head?_ne {cs : List Char} (h : cs.head? ≠ some '-') :
    (literal? cs).isSome ↔ IsUnsigned cs := by
  refine Iff.trans ?_ (splitPoint_isUnsigned_iff cs)
  unfold literal?
  split
  next negative unsigned hsign =>
    split at hsign
    · simp at h
    · cases hsign
      simp

/-- A text is read as a number iff it is a numeral. -/
theorem literal?_isSome_iff (cs : List Char) : (literal? cs).isSome ↔ IsNumeral cs := by
  constructor
  · intro h
    by_cases hsign : cs.head? = some '-'
    · obtain ⟨rest, rfl⟩ := List.head?_eq_some_iff.mp hsign
      exact ⟨['-'], rest, rfl, .inr rfl, (literal?_minus rest).mp h⟩
    · exact ⟨[], cs, rfl, .inl rfl, (literal?_of_head?_ne hsign).mp h⟩
  · rintro ⟨sign, unsigned, rfl, rfl | rfl, h⟩
    · -- neither a digit nor a point is a minus sign
      have hsign : unsigned.head? ≠ some '-' := by
        intro hsign
        have hminus := h.1 '-' (List.mem_of_head? hsign)
        revert hminus
        decide
      exact (literal?_of_head?_ne hsign).mpr h
    · exact (literal?_minus unsigned).mpr h

end Decimal

namespace Token

/-! ## Places of a text -/

/-- Where a place of a text lies. -/
inductive Zone where
  | code
  | comment
  | string
deriving DecidableEq

/-- Where the place after a character lies. -/
def Zone.after : Zone → Char → Zone
  | code, c => if c = ';' then comment else if c = '"' then string else code
  | comment, c => if c = '\n' then code else comment
  | string, c => if c = '"' then code else string

/-- Where the end of a text lies. -/
def zone (text : List Char) : Zone :=
  text.foldl Zone.after .code

/-- Some double quote of the code has no other one after it. -/
def NeverClosed (text : List Char) : Prop :=
  ∃ before after, text = before ++ '"' :: after ∧ zone before = .code ∧ '"' ∉ after

theorem zone_concat (text : List Char) (c : Char) : zone (text ++ [c]) = (zone text).after c := by
  simp [zone]

theorem zone_append (before cs : List Char) :
    zone (before ++ cs) = cs.foldl Zone.after (zone before) :=
  List.foldl_append

theorem zone_comment {before line : List Char} (h : zone before = .code) (hline : '\n' ∉ line) :
    zone (before ++ ';' :: line) = .comment := by
  rw [zone_append, h, List.foldl_cons]
  change line.foldl Zone.after .comment = .comment
  induction line with
  | nil => rfl
  | cons c line ih =>
    rw [List.mem_cons, not_or] at hline
    rw [List.foldl_cons, Zone.after, if_neg (Ne.symm hline.1), ih hline.2]

theorem zone_string {before content : List Char} (h : zone before = .code)
    (hcontent : '"' ∉ content) :
    zone (before ++ '"' :: content) = .string := by
  rw [zone_append, h, List.foldl_cons]
  change content.foldl Zone.after .string = .string
  induction content with
  | nil => rfl
  | cons c content ih =>
    rw [List.mem_cons, not_or] at hcontent
    rw [List.foldl_cons, Zone.after, if_neg (Ne.symm hcontent.1), ih hcontent.2]

/-- Characters that neither a comment nor a string begins with stay in the code. -/
theorem zone_code {before cs : List Char} (h : zone before = .code)
    (hcs : ∀ c ∈ cs, c ≠ ';' ∧ c ≠ '"') :
    zone (before ++ cs) = .code := by
  rw [zone_append, h]
  induction cs with
  | nil => rfl
  | cons c cs ih =>
    have hc := hcs c List.mem_cons_self
    rw [List.foldl_cons, Zone.after, if_neg hc.1, if_neg hc.2]
    exact ih fun d hd => hcs d (List.mem_cons_of_mem c hd)

/-! ## The grammar of a text -/

/-- How the tokens are spelled. -/
inductive Spells : Token → List Char → Prop
  | opening : Spells .opening ['(']
  | closing : Spells .closing [')']
  | text {content : List Char} (h : '"' ∉ content) :
    Spells (.text (String.ofList content)) ('"' :: content ++ ['"'])
  | number {run : List Char} {value : Float} (h : ∀ c ∈ run, isAtomChar c)
      (hnumeral : Decimal.IsNumeral run)
      (hvalue : Decimal.literal? run = some value) :
    Spells (.number value) run
  | identifier {run : List Char} (h : ∀ c ∈ run, isAtomChar c) (hne : run ≠ [])
      (hnumeral : ¬ Decimal.IsNumeral run) :
    Spells (.identifier (String.ofList run)) run

/-- Whether the token is a run of atom characters. -/
def isAtom : Token → Bool
  | number _ => true
  | identifier _ => true
  | _ => false

end Token

/-- A lexeme is what stands between two parts of a text: its word lies in the code, is covered by
its span and is spelled as its token is, and a run of atom characters is not part of a longer one.
-/
structure Lexeme.Stands (lexeme : Lexeme) (before word after : List Char) : Prop where
  zone_eq : Token.zone before = .code
  span_eq : lexeme.span = .between (.advanceAll .start before) (.advanceAll .start (before ++ word))
  spells : lexeme.token.Spells word
  maximal : lexeme.token.isAtom → (∀ c ∈ before.getLast?, Token.isAtomChar c = false) ∧
    ∀ c ∈ after.head?, Token.isAtomChar c = false

namespace Token

/-- The rest of a text, after what is `before` it, is made of blanks, comments and the given
lexemes. -/
inductive Splits : (before rest : List Char) → List Lexeme → Prop
  | done {before : List Char} : Splits before [] []
  | blank {before rest : List Char} {lexemes : List Lexeme} {c : Char} (h : Text.isBlank c)
      (hrest : Splits (before ++ [c]) rest lexemes) :
    Splits before (c :: rest) lexemes
  | comment {before line rest : List Char} {lexemes : List Lexeme}
      (hcode : zone before = .code) (h : '\n' ∉ line)
      (hrest : Splits (before ++ ';' :: line) rest lexemes) :
    Splits before (';' :: line ++ rest) lexemes
  | token {before word rest : List Char} {lexeme : Lexeme} {lexemes : List Lexeme}
      (h : lexeme.Stands before word rest) (hrest : Splits (before ++ word) rest lexemes) :
    Splits before (word ++ rest) (lexeme :: lexemes)

/-- The scan may go on here: in the code or at the end of a comment, and not amid a run of atom
characters. -/
structure Resumes (before rest : List Char) : Prop where
  zones : zone before = .code ∨ zone before = .comment ∧ ∀ c ∈ rest.head?, c = '\n'
  apart : ∀ c ∈ before.getLast?, isAtomChar c → ∀ d ∈ rest.head?, isAtomChar d = false

section

variable {before rest : List Char} {c : Char}

theorem Resumes.zone_eq (h : Resumes before (c :: rest)) (hc : c ≠ '\n') : zone before = .code :=
  h.zones.resolve_right fun hcomment => hc (hcomment.2 c rfl)

/-- After a blank the scan may go on, whatever follows. -/
theorem Resumes.blank (h : Resumes before (c :: rest)) (hc : Text.isBlank c) :
    Resumes (before ++ [c]) rest := by
  constructor
  · left
    rw [zone_concat]
    rcases h.zones with hcode | ⟨hcomment, hhead⟩
    · have hsemicolon : c ≠ ';' := by rintro rfl; revert hc; decide
      have hquote : c ≠ '"' := by rintro rfl; revert hc; decide
      rw [hcode, Zone.after, if_neg hsemicolon, if_neg hquote]
    · rw [hcomment, hhead c rfl]
      rfl
  · intro d hd hatom
    rw [List.getLast?_concat, Option.mem_some_iff] at hd
    rw [← hd, isAtomChar, hc] at hatom
    simp at hatom

theorem Resumes.comment {line : List Char} (h : zone before = .code) (hline : '\n' ∉ line)
    (hrest : ∀ c ∈ rest.head?, c = '\n') : Resumes (before ++ ';' :: line) rest where
  zones := .inr ⟨zone_comment h hline, hrest⟩
  apart := fun c _ _ d hd => by
    rw [hrest d hd]
    decide

/-- After a token that does not end in an atom character, or that no atom character follows. -/
theorem Resumes.code {word : List Char} (h : zone (before ++ word) = .code)
    (hapart : (∀ c ∈ word.getLast?, isAtomChar c = false) ∨ ∀ c ∈ rest.head?, isAtomChar c = false)
    (hne : word ≠ []) :
    Resumes (before ++ word) rest where
  zones := .inl h
  apart := fun c hc hatom d hd => by
    rcases hapart with hlast | hhead
    · rw [List.getLast?_append_of_ne_nil _ hne] at hc
      simp [hlast c hc] at hatom
    · exact hhead d hd

end

/-- What the scan of the rest of a text has to answer: the double quote that is never closed, or the
lexemes. -/
def Accounts (before rest : List Char) : Except Nat (List Lexeme) → Prop
  | .error _ => ∃ read after, rest = read ++ '"' :: after ∧ zone (before ++
    read) = .code ∧ '"' ∉ after
  | .ok lexemes => Splits before rest lexemes

section

variable {before word rest : List Char} {answer : Except Nat (List Lexeme)}

theorem Accounts.error {stop stop' : Nat} (h : Accounts (before ++ word) rest (.error stop)) :
    Accounts before (word ++ rest) (.error stop') := by
  obtain ⟨read, after, rfl, hcode, hafter⟩ := h
  exact ⟨word ++ read, after, by rw [List.append_assoc], by rw [← List.append_assoc, hcode], hafter⟩

theorem Accounts.skip (h : Accounts (before ++ word) rest answer)
    (hsplits : ∀ lexemes, Splits (before ++ word) rest lexemes →
      Splits before (word ++ rest) lexemes) :
    Accounts before (word ++ rest) answer := by
  cases answer with
  | error stop => exact h.error
  | ok lexemes => exact hsplits lexemes h

theorem Accounts.cons {lexeme : Lexeme} (hlexeme : lexeme.Stands before word rest)
    (h : Accounts (before ++ word) rest answer) :
    Accounts before (word ++ rest) (do return lexeme :: (← answer)) := by
  cases answer with
  | error stop => exact h.error
  | ok lexemes => exact .token hlexeme h

end

/-! ## The scan -/

theorem advance_utf8ByteSize (before cs : List Char) :
    advance (String.ofList before).utf8ByteSize cs =
      (String.ofList (before ++ cs)).utf8ByteSize := by
  induction cs generalizing before with
  | nil => rw [advance_nil, List.append_nil]
  | cons c cs ih =>
    rw [advance_cons, ← utf8ByteSize_concat, ih, List.append_assoc, List.cons_append,
      List.nil_append]


theorem not_mem_takeWhile_ne (q : Char) (cs : List Char) : q ∉ cs.takeWhile (· != q) := fun h => by
  simpa using List.mem_takeWhile_imp h

theorem head?_dropWhile_eq_false {p : Char → Bool} {cs : List Char} :
    ∀ c ∈ (cs.dropWhile p).head?, p c = false := by
  intro c hc
  have h := List.head?_dropWhile_not p cs
  rw [hc] at h
  exact h

theorem isAtomChar_of_not {c : Char} (hblank : ¬ Text.isBlank c = true)
    (hsemicolon : ¬ c = ';') (hopen : ¬ c = '(') (hclose : ¬ c = ')')
    (hquote : ¬ c = '"') : isAtomChar c = true := by
  simp [isAtomChar, hblank, hsemicolon, hopen, hclose, hquote]

theorem ne_of_isAtomChar {c : Char} (h : isAtomChar c = true) : c ≠ ';' ∧ c ≠ '"' := by
  simp only [isAtomChar, Bool.and_eq_true, bne_iff_ne] at h
  exact ⟨h.1.2, h.2⟩

theorem spells_ofAtom {run : List Char} (hne : run ≠ []) (h : ∀ c ∈ run, isAtomChar c) :
    (ofAtom run).Spells run ∧ (ofAtom run).isAtom := by
  unfold ofAtom
  split
  · next value hvalue =>
    exact ⟨.number h ((Decimal.literal?_isSome_iff run).mp (by rw [hvalue]; rfl)) hvalue, rfl⟩
  · next hnone =>
    refine ⟨.identifier h hne fun hnumeral => ?_, rfl⟩
    simpa [hnone] using (Decimal.literal?_isSome_iff run).mpr hnumeral

theorem Accounts.parenthesis {before rest : List Char} {answer : Except Nat (List Lexeme)}
    {t : Token} {c : Char} {span : Span} (hspells : t.Spells [c]) (hatom : t.isAtom = false)
    (hcode : zone before = .code)
    (hspan : span = .between (.advanceAll .start before) (.advanceAll .start (before ++ [c])))
    (h : Accounts (before ++ [c]) rest answer) :
    Accounts before (c :: rest) (do return ⟨t, span⟩ :: (← answer)) :=
  Accounts.cons ⟨hcode, hspan, hspells, fun h => by simp [hatom] at h⟩ h

theorem resumes_parenthesis {before rest : List Char} {c : Char} (hcode : zone before = .code)
    (hc : c = '(' ∨ c = ')') : Resumes (before ++ [c]) rest := by
  rcases hc with rfl | rfl
  · exact .code (zone_code hcode (by simp)) (.inl (by simp [isAtomChar])) (List.cons_ne_nil _ _)
  · exact .code (zone_code hcode (by simp)) (.inl (by simp [isAtomChar])) (List.cons_ne_nil _ _)

section

variable {before rest : List Char} {answer : Except Nat (List Lexeme)}

theorem zone_quoted {content : List Char} (hcode : zone before = .code) (hcontent : '"' ∉ content) :
    zone (before ++ ('"' :: content ++ ['"'])) = .code := by
  rw [← List.append_assoc, zone_concat, zone_string hcode hcontent]
  rfl

theorem resumes_quoted {content : List Char} (hcode : zone before = .code)
    (hcontent : '"' ∉ content) :
    Resumes (before ++ ('"' :: content ++ ['"'])) rest := by
  refine .code (zone_quoted hcode hcontent) (.inl fun c hc => ?_) (List.cons_ne_nil _ _)
  rw [List.getLast?_concat, Option.mem_some_iff] at hc
  rw [← hc]
  decide

theorem Accounts.quoted {content : List Char} {span : Span} (hcode : zone before = .code)
    (hcontent : '"' ∉ content)
    (hspan : span = .between (.advanceAll .start before)
      (.advanceAll .start (before ++ ('"' :: content ++ ['"']))))
    (h : Accounts (before ++ ('"' :: content ++ ['"'])) rest answer) :
    Accounts before ('"' :: content ++ '"' :: rest) (do
      return ⟨.text (String.ofList content), span⟩ :: (← answer)) := by
  have hstands : Lexeme.Stands ⟨.text (String.ofList content), span⟩ before
      ('"' :: content ++ ['"']) rest :=
    ⟨hcode, hspan, .text hcontent, fun h => by simp [isAtom] at h⟩
  have haccounts := Accounts.cons hstands h
  rwa [List.append_assoc, List.singleton_append] at haccounts

theorem Resumes.atom {run : List Char} (hcode : zone before = .code)
    (hrun : ∀ c ∈ run, isAtomChar c) (hne : run ≠ [])
    (hrest : ∀ c ∈ rest.head?, isAtomChar c = false) : Resumes (before ++ run) rest :=
  .code (zone_code hcode fun c hc => ne_of_isAtomChar (hrun c hc)) (.inr hrest) hne

theorem Accounts.atom {c : Char} {run : List Char} {span : Span}
    (hresumes : Resumes before (c :: run ++ rest)) (hcode : zone before = .code)
    (hrun : ∀ d ∈ c :: run, isAtomChar d) (hrest : ∀ d ∈ rest.head?, isAtomChar d = false)
    (hspan : span = .between (.advanceAll .start before) (.advanceAll .start (before ++ c :: run)))
    (h : Accounts (before ++ c :: run) rest answer) :
    Accounts before (c :: run ++ rest) (do
      return ⟨ofAtom (c :: run), span⟩ :: (← answer)) := by
  have hbefore : ∀ d ∈ before.getLast?, isAtomChar d = false := by
    intro d hd
    by_contra hatom
    have hfalse := hresumes.apart d hd (by simpa using hatom) c rfl
    simp [hrun c List.mem_cons_self] at hfalse
  have hspells := spells_ofAtom (List.cons_ne_nil c run) hrun
  exact Accounts.cons ⟨hcode, hspan, hspells.1, fun _ => ⟨hbefore, hrest⟩⟩ h

end

/-- The scan splits what is left of a text, or stops at a double quote that is never closed. -/
theorem scanFrom_splits {text : String} (before rest : List Char)
    (htext : text.toList = before ++ rest) (h : Resumes before rest) :
    Accounts before rest (scanFrom (.ofText text) (String.ofList before).utf8ByteSize rest) := by
  generalize hindex : LineIndex.ofText text = index
  generalize hp : (String.ofList before).utf8ByteSize = p
  induction p, rest using scanFrom.induct generalizing before with
  | case1 p =>
    rw [scanFrom]
    exact .done
  | case2 p c rest next hblank ih =>
    rw [scanFrom, if_pos hblank]
    subst hp
    have hrest := ih (before ++ [c]) (htext.trans (by simp)) (h.blank hblank)
      (utf8ByteSize_concat before c)
    exact hrest.skip fun lexemes => .blank hblank
  | case3 p rest next hblank ih =>
    rw [scanFrom, if_neg hblank, if_pos rfl]
    subst hp
    have hline := not_mem_takeWhile_ne '\n' rest
    have hhead : ∀ c ∈ (rest.dropWhile (· != '\n')).head?, c = '\n' := fun c hc => by
      simpa using head?_dropWhile_eq_false c hc
    have hcode := h.zone_eq (by decide)
    have hsplit : ';' :: rest.takeWhile (· != '\n') ++ rest.dropWhile (· != '\n') =
        ';' :: rest := by
      rw [List.cons_append, List.takeWhile_append_dropWhile]
    have hrest := ih _ (by rw [htext, List.append_assoc, hsplit]) (.comment hcode hline hhead)
      (advance_utf8ByteSize before (';' :: _)).symm
    have haccounts := hrest.skip fun lexemes => .comment hcode hline
    rwa [hsplit] at haccounts
  | case4 p rest next hblank hs ih =>
    rw [scanFrom, if_neg hblank, if_neg hs, if_pos rfl]
    subst hp hindex
    have hcode := h.zone_eq (by decide)
    exact .parenthesis .opening rfl hcode (LineIndex.span_character htext)
      (ih _ (htext.trans (by simp)) (resumes_parenthesis hcode (.inl rfl))
        (utf8ByteSize_concat before '('))
  | case5 p rest next hblank hs ho ih =>
    rw [scanFrom, if_neg hblank, if_neg hs, if_neg ho, if_pos rfl]
    subst hp hindex
    have hcode := h.zone_eq (by decide)
    exact .parenthesis .closing rfl hcode (LineIndex.span_character htext)
      (ih _ (htext.trans (by simp)) (resumes_parenthesis hcode (.inr rfl))
        (utf8ByteSize_concat before ')'))
  | case6 p rest hdrop hblank hs ho hc =>
    rw [scanFrom, if_neg hblank, if_neg hs, if_neg ho, if_neg hc, if_pos rfl]
    have hcode := h.zone_eq (by decide)
    have hno : '"' ∉ rest := by
      have hrest := List.takeWhile_append_dropWhile (p := (· != '"')) (l := rest)
      rw [hdrop, List.append_nil] at hrest
      exact hrest ▸ not_mem_takeWhile_ne '"' rest
    split
    · exact ⟨[], rest, rfl, by rw [List.append_nil, hcode], hno⟩
    · next h' => simp [hdrop] at h'
  | case7 p rest content quote after hdrop next hblank hs ho hc close stop ih =>
    rw [scanFrom, if_neg hblank, if_neg hs, if_neg ho, if_neg hc, if_pos rfl]
    subst hp hindex
    have hcode := h.zone_eq (by decide)
    have hcontent : '"' ∉ content := not_mem_takeWhile_ne '"' rest
    have hquote : quote = '"' := by
      simpa using head?_dropWhile_eq_false (p := (· != '"')) quote (by rw [hdrop]; rfl)
    subst hquote
    have hsplit : content ++ '"' :: after = rest := by
      rw [← hdrop]
      exact List.takeWhile_append_dropWhile
    have htext' : text.toList = before ++ ('"' :: content ++ ['"']) ++ after := by
      rw [htext, ← hsplit]
      simp
    have hstop : (String.ofList (before ++ ('"' :: content ++ ['"']))).utf8ByteSize = stop := by
      rw [← List.append_assoc, utf8ByteSize_concat, ← advance_utf8ByteSize]
      rfl
    split
    · next h' => simp [hdrop] at h'
    · next h' =>
      rw [hdrop] at h'
      cases h'
      have haccounts := Accounts.quoted hcode hcontent (LineIndex.span_eq htext')
        (ih _ htext' (resumes_quoted hcode hcontent) hstop)
      rwa [List.cons_append, hsplit, hstop] at haccounts
  | case8 p c rest next hblank hs ho hc hq run stop ih =>
    rw [scanFrom, if_neg hblank, if_neg hs, if_neg ho, if_neg hc, if_neg hq]
    subst hp hindex
    have hrun : ∀ d ∈ c :: run, isAtomChar d := by
      intro d hd
      rcases List.mem_cons.mp hd with rfl | hd
      · exact isAtomChar_of_not hblank hs ho hc hq
      · exact List.mem_takeWhile_imp hd
    have hhead : ∀ d ∈ (rest.dropWhile isAtomChar).head?, isAtomChar d = false :=
      head?_dropWhile_eq_false
    have hcode : zone before = .code := h.zone_eq (by rintro rfl; exact hblank (by decide))
    have hsplit : c :: run ++ rest.dropWhile isAtomChar = c :: rest := by
      rw [List.cons_append, List.takeWhile_append_dropWhile]
    have htext' : text.toList = before ++ c :: run ++ rest.dropWhile isAtomChar := by
      rw [htext, List.append_assoc, hsplit]
    have hstop : (String.ofList (before ++ c :: run)).utf8ByteSize = stop :=
      (advance_utf8ByteSize before (c :: run)).symm
    have hrest := ih _ htext' (.atom hcode hrun (List.cons_ne_nil c run) hhead) hstop
    have haccounts :=
      Accounts.atom (hsplit ▸ h) hcode hrun hhead (LineIndex.span_eq htext') hrest
    rwa [hsplit, hstop] at haccounts

/-! ## What a split says of the text -/

/-- Where a character of two parts of a text stands. -/
theorem cut {word rest read after : List Char} {c : Char} (h : word ++ rest = read ++ c :: after) :
    (∃ more, word = read ++ c :: more ∧ after = more ++ rest) ∨
      ∃ more, read = word ++ more ∧ rest = more ++ c :: after := by
  rcases List.append_eq_append_iff.mp h with ⟨more, hread, hrest⟩ | ⟨more, hword, hafter⟩
  · exact .inr ⟨more, hread, hrest⟩
  · cases more with
    | nil => exact .inr ⟨[], by simpa using hword.symm, hafter.symm⟩
    | cons d more =>
      obtain ⟨rfl, rfl⟩ := List.cons.inj hafter
      exact .inl ⟨more, hword, rfl⟩

theorem Spells.ne_nil {t : Token} {word : List Char} (h : t.Spells word) : word ≠ [] := by
  cases h with
  | number h hnumeral hvalue =>
    obtain ⟨sign, unsigned, rfl, _, _, _, c, hc, _⟩ := hnumeral
    exact List.ne_nil_of_mem (List.mem_append_right sign hc)
  | identifier h hne hnumeral => exact hne
  | _ => exact List.cons_ne_nil _ _

/-- Where the code has a double quote in the word of a token, the word has another one after it. -/
theorem Spells.quote_mem {t : Token} {before word read more : List Char} (h : t.Spells word)
    (hword : word = read ++ '"' :: more) (hcode : zone before = .code)
    (hread : zone (before ++ read) = .code) :
    '"' ∈ more := by
  have hmem : '"' ∈ word := by rw [hword]; simp
  cases h with
  | opening => simp at hmem
  | closing => simp at hmem
  | number h hnumeral hvalue => exact absurd (h _ hmem) (by decide)
  | identifier h hne hnumeral => exact absurd (h _ hmem) (by decide)
  | @text content hcontent =>
    cases read with
    | nil =>
      obtain ⟨_, rfl⟩ := List.cons.inj hword
      simp
    | cons c read =>
      obtain ⟨rfl, htail⟩ := List.cons.inj hword
      rcases cut htail with ⟨others, rfl, _⟩ | ⟨others, rfl, hlast⟩
      · exact absurd hcontent (by simp)
      · -- the last double quote stands inside the string
        have hothers : others = [] := by
          cases others with
          | nil => rfl
          | cons d others => simp at hlast
        rw [hothers, List.append_nil, zone_string hcode hcontent] at hread
        cases hread

section

variable {before rest : List Char} {lexemes : List Lexeme}

/-- A text that splits into lexemes closes every double quote. -/
theorem Splits.quote_mem (h : Splits before rest lexemes) {read after : List Char}
    (hrest : rest = read ++ '"' :: after) (hcode : zone (before ++ read) = .code) :
    '"' ∈ after := by
  induction h generalizing read with
  | done => simp at hrest
  | @blank before rest lexemes c hblank hrest' ih =>
    cases read with
    | nil =>
      obtain ⟨rfl, rfl⟩ := List.cons.inj hrest
      exact absurd hblank (by decide)
    | cons d read =>
      obtain ⟨rfl, rfl⟩ := List.cons.inj hrest
      exact ih rfl (by rwa [List.append_assoc])
  | @comment before line rest lexemes hbefore hline hrest' ih =>
    rcases cut hrest with ⟨more, hline', rfl⟩ | ⟨more, rfl, hmore⟩
    · cases read with
      | nil => cases hline'
      | cons d read =>
        obtain ⟨rfl, rfl⟩ := List.cons.inj hline'
        rw [zone_comment hbefore fun h => hline (List.mem_append_left _ h)] at hcode
        cases hcode
    · exact ih hmore (by rwa [List.append_assoc])
  | @token before word rest lexeme lexemes hstands hrest' ih =>
    rcases cut hrest with ⟨more, hword, rfl⟩ | ⟨more, rfl, hmore⟩
    · exact List.mem_append_left rest (hstands.spells.quote_mem hword hstands.zone_eq hcode)
    · exact ih hmore (by rwa [List.append_assoc])

/-- Every lexeme of a split stands somewhere in the text. -/
theorem Splits.stands (h : Splits before rest lexemes) : ∀ lexeme ∈ lexemes,
    ∃ skipped word after, rest = skipped ++ word ++ after ∧
      lexeme.Stands (before ++ skipped) word after := by
  induction h with
  | done => simp
  | @blank before rest lexemes c hblank hrest ih =>
    intro lexeme hmem
    obtain ⟨skipped, word, after, rfl, hstands⟩ := ih lexeme hmem
    exact ⟨c :: skipped, word, after, rfl, by rwa [List.append_assoc] at hstands⟩
  | @comment before line rest lexemes hbefore hline hrest ih =>
    intro lexeme hmem
    obtain ⟨skipped, word, after, rfl, hstands⟩ := ih lexeme hmem
    refine ⟨';' :: line ++ skipped, word, after, by simp only [List.append_assoc], ?_⟩
    rwa [List.append_assoc] at hstands
  | @token before word rest first lexemes hfirst hrest ih =>
    intro lexeme hmem
    rcases List.mem_cons.mp hmem with rfl | hmem
    · exact ⟨[], word, rest, rfl, by rwa [List.append_nil]⟩
    · obtain ⟨skipped, word', after, rfl, hstands⟩ := ih lexeme hmem
      refine ⟨word ++ skipped, word', after, by simp only [List.append_assoc], ?_⟩
      rwa [List.append_assoc] at hstands

end

end Token

/-! ## Spans -/

theorem Position.offset_le_append (before more : List Char) :
    (advanceAll .start before).offset ≤ (advanceAll .start (before ++ more)).offset := by
  rw [advanceAll_append, offset_advanceAll _ more]
  exact Nat.le_add_right _ _

theorem Position.offset_lt_append (before : List Char) {more : List Char} (h : more ≠ []) :
    (advanceAll .start before).offset < (advanceAll .start (before ++ more)).offset := by
  obtain ⟨c, more, rfl⟩ := List.exists_cons_of_ne_nil h
  rw [advanceAll_append, advanceAll_cons, offset_advanceAll _ more, offset_advance]
  have := c.utf8Size_pos
  omega

/-- Whether the character at a place is part of a span. -/
def Span.Covers (span : Span) (p : Position) : Prop :=
  span.start ≤ p.offset ∧ p.offset < span.stop

namespace Lexeme.Stands

variable {lexeme : Lexeme} {before word after : List Char}

theorem start_lt_stop (h : lexeme.Stands before word after) :
    lexeme.span.start < lexeme.span.stop := by
  rw [h.span_eq]
  exact Position.offset_lt_append before h.spells.ne_nil

/-- A span begins and ends between two characters of the text. -/
theorem isValid (h : lexeme.Stands before word after) :
    String.Pos.Raw.IsValid (String.ofList (before ++ word ++ after)) ⟨lexeme.span.start⟩ ∧
      String.Pos.Raw.IsValid (String.ofList (before ++ word ++ after)) ⟨lexeme.span.stop⟩ := by
  have hoffset : ∀ cs, (Position.start.advanceAll cs).offset = (String.ofList cs).utf8ByteSize :=
    fun cs => by
    rw [Position.offset_advanceAll]
    exact Nat.zero_add _
  rw [h.span_eq]
  simp only [Span.between, hoffset, String.Pos.Raw.isValid_iff_exists_append]
  exact ⟨⟨_, String.ofList (word ++ after), by rw [← String.ofList_append, List.append_assoc], rfl⟩,
    ⟨_, String.ofList after, by rw [← String.ofList_append], rfl⟩⟩

end Lexeme.Stands

namespace Token

section

variable {before rest : List Char} {lexemes : List Lexeme}

theorem Splits.pairwise (h : Splits before rest lexemes) :
    lexemes.Pairwise fun a b => a.span.stop ≤ b.span.start := by
  induction h with
  | done => exact .nil
  | blank hblank hrest ih => exact ih
  | comment hbefore hline hrest ih => exact ih
  | @token before word rest lexeme lexemes hstands hrest ih =>
    refine .cons (fun later hmem => ?_) ih
    obtain ⟨skipped, _, _, _, hlater⟩ := hrest.stands later hmem
    rw [hstands.span_eq, hlater.span_eq]
    exact Position.offset_le_append _ skipped

/-- A character that no lexeme covers is blank, or the text lies in a comment after it. -/
theorem Splits.covers (h : Splits before rest lexemes) {read after : List Char} {c : Char}
    (hrest : rest = read ++ c :: after) :
    (∃ lexeme ∈ lexemes, lexeme.span.Covers (.advanceAll .start (before ++ read))) ∨
      Text.isBlank c ∨
      zone (before ++ read ++ [c]) = .comment := by
  induction h generalizing read with
  | done => simp at hrest
  | @blank before rest lexemes d hblank hrest' ih =>
    cases read with
    | nil =>
      obtain ⟨rfl, rfl⟩ := List.cons.inj hrest
      exact .inr (.inl hblank)
    | cons e read =>
      obtain ⟨rfl, rfl⟩ := List.cons.inj hrest
      simpa only [List.append_assoc, List.singleton_append] using ih rfl
  | @comment before line rest lexemes hbefore hline hrest' ih =>
    rcases cut hrest with ⟨more, hline', rfl⟩ | ⟨more, rfl, hmore⟩
    · right; right
      cases read with
      | nil =>
        obtain ⟨rfl, -⟩ := List.cons.inj hline'
        rw [List.append_nil]
        exact zone_comment hbefore List.not_mem_nil
      | cons d read =>
        obtain ⟨rfl, rfl⟩ := List.cons.inj hline'
        rw [List.append_assoc, List.cons_append]
        have hinitial : read ++ [c] <+: read ++ c :: more := ⟨more, by simp⟩
        exact zone_comment hbefore fun h => hline (hinitial.subset h)
    · simpa only [List.append_assoc] using ih hmore
  | @token before word rest lexeme lexemes hstands hrest' ih =>
    rcases cut hrest with ⟨more, rfl, rfl⟩ | ⟨more, rfl, hmore⟩
    · left
      refine ⟨lexeme, List.mem_cons_self, ?_⟩
      rw [Span.Covers, hstands.span_eq, ← List.append_assoc]
      exact ⟨Position.offset_le_append before read,
        Position.offset_lt_append _ (List.cons_ne_nil c more)⟩
    · rcases ih hmore with ⟨covering, hmem, hcovers⟩ | hother
      · exact .inl ⟨covering, List.mem_cons_of_mem lexeme hmem, by rwa [← List.append_assoc]⟩
      · rw [← List.append_assoc]
        exact .inr hother

end

/-- The lexemes account for every character of the text, each standing apart from the others. -/
structure Lossless (source : String) (lexemes : List Lexeme) : Prop where
  stands : ∀ lexeme ∈ lexemes, ∃ before word after,
    source.toList = before ++ word ++ after ∧ lexeme.Stands before word after
  nonempty : ∀ lexeme ∈ lexemes, lexeme.span.start < lexeme.span.stop
  boundaries : ∀ lexeme ∈ lexemes, String.Pos.Raw.IsValid source ⟨lexeme.span.start⟩ ∧
    String.Pos.Raw.IsValid source ⟨lexeme.span.stop⟩
  ordered : lexemes.Pairwise fun a b => a.span.stop ≤ b.span.start
  covers : ∀ before c after, source.toList = before ++ c :: after →
    (∃ lexeme ∈ lexemes, lexeme.span.Covers (.advanceAll .start before)) ∨ Text.isBlank c ∨
      zone (before ++ [c]) = .comment

theorem Splits.lossless {source : String} {lexemes : List Lexeme}
    (h : Splits [] source.toList lexemes) :
    Lossless source lexemes where
  stands := h.stands
  nonempty := fun lexeme hmem => by
    obtain ⟨_, _, _, _, hstands⟩ := h.stands lexeme hmem
    exact hstands.start_lt_stop
  boundaries := fun lexeme hmem => by
    obtain ⟨skipped, word, after, hsource, hstands⟩ := h.stands lexeme hmem
    have hvalid := hstands.isValid
    rwa [List.nil_append, ← hsource, String.ofList_toList] at hvalid
  ordered := h.pairwise
  covers := fun before c after hsource => h.covers hsource

theorem scan_accounts (source : String) : Accounts [] source.toList (scan source) := by
  have hresumes : Resumes [] source.toList := ⟨.inl rfl, by simp⟩
  exact scanFrom_splits [] source.toList rfl hresumes

theorem lossless_of_scan {source : String} {lexemes : List Lexeme} (h : scan source = .ok lexemes) :
    Lossless source lexemes := by
  have hsplits := scan_accounts source
  rw [h] at hsplits
  exact Splits.lossless hsplits

/-- A scan fails iff the text never closes a double quote of its code, and otherwise answers lexemes
that lose nothing of the text. -/
theorem scan_lossless (source : String) :
    match scan source with
    | .error _ => NeverClosed source.toList
    | .ok lexemes => ¬ NeverClosed source.toList ∧ Lossless source lexemes := by
  have haccounts := scan_accounts source
  revert haccounts
  cases scan source with
  | error stop => exact id
  | ok lexemes =>
    intro hsplits
    refine ⟨?_, Splits.lossless hsplits⟩
    rintro ⟨before, after, hsource, hcode, hafter⟩
    exact hafter (Splits.quote_mem hsplits hsource hcode)

end Token

end LiveLisp
