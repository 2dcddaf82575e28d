/-
  A form that is printed and read back is the same form (`ofForm_render`). Single blanks stand
  between the items of a printed list, so the scan has to find in it the words that were printed and
  no others. `Scans` says of a piece of text that it does, wherever the piece stands, as long as no
  atom character follows it: an atom would go on there.

  What a source spells can be printed again as it was, but for the numbers, of which the value is
  kept and not the spelling. That the text of each reads back as this value is all that is assumed.
-/
import LiveLisp.Proofs.Tree.Literals

namespace LiveLisp

namespace Token

/-- Wherever the text stands, if no atom character follows it, the scan finds the tokens in it and
goes on after it. -/
def Scans (text : List Char) (tokens : List Token) : Prop :=
  ∀ (index : LineIndex) (offset : Nat) (rest : List Char) (lexemes : List Lexeme),
    (∀ c ∈ rest.head?, isAtomChar c = false) →
    scanFrom index (advance offset text) rest = .ok lexemes →
    ∃ found, Lexeme.tokens found = tokens ∧
      scanFrom index offset (text ++ rest) = .ok (found ++ lexemes)

/-! ## Words -/

section

variable {p : Char → Bool} {run rest : List Char}

theorem takeWhile_run (hrun : ∀ c ∈ run, p c = true) (hrest : ∀ c ∈ rest.head?, p c = false) :
    (run ++ rest).takeWhile p = run := by
  rw [List.takeWhile_append_of_pos hrun]
  cases rest with
  | nil => exact List.append_nil run
  | cons c rest => rw [List.takeWhile_cons_of_neg (by simp [hrest c rfl]), List.append_nil]

theorem dropWhile_run (hrun : ∀ c ∈ run, p c = true) (hrest : ∀ c ∈ rest.head?, p c = false) :
    (run ++ rest).dropWhile p = rest := by
  rw [List.dropWhile_append_of_pos hrun]
  cases rest with
  | nil => rfl
  | cons c rest => rw [List.dropWhile_cons_of_neg (by simp [hrest c rfl])]

end

variable {t : Token} {text text' word : List Char} {ts us : List Token}

/-- A run of atom characters that spells a token is read as that token. -/
theorem Spells.ofAtom_eq (h : t.Spells word) (hatom : t.isAtom) : ofAtom word = t := by
  unfold ofAtom
  cases h with
  | number hrun hnumeral hvalue => rw [hvalue]
  | identifier hrun hne hnumeral =>
    rw [← Decimal.literal?_isSome_iff, Option.not_isSome_iff_eq_none] at hnumeral
    rw [hnumeral]
  | _ => cases hatom

theorem Spells.isAtomChar (h : t.Spells word) (hatom : t.isAtom) : ∀ c ∈ word, isAtomChar c := by
  cases h with
  | number hrun hnumeral hvalue => exact hrun
  | identifier hrun hne hnumeral => exact hrun
  | _ => cases hatom

section

variable {index : LineIndex} {offset : Nat} {rest : List Char} {lexemes : List Lexeme}

theorem scanFrom_opening (h : scanFrom index (advance offset ['(']) rest = .ok lexemes) :
    scanFrom index offset ('(' :: rest) =
      .ok (⟨.opening, index.span offset (advance offset ['('])⟩ :: lexemes) := by
  rw [advance_cons, advance_nil] at h ⊢
  rw [scanFrom, if_neg (by decide), if_neg (by decide), if_pos rfl, h]
  rfl

theorem scanFrom_closing (h : scanFrom index (advance offset [')']) rest = .ok lexemes) :
    scanFrom index offset (')' :: rest) =
      .ok (⟨.closing, index.span offset (advance offset [')'])⟩ :: lexemes) := by
  rw [advance_cons, advance_nil] at h ⊢
  rw [scanFrom, if_neg (by decide), if_neg (by decide), if_neg (by decide), if_pos rfl, h]
  rfl

theorem scanFrom_text {content : List Char} (hcontent : '"' ∉ content)
    (h : scanFrom index (advance offset ('"' :: content ++ ['"'])) rest = .ok lexemes) :
    scanFrom index offset ('"' :: content ++ ['"'] ++ rest) =
      .ok (⟨.text (String.ofList content),
        index.span offset (advance offset ('"' :: content ++ ['"']))⟩ :: lexemes) := by
  have hinside : ∀ c ∈ content, (c != '"') = true :=
    fun c hc => bne_iff_ne.mpr (ne_of_mem_of_not_mem hc hcontent)
  have hstop : ∀ c ∈ ('"' :: rest).head?, (c != '"') = false :=
    fun c hc => by simpa using (Option.some.inj hc).symm
  have htake := takeWhile_run hinside hstop
  have hdrop := dropWhile_run hinside hstop
  rw [advance_append, advance_cons] at h ⊢
  rw [List.append_assoc, List.singleton_append, List.cons_append, scanFrom,
    if_neg (by decide), if_neg (by decide), if_neg (by decide), if_neg (by decide), if_pos rfl]
  dsimp only
  split
  · next hnil => cases hdrop.symm.trans hnil
  · next quote after hcons =>
    cases hdrop.symm.trans hcons
    rw [advance_cons, advance_nil] at h
    rw [htake, h]
    rfl

theorem scanFrom_atom {c : Char} {run : List Char}
    (hrun : ∀ d ∈ c :: run, isAtomChar d) (hrest : ∀ d ∈ rest.head?, isAtomChar d = false)
    (h : scanFrom index (advance offset (c :: run)) rest = .ok lexemes) :
    scanFrom index offset (c :: run ++ rest) =
      .ok (⟨ofAtom (c :: run), index.span offset (advance offset (c :: run))⟩ :: lexemes) := by
  obtain ⟨hc, hrun⟩ := List.forall_mem_cons.mp hrun
  simp only [isAtomChar, Bool.and_eq_true, Bool.not_eq_true', bne_iff_ne] at hc
  obtain ⟨⟨⟨⟨hblank, hopen⟩, hclose⟩, hsemicolon⟩, hquote⟩ := hc
  rw [List.cons_append, scanFrom, if_neg (by simp [hblank]), if_neg hsemicolon, if_neg hopen,
    if_neg hclose, if_neg hquote]
  dsimp only
  rw [takeWhile_run hrun hrest, dropWhile_run hrun hrest, ← advance_cons, h]
  rfl

end

/-- The words of the tokens are found where they stand. -/
theorem Spells.scans (h : t.Spells word) : Scans word [t] := by
  intro index offset rest lexemes hhead hrest
  refine ⟨[⟨t, index.span offset (advance offset word)⟩], rfl, ?_⟩
  by_cases hatom : t.isAtom
  · have hrun := h.isAtomChar hatom
    obtain ⟨c, run, rfl⟩ := List.exists_cons_of_ne_nil h.ne_nil
    rw [← h.ofAtom_eq hatom]
    exact scanFrom_atom hrun hhead hrest
  · cases h with
    | opening => exact scanFrom_opening hrest
    | closing => exact scanFrom_closing hrest
    | text hcontent => exact scanFrom_text hcontent hrest
    | _ => exact absurd rfl hatom

/-! ## Lines -/

/-- An opening parenthesis is read for itself, whatever follows. -/
theorem Scans.opened (h : Scans text ts) : Scans ('(' :: text) (.opening :: ts) := by
  intro index offset rest lexemes hhead hrest
  obtain ⟨found, rfl, hscan⟩ := h index (advance offset ['(']) rest lexemes hhead hrest
  exact ⟨_ :: found, rfl, scanFrom_opening hscan⟩

theorem Scans.blank {c : Char} (hc : Text.isBlank c) (h : Scans text ts) :
    Scans (c :: text) ts := by
  intro index offset rest lexemes hhead hrest
  obtain ⟨found, hfound, hscan⟩ := h index (advance offset [c]) rest lexemes hhead hrest
  refine ⟨found, hfound, ?_⟩
  rw [advance_cons, advance_nil] at hscan
  rw [List.cons_append, scanFrom, if_pos hc, hscan]

/-- One text after the other, if the second one does not go on with an atom of the first. -/
theorem Scans.append (h : Scans text ts) (h' : Scans text' us) {c : Char}
    (hc : isAtomChar c = false) (hhead : text'.head? = some c) :
    Scans (text ++ text') (ts ++ us) := by
  intro index offset rest lexemes hrest hlexemes
  rw [advance_append] at hlexemes
  obtain ⟨found', hfound', hscan'⟩ := h' index _ rest lexemes hrest hlexemes
  obtain ⟨found, hfound, hscan⟩ :=
    h index offset (text' ++ rest) _ (by simp [hhead, hc]) hscan'
  refine ⟨found ++ found', ?_, ?_⟩
  · rw [← hfound, ← hfound']
    exact List.map_append
  · rw [List.append_assoc, hscan, List.append_assoc]

theorem isAtomChar_of_isDigit {c : Char} (h : Decimal.isDigit c) : isAtomChar c := by
  simp only [Decimal.isDigit, Bool.and_eq_true, decide_eq_true_eq] at h
  have hlow : 48 ≤ c.toNat := h.1
  have hhigh : c.toNat ≤ 57 := h.2
  have hblank : Text.isBlank c = false := by simp [Text.isBlank]; omega
  have hother : ∀ d : Char, d.toNat < 48 ∨ 57 < d.toNat → c ≠ d := by
    rintro d hd rfl
    omega
  simp [isAtomChar, hblank, hother '(' (by decide), hother ')' (by decide), hother ';' (by decide),
    hother '"' (by decide)]

theorem isAtomChar_of_isNumeral {run : List Char} (h : Decimal.IsNumeral run) :
    ∀ c ∈ run, isAtomChar c := by
  obtain ⟨sign, unsigned, rfl, hsign, hdigits, -⟩ := h
  intro c hc
  rcases List.mem_append.mp hc with hc | hc
  · rcases hsign with rfl | rfl
    · cases hc
    · rw [List.mem_singleton.mp hc]
      decide
  · rcases hdigits c hc with hdigit | rfl
    · exact isAtomChar_of_isDigit hdigit
    · decide

/-- What is spelled somewhere is spelled in print too, if it is not a number. -/
theorem Spells.printed (h : t.Spells word)
    (hnumber : ∀ value, t = .number value →
      Decimal.literal? (Decimal.render value).toList = some value) :
    t.Spells t.render.toList := by
  cases h with
  | opening => exact .opening
  | closing => exact .closing
  | @text content h =>
    have hprinted :
      (render (.text (String.ofList content))).toList = '"' :: content ++ ['"'] := by simp [render]
    rw [hprinted]
    exact .text h
  | @identifier run h hne hnumeral =>
    rw [render, String.toList_ofList]
    exact .identifier h hne hnumeral
  | @number run value h hnumeral hvalue =>
    -- the source may have spelled it differently
    have hliteral := hnumber value rfl
    have hnumeral := (Decimal.literal?_isSome_iff _).mp (Option.isSome_of_eq_some hliteral)
    exact .number (isAtomChar_of_isNumeral hnumeral) hnumeral hliteral

end Token

namespace Form

mutual
theorem scans_render (f : Form) (h : ∀ t ∈ f.tokens, t.Spells t.render.toList) :
    Token.Scans f.render.toList f.tokens := by
  cases f with
  | list items =>
    have hitems := scans_renderAll items fun t ht => h t (by simp [tokens, ht])
    have hline : (render (.list items)).toList = '(' ::
      ((String.intercalate " " (renderAll items)).toList ++ [')']) := by
      simp [render]
    rw [hline, tokens]
    exact .opened (hitems.append Token.Spells.closing.scans (by decide) rfl)
  | number value => exact (h (.number value) (List.mem_singleton_self _)).scans
  | text content => exact (h (.text content) (List.mem_singleton_self _)).scans
  | identifier name => exact (h (.identifier name) (List.mem_singleton_self _)).scans
theorem scans_renderAll (fs : List Form) (h : ∀ t ∈ allTokens fs, t.Spells t.render.toList) :
    Token.Scans (String.intercalate " " (renderAll fs)).toList (allTokens fs) := by
  cases fs with
  | nil => exact fun index offset rest lexemes _ hrest => ⟨[], rfl, hrest⟩
  | cons f fs =>
    have hfirst := scans_render f fun t ht => h t (List.mem_append_left _ ht)
    have hothers := scans_renderAll fs fun t ht => h t (List.mem_append_right _ ht)
    cases fs with
    | nil => simpa [renderAll, allTokens] using hfirst
    | cons g fs =>
      have hline : (String.intercalate " " (renderAll (f :: g :: fs))).toList =
          f.render.toList ++ ' ' :: (String.intercalate " " (renderAll (g :: fs))).toList := by
        simp [renderAll, String.intercalate_cons_cons]
      rw [hline, allTokens]
      -- the blank ends the first item, even if it is an atom
      exact hfirst.append (.blank (by decide) hothers) (by decide) rfl
end

end Form

namespace Token

/-- A printed form has the tokens that it is printed from. -/
theorem scan_render {f : Form} (h : ∀ t ∈ f.tokens, t.Spells t.render.toList) :
    ∃ lexemes, scan f.render = .ok lexemes ∧ Lexeme.tokens lexemes = f.tokens := by
  obtain ⟨lexemes, htokens, hscan⟩ := f.scans_render h (.ofText f.render) 0 [] [] (by simp)
    (by rw [scanFrom])
  exact ⟨lexemes, by simpa [scan] using hscan, htokens⟩

end Token

namespace Node

/-- Every form that is read from a source can be printed, and is read from what is printed as the
same form, if only the text of every number in it is read as that number. -/
theorem ofForm_render {source : String} {node : Node} (h : ofForm source = .ok node)
    (hnumbers : ∀ value, .number value ∈ node.form.tokens →
      Decimal.literal? (Decimal.render value).toList = some value) :
    ∃ printed, ofForm node.form.render = .ok printed ∧ printed.form = node.form ∧
      printed.form.alike node.form = true := by
  obtain ⟨lexemes, hscan, -⟩ := except_bind_eq_ok h
  have hscan := scan_eq_ok hscan
  have haccepts := ofForm_accepts hscan
  rw [h] at haccepts
  obtain ⟨hdepth, htokens⟩ := haccepts
  obtain ⟨lexemes', hscan', htokens'⟩ := Token.scan_render (f := node.form) fun t ht => by
    obtain ⟨word, hspells⟩ := Token.exists_spells hscan (htokens ▸ ht)
    exact hspells.printed fun value heq => hnumbers value (heq ▸ ht)
  have haccepts' := ofForm_accepts hscan'
  cases hprinted : ofForm node.form.render with
  | error e =>
    rw [hprinted] at haccepts'
    exact absurd htokens'.symm (haccepts' node.form hdepth)
  | ok printed =>
    rw [hprinted] at haccepts'
    have hsame : printed.form = node.form := Form.tokens_inj (haccepts'.2.trans htokens')
    refine ⟨printed, rfl, hsame, hsame ▸ Form.alike_self _ fun x hx => ?_⟩
    exact Token.self_beq_of_scan hscan' (haccepts'.2 ▸ hx)

/-- A comment and a line break are left out, and what looks like a comment in a string is not. -/
theorem ofForm_render_lines : ∃ node, ofForm "(f -2.50 ; half\n \"a;b\"((λ)) )" = .ok node ∧
    node.form.render = "(f -2.5 \"a;b\" ((λ)))" ∧
    (∀ value, .number value ∈ node.form.tokens →
      Decimal.literal? (Decimal.render value).toList = some value) ∧
    ∃ printed, ofForm "(f -2.5 \"a;b\" ((λ)))" = .ok printed ∧ printed.form = node.form ∧
      printed.form.alike node.form = true := by
  have hread : yields (fun node => decide (node.form.render = "(f -2.5 \"a;b\" ((λ)))") &&
        node.form.tokens.all fun
          | .number value => decide (Decimal.literal? (Decimal.render value).toList = some value)
          | _ => true)
      (ofForm "(f -2.50 ; half\n \"a;b\"((λ)) )") = true := by decide +kernel
  obtain ⟨node, hnode, hread⟩ := yields_iff.mp hread
  simp only [Bool.and_eq_true, decide_eq_true_eq, List.all_eq_true] at hread
  have hnumbers : ∀ value, .number value ∈ node.form.tokens →
      Decimal.literal? (Decimal.render value).toList = some value := fun value hvalue => by
    simpa using hread.2 (.number value) hvalue
  exact ⟨node, hnode, hread.1, hnumbers, hread.1 ▸ ofForm_render hnode hnumbers⟩

end Node

end LiveLisp
