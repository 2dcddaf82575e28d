/-
  Places of a text as reading it from its start comes to them, with lines and columns of any size. A
  place says how many bytes stand before it, how many line feeds, and how many characters after the
  last of these (`advanceAll_start`); a character moves it on, to a later column or to a later line.
  The span between two places has the line and the column of the first one as far as 32 bits hold
  them.
-/
import Mathlib.Data.List.Basic
import Mathlib.Data.List.Induction
import Mathlib.Data.List.TakeWhile
import Mathlib.Data.Prod.Lex
import LiveLisp.Source.Span

namespace LiveLisp

/-- A place between two characters: byte offset from 0, line and column from 1. -/
structure Position where
  offset : Nat
  line : Nat
  column : Nat
deriving DecidableEq, Repr

namespace Position

def start : Position := ⟨0, 1, 1⟩

def advance (p : Position) (c : Char) : Position :=
  if c = '\n' then ⟨p.offset + c.utf8Size, p.line + 1, 1⟩
  else ⟨p.offset + c.utf8Size, p.line, p.column + 1⟩

def advanceAll (p : Position) (cs : List Char) : Position :=
  cs.foldl advance p

/-- The place at a byte offset, for text that begins at `p`; an offset past the end is the end. -/
def seek (p : Position) (offset : Nat) : List Char → Position
  | [] => p
  | c :: cs => if offset ≤ p.offset then p else seek (p.advance c) offset cs

/-- The place at a byte offset of a whole text. -/
def ofOffset (text : String) (offset : Nat) : Position :=
  start.seek offset text.toList

/-- The place after the last character of a whole text. -/
def endOf (text : String) : Position :=
  start.advanceAll text.toList

theorem offset_advance (p : Position) (c : Char) :
    (p.advance c).offset = p.offset + c.utf8Size := by
  unfold advance
  split <;> rfl

theorem advanceAll_nil (p : Position) : p.advanceAll [] = p := rfl

theorem advanceAll_cons (p : Position) (c : Char) (cs : List Char) :
    p.advanceAll (c :: cs) = (p.advance c).advanceAll cs := rfl

theorem advanceAll_append (p : Position) (cs ds : List Char) :
    p.advanceAll (cs ++ ds) = (p.advanceAll cs).advanceAll ds := by
  simp [advanceAll]

end Position

/-- The span from one place to another. -/
def Span.between (first last : Position) : Span :=
  ⟨first.offset, last.offset, UInt32.ofNat first.line, UInt32.ofNat first.column⟩

/-- The empty span at a place. -/
def Span.point (p : Position) : Span :=
  between p p

theorem utf8ByteSize_ofList_append (cs ds : List Char) : (String.ofList (cs ++ ds)).utf8ByteSize =
    (String.ofList cs).utf8ByteSize + (String.ofList ds).utf8ByteSize := by
  rw [String.ofList_append, String.utf8ByteSize_append]

theorem utf8ByteSize_ofList_cons (c : Char) (cs : List Char) :
    (String.ofList (c :: cs)).utf8ByteSize = c.utf8Size + (String.ofList cs).utf8ByteSize := by
  rw [String.ofList_cons, String.utf8ByteSize_append, String.utf8ByteSize_singleton]

theorem utf8ByteSize_concat (cs : List Char) (c : Char) : (String.ofList (cs ++ [c])).utf8ByteSize =
    (String.ofList cs).utf8ByteSize + c.utf8Size := by
  rw [utf8ByteSize_ofList_append, utf8ByteSize_ofList_cons]
  rfl

namespace Position

theorem offset_advanceAll (p : Position) (cs : List Char) :
    (p.advanceAll cs).offset = p.offset + (String.ofList cs).utf8ByteSize := by
  induction cs generalizing p with
  | nil => rfl
  | cons c cs ih =>
    rw [advanceAll_cons, ih, offset_advance, utf8ByteSize_ofList_cons, Nat.add_assoc]

/-- The place after a text, in terms of the text: its bytes, its line feeds, and the characters
after the last of these. -/
theorem advanceAll_start (before : List Char) : advanceAll .start before =
    ⟨(String.ofList before).utf8ByteSize, before.count '\n' + 1,
      (before.reverse.takeWhile (· != '\n')).length + 1⟩ := by
  induction before using List.reverseRecOn with
  | nil => rfl
  | append_singleton before c ih =>
    rw [advanceAll_append, ih, utf8ByteSize_concat, advanceAll_cons, advanceAll_nil, advance]
    by_cases hc : c = '\n'
    · simp [hc]
    · simp [hc]

/-- The place at the offset that a part of a text comes to is the place after that part. -/
theorem seek_advanceAll (p : Position) (before after : List Char) :
    p.seek (p.advanceAll before).offset (before ++ after) = p.advanceAll before := by
  induction before generalizing p with
  | nil =>
    cases after with
    | nil => rfl
    | cons c after => exact if_pos (Nat.le_refl _)
  | cons c before ih =>
    have hbeyond : p.offset < (p.advanceAll (c :: before)).offset := by
      rw [advanceAll_cons, offset_advanceAll, offset_advance]
      have := c.utf8Size_pos
      omega
    rw [List.cons_append, seek, if_neg (Nat.not_le_of_lt hbeyond), advanceAll_cons, ih]

/-- An offset past the end is the end. -/
theorem seek_of_le (p : Position) (offset : Nat) (cs : List Char)
    (h : (p.advanceAll cs).offset ≤ offset) :
    p.seek offset cs = p.advanceAll cs := by
  induction cs generalizing p with
  | nil => rfl
  | cons c cs ih =>
    rw [advanceAll_cons] at h ⊢
    have hbeyond : ¬ offset ≤ p.offset := by
      rw [offset_advanceAll, offset_advance] at h
      have := c.utf8Size_pos
      omega
    rw [seek, if_neg hbeyond, ih _ h]

/-- The place at an offset between two characters, or past the end, is the place after what stands
before it. -/
theorem ofOffset_append {text : String} {before after : List Char}
    (htext : text.toList = before ++ after) {offset : Nat}
    (hoffset : (String.ofList before).utf8ByteSize = min offset text.utf8ByteSize) :
    ofOffset text offset = advanceAll .start before := by
  have hbefore : (advanceAll .start before).offset = (String.ofList before).utf8ByteSize := by
    rw [advanceAll_start]
  rcases Nat.le_total offset text.utf8ByteSize with hle | hle
  · have hseek := seek_advanceAll .start before after
    rwa [hbefore, hoffset, Nat.min_eq_left hle, ← htext] at hseek
  · rw [Nat.min_eq_right hle] at hoffset
    have hsize : text.utf8ByteSize = (String.ofList before).utf8ByteSize +
      (String.ofList after).utf8ByteSize := by
      rw [← utf8ByteSize_ofList_append, ← htext, String.ofList_toList]
    have hafter : after = [] := by
      rw [← String.ofList_eq_empty_iff, ← String.utf8ByteSize_eq_zero_iff]
      omega
    rw [ofOffset, htext, hafter, List.append_nil]
    exact seek_of_le _ _ _ (by omega)

/-! ## Earlier and later -/

/-- Line, then column. -/
def lineColumn (p : Position) : Nat ×ₗ Nat :=
  toLex (p.line, p.column)

theorem lineColumn_lt_advance (p : Position) (c : Char) :
    p.lineColumn < (p.advance c).lineColumn := by
  rw [lineColumn, lineColumn, Prod.Lex.toLex_lt_toLex, advance]
  split
  · exact .inl (Nat.lt_succ_self _)
  · exact .inr ⟨rfl, Nat.lt_succ_self _⟩

theorem lineColumn_le_advanceAll (p : Position) (cs : List Char) :
    p.lineColumn ≤ (p.advanceAll cs).lineColumn := by
  induction cs generalizing p with
  | nil => exact le_rfl
  | cons c cs ih => exact (p.lineColumn_lt_advance c).le.trans (ih _)

theorem lineColumn_lt_advanceAll (p : Position) {cs : List Char} (h : cs ≠ []) :
    p.lineColumn < (p.advanceAll cs).lineColumn := by
  obtain ⟨c, cs, rfl⟩ := List.exists_cons_of_ne_nil h
  exact (p.lineColumn_lt_advance c).trans_le (lineColumn_le_advanceAll _ cs)

/-- Of two parts that a text begins with, the shorter one ends at the earlier place. -/
theorem lineColumn_advanceAll_lt {p : Position} {before after before' after' : List Char}
    (h : before ++ after = before' ++ after')
    (hlt : (String.ofList before).utf8ByteSize < (String.ofList before').utf8ByteSize) :
    (p.advanceAll before).lineColumn < (p.advanceAll before').lineColumn := by
  rcases List.append_eq_append_iff.mp h with ⟨more, rfl, -⟩ | ⟨more, rfl, -⟩
  · rw [advanceAll_append]
    refine lineColumn_lt_advanceAll _ fun hmore => ?_
    rw [hmore, List.append_nil] at hlt
    exact Nat.lt_irrefl _ hlt
  · rw [utf8ByteSize_ofList_append] at hlt
    omega

end Position

end LiveLisp
