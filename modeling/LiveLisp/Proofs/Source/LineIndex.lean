/-
  Places by lookup are exact. At an offset that parts no character, or past the end, the line is 1
  and the line feeds among the bytes before the offset, the column is 1 and the characters after the
  last of these line feeds; this is the place that reading the text from its start comes to, and a
  later offset has a later place (`place_exact`).

  Around an offset a text is cut in three: what ends at the last line feed before the offset, the
  line so far, and the rest. The index has an entry for the start of the text and one for each line
  feed; those of the first part come before the offset, those of the rest after it
  (`starts_append`), and bisection finds the last of the former (`lineOf?_eq`).
-/
import Mathlib.Data.String.Basic
import LiveLisp.Source.LineIndex
import LiveLisp.Proofs.Source.Position

namespace LiveLisp

namespace LineIndex

/-- The offset stands between two characters of the text, at one of its ends, or past its end. -/
def IsBoundary (text : String) (offset : Nat) : Prop :=
  String.Pos.Raw.IsValid text ⟨offset⟩ ∨ text.utf8ByteSize ≤ offset

/-- How many of the bytes before an offset are line feeds. -/
def lineFeeds (text : String) (offset : Nat) : Nat :=
  (text.toByteArray.data.toList.take offset).count 0x0A

/-- What stands between the last line feed before an offset, or the start of the text, and the
offset. -/
def IsLineSoFar (text : String) (offset : Nat) (line : List Char) : Prop :=
  ∃ before after, text.toList = before ++ line ++ after ∧
    (String.ofList (before ++ line)).utf8ByteSize = min offset text.utf8ByteSize ∧
    '\n' ∉ line ∧ (before = [] ∨ ∃ earlier, before = earlier ++ ['\n'])

/-! ## Bisection -/

/-- Where the entries up to `line` are not after the key and the others are, bisection finds `line`,
or the place behind it. -/
theorem search_last {starts : Array Nat} {key line lo hi : Nat} (hhi : hi ≤ starts.size)
    (hbefore : ∀ j (hj : j < starts.size), j < line → starts[j] < key)
    (hline : ∀ j (hj : j < starts.size), j = line → starts[j] ≤ key)
    (hafter : ∀ j (hj : j < starts.size), line < j → key < starts[j])
    (hlo : lo ≤ line + 1) (hin : line < hi) :
    search starts key lo hi hhi = .ok line ∨ search starts key lo hi hhi = .error (line + 1) := by
  fun_induction search starts key lo hi hhi with
  | case1 lo hi hhi hwindow mid hmid =>
    -- only the entry at `line` can be the key
    have heq : starts[mid] = key := Nat.compare_eq_eq.mp hmid
    have := hbefore mid (by omega)
    have := hafter mid (by omega)
    have : mid = line := by omega
    exact .inl (congrArg _ this)
  | case2 lo hi hhi hwindow mid hmid ih =>
    have hless : starts[mid] < key := Nat.compare_eq_lt.mp hmid
    have := hafter mid (by omega)
    exact ih (by omega) hin
  | case3 lo hi hhi hwindow mid hmid ih =>
    have hgreater : key < starts[mid] := Nat.compare_eq_gt.mp hmid
    have := hbefore mid (by omega)
    have := hline mid (by omega)
    exact ih hlo (by omega)
  | case4 lo hi hhi hwindow =>
    have : lo = line + 1 := by omega
    exact .inr (congrArg _ this)

theorem lineOf?_eq {index : LineIndex} {offset start : Nat} {earlier later : List Nat}
    (hstarts : index.starts = (earlier ++ start :: later).toArray)
    (hearlier : ∀ s ∈ earlier, s < offset) (hstart : start ≤ offset)
    (hlater : ∀ s ∈ later, offset < s) :
    index.lineOf? offset = some earlier.length := by
  have hbefore : ∀ j (hj : j < index.starts.size), j < earlier.length →
    index.starts[j] < offset := fun j hj hlt => by
    simp only [hstarts, List.getElem_toArray, List.getElem_append_left hlt]
    exact hearlier _ (List.getElem_mem _)
  have hline : ∀ j (hj : j < index.starts.size), j = earlier.length → index.starts[j] ≤ offset := by
    rintro j hj rfl
    simpa [hstarts] using hstart
  have hafter : ∀ j (hj : j < index.starts.size), earlier.length < j →
    offset < index.starts[j] := fun j hj hlt => by
    have hne : j - earlier.length ≠ 0 := by omega
    simp only [hstarts, List.getElem_toArray, List.getElem_append_right (Nat.le_of_lt hlt),
      List.getElem_cons, hne, ↓reduceDIte]
    exact hlater _ (List.getElem_mem _)
  have hin : earlier.length < index.starts.size := by simp [hstarts]
  unfold lineOf?
  rcases search_last (Nat.le_refl _) hbefore hline hafter (Nat.zero_le _) hin with h | h
  · rw [h]
  · rw [h]

/-! ## The starts of the lines -/

theorem feedsFrom_append (offset : Nat) (cs ds : List Char) :
    feedsFrom offset (cs ++ ds) = feedsFrom offset cs ++
      feedsFrom (offset + (String.ofList cs).utf8ByteSize) ds := by
  induction cs generalizing offset with
  | nil => rfl
  | cons c cs ih =>
    rw [List.cons_append, feedsFrom, feedsFrom, ih, utf8ByteSize_ofList_cons, Nat.add_assoc]
    split <;> rfl

theorem length_feedsFrom (offset : Nat) (cs : List Char) :
    (feedsFrom offset cs).length = cs.count '\n' := by
  induction cs generalizing offset with
  | nil => rfl
  | cons c cs ih =>
    rw [feedsFrom]
    split
    · next hc => rw [List.length_cons, ih, hc, List.count_cons_self]
    · next hc => rw [ih, List.count_cons_of_ne hc]

theorem feedsFrom_bounds {offset feed : Nat} {cs : List Char} (h : feed ∈ feedsFrom offset cs) :
    offset ≤ feed ∧ feed < offset + (String.ofList cs).utf8ByteSize := by
  induction cs generalizing offset with
  | nil => cases h
  | cons c cs ih =>
    have hc := c.utf8Size_pos
    rw [utf8ByteSize_ofList_cons]
    rw [feedsFrom] at h
    have hrest : feed ∈ feedsFrom (offset + c.utf8Size) cs →
        offset ≤ feed ∧ feed < offset + (c.utf8Size + (String.ofList cs).utf8ByteSize) :=
          fun hrest => by
      have := ih hrest
      omega
    split at h
    · rcases List.mem_cons.mp h with rfl | h
      · omega
      · exact hrest h
    · exact hrest h

/-- Text that ends in a line feed, or is empty, has as its last entry the start of a line after it.
-/
theorem starts_of_ended {before : List Char}
    (h : before = [] ∨ ∃ earlier, before = earlier ++ ['\n']) :
    ∃ earlier, 0 :: (feedsFrom 0 before).map (· + 1) = earlier ++
      [(String.ofList before).utf8ByteSize] ∧
      earlier.length = before.count '\n' ∧ ∀ s ∈ earlier, s <
        (String.ofList before).utf8ByteSize := by
  rcases h with rfl | ⟨lines, rfl⟩
  · exact ⟨[], rfl, rfl, nofun⟩
  · have hsize :
      (String.ofList (lines ++ ['\n'])).utf8ByteSize = (String.ofList lines).utf8ByteSize + 1 :=
      utf8ByteSize_ofList_append lines ['\n']
    have hlast : feedsFrom 0 (lines ++ ['\n']) = feedsFrom 0 lines ++
      [(String.ofList lines).utf8ByteSize] := by
      rw [feedsFrom_append, Nat.zero_add]
      rfl
    refine ⟨0 :: (feedsFrom 0 lines).map (· + 1), ?_, ?_, ?_⟩
    · rw [hlast, hsize, List.map_append, List.cons_append]
      rfl
    · rw [List.length_cons, List.length_map, length_feedsFrom, List.count_append]
      rfl
    · rw [hsize]
      intro s hs
      rcases List.mem_cons.mp hs with rfl | hs
      · omega
      · obtain ⟨feed, hfeed, rfl⟩ := List.mem_map.mp hs
        have := (feedsFrom_bounds hfeed).2
        omega

/-- The entries around a line: those of the lines before it, its own, and those after the offset it
is read up to. -/
theorem starts_append {text : String} {before line after : List Char}
    (htext : text.toList = before ++ line ++ after) (hline : '\n' ∉ line)
    (hbefore : before = [] ∨ ∃ earlier, before = earlier ++ ['\n']) :
    ∃ earlier later, (ofText text).starts =
      (earlier ++ (String.ofList before).utf8ByteSize :: later).toArray ∧
      earlier.length = before.count '\n' ∧
        (∀ s ∈ earlier, s < (String.ofList before).utf8ByteSize) ∧
      ∀ s ∈ later, (String.ofList (before ++ line)).utf8ByteSize < s := by
  obtain ⟨earlier, hended, hcount, hearlier⟩ := starts_of_ended hbefore
  have hnone : ∀ offset, feedsFrom offset line = [] := fun offset => by
    rw [← List.length_eq_zero_iff, length_feedsFrom, List.count_eq_zero]
    exact hline
  have hfeeds : feedsFrom 0 text.toList =
      feedsFrom 0 before ++ feedsFrom (String.ofList (before ++ line)).utf8ByteSize after := by
    rw [htext, feedsFrom_append, feedsFrom_append, hnone, List.append_nil, Nat.zero_add]
  refine ⟨earlier, (feedsFrom (String.ofList (before ++ line)).utf8ByteSize after).map (· + 1), ?_,
    hcount, hearlier, ?_⟩
  · rw [ofText, hfeeds, List.map_append, ← List.cons_append, hended, List.append_assoc,
      List.singleton_append]
  · intro s hs
    obtain ⟨feed, hfeed, rfl⟩ := List.mem_map.mp hs
    exact Nat.lt_succ_of_le (feedsFrom_bounds hfeed).1

/-! ## The characters of a line -/

theorem isValid_append {text : String} {before after : List Char}
    (htext : text.toList = before ++ after) :
    String.Pos.Raw.IsValid text ⟨(String.ofList before).utf8ByteSize⟩ := by
  rw [String.Pos.Raw.isValid_iff_exists_append]
  exact ⟨String.ofList before, String.ofList after, by
    rw [← String.ofList_append, ← htext, String.ofList_toList], rfl⟩

theorem slice?_eq {text : String} {before word after : List Char}
    (htext : text.toList = before ++ word ++ after) :
    slice? text (String.ofList before).utf8ByteSize (String.ofList (before ++ word)).utf8ByteSize =
      some (String.ofList word) := by
  have hsize := utf8ByteSize_ofList_append before word
  have hextract := String.extract_of_valid before word after
  rw [← String.utf8ByteSize_ofList, ← String.utf8ByteSize_ofList, ← hsize, ← htext,
    String.ofList_toList] at hextract
  rw [slice?, if_pos ⟨by
    omega, isValid_append (by rw [htext, List.append_assoc]), isValid_append htext⟩, hextract]

/-! ## Bytes -/

theorem length_le_utf8ByteSize (cs : List Char) : cs.length ≤ (String.ofList cs).utf8ByteSize := by
  induction cs with
  | nil => exact Nat.le_refl _
  | cons c cs ih =>
    rw [utf8ByteSize_ofList_cons, List.length_cons]
    have := c.utf8Size_pos
    omega

/-- Only the encoding of a line feed has its byte: every byte of a longer encoding is from 128 on.
-/
theorem lineFeed_mem_utf8EncodeChar {c : Char} (h : (0x0A : UInt8) ∈ String.utf8EncodeChar c) :
    c = '\n' := by
  have hbyte : ∀ n, n < 256 → (0x0A : UInt8) = UInt8.ofNat n → n = 10 := fun n hn hbyte => by
    have := congrArg UInt8.toNat hbyte
    rw [UInt8.toNat_ofNat', Nat.mod_eq_of_lt hn] at this
    exact this.symm
  simp only [String.utf8EncodeChar] at h
  split at h
  · have hval := hbyte _ (by omega) (List.mem_singleton.mp h)
    exact Char.ext (UInt32.toNat_inj.mp hval)
  · split at h
    · simp only [List.mem_cons, List.not_mem_nil, or_false] at h
      rcases h with h | h <;> have := hbyte _ (by omega) h <;> omega
    · split at h
      · simp only [List.mem_cons, List.not_mem_nil, or_false] at h
        rcases h with h | h | h <;> have := hbyte _ (by omega) h <;> omega
      · simp only [List.mem_cons, List.not_mem_nil, or_false] at h
        rcases h with h | h | h | h <;> have := hbyte _ (by omega) h <;> omega

theorem count_lineFeed_utf8Encode (cs : List Char) :
    (cs.flatMap String.utf8EncodeChar).count 0x0A = cs.count '\n' := by
  induction cs with
  | nil => rfl
  | cons c cs ih =>
    rw [List.flatMap_cons, List.count_append, ih]
    by_cases hc : c = '\n'
    · subst hc
      rw [List.count_cons_self, Nat.add_comm]
      rfl
    · rw [List.count_cons_of_ne hc,
        List.count_eq_zero.mpr (fun h => hc (lineFeed_mem_utf8EncodeChar h)), Nat.zero_add]

theorem length_utf8Encode (cs : List Char) :
    (cs.flatMap String.utf8EncodeChar).length = (String.ofList cs).utf8ByteSize := by
  rw [← String.size_toByteArray, String.toByteArray_ofList, ← ByteArray.size_data, List.utf8Encode,
    List.data_toByteArray, List.size_toArray]

theorem lineFeeds_eq {text : String} {before after : List Char}
    (htext : text.toList = before ++ after) {offset : Nat}
    (hoffset : (String.ofList before).utf8ByteSize = min offset text.utf8ByteSize) :
    lineFeeds text offset = before.count '\n' := by
  have hbytes : text.toByteArray.data.toList =
      before.flatMap String.utf8EncodeChar ++ after.flatMap String.utf8EncodeChar := by
    rw [← String.ofList_toList (s := text), String.toByteArray_ofList, htext, List.utf8Encode,
      List.data_toByteArray, List.flatMap_append]
  have hsize : text.toByteArray.data.toList.length = text.utf8ByteSize := by
    rw [Array.length_toList, ByteArray.size_data, String.size_toByteArray]
  rw [lineFeeds, List.take_eq_take_min, hsize, ← hoffset, hbytes,
    List.take_left' (length_utf8Encode before), count_lineFeed_utf8Encode]

/-! ## Places -/

theorem IsBoundary.split {text : String} {offset : Nat} (h : IsBoundary text offset) :
    ∃ before after, text.toList = before ++ after ∧
      (String.ofList before).utf8ByteSize = min offset text.utf8ByteSize := by
  by_cases hle : text.utf8ByteSize ≤ offset
  · exact ⟨text.toList, [], by simp, by rw [String.ofList_toList, Nat.min_eq_right hle]⟩
  · obtain ⟨before, after, htext, hoffset⟩ :=
      String.Pos.Raw.isValid_iff_exists_append.mp (h.resolve_right hle)
    have hbefore : offset = before.utf8ByteSize := congrArg String.Pos.Raw.byteIdx hoffset
    refine ⟨before.toList, after.toList, by rw [htext, String.toList_append], ?_⟩
    rw [String.ofList_toList, Nat.min_eq_left (by omega), hbefore]

/-- Text ends in a line that is under way. -/
theorem exists_line (cs : List Char) : ∃ before line, cs = before ++ line ∧ '\n' ∉ line ∧
    (before = [] ∨ ∃ earlier, before = earlier ++ ['\n']) := by
  induction cs using List.reverseRecOn with
  | nil => exact ⟨[], [], rfl, List.not_mem_nil, .inl rfl⟩
  | append_singleton cs c ih =>
    by_cases hc : c = '\n'
    · exact ⟨cs ++ [c], [], by rw [List.append_nil], List.not_mem_nil, .inr ⟨cs, by rw [hc]⟩⟩
    · obtain ⟨before, line, rfl, hline, hbefore⟩ := ih
      refine ⟨before, line ++ [c], by rw [List.append_assoc], ?_, hbefore⟩
      simp [hline, Ne.symm hc]

theorem IsBoundary.exists_lineSoFar {text : String} {offset : Nat} (h : IsBoundary text offset) :
    ∃ line, IsLineSoFar text offset line := by
  obtain ⟨cs, after, htext, hoffset⟩ := h.split
  obtain ⟨before, line, rfl, hline, hbefore⟩ := exists_line cs
  exact ⟨line, before, after, htext, hoffset, hline, hbefore⟩

section

variable {text : String} {offset : Nat} {line : List Char}

theorem IsLineSoFar.place_eq (h : IsLineSoFar text offset line) :
    (ofText text).place offset =
      some (UInt32.ofNat (lineFeeds text offset) + 1, UInt32.ofNat (line.length + 1)) := by
  obtain ⟨before, after, htext, hoffset, hline, hbefore⟩ := h
  have hfeeds : lineFeeds text offset = before.count '\n' := by
    rw [lineFeeds_eq htext hoffset, List.count_append, List.count_eq_zero.mpr hline, Nat.add_zero]
  obtain ⟨earlier, later, hstarts, hcount, hearlier, hlater⟩ := starts_append htext hline hbefore
  have hle : (String.ofList before).utf8ByteSize ≤ min offset text.utf8ByteSize := by
    rw [← hoffset, utf8ByteSize_ofList_append]
    exact Nat.le_add_right _ _
  have hindex : (ofText text).lineOf? (min offset text.utf8ByteSize) = some earlier.length :=
    lineOf?_eq hstarts (fun s hs => Nat.lt_of_lt_of_le (hearlier s hs) hle) hle (hoffset ▸ hlater)
  have hstart : (ofText text).starts[earlier.length]? =
    some (String.ofList before).utf8ByteSize := by
    simp [hstarts]
  have hslice := slice?_eq htext
  rw [hoffset] at hslice
  have htext' : (ofText text).text = text := rfl
  rw [hfeeds, ← hcount]
  simp only [place, htext', hindex, Option.bind_eq_bind, Option.bind_some, hstart,
    hslice, Option.pure_def, String.length_ofList]

/-- Reading the text from its start comes to the same place. -/
theorem IsLineSoFar.ofOffset_eq (h : IsLineSoFar text offset line) :
    Position.ofOffset text offset =
      ⟨min offset text.utf8ByteSize, lineFeeds text offset + 1, line.length + 1⟩ := by
  obtain ⟨before, after, htext, hoffset, hline, hbefore⟩ := h
  have hchars : ∀ c ∈ line.reverse, (c != '\n') = true := fun c hc => by
    rw [bne_iff_ne]
    rintro rfl
    exact hline (List.mem_reverse.mp hc)
  have hcolumn : (before ++ line).reverse.takeWhile (· != '\n') = line.reverse := by
    rw [List.reverse_append, List.takeWhile_append_of_pos hchars]
    rcases hbefore with rfl | ⟨earlier, rfl⟩ <;> simp
  rw [Position.ofOffset_append htext hoffset, Position.advanceAll_start, hoffset, hcolumn,
    lineFeeds_eq htext hoffset, List.length_reverse]

/-- The span of a part of a text is the one between the places before and after it. -/
theorem span_eq {text : String} {before word after : List Char}
    (htext : text.toList = before ++ word ++ after) :
    (ofText text).span (String.ofList before).utf8ByteSize
        (String.ofList (before ++ word)).utf8ByteSize =
      Span.between (.advanceAll .start before) (.advanceAll .start (before ++ word)) := by
  have htext' : text.toList = before ++ (word ++ after) := by rw [htext, List.append_assoc]
  have hsize : (String.ofList before).utf8ByteSize =
      min (String.ofList before).utf8ByteSize text.utf8ByteSize := by
    rw [← String.ofList_toList (s := text), htext', utf8ByteSize_ofList_append,
      Nat.min_eq_left (Nat.le_add_right _ _)]
  obtain ⟨line, hline⟩ := IsBoundary.exists_lineSoFar (.inl (isValid_append htext'))
  have hread := hline.ofOffset_eq
  rw [Position.ofOffset_append htext' hsize] at hread
  have hofNat := UInt32.ofNat_add (lineFeeds text (String.ofList before).utf8ByteSize) 1
  rw [span, hline.place_eq, Span.between, Position.advanceAll_start (before ++ word), hread,
    ← hsize, hofNat]
  rfl

theorem span_character {text : String} {before after : List Char} {c : Char}
    (htext : text.toList = before ++ c :: after) :
    (ofText text).span (String.ofList before).utf8ByteSize
        ((String.ofList before).utf8ByteSize + c.utf8Size) =
      Span.between (.advanceAll .start before) (.advanceAll .start (before ++ [c])) := by
  have htext' : text.toList = before ++ [c] ++ after := htext.trans (by simp)
  rw [← utf8ByteSize_concat]
  exact span_eq htext'

/-- Neither the line nor the column is more than the text has bytes for. -/
theorem IsLineSoFar.length_le (h : IsLineSoFar text offset line) :
    lineFeeds text offset + line.length ≤ text.utf8ByteSize := by
  obtain ⟨before, after, htext, hoffset, hline, -⟩ := h
  calc lineFeeds text offset + line.length
      = before.count '\n' + line.length := by
        rw [lineFeeds_eq htext hoffset, List.count_append,
          List.count_eq_zero.mpr hline, Nat.add_zero]
    _ ≤ (before ++ line).length := by
        rw [List.length_append]
        exact Nat.add_le_add_right List.count_le_length _
    _ ≤ (String.ofList (before ++ line)).utf8ByteSize := length_le_utf8ByteSize _
    _ ≤ text.utf8ByteSize := by
        rw [hoffset]
        exact Nat.min_le_right _ _

end

theorem toNat_ofNat_succ {n : Nat} (h : n < 2 ^ 32 - 1) : (UInt32.ofNat (n + 1)).toNat = 1 + n := by
  rw [UInt32.toNat_ofNat', Nat.mod_eq_of_lt (by omega), Nat.add_comm]

/-- The place of a boundary, for a text that is short enough for 32 bits. -/
theorem IsBoundary.place_eq {text : String} {offset : Nat} (h : IsBoundary text offset)
    (hsize : text.utf8ByteSize < 2 ^ 32 - 1) : ∃ line column soFar,
      (ofText text).place offset = some (line, column) ∧ line.toNat = 1 + lineFeeds text offset ∧
      IsLineSoFar text offset soFar ∧ column.toNat = 1 + soFar.length ∧
      Position.ofOffset text offset = ⟨min offset text.utf8ByteSize, line.toNat, column.toNat⟩ := by
  obtain ⟨soFar, hsoFar⟩ := h.exists_lineSoFar
  have hle := hsoFar.length_le
  have hline : (UInt32.ofNat (lineFeeds text offset) + 1).toNat = 1 + lineFeeds text offset := by
    rw [← toNat_ofNat_succ (n := lineFeeds text offset) (by omega), UInt32.ofNat_add]
    rfl
  have hcolumn : (UInt32.ofNat (soFar.length + 1)).toNat = 1 + soFar.length :=
    toNat_ofNat_succ (by omega)
  refine ⟨_, _, soFar, hsoFar.place_eq, hline, hsoFar, hcolumn, ?_⟩
  rw [hsoFar.ofOffset_eq, hline, hcolumn, Nat.add_comm 1, Nat.add_comm 1]

theorem lineColumn_ofOffset_lt {text : String} {earlier later : Nat}
    (hearlier : IsBoundary text earlier) (hlater : IsBoundary text later) (hlt : earlier < later)
    (hle : later ≤ text.utf8ByteSize) :
    (Position.ofOffset text earlier).lineColumn < (Position.ofOffset text later).lineColumn := by
  obtain ⟨before, after, htext, hoffset⟩ := hearlier.split
  obtain ⟨before', after', htext', hoffset'⟩ := hlater.split
  rw [Position.ofOffset_append htext hoffset, Position.ofOffset_append htext' hoffset']
  exact Position.lineColumn_advanceAll_lt (htext.symm.trans htext') (by omega)

/-- Every boundary of a text that is short enough has its place, and a later boundary a later place.
-/
theorem place_exact (text : String) (hsize : text.utf8ByteSize < 2 ^ 32 - 1) :
    (∀ offset, IsBoundary text offset → ∃ line column soFar,
      (ofText text).place offset = some (line, column) ∧ line.toNat = 1 + lineFeeds text offset ∧
      IsLineSoFar text offset soFar ∧ column.toNat = 1 + soFar.length ∧
      Position.ofOffset text offset = ⟨min offset text.utf8ByteSize, line.toNat, column.toNat⟩) ∧
    ∀ earlier later, IsBoundary text earlier → IsBoundary text later → earlier < later →
      later ≤ text.utf8ByteSize →
      ∃ p q, (ofText text).place earlier = some p ∧ (ofText text).place later = some q ∧
        toLex p < toLex q := by
  refine ⟨fun offset h => h.place_eq hsize, fun earlier later hearlier hlater hlt hle => ?_⟩
  obtain ⟨line, column, -, hplace, -, -, -, hread⟩ := hearlier.place_eq hsize
  obtain ⟨line', column', -, hplace', -, -, -, hread'⟩ := hlater.place_eq hsize
  have hlex := lineColumn_ofOffset_lt hearlier hlater hlt hle
  rw [hread, hread', Position.lineColumn, Position.lineColumn, Prod.Lex.toLex_lt_toLex] at hlex
  refine ⟨_, _, hplace, hplace', ?_⟩
  rwa [Prod.Lex.toLex_lt_toLex, UInt32.lt_iff_toNat_lt, UInt32.lt_iff_toNat_lt, ← UInt32.toNat_inj]

theorem place_exact_blank_line :
    "é\n\nx".utf8ByteSize < 2 ^ 32 - 1 ∧
    (IsBoundary "é\n\nx" 4 ∧ (ofText "é\n\nx").place 4 = some (3, 1)) ∧
    ∃ p q, (ofText "é\n\nx").place 2 = some p ∧ (ofText "é\n\nx").place 3 = some q ∧
      toLex p < toLex q := by
  have hsize : "é\n\nx".utf8ByteSize < 2 ^ 32 - 1 := by decide
  have h2 : IsBoundary "é\n\nx" 2 := .inl (by decide)
  have h3 : IsBoundary "é\n\nx" 3 := .inl (by decide)
  have h4 : IsBoundary "é\n\nx" 4 := .inl (by decide)
  obtain ⟨hplace, horder⟩ := place_exact "é\n\nx" hsize
  refine ⟨hsize, ⟨h4, ?_⟩, horder 2 3 h2 h3 (by decide) (by decide)⟩
  obtain ⟨line, column, -, hat, -, -, -, hread⟩ := hplace 4 h4
  have hcounts : Position.ofOffset "é\n\nx" 4 = ⟨4, 3, 1⟩ := by decide
  rw [hcounts, Position.mk.injEq] at hread
  have hline : line = 3 := UInt32.toNat_inj.mp hread.2.1.symm
  have hcolumn : column = 1 := UInt32.toNat_inj.mp hread.2.2.symm
  rw [hat, hline, hcolumn]

end LineIndex

end LiveLisp
