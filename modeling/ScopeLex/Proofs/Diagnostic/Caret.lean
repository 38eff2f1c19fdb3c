import ScopeLex.Diagnostic.Render
import ScopeLex.Proofs.Analysis.Scan

/-!
# The caret under a stray character

A diagnostic with a column reports a stray character of its line. It is shown in four
rows: the message, the bar of an empty gutter, the line without the white space at its
edges, and an arrow. The bars stand one below the other, and so do the character and the
head of the arrow, as far as the character is shown at all: white space that separates no
tokens is stray as well, and at the edges of a line it is trimmed with the rest.

* `Trimmed`, `trimmed_line`: a line between the white space at its edges.
* `exists_stray_of_column`: the character that a diagnostic with a column reports.
* `rows_eq`, `getElem?_arrow_iff`: the rows, and where the arrow ends.
* `caret_points_at_character`: the arrow points at the character that is reported.
-/
namespace ScopeLex

open Text (Layout eq_trimEnd_append isBlank isSpace line? lines not_drop_of_getLast?_trimEnd trimEnd
  trimReturns)

/-! ## Trimming -/

section
variable {drop : Char → Bool} {text : List Char}

/-- A character that is not dropped stays where it is. -/
theorem getElem?_trimEnd {i : Nat} {c : Char} (h : text[i]? = some c) (hc : drop c = false) :
    (trimEnd drop text)[i]? = some c := by
  obtain ⟨tail, htext, htail⟩ := eq_trimEnd_append drop text
  rw [htext] at h
  by_cases hi : i < (trimEnd drop text).length
  · rwa [List.getElem?_append_left hi] at h
  · rw [List.getElem?_append_right (by omega)] at h
    rw [htail c (List.mem_of_getElem? h)] at hc
    cases hc

/-- No newline is left in a line. -/
theorem newline_not_mem_of_line? {text line : List Char} {k : Nat} (h : line? text k = some line) :
    '\n' ∉ line := by
  cases k with
  | zero => cases h
  | succ k =>
    obtain ⟨whole, hwhole, rfl⟩ := Option.map_eq_some_iff.mp h
    obtain ⟨tail, htext, -⟩ := eq_trimEnd_append (· == '\r') whole
    intro hm
    refine Text.newline_notMem_of_mem_lines (List.mem_of_getElem? hwhole) ?_
    rw [htext]
    exact List.mem_append_left _ hm

end

/-- `line` is `kept` between the white space at its edges. -/
structure Trimmed (line lead kept trail : List Char) : Prop where
  cut : line = lead ++ kept ++ trail
  lead_space : ∀ c ∈ lead, isSpace c = true
  trail_space : ∀ c ∈ trail, isSpace c = true
  /-- Neither run can be made longer. -/
  first : ∀ c, kept.head? = some c → isSpace c = false
  last : ∀ c, kept.getLast? = some c → isSpace c = false

/-- The part of a line that is shown. -/
theorem trimmed_line (line : List Char) :
    ∃ trail, Trimmed line (line.takeWhile isSpace) (trimEnd isSpace (line.dropWhile isSpace))
      trail := by
  obtain ⟨trail, hrest, htrail⟩ := eq_trimEnd_append isSpace (line.dropWhile isSpace)
  refine ⟨trail, ?_, fun c hc => List.all_eq_true.mp List.all_takeWhile c hc, htrail, ?_,
    fun c hc => not_drop_of_getLast?_trimEnd hc⟩
  · rw [List.append_assoc, ← hrest, List.takeWhile_append_dropWhile]
  · intro c hc
    have hnot := List.head?_dropWhile_not isSpace line
    rw [hrest, List.head?_append, hc] at hnot
    simpa using hnot

/-! ## The character that is reported -/

/-- A stray character stands in its column of its line, and carriage returns are no stray
characters. -/
theorem Event.getElem?_of_stray_mem {found : List BlockComment} {source : List Char} {c : Char}
    {k column : Nat} (h : .stray c k column ∈ ofOpenLines found source) :
    ∃ text, line? source k = some text ∧ 1 ≤ column ∧ text[column - 1]? = some c := by
  rw [ofOpenLines_eq] at h
  obtain ⟨hk, -, -, whole, hl, he⟩ := mem_ofLines h
  rw [ofLine_eq, ofLineComment_eq, List.mem_append] at he
  rcases he with he | he
  · obtain ⟨t, -, ht⟩ := List.mem_map.mp he
    cases ht
  obtain ⟨⟨at_, p⟩, hp, hpiece⟩ := List.mem_filterMap.mp he
  cases p with
  | blank text => cases hpiece
  | lexeme kind found => cases hpiece
  | stray d =>
    cases hpiece
    have hseg := segmented_pieces 1 (splitMarker whole).1
    have hblank : isBlank c = false :=
      hseg.not_isBlank_of_stray (List.mem_map.mpr ⟨_, hp, rfl⟩)
    rw [← placed_pieces] at hp
    obtain ⟨hpos, hc⟩ := getElem?_of_mem_placed hp
    have hcode : (splitMarker whole).1[column - 1]? = some c := by rwa [hseg.flatMap_text] at hc
    have hwhole : whole[column - 1]? = some c := by
      rw [← splitMarker_append whole, List.getElem?_append_left]
      · exact hcode
      · exact (List.getElem?_eq_some_iff.mp hcode).1
    have hreturn : (c == '\r') = false := by
      rw [beq_eq_false_iff_ne]
      rintro rfl
      cases hblank
    obtain ⟨m, rfl⟩ : ∃ m, k = m + 1 := Nat.exists_eq_add_one.mpr hk
    have hline : (lines source)[m]? = some whole := hl
    exact ⟨trimReturns whole, by rw [line?, hline, Option.map_some], hpos,
      getElem?_trimEnd hwhole hreturn⟩

/-- The character that a diagnostic with a column reports. -/
theorem exists_stray_of_column (table : SymbolTable) (pushed : List Token) (source : String)
    {d : Diagnostic} (hd : d ∈ (analyzeWith table pushed source).diagnostics.toList) {column : Nat}
    (hc : d.column = some column) :
    ∃ c text, d = .ofFault (.strayCharacter c) d.line (some column) ∧
      line? source.toList d.line = some text ∧ 1 ≤ column ∧ text[column - 1]? = some c := by
  have hm : d ∈ (analyzeWith table pushed source).diagnostics.toList.filter
      (fun d => d.column.isSome) := List.mem_filter.mpr ⟨hd, by rw [hc]; rfl⟩
  rw [strays_eq] at hm
  obtain ⟨e, he, hreport⟩ := List.mem_filterMap.mp hm
  cases e with
  | token t => cases hreport
  | stray c k at_ =>
    cases hreport
    cases hc
    obtain ⟨text, htext⟩ := Event.getElem?_of_stray_mem he
    exact ⟨c, text, rfl, htext⟩

/-! ## Rows -/

namespace Diagnostic

/-- The number in front of the line that is shown. -/
def number (d : Diagnostic) : List Char := (toString d.line).toList

theorem isDigit_of_mem_number {d : Diagnostic} {c : Char} (h : c ∈ d.number) :
    c.isDigit = true := by
  have hdigits : d.number = Nat.toDigits 10 d.line := by
    simp [number]
  rw [hdigits] at h
  exact Nat.isDigit_of_mem_toDigits (by decide) (by decide) h

theorem fit_right_singleton (width : Nat) (fill c : Char) :
    (⟨width, .right, fill, none⟩ : Layout).fit [c] = List.replicate (width - 1) fill ++ [c] := by
  simp [Layout.fit, Layout.indent]

theorem bar_eq (width : Nat) : bar width = List.replicate (width - 1) ' ' ++ ['|'] :=
  fit_right_singleton width ' ' '|'

theorem arrow_eq (length : Nat) : arrow length = List.replicate (length - 1) '-' ++ ['^'] :=
  fit_right_singleton length '-' '^'

/-- The rows of a diagnostic with a column. -/
theorem rows_eq {d : Diagnostic} {source line : List Char} {column : Nat}
    (hc : d.column = some column) (hl : line? source d.line = some line) :
    d.rows source =
      [(d.severity.name ++ ": " ++ d.message).toList, bar (d.number.length + 2),
        d.number ++ " | ".toList ++ trimEnd isSpace (line.dropWhile isSpace),
        bar (d.number.length + 2) ++
          ' ' :: arrow (max (column - (line.takeWhile isSpace).length) 1)] := by
  have hremoved : line.length - (line.dropWhile isSpace).length =
      (line.takeWhile isSpace).length := by
    have h := congrArg List.length (List.takeWhile_append_dropWhile (p := isSpace) (l := line))
    rw [List.length_append] at h
    omega
  rw [rows, hl, hc, Option.getD_some, hremoved]
  rfl

theorem length_bar {width : Nat} (h : 1 ≤ width) : (bar width).length = width := by
  rw [bar_eq, List.length_append, List.length_replicate, List.length_singleton]
  omega

/-- Where the arrow behind a bar ends. -/
theorem getElem?_arrow_iff {width length j : Nat} (hw : 1 ≤ width) (hl : 1 ≤ length) :
    (bar width ++ ' ' :: arrow length)[width + 1 + j]? = some '^' ↔ length = j + 1 := by
  have hindex : width + 1 + j - width = j + 1 := by omega
  rw [List.getElem?_append_right (by rw [length_bar hw]; omega), length_bar hw, hindex,
    List.getElem?_cons_succ, arrow_eq]
  rcases Nat.lt_trichotomy j (length - 1) with hj | rfl | hj
  · rw [List.getElem?_append_left (by simpa using hj), List.getElem?_replicate, if_pos hj]
    exact iff_of_false (by decide) (by omega)
  · rw [List.getElem?_append_right (by simp), List.length_replicate, Nat.sub_self]
    exact iff_of_true rfl (by omega)
  · rw [List.getElem?_eq_none (by simp; omega)]
    exact iff_of_false (by decide) (by omega)

theorem count_caret_arrow (width length : Nat) :
    (bar width ++ ' ' :: arrow length).count '^' = 1 := by
  simp [bar_eq, arrow_eq, List.count_append, List.count_replicate]

/-- Where a row has its first bar. -/
theorem first_bar {front : List Char} (h : '|' ∉ front) {n : Nat} (hn : front.length = n)
    (rest : List Char) :
    (front ++ '|' :: rest)[n]? = some '|' ∧ '|' ∉ (front ++ '|' :: rest).take n := by
  subst hn
  simp [h]

/-- The bars stand one below the other. -/
theorem gutter_rows (d : Diagnostic) (kept : List Char) (length : Nat) :
    ∀ row ∈ [bar (d.number.length + 2), d.number ++ " | ".toList ++ kept,
        bar (d.number.length + 2) ++ ' ' :: arrow length],
      row[d.number.length + 1]? = some '|' ∧ '|' ∉ row.take (d.number.length + 1) := by
  have hnumber : '|' ∉ d.number ++ [' '] := by
    have hdigits : '|' ∉ d.number := fun hm => by cases isDigit_of_mem_number hm
    simp [hdigits]
  intro row hrow
  simp only [List.mem_cons, List.not_mem_nil, or_false] at hrow
  rcases hrow with rfl | rfl | rfl
  · rw [bar_eq]
    exact first_bar (by simp) (by simp) []
  · have hsplit : d.number ++ " | ".toList ++ kept = d.number ++ [' '] ++ '|' :: ' ' :: kept := by
      simp
    rw [hsplit]
    exact first_bar hnumber (by simp) (' ' :: kept)
  · rw [bar_eq, List.append_assoc]
    exact first_bar (by simp) (by simp) (' ' :: arrow length)

/-- No row is broken, unless the message is. -/
theorem newline_not_mem_rows {d : Diagnostic} {source line : List Char} {column : Nat}
    (hc : d.column = some column) (hl : line? source d.line = some line) (hline : '\n' ∉ line)
    (hmessage : '\n' ∉ d.message.toList) : ∀ row ∈ d.rows source, '\n' ∉ row := by
  have hname : '\n' ∉ d.severity.name.toList := by cases d.severity <;> decide
  have hnumber : '\n' ∉ d.number := fun hm => by cases isDigit_of_mem_number hm
  have hkept : '\n' ∉ trimEnd isSpace (line.dropWhile isSpace) := by
    obtain ⟨trail, htrim⟩ := trimmed_line line
    intro hm
    refine hline (htrim.cut ▸ ?_)
    exact List.mem_append_left _ (List.mem_append_right _ hm)
  rw [rows_eq hc hl]
  simp [bar_eq, arrow_eq, hname, hnumber, hkept, hmessage]

end Diagnostic

/-! ## The caret -/

/-- How `d`, which reports the character `c` in `column` of its line, is shown: in the
rows `header`, `bar`, `shown` and `pointer`, and of the line only `kept`. -/
structure PointsAt (d : Diagnostic) (source : List Char) (column : Nat) (c : Char)
    (text lead kept trail header bar shown pointer : List Char) : Prop where
  /-- The character in the message is that in the column. -/
  message_eq : d.message = "unrecognized token near: '" ++ String.singleton c ++ "'"
  line_eq : line? source d.line = some text
  column_pos : 1 ≤ column
  column_le : column ≤ text.length
  char_eq : text[column - 1]? = some c
  /-- There are four rows, each ended by a newline. -/
  render_eq : (d.render source).toList = [header, bar, shown, pointer].flatMap (· ++ ['\n'])
  unbroken : ∀ row ∈ [header, bar, shown, pointer], '\n' ∉ row
  shown_eq : shown = d.number ++ " | ".toList ++ kept
  /-- The first bar of each of the last three is in the same column. -/
  gutter : ∀ row ∈ [bar, shown, pointer],
    row[d.number.length + 1]? = some '|' ∧ '|' ∉ row.take (d.number.length + 1)
  trimmed : Trimmed text lead kept trail
  one_caret : pointer.count '^' = 1
  /-- The caret stands in the column in which the character is shown, unless that is
  trimmed. -/
  caret_iff : (∃ j, column - 1 = lead.length + j ∧ kept[j]? = some c ∧
      pointer[d.number.length + 3 + j]? = some '^') ↔
    ¬ (column - 1 < lead.length ∨ lead.length + kept.length ≤ column - 1)

/-- The character that is reported is shown above the caret exactly if it is shown. -/
theorem caret_iff_shown {text lead kept trail : List Char} (h : Trimmed text lead kept trail)
    {c : Char} {column : Nat} (hpos : 1 ≤ column) (hc : text[column - 1]? = some c) (width : Nat) :
    (∃ j, column - 1 = lead.length + j ∧ kept[j]? = some c ∧
        (Diagnostic.bar (width + 2) ++
          ' ' :: Diagnostic.arrow (max (column - lead.length) 1))[width + 3 + j]? = some '^') ↔
      ¬ (column - 1 < lead.length ∨ lead.length + kept.length ≤ column - 1) := by
  have harrow : ∀ j, (Diagnostic.bar (width + 2) ++
      ' ' :: Diagnostic.arrow (max (column - lead.length) 1))[width + 3 + j]? = some '^' ↔
        max (column - lead.length) 1 = j + 1 := fun j =>
    Diagnostic.getElem?_arrow_iff (by omega) (by omega)
  constructor
  · intro hex
    obtain ⟨j, hj, hkept, -⟩ := hex
    obtain ⟨hlt, -⟩ := List.getElem?_eq_some_iff.mp hkept
    omega
  · intro hinside
    refine ⟨column - 1 - lead.length, by omega, ?_, (harrow _).mpr (by omega)⟩
    rw [h.cut, List.getElem?_append_left (by rw [List.length_append]; omega),
      List.getElem?_append_right (by omega)] at hc
    exact hc

/-- The caret points at the character that is reported. A diagnostic with a column names
the character in that column of its line; it is shown in four rows, whose bars stand one
below the other; and the caret stands below the character exactly if this is not among
the white space trimmed at the edges of the line. -/
theorem caret_points_at_character (table : SymbolTable) (pushed : List Token) (source : String)
    {d : Diagnostic} (hd : d ∈ (analyzeWith table pushed source).diagnostics.toList) {column : Nat}
    (hc : d.column = some column) :
    ∃ c text lead kept trail header bar shown pointer,
      PointsAt d source.toList column c text lead kept trail header bar shown pointer := by
  obtain ⟨c, text, hreport, hl, hpos, hchar⟩ := exists_stray_of_column table pushed source hd hc
  obtain ⟨trail, htrim⟩ := trimmed_line text
  obtain ⟨hlt, -⟩ := List.getElem?_eq_some_iff.mp hchar
  have hline : '\n' ∉ text := newline_not_mem_of_line? hl
  have hmessage : d.message = "unrecognized token near: '" ++ String.singleton c ++ "'" := by
    rw [hreport]
    rfl
  have hbreak : '\n' ∉ d.message.toList := by
    have hne : '\n' ≠ c := fun he => hline (he ▸ List.mem_of_getElem? hchar)
    rw [hmessage]
    simp [hne]
  have hrows := Diagnostic.rows_eq hc hl
  have hunbroken := Diagnostic.newline_not_mem_rows hc hl hline hbreak
  rw [hrows] at hunbroken
  refine ⟨c, text, _, _, trail, _, _, _, _, hmessage, hl, hpos, by omega, hchar, ?_, hunbroken,
    rfl, d.gutter_rows _ _, htrim, Diagnostic.count_caret_arrow _ _,
    caret_iff_shown htrim hpos hchar _⟩
  rw [Diagnostic.render, String.toList_ofList, hrows]

/-- A no-break space in front of a line is reported and then trimmed; the character
behind it is reported and shown. -/
theorem caret_points_at_character_behind_space :
    let source := "int a;\n\u00a0 #"
    let space : Diagnostic := .ofFault (.strayCharacter '\u00a0') 2 (some 1)
    let sharp : Diagnostic := .ofFault (.strayCharacter '#') 2 (some 3)
    let found := (analyzeWith (.empty 1000) [] source).diagnostics.toList
    space ∈ found ∧ space.column = some 1 ∧ sharp ∈ found ∧ sharp.column = some 3 ∧
      (∃ c text lead kept trail header bar shown pointer,
        PointsAt space source.toList 1 c text lead kept trail header bar shown pointer) ∧
      ∃ c text lead kept trail header bar shown pointer,
        PointsAt sharp source.toList 3 c text lead kept trail header bar shown pointer := by
  intro source space sharp found
  have hspace : space ∈ found := by decide +kernel
  have hsharp : sharp ∈ found := by decide +kernel
  exact ⟨hspace, rfl, hsharp, rfl, caret_points_at_character _ _ _ hspace rfl,
    caret_points_at_character _ _ _ hsharp rfl⟩

end ScopeLex
