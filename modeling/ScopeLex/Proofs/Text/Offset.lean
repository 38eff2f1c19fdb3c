import ScopeLex.Proofs.Text.Lines

/-!
# Lines and byte offsets

The line of a byte offset is found by counting newlines, a line itself by splitting at
them. Both agree: the lines lie one behind the other with one byte in between, so that each
offset on a character boundary belongs to one line, and counting finds this one.

* `isBoundary_iff_isValid`: boundaries are those of the library.
* `exists_split_line`: where a line stands in its text.
* `exists_lineHolds`, `lineAt?_of_lineHolds`: each offset has a line, and counting finds it.
* `lineAt?_eq_none_iff`: off the boundaries there is none.
* `lineAt?_mono`, `lineAt?_of_byteSize_le`: lines ascend with the offset up to the end.
* `offset_and_line_agree`: all of it, and the lines that can be shown.
-/
namespace ScopeLex.Text

variable {text : List Char}

/-! ## Boundaries -/

/-- A character begins at the offset, or the text ends there. -/
def IsBoundary (text : List Char) (offset : Nat) : Prop :=
  ∃ before after, text = before ++ after ∧ byteSize before = offset

theorem utf8ByteSize_ofList (text : List Char) :
    (String.ofList text).utf8ByteSize = byteSize text := by
  induction text with
  | nil => rfl
  | cons c text ih =>
    rw [String.ofList_cons, String.utf8ByteSize_append, String.utf8ByteSize_singleton, ih,
      byteSize_cons]

theorem byteSize_toList (source : String) : byteSize source.toList = source.utf8ByteSize := by
  rw [← utf8ByteSize_ofList, String.ofList_toList]

/-- Boundaries are those of the library. -/
theorem isBoundary_iff_isValid (source : String) (offset : Nat) :
    IsBoundary source.toList offset ↔ String.Pos.Raw.IsValid source ⟨offset⟩ := by
  rw [String.Pos.Raw.isValid_iff_exists_append]
  constructor
  · rintro ⟨before, after, htext, rfl⟩
    refine ⟨String.ofList before, String.ofList after, ?_, ?_⟩
    · rw [← String.ofList_append, ← htext, String.ofList_toList]
    · rw [String.Pos.Raw.ext_iff, String.byteIdx_rawEndPos, utf8ByteSize_ofList]
  · rintro ⟨before, after, rfl, hoffset⟩
    refine ⟨before.toList, after.toList, String.toList_append, ?_⟩
    rw [byteSize_toList, ← String.byteIdx_rawEndPos, ← hoffset]

theorem isBoundary_cons_iff (c : Char) (text : List Char) (offset : Nat) :
    IsBoundary (c :: text) offset ↔
      offset = 0 ∨ c.utf8Size ≤ offset ∧ IsBoundary text (offset - c.utf8Size) := by
  constructor
  · rintro ⟨before, after, htext, rfl⟩
    cases before with
    | nil => exact Or.inl rfl
    | cons b before =>
      obtain ⟨rfl, rfl⟩ := List.cons.inj htext
      exact Or.inr ⟨Nat.le_add_right _ _, before, after, rfl, (Nat.add_sub_cancel_left ..).symm⟩
  · rintro (rfl | ⟨hle, before, after, rfl, hsize⟩)
    · exact ⟨[], c :: text, rfl, rfl⟩
    · exact ⟨c :: before, after, rfl, by rw [byteSize_cons, hsize]; omega⟩

theorem byteSize_eq_zero_iff : byteSize text = 0 ↔ text = [] := by
  cases text with
  | nil => exact iff_of_true rfl rfl
  | cons c text =>
    have := c.utf8Size_pos
    refine iff_of_false ?_ (List.cons_ne_nil _ _)
    rw [byteSize_cons]
    omega

/-- Of two beginnings of a text the one with fewer bytes begins the other. -/
theorem prefix_of_byteSize_le {a b : List Char} (ha : a <+: text) (hb : b <+: text)
    (h : byteSize a ≤ byteSize b) : a <+: b := by
  rcases List.prefix_or_prefix_of_prefix ha hb with hab | ⟨c, rfl⟩
  · exact hab
  · rw [byteSize_append] at h
    obtain rfl : c = [] := byteSize_eq_zero_iff.mp (by omega)
    exact ⟨[], (List.append_nil _).trans (List.append_nil b)⟩

/-! ## Where lines stand -/

/-- The offset at which line `k` begins, behind the lines before it and their newlines. -/
def lineStart (text : List Char) (k : Nat) : Nat :=
  ((lines text).take (k - 1)).foldr (fun line size => byteSize line + 1 + size) 0

/-- Line `k` begins at or before the offset and ends, without its newline, at or after it. -/
def LineHolds (text : List Char) (k offset : Nat) : Prop :=
  ∃ line, 1 ≤ k ∧ (lines text)[k - 1]? = some line ∧
    lineStart text k ≤ offset ∧ offset ≤ lineStart text k + byteSize line

/-- A text is one line, or a first line and the lines of what stands behind its newline. -/
theorem lines_cases (text : List Char) :
    '\n' ∉ text ∧ lines text = [text] ∨
      ∃ first rest, '\n' ∉ first ∧ text = first ++ '\n' :: rest ∧
        lines text = first :: lines rest := by
  by_cases h : '\n' ∈ text
  · obtain ⟨first, rest, rfl, hfirst⟩ := List.eq_append_cons_of_mem h
    refine Or.inr ⟨first, rest, hfirst, rfl, ?_⟩
    rw [lines_append_newline, lines_of_notMem hfirst]
    rfl
  · exact Or.inl ⟨h, lines_of_notMem h⟩

theorem lineStart_one (text : List Char) : lineStart text 1 = 0 := rfl

theorem lineStart_succ {first rest : List Char} (h : lines text = first :: lines rest) (k : Nat) :
    lineStart text (k + 2) = byteSize first + 1 + lineStart rest (k + 1) := by
  rw [lineStart, h]
  rfl

/-- Where a line stands in its text: behind as many newlines as there are lines before it. -/
theorem exists_split_line {k : Nat} {line : List Char} (h : (lines text)[k]? = some line) :
    ∃ before after, text = before ++ line ++ after ∧
      byteSize before = lineStart text (k + 1) ∧ before.count '\n' = k := by
  induction k generalizing text with
  | zero =>
    rcases lines_cases text with ⟨-, hone⟩ | ⟨first, rest, -, rfl, hlines⟩
    · rw [hone] at h
      cases h
      exact ⟨[], [], (List.append_nil _).symm, rfl, rfl⟩
    · rw [hlines] at h
      cases h
      exact ⟨[], '\n' :: rest, rfl, rfl, rfl⟩
  | succ k ih =>
    rcases lines_cases text with ⟨-, hone⟩ | ⟨first, rest, hfirst, htext, hlines⟩
    · rw [hone] at h
      cases h
    · rw [hlines, List.getElem?_cons_succ] at h
      obtain ⟨before, after, rfl, hsize, hcount⟩ := ih h
      refine ⟨first ++ '\n' :: before, after, by rw [htext]; simp, ?_, ?_⟩
      · rw [lineStart_succ hlines, ← hsize, byteSize_append, byteSize_cons, Nat.add_assoc]
        rfl
      · rw [List.count_append, List.count_eq_zero.mpr hfirst, List.count_cons_self, hcount,
          Nat.zero_add]

/-- Every offset up to the end of the text belongs to a line. -/
theorem exists_lineHolds (text : List Char) {offset : Nat} (h : offset ≤ byteSize text) :
    ∃ k, LineHolds text k offset := by
  rcases lines_cases text with ⟨-, hone⟩ | ⟨first, rest, -, htext, hlines⟩
  · exact ⟨1, text, Nat.le_refl 1, by rw [hone]; rfl, Nat.zero_le _, by
      rwa [lineStart_one, Nat.zero_add]⟩
  · by_cases hfirst : offset ≤ byteSize first
    · exact ⟨1, first, Nat.le_refl 1, by rw [hlines]; rfl, Nat.zero_le _, by
        rwa [lineStart_one, Nat.zero_add]⟩
    · have hsize : byteSize text = byteSize first + (1 + byteSize rest) := by
        rw [htext, byteSize_append, byteSize_cons]
        rfl
      obtain ⟨k, line, hk, hline, hstart, hstop⟩ :=
        exists_lineHolds rest (by omega : offset - (byteSize first + 1) ≤ byteSize rest)
      obtain ⟨k, rfl⟩ : ∃ i, k = i + 1 := ⟨k - 1, by omega⟩
      have hnext := lineStart_succ hlines k
      refine ⟨k + 2, line, by omega, ?_, by omega, by omega⟩
      rw [hlines]
      exact hline
termination_by text.length
decreasing_by
  rw [htext, List.length_append, List.length_cons]
  omega

/-- Counting newlines finds the line to which an offset belongs. -/
theorem lineAt?_of_lineHolds {k offset : Nat} (hb : IsBoundary text offset)
    (h : LineHolds text k offset) : lineAt? text offset = some k := by
  obtain ⟨front, rest, hfront, rfl⟩ := hb
  obtain ⟨line, hk, hline, hstart, hstop⟩ := h
  obtain ⟨before, after, htext, hsize, hcount⟩ := exists_split_line hline
  rw [Nat.sub_add_cancel hk] at hsize
  have hbegin : front <+: text := ⟨rest, hfront.symm⟩
  have hbefore : before <+: text := ⟨line ++ after, by rw [htext, List.append_assoc]⟩
  have hbehind : before ++ line <+: text := ⟨after, htext.symm⟩
  -- What stands between the start of the line and the offset is a part of the line, so that
  -- no newline is counted there.
  obtain ⟨inside, rfl⟩ := prefix_of_byteSize_le hbefore hbegin (by omega)
  have hinside : inside <+: line := by
    rw [← List.prefix_append_right_inj before]
    exact prefix_of_byteSize_le hbegin hbehind (by rw [byteSize_append before line]; omega)
  have hnone : inside.count '\n' = 0 := List.count_eq_zero.mpr fun hm =>
    newline_notMem_of_mem_lines (List.mem_of_getElem? hline) (hinside.subset hm)
  rw [hfront, lineAt?_append, List.count_append, hcount, hnone]
  exact congrArg some (by omega)

/-! ## Counting newlines -/

theorem lineFrom?_eq_none_iff (line : Nat) (text : List Char) (offset : Nat) :
    lineFrom? line text offset = none ↔ offset < byteSize text ∧ ¬ IsBoundary text offset := by
  induction text generalizing line offset with
  | nil => cases offset <;> simp [lineFrom?]
  | cons c text ih =>
    have hpos := c.utf8Size_pos
    rw [isBoundary_cons_iff, byteSize_cons]
    cases offset with
    | zero => simp [lineFrom?]
    | succ offset =>
      rw [lineFrom?]
      split
      · refine iff_of_true rfl ⟨by omega, ?_⟩
        rintro (h | ⟨h, -⟩) <;> omega
      · rw [ih]
        have hle : c.utf8Size ≤ offset + 1 := by omega
        simp only [Nat.add_one_ne_zero, false_or, hle, true_and]
        exact and_congr_left fun _ => by omega

/-- Inside a character there is no line, and nowhere else. -/
theorem lineAt?_eq_none_iff (text : List Char) (offset : Nat) :
    lineAt? text offset = none ↔ offset < byteSize text ∧ ¬ IsBoundary text offset :=
  lineFrom?_eq_none_iff 1 text offset

/-- From the end on the line is the last one. -/
theorem lineAt?_of_byteSize_le {offset : Nat} (h : byteSize text ≤ offset) :
    lineAt? text offset = some (lines text).length := by
  obtain ⟨behind, rfl⟩ := Nat.exists_eq_add_of_le h
  have hend := lineFrom?_append 1 text [] behind
  rw [List.append_nil] at hend
  rw [lineAt?, hend, length_lines, Nat.add_comm 1]
  cases behind <;> rfl

/-- A line is one more than the newlines of a beginning of the text. -/
theorem exists_prefix_of_lineAt? {offset n : Nat} (h : lineAt? text offset = some n) :
    ∃ front, front <+: text ∧ byteSize front = min offset (byteSize text) ∧
      n = 1 + front.count '\n' := by
  by_cases hend : byteSize text ≤ offset
  · rw [lineAt?_of_byteSize_le hend, length_lines] at h
    cases h
    exact ⟨text, List.prefix_refl text, (Nat.min_eq_right hend).symm, Nat.add_comm _ _⟩
  · have hb : IsBoundary text offset := Classical.byContradiction fun hb => by
      rw [(lineAt?_eq_none_iff text offset).mpr ⟨by omega, hb⟩] at h
      cases h
    obtain ⟨front, rest, rfl, rfl⟩ := hb
    rw [lineAt?_append] at h
    cases h
    exact ⟨front, List.prefix_append front rest, (Nat.min_eq_left (by omega)).symm, rfl⟩

/-- Lines ascend with the offset. -/
theorem lineAt?_mono {offset offset' n n' : Nat} (hle : offset ≤ offset')
    (h : lineAt? text offset = some n) (h' : lineAt? text offset' = some n') : n ≤ n' := by
  obtain ⟨front, hfront, hsize, rfl⟩ := exists_prefix_of_lineAt? h
  obtain ⟨front', hfront', hsize', rfl⟩ := exists_prefix_of_lineAt? h'
  have hle : front <+: front' := prefix_of_byteSize_le hfront hfront' (by omega)
  exact Nat.add_le_add_left (hle.sublist.count_le '\n') 1

/-! ## The line that is shown -/

/-- A line is shown without the carriage returns at its end, and without anything else
missing. -/
theorem exists_returns (line : List Char) :
    ∃ n, line = trimReturns line ++ List.replicate n '\r' ∧
      (trimReturns line).getLast? ≠ some '\r' := by
  obtain ⟨tail, hline, htail⟩ := eq_trimEnd_append (· == '\r') line
  refine ⟨tail.length, ?_, fun h => ?_⟩
  · rw [← List.eq_replicate_of_mem fun c hc => beq_iff_eq.mp (htail c hc)]
    exact hline
  · exact absurd (not_drop_of_getLast?_trimEnd h) (by decide)

theorem line?_eq_some_iff {k : Nat} {shown : List Char} :
    line? text k = some shown ↔
      1 ≤ k ∧ ∃ line, (lines text)[k - 1]? = some line ∧ trimReturns line = shown := by
  cases k with
  | zero => exact iff_of_false nofun fun h => absurd h.1 (by omega)
  | succ k =>
    rw [line?, Option.map_eq_some_iff, Nat.add_sub_cancel]
    exact (and_iff_right (by omega)).symm

/-- Offsets and lines agree. An offset on a character boundary is given the one line that
begins at or before it and ends, without its newline, at or after it; and every boundary
inside a line or at its end is given this line. The line ascends with the offset and stays
the last one from the end of the text on. Only an offset inside a character has none. A
line can be shown exactly if its number is between 1 and that of the last one, and then it
is the line with its carriage returns at the end left out. -/
theorem offset_and_line_agree (source : String) :
    let text := source.toList
    let size := source.utf8ByteSize
    (∀ offset, String.Pos.Raw.IsValid source ⟨offset⟩ →
      ∃ n, lineAt? text offset = some n ∧ ∀ k, LineHolds text k offset ↔ k = n) ∧
    (∀ k line, 1 ≤ k → (lines text)[k - 1]? = some line → ∀ inside rest, line = inside ++ rest →
      lineAt? text (lineStart text k + byteSize inside) = some k) ∧
    (∀ offset offset' n n', offset ≤ offset' → lineAt? text offset = some n →
      lineAt? text offset' = some n' → n ≤ n') ∧
    (∀ offset, size ≤ offset → lineAt? text offset = lineAt? text size) ∧
    (∀ offset, lineAt? text offset = none ↔
      offset < size ∧ ¬ String.Pos.Raw.IsValid source ⟨offset⟩) ∧
    ∃ last, lineAt? text size = some last ∧
      (∀ k, (line? text k).isSome ↔ 1 ≤ k ∧ k ≤ last) ∧
      ∀ k shown, line? text k = some shown → ∃ line n, (lines text)[k - 1]? = some line ∧
        line = shown ++ List.replicate n '\r' ∧ shown.getLast? ≠ some '\r' := by
  intro text size
  have hsize : byteSize text = size := byteSize_toList source
  have hlast : ∀ offset, size ≤ offset → lineAt? text offset = some (lines text).length :=
    fun offset h => lineAt?_of_byteSize_le (hsize ▸ h)
  refine ⟨fun offset hv => ?_, ?_, fun _ _ _ _ => lineAt?_mono,
    fun offset h => (hlast offset h).trans (hlast size (Nat.le_refl size)).symm, fun offset => ?_,
    (lines text).length, hlast size (Nat.le_refl size), isSome_line?_iff text, ?_⟩
  · have hb : IsBoundary text offset := (isBoundary_iff_isValid source offset).mpr hv
    have hle : offset ≤ byteSize text := by
      obtain ⟨before, after, htext, rfl⟩ := hb
      rw [htext, byteSize_append]
      omega
    obtain ⟨n, hn⟩ := exists_lineHolds text hle
    have hat := lineAt?_of_lineHolds hb hn
    refine ⟨n, hat, fun k => ⟨fun hk => ?_, fun hk => hk ▸ hn⟩⟩
    rw [lineAt?_of_lineHolds hb hk] at hat
    exact Option.some.inj hat
  · rintro k line hk hline inside rest rfl
    obtain ⟨before, after, htext, hstart, -⟩ := exists_split_line hline
    rw [Nat.sub_add_cancel hk] at hstart
    refine lineAt?_of_lineHolds ?_ ⟨_, hk, hline, by omega, by rw [byteSize_append]; omega⟩
    exact ⟨before ++ inside, rest ++ after, by rw [htext]; simp, by
      rw [byteSize_append, hstart]⟩
  · rw [lineAt?_eq_none_iff, hsize, isBoundary_iff_isValid]
  · intro k shown h
    obtain ⟨-, line, hline, rfl⟩ := line?_eq_some_iff.mp h
    obtain ⟨n, hreturns, hend⟩ := exists_returns line
    exact ⟨line, n, hline, hreturns, hend⟩

/-- Line 1 ends in a carriage return behind a character of two bytes; line 2 is empty. -/
theorem offset_and_line_agree_empty_line :
    let source := "é\r\n\nx"
    let text := source.toList
    (∃ n, lineAt? text 4 = some n ∧ ∀ k, LineHolds text k 4 ↔ k = n) ∧
      lineAt? text (lineStart text 2 + byteSize []) = some 2 ∧
      (∀ n n', lineAt? text 3 = some n → lineAt? text 4 = some n' → n ≤ n') ∧
      lineAt? text 1 = none ∧ lineAt? text 100 = lineAt? text 6 ∧
      ∃ line n, (lines text)[0]? = some line ∧ line = ['é'] ++ List.replicate n '\r' ∧
        ['é'].getLast? ≠ some '\r' := by
  intro source text
  obtain ⟨hone, hinside, hmono, hbehind, hnone, last, -, -, hshown⟩ := offset_and_line_agree source
  have hvalid : String.Pos.Raw.IsValid source ⟨4⟩ := by decide +kernel
  have hinvalid : ¬ String.Pos.Raw.IsValid source ⟨1⟩ := by decide +kernel
  exact ⟨hone 4 hvalid, hinside 2 [] (by decide) (by decide +kernel) [] [] rfl,
    fun n n' => hmono 3 4 n n' (by decide), (hnone 1).mpr ⟨by decide +kernel, hinvalid⟩,
    hbehind 100 (by decide +kernel), hshown 1 ['é'] (by decide +kernel)⟩

end ScopeLex.Text
