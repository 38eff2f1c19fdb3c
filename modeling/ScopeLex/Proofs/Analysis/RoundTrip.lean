import ScopeLex.Proofs.Analysis.Replay
import ScopeLex.Proofs.Analysis.Scan
import ScopeLex.Proofs.Comment.LineCopy
import ScopeLex.Proofs.Token.Spacing

/-!
# Printing the tokens and scanning them again

The lexemes of an analysis, printed on their lines with one blank between them, are
a text without comments and stray characters that has the same tokens.

* `ofLine_respacedLine`: a printed line is scanned into its tokens.
* `toList_printed`: a printed text is a copy of the text, line by line.
* `print_and_scan`: tokens, table and refusals come out as before.
-/
namespace ScopeLex

open Text (lines)

/-! ## One line -/

/-- The lexemes of a line, one blank between them. -/
def respacedLine (line : List Char) : List Char := written (spread (lexemes (codeSegments line)))

/-- The lexemes of code with blanks between them are a copy of it. -/
theorem Segmented.respaced {code : List Char} {segs : List Piece} (h : Segmented code segs)
    {ok : Nat → Prop} {p : Nat} (hok : ∀ i < code.length, ok (p + i)) :
    Respaced ok p code (written (spread (lexemes segs))) := by
  induction h generalizing p with
  | nil => exact .nil
  | @blank run rest segs _ _ _ tail ih =>
    refine .drop_append (ih fun i hi => ?_)
    rw [Nat.add_assoc]
    exact hok _ (by rw [List.length_append]; omega)
  | @stray c rest segs _ _ tail ih =>
    refine .drop (ih fun i hi => ?_)
    rw [Nat.add_assoc]
    exact hok _ (by rw [List.length_cons]; omega)
  | @lexeme kind found rest segs visible first tail ih =>
    have hcons : lexemes (.lexeme kind found :: segs) = .lexeme kind found :: lexemes segs := rfl
    have here : ∀ i < found.length, ok (p + i) := fun i hi =>
      hok i (by rw [List.length_append]; omega)
    have hrest : Respaced ok (p + found.length) rest (written (spread (lexemes segs))) := by
      refine ih fun i hi => ?_
      rw [Nat.add_assoc]
      exact hok _ (by rw [List.length_append]; omega)
    rw [hcons]
    cases hl : lexemes segs with
    | nil => exact .keep here (fun _ => nofun) .nil
    | cons q others =>
      rw [hl] at hrest
      rw [spread_cons_cons, written_cons, written_cons]
      refine .keep here (fun c hc => ?_) (.gap (Or.inl rfl) hrest)
      exact Or.inl (Option.some.inj hc).symm

theorem respaced_respacedLine {line : List Char} {ok : Nat → Prop} {p : Nat}
    (hok : ∀ i < line.length, ok (p + i)) : Respaced ok p line (respacedLine line) := by
  have hline := splitMarker_append line
  have hcode : Respaced ok p (splitMarker line).1 (respacedLine line) := by
    refine (segmented_codeSegments line).respaced fun i hi => hok i ?_
    rw [← hline, List.length_append]
    omega
  have hrest : Respaced ok (p + (splitMarker line).1.length) (splitMarker line).2 [] := .nil
  have h := hcode.append hrest fun _ => nofun
  rwa [hline, List.append_nil] at h

/-- The lexemes of a line hold no marker, even when they are written side by side. -/
theorem not_marks_respacedLine (line : List Char) (i : Nat) : ¬ Marks (respacedLine line) i := by
  intro hm
  have h : Respaced (fun _ => True) 0 (splitMarker line).1 (respacedLine line) :=
    (segmented_codeSegments line).respaced fun _ _ => trivial
  obtain ⟨j, hj⟩ := h.marks hm
  exact not_marks_code line j hj

theorem splitMarker_respacedLine (line : List Char) :
    splitMarker (respacedLine line) = (respacedLine line, []) :=
  splitMarker_of_free (not_marks_respacedLine line)

theorem newline_notMem_respacedLine {line : List Char} (h : '\n' ∉ line) :
    '\n' ∉ respacedLine line := by
  intro hm
  rcases mem_written_spread hm with hm | hm
  · exact absurd hm (by decide)
  · have hcode := mem_written_lexemes hm
    rw [written, (segmented_codeSegments line).flatMap_text] at hcode
    rw [← splitMarker_append line] at h
    exact h (List.mem_append_left _ hcode)

theorem copiesParts_respacedLine : CopiesParts respacedLine :=
  ⟨respaced_respacedLine, newline_notMem_respacedLine⟩

/-- A printed line is cut into its lexemes and the blanks between them. -/
theorem pieces_respacedLine (line : List Char) :
    (pieces 1 (respacedLine line)).map Prod.snd = spread (lexemes (codeSegments line)) :=
  (segmented_codeSegments line).respace.eq_pieces 1

/-- The tokens of a line are those of its lexemes. -/
theorem tokens_spread (k : Nat) (segs : List Piece) :
    (spread (lexemes segs)).filterMap (Piece.token? k) = segs.filterMap (Piece.token? k) := by
  have hspread : ∀ ps : List Piece,
      (spread ps).filterMap (Piece.token? k) = ps.filterMap (Piece.token? k) := by
    intro ps
    induction ps with
    | nil => rfl
    | cons q ps ih =>
      cases ps with
      | nil => rfl
      | cons r ps =>
        rw [spread_cons_cons, List.filterMap_cons, List.filterMap_cons, ih]
        rfl
  rw [hspread, lexemes, List.filterMap_filter]
  congr 1
  funext p
  cases p <;> rfl

/-- Code without stray characters has the events of its tokens. -/
theorem Event.ofCode_of_no_stray {k column : Nat} {code : List Char}
    (h : ∀ c, .stray c ∉ (pieces column code).map Prod.snd) :
    ofCode k column code =
      (((pieces column code).map Prod.snd).filterMap (Piece.token? k)).map .token := by
  unfold ofCode
  generalize pieces column code = cut at h ⊢
  induction cut with
  | nil => rfl
  | cons p cut ih =>
    have ih := ih fun c hc => h c (List.mem_cons_of_mem _ hc)
    rw [List.filterMap_cons, List.map_cons, List.filterMap_cons, ih]
    obtain ⟨at_, piece⟩ := p
    cases piece with
    | blank text => rfl
    | lexeme kind found => rfl
    | stray c => exact absurd List.mem_cons_self (h c)

/-- A printed line is scanned into the tokens of the line. -/
theorem Event.ofLine_respacedLine (k : Nat) (line : List Char) :
    ofLine k (respacedLine line) =
      ((codeSegments line).filterMap (Piece.token? k)).map .token := by
  have hstray : ∀ c, .stray c ∉ (pieces 1 (respacedLine line)).map Prod.snd := by
    intro c hc
    rw [pieces_respacedLine] at hc
    rcases mem_spread hc with he | hm
    · cases he
    · cases (List.mem_filter.mp hm).2
  rw [ofLine_eq, splitMarker_respacedLine, ofCode_of_no_stray hstray, pieces_respacedLine,
    tokens_spread]
  rfl

/-! ## The tokens of the code, line by line -/

/-- The tokens of the code on line `k`. -/
def lineTokens (found : List BlockComment) (numbered : List Char × Nat) : List Token :=
  if Covers found numbered.2 then []
  else (codeSegments numbered.1).filterMap (Piece.token? numbered.2)

theorem line_of_mem_lineTokens {found : List BlockComment} {numbered : List Char × Nat} {t : Token}
    (h : t ∈ lineTokens found numbered) : t.line = numbered.2 := by
  unfold lineTokens at h
  split at h
  · cases h
  · obtain ⟨p, -, hp⟩ := List.mem_filterMap.mp h
    cases p with
    | blank text => cases hp
    | lexeme kind found => cases hp; rfl
    | stray c => cases hp

/-- The tokens of the code among those of the open lines. -/
theorem filter_tokens_ofOpenLines (found : List BlockComment) (text : List Char) :
    ((Event.ofOpenLines found text).filterMap Event.token?).filter (fun t => t.kind ≠ .comment) =
      ((lines text).zipIdx 1).flatMap (lineTokens found) := by
  unfold Event.ofOpenLines
  rw [List.filterMap_flatMap, List.filter_flatMap]
  congr 1
  funext numbered
  obtain ⟨line, k⟩ := numbered
  unfold lineTokens
  dsimp only
  by_cases hc : Covers found k
  · rw [if_pos hc, if_pos hc]
    rfl
  · rw [if_neg hc, if_neg hc, Event.tokens_ofLine, List.filter_append]
    have hcomment : (Event.lineCommentToken k (splitMarker line).2).filter
        (fun t => t.kind ≠ .comment) = [] := by
      unfold Event.lineCommentToken
      split <;> rfl
    rw [hcomment, List.nil_append]
    refine List.filter_eq_self.mpr fun t ht => ?_
    exact decide_eq_true (kind_of_mem_tokens (segmented_codeSegments line) ht)

theorem codeTokens_eq (table : SymbolTable) (source : String) :
    (analyzeWith table [] source).codeTokens [] =
      ((lines source.toList).zipIdx 1).flatMap (lineTokens (BlockComment.all source.toList)) := by
  unfold Analysis.codeTokens
  rw [List.length_nil, List.drop_zero, tokens_eq_append, List.nil_append, List.filter_append,
    filter_tokens_ofOpenLines]
  have hblock : ((BlockComment.all source.toList).map BlockComment.token).filter
      (fun t => t.kind ≠ .comment) = [] := by
    refine List.filter_eq_nil_iff.mpr fun t ht => ?_
    obtain ⟨b, -, rfl⟩ := List.mem_map.mp ht
    simp [BlockComment.token]
  rw [hblock, List.nil_append]

/-! ## The printed text -/

/-- The lexemes of the code on line `k`, one blank between them. -/
def Analysis.printedLine (a : Analysis) (k : Nat) : List Char :=
  [' '].intercalate (((a.codeTokens []).filter fun t => t.line = k).map fun t => t.lexeme.toList)

/-- The lexemes of the code on the first `count` lines. -/
def Analysis.printedLines (a : Analysis) (count : Nat) : List (List Char) :=
  (List.range' 1 count).map a.printedLine

/-- The text of these lines. -/
def Analysis.printed (a : Analysis) (count : Nat) : String :=
  String.ofList (['\n'].intercalate (a.printedLines count))

/-- A line that holds no part of a comment keeps its lexemes, any other nothing. -/
def copyLine (found : List BlockComment) (numbered : List Char × Nat) : List Char :=
  if Covers found numbered.2 then [] else respacedLine numbered.1

theorem written_spread (segs : List Piece) :
    written (spread segs) = [' '].intercalate (segs.map Piece.text) := by
  induction segs with
  | nil => rfl
  | cons p segs ih =>
    cases segs with
    | nil => rw [List.map_singleton, List.intercalate_singleton]; exact List.append_nil _
    | cons q segs =>
      rw [spread_cons_cons, written_cons, written_cons, ih]
      simp [Piece.text]

theorem lexemes_of_tokens (k : Nat) (segs : List Piece) :
    (segs.filterMap (Piece.token? k)).map (fun t => t.lexeme.toList) =
      (lexemes segs).map Piece.text := by
  induction segs with
  | nil => rfl
  | cons p segs ih =>
    cases p with
    | blank text => exact ih
    | stray c => exact ih
    | lexeme kind found =>
      show (String.ofList found).toList :: (segs.filterMap (Piece.token? k)).map
        (fun t => t.lexeme.toList) = found :: (lexemes segs).map Piece.text
      rw [String.toList_ofList, ih]

theorem intercalate_lineTokens (found : List BlockComment) (numbered : List Char × Nat) :
    [' '].intercalate ((lineTokens found numbered).map fun t => t.lexeme.toList) =
      copyLine found numbered := by
  unfold lineTokens copyLine
  split
  · rfl
  · rw [respacedLine, written_spread, lexemes_of_tokens]

/-! ## The printed text is a copy -/

theorem copyLine_eq : copyLine = openLine respacedLine := rfl

section
variable (table : SymbolTable) (source : String)

theorem printedLine_eq {k : Nat} {line : List Char} (hk : 1 ≤ k)
    (hl : (lines source.toList)[k - 1]? = some line) :
    (analyzeWith table [] source).printedLine k =
      copyLine (BlockComment.all source.toList) (line, k) := by
  have hnumber := Event.filter_flatMap_zipIdx (lineTokens (BlockComment.all source.toList))
    Token.line (fun _ _ h => line_of_mem_lineTokens h) (lines source.toList) 1 k hk
  rw [Analysis.printedLine, codeTokens_eq, hnumber, hl, Option.map_some, Option.getD_some,
    intercalate_lineTokens]

theorem printedLines_eq :
    (analyzeWith table [] source).printedLines (lines source.toList).length =
      copiedLines respacedLine source.toList := by
  unfold Analysis.printedLines
  refine List.ext_getElem ?_ fun i h1 h2 => ?_
  · rw [List.length_map, List.length_range', length_copiedLines]
  · have hi : i < (lines source.toList).length := by simpa using h1
    refine Option.some.inj ?_
    rw [← List.getElem?_eq_getElem h2, getElem?_copiedLines, List.getElem?_eq_getElem hi,
      List.getElem_map, List.getElem_range', Nat.one_mul, Nat.add_comm 1 i, Option.map_some]
    refine congrArg some (printedLine_eq table source (Nat.succ_pos i) ?_)
    rw [Nat.add_sub_cancel, List.getElem?_eq_getElem hi]

theorem toList_printed :
    ((analyzeWith table [] source).printed (lines source.toList).length).toList =
      copied respacedLine source.toList := by
  rw [Analysis.printed, String.toList_ofList, printedLines_eq, copied]

/-- The printed text has the printed lines. -/
theorem lines_printed :
    lines ((analyzeWith table [] source).printed (lines source.toList).length).toList =
      (analyzeWith table [] source).printedLines (lines source.toList).length := by
  rw [toList_printed, copiesParts_respacedLine.lines_copied, printedLines_eq]

theorem ofLine_copyLine (found : List BlockComment) (numbered : List Char × Nat) :
    Event.ofLine numbered.2 (copyLine found numbered) =
      (lineTokens found numbered).map .token := by
  unfold copyLine lineTokens
  split
  · rfl
  · exact Event.ofLine_respacedLine _ _

/-- The printed text is scanned into the tokens of the code. -/
theorem ofSource_printed :
    Event.ofSource ((analyzeWith table [] source).printed (lines source.toList).length).toList =
      ((analyzeWith table [] source).codeTokens []).map .token := by
  rw [toList_printed, copiesParts_respacedLine.ofSource_copied, codeTokens_eq, List.map_flatMap,
    ← copyLine_eq]
  simp only [ofLine_copyLine]

theorem tokens_printed :
    (analyzeWith table []
      ((analyzeWith table [] source).printed (lines source.toList).length)).tokens.toList =
      (analyzeWith table [] source).codeTokens [] := by
  rw [tokens_analyzeWith, ofSource_printed, List.filterMap_map, List.nil_append]
  exact List.filterMap_some

theorem codeTokens_printed :
    (analyzeWith table []
      ((analyzeWith table [] source).printed (lines source.toList).length)).codeTokens [] =
      (analyzeWith table [] source).codeTokens [] := by
  rw [Analysis.codeTokens_nil, tokens_printed]
  exact List.filter_eq_self.mpr fun t ht => (List.mem_filter.mp ht).2

/-- The analysis of the printed text reports refusals only. -/
theorem diagnostics_printed :
    (analyzeWith table []
      ((analyzeWith table [] source).printed (lines source.toList).length)).diagnostics.toList =
      (analyzeWith table []
        ((analyzeWith table [] source).printed (lines source.toList).length)).refusals := by
  have hstrays := strays_analyzeWith table []
    ((analyzeWith table [] source).printed (lines source.toList).length)
  rw [ofSource_printed, List.filterMap_map] at hstrays
  have hnone : ((analyzeWith table [] source).codeTokens []).filterMap
      (Event.strayReport? ∘ Event.token) = [] :=
    List.filterMap_eq_nil_iff.mpr fun _ _ => rfl
  rw [hnone, List.filter_eq_nil_iff] at hstrays
  unfold Analysis.refusals
  refine (List.filter_eq_self.mpr fun d hd => ?_).symm
  rw [← Option.not_isSome]
  simpa using hstrays d hd

end

/-- The lexemes of an analysis, printed on their lines with one blank between them,
are as many lines again. Their analysis has the tokens of the code, the same table
and the same diagnostics but for the stray characters, which are exactly those with
a column. -/
theorem print_and_scan (table : SymbolTable) (source : String) :
    let count := (lines source.toList).length
    let a := analyzeWith table [] source
    let b := analyzeWith table [] (a.printed count)
    lines (a.printed count).toList = (List.range' 1 count).map a.printedLine ∧
    b.tokens.toList = a.tokens.toList.filter (fun t => t.kind ≠ .comment) ∧
    b.table = a.table ∧
    b.diagnostics.toList = a.diagnostics.toList.filter (fun d => d.column.isNone) ∧
    ∀ d ∈ a.diagnostics.toList,
      d.column.isSome ↔ ∃ c, d.message = (Fault.strayCharacter c).message := by
  dsimp only
  have hcode := codeTokens_printed table source
  obtain ⟨ha, ha'⟩ := replay_analyzeWith table [] source
  obtain ⟨hb, hb'⟩ := replay_analyzeWith table []
    ((analyzeWith table [] source).printed (lines source.toList).length)
  refine ⟨?_, ?_, ?_, ?_, ?_⟩
  · rw [lines_printed, Analysis.printedLines]
  · rw [tokens_printed, Analysis.codeTokens_nil]
  · rw [ha, hb, hcode]
  · rw [diagnostics_printed, hb', hcode, ← ha', Analysis.refusals]
  · intro d hd
    exact isSome_column_iff table [] source hd

end ScopeLex
