import ScopeLex.Proofs.Analysis.Comment
import ScopeLex.Proofs.Comment.Marker
import ScopeLex.Proofs.Token.Segmentation

/-!
# What the scan makes of each line

The output of a run is read line by line: a line that holds no part of a block
comment is code and a line comment, the code is a sequence of segments, and
each segment leaves exactly its own trace in the output.

* `tokens_ofCode`, `strays_ofCode`: what the segments of code leave behind.
* `ScannedLine`, `scannedLine_of_open`: the output for one line.
* `scan_loses_nothing`: no character is lost, repeated or moved.
-/
namespace ScopeLex

open Text (lines trimReturns)

/-! ## Segments in the output -/

/-- The segments of the code of a line. -/
def codeSegments (line : List Char) : List Piece := (pieces 1 (splitMarker line).1).map Prod.snd

theorem segmented_codeSegments (line : List Char) :
    Segmented (splitMarker line).1 (codeSegments line) := segmented_pieces 1 _

/-- The token of a lexeme on line `k`. -/
def Piece.token? (k : Nat) : Piece → Option Token
  | .lexeme kind found => some ⟨kind, String.ofList found, k⟩
  | _ => none

/-- The report on a stray character in some column of line `k`. -/
def Piece.report? (k : Nat) : Nat × Piece → Option Diagnostic
  | (column, .stray c) => some (.ofFault (.strayCharacter c) k (some column))
  | _ => none

namespace Event

theorem token?_ofPiece? (k : Nat) (p : Nat × Piece) :
    (ofPiece? k p).bind token? = p.2.token? k := by
  obtain ⟨column, piece⟩ := p
  cases piece <;> rfl

theorem strayReport?_ofPiece? (k : Nat) (p : Nat × Piece) :
    (ofPiece? k p).bind strayReport? = Piece.report? k p := by
  obtain ⟨column, piece⟩ := p
  cases piece <;> rfl

theorem tokens_ofCode (k column : Nat) (code : List Char) :
    (ofCode k column code).filterMap token? =
      ((pieces column code).map Prod.snd).filterMap (Piece.token? k) := by
  rw [ofCode, List.filterMap_filterMap, List.filterMap_map, funext (token?_ofPiece? k)]
  rfl

theorem strays_ofCode (k column : Nat) (code : List Char) :
    (ofCode k column code).filterMap strayReport? =
      (pieces column code).filterMap (Piece.report? k) := by
  rw [ofCode, List.filterMap_filterMap, funext (strayReport?_ofPiece? k)]

/-- The token of a line comment, if there is one. -/
def lineCommentToken (k : Nat) (comment : List Char) : List Token :=
  if comment = [] then [] else [⟨.comment, String.ofList (trimReturns comment), k⟩]

theorem ofLineComment_eq (k : Nat) (comment : List Char) :
    ofLineComment k comment = (lineCommentToken k comment).map .token := by
  cases comment <;> rfl

theorem tokens_ofLine (k : Nat) (line : List Char) :
    (ofLine k line).filterMap token? = lineCommentToken k (splitMarker line).2 ++
      ((pieces 1 (splitMarker line).1).map Prod.snd).filterMap (Piece.token? k) := by
  rw [ofLine_eq, List.filterMap_append, tokens_ofCode, ofLineComment_eq, List.filterMap_map]
  congr 1
  exact List.filterMap_some

theorem strays_ofLine (k : Nat) (line : List Char) :
    (ofLine k line).filterMap strayReport? =
      (pieces 1 (splitMarker line).1).filterMap (Piece.report? k) := by
  rw [ofLine_eq, List.filterMap_append, strays_ofCode, ofLineComment_eq, List.filterMap_map]
  have h : (lineCommentToken k (splitMarker line).2).filterMap (strayReport? ∘ Event.token) = [] :=
    List.filterMap_eq_nil_iff.mpr fun _ _ => rfl
  rw [h, List.nil_append]

/-! ## The output for one line -/

theorem line_of_token? {e : Event} {t : Token} (h : e.token? = some t) : e.line = t.line := by
  cases e with
  | stray c line column => cases h
  | token u =>
    cases h
    rfl

theorem filter_line_tokens (events : List Event) (k : Nat) :
    (events.filterMap token?).filter (fun t => t.line = k) =
      (events.filter fun e => e.line = k).filterMap token? := by
  rw [List.filter_filterMap, List.filterMap_filter]
  congr 1
  funext e
  cases e with
  | token t => exact Option.filter_some
  | stray c l column => simp [token?]

theorem filter_line_strays (events : List Event) (k : Nat) :
    (events.filterMap strayReport?).filter (fun d => d.line = k) =
      (events.filter fun e => e.line = k).filterMap strayReport? := by
  rw [List.filter_filterMap, List.filterMap_filter]
  congr 1
  funext e
  cases e with
  | token t => simp [strayReport?]
  | stray c l column => exact Option.filter_some

theorem filter_line_ofOpenLines (found : List BlockComment) {text line : List Char} {k : Nat}
    (hk : 1 ≤ k) (hl : (lines text)[k - 1]? = some line) :
    (ofOpenLines found text).filter (fun e => e.line = k) =
      if Covers found k then [] else ofLine k line := by
  rw [ofOpenLines_eq, filter_line_ofLines _ _ hk, hl, Option.map_some, Option.getD_some,
    ofLineUnless_eq]

theorem mem_ofOpenLines {found : List BlockComment} {text : List Char} {e : Event}
    (h : e ∈ ofOpenLines found text) :
    1 ≤ e.line ∧ e.line ≤ (lines text).length ∧ ¬ Covers found e.line := by
  rw [ofOpenLines_eq] at h
  obtain ⟨h1, h2, hc, -⟩ := mem_ofLines h
  refine ⟨h1, h2, fun hk => ?_⟩
  rw [isCovered_lineRange_iff.mpr hk] at hc
  cases hc

end Event

section
variable (table : SymbolTable) (pushed : List Token) (source : String)

/-- The tokens that the scan of the lines emits. -/
def scannedTokens : List Token :=
  (analyzeWith table pushed source).tokens.toList.drop
    (pushed.length + (BlockComment.all source.toList).length)

theorem scannedTokens_eq :
    scannedTokens table pushed source =
      (Event.ofOpenLines (BlockComment.all source.toList) source.toList).filterMap
        Event.token? := by
  rw [scannedTokens, tokens_eq_append]
  refine List.drop_left' ?_
  rw [List.length_append, List.length_map]

/-- Every token of the scan stands on an open line of the text. -/
theorem line_of_mem_scannedTokens {t : Token} (h : t ∈ scannedTokens table pushed source) :
    1 ≤ t.line ∧ t.line ≤ (lines source.toList).length ∧
      ¬ Covers (BlockComment.all source.toList) t.line := by
  rw [scannedTokens_eq] at h
  obtain ⟨e, he, ht⟩ := List.mem_filterMap.mp h
  rw [← Event.line_of_token? ht]
  exact Event.mem_ofOpenLines he

/-- The diagnostics with a column are the stray characters of the open lines. -/
theorem strays_eq :
    (analyzeWith table pushed source).diagnostics.toList.filter (fun d => d.column.isSome) =
      (Event.ofOpenLines (BlockComment.all source.toList) source.toList).filterMap
        Event.strayReport? := by
  rw [strays_analyzeWith, Event.ofSource_eq, List.filterMap_append, List.filterMap_map]
  have h : (BlockComment.all source.toList).filterMap
      (Event.strayReport? ∘ fun b => Event.token b.token) = [] :=
    List.filterMap_eq_nil_iff.mpr fun _ _ => rfl
  rw [h, List.nil_append]

/-- No diagnostic stands on a line that holds a part of a block comment. -/
theorem not_covers_of_mem_diagnostics {d : Diagnostic}
    (h : d ∈ (analyzeWith table pushed source).diagnostics.toList) :
    ¬ Covers (BlockComment.all source.toList) d.line := by
  obtain ⟨e, he, hl, hk⟩ := mem_diagnostics_analyzeWith table pushed source h
  rw [Event.ofSource_eq, List.mem_append] at he
  rcases he with he | he
  · obtain ⟨b, -, rfl⟩ := List.mem_map.mp he
    exact absurd rfl (hk _ rfl)
  · rw [← hl]
    exact (Event.mem_ofOpenLines he).2.2

/-- What the scan makes of `whole`, which is line `k`: a line comment `comment`
behind the code, which is the segments `segs`. -/
structure ScannedLine (scanned : List Token) (reports : List Diagnostic) (k : Nat)
    (whole code comment : List Char) (segs : List Piece) : Prop where
  /-- The code ends where the first marker begins. -/
  cut : whole = code ++ comment
  marked : comment = [] ∨ Marks comment 0
  free : ∀ i < code.length, ¬ Marks whole i
  /-- The code is the segments one after the other. -/
  segmented : Segmented code segs
  text : segs.flatMap Piece.text = code
  steps : segs.length ≤ code.length
  /-- The line comment and the lexemes are the tokens of the line, -/
  tokens : scanned.filter (fun t => t.line = k) =
    Event.lineCommentToken k comment ++ segs.filterMap (Piece.token? k)
  no_comment : ∀ t ∈ segs.filterMap (Piece.token? k), t.kind ≠ .comment
  /-- and the stray characters its diagnostics with a column, -/
  strays : reports.filter (fun d => d.line = k ∧ d.column.isSome) =
    (placed 1 segs).filterMap (Piece.report? k)
  /-- which is one more than the number of characters in front. -/
  columns : ∀ column c, (column, .stray c) ∈ placed 1 segs →
    1 ≤ column ∧ whole[column - 1]? = some c

theorem kind_of_mem_tokens {code : List Char} {segs : List Piece} (h : Segmented code segs)
    {k : Nat} {t : Token} (ht : t ∈ segs.filterMap (Piece.token? k)) : t.kind ≠ .comment := by
  obtain ⟨p, hp, hpt⟩ := List.mem_filterMap.mp ht
  cases p with
  | blank text => cases hpt
  | stray c => cases hpt
  | lexeme kind found =>
    cases hpt
    exact h.kind_ne_comment hp

theorem filter_line_and (ds : List Diagnostic) (k : Nat) :
    ds.filter (fun d => d.line = k ∧ d.column.isSome) =
      (ds.filter fun d => d.column.isSome).filter fun d => d.line = k := by
  rw [List.filter_filter]
  congr 1
  funext d
  simp

theorem scannedLine_of_open {k : Nat} {line : List Char} (hk : 1 ≤ k)
    (hl : (lines source.toList)[k - 1]? = some line)
    (hopen : ¬ Covers (BlockComment.all source.toList) k) :
    ScannedLine (scannedTokens table pushed source)
      (analyzeWith table pushed source).diagnostics.toList k line (splitMarker line).1
      (splitMarker line).2 ((pieces 1 (splitMarker line).1).map Prod.snd) := by
  have hseg := segmented_pieces 1 (splitMarker line).1
  have hline := splitMarker_append line
  have hev : (Event.ofOpenLines (BlockComment.all source.toList) source.toList).filter
      (fun e => e.line = k) = Event.ofLine k line := by
    rw [Event.filter_line_ofOpenLines _ hk hl, if_neg hopen]
  refine ⟨hline.symm, ?_, fun i => not_marker_of_lt, hseg, hseg.flatMap_text, hseg.length_le, ?_,
    fun t => kind_of_mem_tokens hseg, ?_, ?_⟩
  · by_cases hr : (splitMarker line).2 = []
    · exact Or.inl hr
    · exact Or.inr (startsWithMarker_iff.mp (startsWithMarker_of_ne_nil hr))
  · rw [scannedTokens_eq, Event.filter_line_tokens, hev, Event.tokens_ofLine]
  · rw [filter_line_and, strays_eq, Event.filter_line_strays, hev, Event.strays_ofLine,
      placed_pieces]
  · intro column c hm
    obtain ⟨hle, hc⟩ := getElem?_of_mem_placed hm
    rw [hseg.flatMap_text] at hc
    obtain ⟨hlt, -⟩ := List.getElem?_eq_some_iff.mp hc
    refine ⟨hle, ?_⟩
    rw [← hline, List.getElem?_append_left hlt]
    exact hc

/-- No character is lost, repeated or moved. A line without a part of a block
comment is code and a line comment, cut at the first `//`; the code is a
sequence of segments, whose lexemes are the other tokens of the line and whose
stray characters are its diagnostics with a column. A line with a part of a
block comment leaves nothing else behind. -/
theorem scan_loses_nothing :
    (∀ k line, 1 ≤ k → (lines source.toList)[k - 1]? = some line →
      ¬ Covers (BlockComment.all source.toList) k →
      ∃ code comment segs, ScannedLine (scannedTokens table pushed source)
        (analyzeWith table pushed source).diagnostics.toList k line code comment segs) ∧
    (∀ k, Covers (BlockComment.all source.toList) k →
      (scannedTokens table pushed source).filter (fun t => t.line = k) = [] ∧
      (analyzeWith table pushed source).diagnostics.toList.filter (fun d => d.line = k) = []) ∧
    (analyzeWith table pushed source).tokens.toList =
      pushed ++ (BlockComment.all source.toList).map BlockComment.token ++
        scannedTokens table pushed source ∧
    ∀ t ∈ scannedTokens table pushed source,
      1 ≤ t.line ∧ t.line ≤ (lines source.toList).length := by
  refine ⟨?_, ?_, ?_, ?_⟩
  · intro k line hk hl hopen
    exact ⟨_, _, _, scannedLine_of_open table pushed source hk hl hopen⟩
  · intro k hk
    constructor
    · refine List.filter_eq_nil_iff.mpr fun t ht => ?_
      have hc := (line_of_mem_scannedTokens table pushed source ht).2.2
      simp only [decide_eq_true_eq]
      exact fun he => hc (he ▸ hk)
    · refine List.filter_eq_nil_iff.mpr fun d hd => ?_
      have hc := not_covers_of_mem_diagnostics table pushed source hd
      simp only [decide_eq_true_eq]
      exact fun he => hc (he ▸ hk)
  · rw [scannedTokens_eq]
    exact tokens_eq_append table pushed source
  · intro t ht
    obtain ⟨h1, h2, -⟩ := line_of_mem_scannedTokens table pushed source ht
    exact ⟨h1, h2⟩

end

/-- The line of a block comment is left out and the next line is scanned. -/
theorem scanned_behind_comment :
    let source := "/* a */\nint b @ // c"
    Covers (BlockComment.all source.toList) 1 ∧
      ¬ Covers (BlockComment.all source.toList) 2 ∧
      ∃ code comment segs, ScannedLine (scannedTokens (.empty 1000) [] source)
        (analyzeWith (.empty 1000) [] source).diagnostics.toList 2 "int b @ // c".toList
        code comment segs := by
  have hopen : ¬ Covers (BlockComment.all "/* a */\nint b @ // c".toList) 2 := by decide +kernel
  refine ⟨by decide +kernel, hopen, ?_⟩
  exact (scan_loses_nothing _ _ _).1 2 _ (by decide) (by decide +kernel) hopen

end ScopeLex
