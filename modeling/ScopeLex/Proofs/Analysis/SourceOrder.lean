import ScopeLex.Analysis.View
import ScopeLex.Proofs.Analysis.Scan
import ScopeLex.Proofs.Comment.Joined

/-!
# Tokens in source order

The block comments are emitted ahead of the tokens of the scan. Both come by ascending
lines, and no line has tokens of both: a line that holds a part of a block comment is not
scanned. Sorting by lines therefore merges the two without a tie, and as the sort is
stable, each keeps its order.

* `Analysis.filter_sourceOrder`: what ascends already keeps its order.
* `BlockComment.ascending`, `ascending_scannedTokens`: comments and scan ascend.
* `sourceOrder_merges`: source order as a merge, and line by line.
-/
namespace ScopeLex

open Text (lines)

/-- The lines of tokens ascend; several tokens may stand on one line. -/
def Ascending (tokens : List Token) : Prop := tokens.Pairwise fun t u => t.line ≤ u.line

/-! ## The sort -/

theorem Token.line_le_trans (s t u : Token) (h : decide (s.line ≤ t.line) = true)
    (h' : decide (t.line ≤ u.line) = true) : decide (s.line ≤ u.line) = true :=
  decide_eq_true (Nat.le_trans (of_decide_eq_true h) (of_decide_eq_true h'))

theorem Token.line_le_total (s t : Token) :
    (decide (s.line ≤ t.line) || decide (t.line ≤ s.line)) = true := by
  rw [Bool.or_eq_true, decide_eq_true_eq, decide_eq_true_eq]
  exact Nat.le_total _ _

namespace Analysis

variable (a : Analysis)

theorem ascending_sourceOrder : Ascending a.sourceOrder :=
  (List.pairwise_mergeSort Token.line_le_trans Token.line_le_total _).imp of_decide_eq_true

/-- What ascends already keeps its order. -/
theorem filter_sourceOrder (p : Token → Bool) (h : Ascending (a.tokens.toList.filter p)) :
    a.sourceOrder.filter p = a.tokens.toList.filter p := by
  have hsub : (a.tokens.toList.filter p).Sublist a.sourceOrder :=
    List.sublist_mergeSort Token.line_le_trans Token.line_le_total (h.imp decide_eq_true)
      List.filter_sublist
  have hself := hsub.filter p
  rw [List.filter_eq_self.mpr fun t ht => (List.mem_filter.mp ht).2] at hself
  exact (hself.eq_of_length (a.sourceOrder_perm.filter p).length_eq.symm).symm

/-- The tokens of one line are in the order in which they were emitted. -/
theorem filter_line_sourceOrder (k : Nat) :
    a.sourceOrder.filter (fun t => t.line = k) = a.tokens.toList.filter fun t => t.line = k := by
  refine a.filter_sourceOrder _ (List.pairwise_of_forall_mem_list fun t ht u hu => ?_)
  have ht : t.line = k := of_decide_eq_true (List.mem_filter.mp ht).2
  have hu : u.line = k := of_decide_eq_true (List.mem_filter.mp hu).2
  exact Nat.le_of_eq (ht.trans hu.symm)

end Analysis

/-! ## Comments and scan -/

namespace BlockComment

/-- A comment begins behind the one before it, and on no earlier line. -/
theorem ascending (text : List Char) :
    (all text).Pairwise fun b c => b.start.offset < c.start.offset ∧ b.firstLine ≤ c.firstLine := by
  obtain ⟨spans, hs, hf⟩ := all_eq_map_ofSpan text
  rw [hf, List.pairwise_map]
  refine hs.pairwise.imp_of_mem fun {s t} hm _ hbehind => ?_
  have hc := (hs.mem hm).2
  have hlong := hc.long
  have hlen := hc.le_length
  rw [firstLine, firstLine, start_ofSpan, start_ofSpan]
  exact ⟨byteSize_take_lt (by omega) (by omega),
    Nat.add_le_add_left (count_take_le text (by omega)) 1⟩

theorem ascending_token (text : List Char) : Ascending ((all text).map token) :=
  List.pairwise_map.mpr ((ascending text).imp And.right)

/-- The token of a comment stands on a line that the comment covers. -/
theorem covers_of_mem_token {found : List BlockComment} {t : Token} (h : t ∈ found.map token) :
    Covers found t.line := by
  obtain ⟨b, hb, rfl⟩ := List.mem_map.mp h
  exact ⟨b, hb, Nat.le_refl _, Nat.le_add_right _ _⟩

end BlockComment

section
variable (table : SymbolTable) (source : String)

theorem ascending_scannedTokens (pushed : List Token) :
    Ascending (scannedTokens table pushed source) := by
  rw [scannedTokens_eq, Event.ofOpenLines_eq]
  refine (Event.pairwise_line_ofLines _ _).filterMap _ fun e f hle t ht u hu => ?_
  rwa [← Event.line_of_token? ht, ← Event.line_of_token? hu]

/-! ## The merge -/

theorem filter_tokens (p : Token → Bool) :
    (analyzeWith table [] source).tokens.toList.filter p =
      ((BlockComment.all source.toList).map BlockComment.token).filter p ++
        (scannedTokens table [] source).filter p := by
  rw [← List.filter_append, scannedTokens_eq, tokens_eq_append, List.nil_append]

/-- The tokens on covered lines are the block comments, -/
theorem filter_covered_tokens :
    (analyzeWith table [] source).tokens.toList.filter
        (fun t => Covers (BlockComment.all source.toList) t.line) =
      (BlockComment.all source.toList).map BlockComment.token := by
  rw [filter_tokens, List.filter_eq_self.mpr, List.filter_eq_nil_iff.mpr, List.append_nil]
  · intro t ht hc
    exact (line_of_mem_scannedTokens table [] source ht).2.2 (of_decide_eq_true hc)
  · exact fun t ht => decide_eq_true (BlockComment.covers_of_mem_token ht)

/-- and those on the other lines are the tokens of the scan. -/
theorem filter_open_tokens :
    (analyzeWith table [] source).tokens.toList.filter
        (fun t => ¬ Covers (BlockComment.all source.toList) t.line) =
      scannedTokens table [] source := by
  rw [filter_tokens, List.filter_eq_nil_iff.mpr, List.filter_eq_self.mpr, List.nil_append]
  · exact fun t ht => decide_eq_true (line_of_mem_scannedTokens table [] source ht).2.2
  · intro t ht hc
    exact of_decide_eq_true hc (BlockComment.covers_of_mem_token ht)

/-- Tokens of one line are found among those with what all tokens of that line have. -/
theorem filter_line_filter {p : Token → Bool} {k : Nat} (h : ∀ t, t.line = k → p t = true)
    (tokens : List Token) :
    (tokens.filter p).filter (fun t => t.line = k) = tokens.filter fun t => t.line = k := by
  rw [List.filter_filter]
  refine List.filter_congr fun t _ => ?_
  by_cases ht : t.line = k
  · rw [h t ht, Bool.and_true]
  · rw [decide_eq_false ht, Bool.false_and]

/-- The block comments that begin on a covered line are its tokens in source order. -/
theorem filter_line_of_covers {k : Nat} (h : Covers (BlockComment.all source.toList) k) :
    (analyzeWith table [] source).sourceOrder.filter (fun t => t.line = k) =
      ((BlockComment.all source.toList).filter fun b => b.firstLine = k).map
        BlockComment.token := by
  rw [Analysis.filter_line_sourceOrder, ← filter_line_filter fun t ht => decide_eq_true (ht ▸ h),
    filter_covered_tokens, List.filter_map]
  rfl

/-- On another line they are those of its scan. -/
theorem filter_line_of_open {k : Nat} (h : ¬ Covers (BlockComment.all source.toList) k) :
    (analyzeWith table [] source).sourceOrder.filter (fun t => t.line = k) =
      (scannedTokens table [] source).filter fun t => t.line = k := by
  rw [Analysis.filter_line_sourceOrder, ← filter_line_filter fun t ht => decide_eq_true (ht ▸ h),
    filter_open_tokens]

/-- Every token stands on a line of the text. -/
theorem line_of_mem_sourceOrder {t : Token} (h : t ∈ (analyzeWith table [] source).sourceOrder) :
    1 ≤ t.line ∧ t.line ≤ (lines source.toList).length := by
  rw [(Analysis.sourceOrder_perm _).mem_iff, tokens_eq_append, List.nil_append] at h
  rcases List.mem_append.mp h with h | h
  · obtain ⟨b, hb, rfl⟩ := List.mem_map.mp h
    have hlast := BlockComment.last_le_length_lines hb
    exact ⟨BlockComment.one_le_firstLine hb, Nat.le_of_add_right_le hlast⟩
  · rw [← scannedTokens_eq table []] at h
    obtain ⟨h1, h2, -⟩ := line_of_mem_scannedTokens table [] source h
    exact ⟨h1, h2⟩

end

/-- The tokens emitted are the block comments and the tokens of the scan. Both ascend by
lines and have no line in common, so that source order merges them: what it has on covered
lines are the comments in their order, and what it has on the other lines is the scan in
its order. Line by line, it has the block comments that begin there, from left to right,
or what the scan makes of the line: a line comment, if there is one, and then the lexemes
of the code from left to right. -/
theorem sourceOrder_merges (table : SymbolTable) (source : String) :
    let a := analyzeWith table [] source
    let text := source.toList
    let found := BlockComment.all text
    let comments := found.map BlockComment.token
    let scanned := (Event.ofOpenLines found text).filterMap Event.token?
    (a.tokens.toList = comments ++ scanned ∧ Ascending comments ∧ Ascending scanned ∧
      ∀ t ∈ scanned, ∀ b ∈ found, t.line < b.firstLine ∨ b.lastLine < t.line) ∧
    (a.sourceOrder.Perm a.tokens.toList ∧ Ascending a.sourceOrder ∧
      a.sourceOrder.filter (fun t => Covers found t.line) = comments ∧
      a.sourceOrder.filter (fun t => ¬ Covers found t.line) = scanned) ∧
    found.Pairwise (fun b c => b.start.offset < c.start.offset) ∧
    (∀ t ∈ a.sourceOrder, 1 ≤ t.line ∧ t.line ≤ (lines text).length) ∧
    ∀ k line, 1 ≤ k → (lines text)[k - 1]? = some line →
      (Covers found k → a.sourceOrder.filter (fun t => t.line = k) =
        (found.filter fun b => b.firstLine = k).map BlockComment.token) ∧
      (¬ Covers found k → ∃ code comment segs,
        ScannedLine a.sourceOrder a.diagnostics.toList k line code comment segs) := by
  intro a text found comments scanned
  have hscanned : scannedTokens table [] source = scanned := scannedTokens_eq table [] source
  have hcovered := filter_covered_tokens table source
  have hopen := filter_open_tokens table source
  have hcomments : Ascending comments := BlockComment.ascending_token text
  have hlines : Ascending scanned := hscanned ▸ ascending_scannedTokens table source []
  refine ⟨⟨tokens_eq_append table [] source, hcomments, hlines, fun t ht b hb => ?_⟩,
    ⟨a.sourceOrder_perm, a.ascending_sourceOrder, ?_, ?_⟩,
    (BlockComment.ascending text).imp And.left, fun t => line_of_mem_sourceOrder table source,
    fun k line hk hl => ⟨filter_line_of_covers table source, fun hk' => ?_⟩⟩
  · rw [← hscanned] at ht
    have hnot := (line_of_mem_scannedTokens table [] source ht).2.2
    refine Classical.byContradiction fun hin => hnot ⟨b, hb, ?_⟩
    rw [not_or, Nat.not_lt, Nat.not_lt] at hin
    exact hin
  · rw [a.filter_sourceOrder _ (by rw [hcovered]; exact hcomments), hcovered]
  · rw [a.filter_sourceOrder _ (by rw [hopen, hscanned]; exact hlines), hopen, hscanned]
  · have hline := scannedLine_of_open table [] source hk hl hk'
    exact ⟨_, _, _, { hline with
      tokens := (filter_line_of_open table source hk').trans hline.tokens }⟩

/-- Two comments on the second line of three, and a line comment behind code. -/
theorem sourceOrder_around_comments :
    let a := analyzeWith (.empty 1000) [] "int a;\n/* b */ c /**/\nint d; // e"
    (a.sourceOrder.filter fun t => t.line = 2).map Token.lexeme = ["/* b */", "/**/"] ∧
      ∃ code comment segs, ScannedLine a.sourceOrder a.diagnostics.toList 3
        "int d; // e".toList code comment segs := by
  intro a
  obtain ⟨-, -, -, -, hlines⟩ :=
    sourceOrder_merges (.empty 1000) "int a;\n/* b */ c /**/\nint d; // e"
  have hsecond := (hlines 2 "/* b */ c /**/".toList (by decide) (by decide +kernel)).1
  have hthird := (hlines 3 "int d; // e".toList (by decide) (by decide +kernel)).2
  exact ⟨by rw [hsecond (by decide +kernel)]; decide +kernel, hthird (by decide +kernel)⟩

end ScopeLex
