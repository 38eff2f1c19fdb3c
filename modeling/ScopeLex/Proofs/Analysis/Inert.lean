import Mathlib.Data.List.Basic
import ScopeLex.Proofs.Analysis.HandOver
import ScopeLex.Proofs.Analysis.Replay
import ScopeLex.Proofs.Comment.LineCopy
import ScopeLex.Proofs.Token.Segmentation

/-!
# A text without its comments

Comments can be cut out of a text. What is left holds no comment, not even one made of
pieces that stood apart, and its analysis is that of the text but for the comments.

* `copiesParts_lineCode`: cutting comments out keeps parts whole and apart.
* `ofSource_withoutComments`: the events that are left.
* `comments_inert`: tokens, table and diagnostics come out as before.
-/
namespace ScopeLex

open Text (lines)

/-! ## Cutting comments out -/

/-- A line up to its comment. -/
def lineCode (line : List Char) : List Char := (splitMarker line).1

/-- The text without its comments: lines that hold a part of a block comment are empty,
any other line ends where its comment begins. -/
def withoutComments (source : String) : String := String.ofList (copied lineCode source.toList)

example : withoutComments "int a // b\n/* c\nd */ e\nf" = "int a \n\n\nf" := by decide +kernel

theorem toList_withoutComments (source : String) :
    (withoutComments source).toList = copied lineCode source.toList := String.toList_ofList

theorem copiesParts_lineCode : CopiesParts lineCode where
  respaced {ok p line} here := by
    have hline : lineCode line ++ (splitMarker line).2 = line := splitMarker_append line
    have hcode : ∀ i < (lineCode line).length, ok (p + i) := by
      intro i hi
      refine here i ?_
      rw [← hline, List.length_append]
      omega
    have h : Respaced ok p (lineCode line ++ (splitMarker line).2) (lineCode line ++ []) :=
      .keep hcode (fun _ => nofun) .nil
    rwa [hline, List.append_nil] at h
  newline_notMem {line} h hm := by
    rw [← splitMarker_append line] at h
    exact h (List.mem_append_left _ hm)

theorem splitMarker_lineCode (line : List Char) :
    splitMarker (lineCode line) = (lineCode line, []) :=
  splitMarker_of_free (not_marks_code line)

/-- What is left of a line: nothing if it holds a part of a block comment, and otherwise
what stands in front of its first marker. -/
theorem getElem?_lines_withoutComments {source : String} {k : Nat} {line : List Char}
    (h : (lines source.toList)[k]? = some line) :
    ∃ code, (lines (withoutComments source).toList)[k]? = some code ∧
      (Covers (BlockComment.all source.toList) (k + 1) → code = []) ∧
      (¬ Covers (BlockComment.all source.toList) (k + 1) → ∃ comment, line = code ++ comment ∧
        (comment = [] ∨ Marks comment 0) ∧ ∀ i < code.length, ¬ Marks line i) := by
  rw [toList_withoutComments, copiesParts_lineCode.lines_copied, getElem?_copiedLines, h,
    Option.map_some]
  refine ⟨_, rfl, fun hc => if_pos hc, fun hc => ?_⟩
  have hcode : openLine lineCode (BlockComment.all source.toList) (line, k + 1) = lineCode line :=
    if_neg hc
  rw [hcode]
  refine ⟨(splitMarker line).2, (splitMarker_append line).symm, ?_, fun i => not_marker_of_lt⟩
  by_cases hr : (splitMarker line).2 = []
  · exact Or.inl hr
  · exact Or.inr (startsWithMarker_iff.mp (startsWithMarker_of_ne_nil hr))

/-! ## The events that are left -/

namespace Event

/-- Code holds no comment. -/
theorem filter_ofCode (k column : Nat) (code : List Char) :
    (ofCode k column code).filter (fun e => !e.isComment) = ofCode k column code := by
  refine List.filter_eq_self.mpr fun e he => ?_
  obtain ⟨⟨at_, piece⟩, hm, hp⟩ := List.mem_filterMap.mp he
  cases piece with
  | blank text => cases hp
  | stray c => cases hp; rfl
  | lexeme kind found =>
    cases hp
    have hkind := (segmented_pieces column code).kind_ne_comment (List.mem_map_of_mem hm)
    simpa [isComment] using hkind

/-- A line without its comment has the events of its code. -/
theorem ofLine_lineCode (k : Nat) (line : List Char) :
    ofLine k (lineCode line) = (ofLine k line).filter fun e => !e.isComment := by
  have hcomment : (ofLineComment k (splitMarker line).2).filter (fun e => !e.isComment) = [] := by
    unfold ofLineComment
    split <;> rfl
  rw [ofLine_eq, ofLine_eq, splitMarker_lineCode, List.filter_append, hcomment, filter_ofCode]
  rfl

/-- A text without its comments has the events that are no comments. -/
theorem ofSource_withoutComments (source : String) :
    ofSource (withoutComments source).toList =
      (ofSource source.toList).filter fun e => !e.isComment := by
  rw [toList_withoutComments, copiesParts_lineCode.ofSource_copied, ofSource_eq,
    List.filter_append, filter_comments, List.nil_append, ofOpenLines, List.filter_flatMap]
  refine List.flatMap_congr fun numbered _ => ?_
  obtain ⟨line, k⟩ := numbered
  unfold openLine
  dsimp only
  split
  · rfl
  · exact ofLine_lineCode k line

theorem filterMap_token?_filter (events : List Event) :
    (events.filter fun e => !e.isComment).filterMap token? =
      (events.filterMap token?).filter fun t => t.kind ≠ .comment := by
  rw [List.filterMap_filter, List.filter_filterMap]
  congr 1
  funext e
  cases e with
  | stray c line column => rfl
  | token t => by_cases h : t.kind = .comment <;> simp [isComment, token?, Option.filter, h]

end Event

/-! ## The analysis of what is left -/

/-- Comments are inert. Without them a text has as many lines, empty where they held a
part of a block comment and otherwise cut at their first marker. Its analysis emits the
tokens that are no comments, and ends with the same table and the same diagnostics. -/
theorem comments_inert (table : SymbolTable) (pushed : List Token) (source : String) :
    let found := BlockComment.all source.toList
    let bare := withoutComments source
    let a := analyzeWith table pushed source
    let b := analyzeWith table pushed bare
    ((lines bare.toList).length = (lines source.toList).length ∧
      ∀ k line, (lines source.toList)[k]? = some line →
        ∃ code, (lines bare.toList)[k]? = some code ∧ (Covers found (k + 1) → code = []) ∧
          (¬ Covers found (k + 1) → ∃ comment, line = code ++ comment ∧
            (comment = [] ∨ Marks comment 0) ∧ ∀ i < code.length, ¬ Marks line i)) ∧
    (b.tokens.toList = pushed ++ a.codeTokens pushed ∧
      ∀ t ∈ b.tokens.toList.drop pushed.length, t.kind ≠ .comment) ∧
    b.table = a.table ∧ b.diagnostics.toList = a.diagnostics.toList := by
  intro found bare a b
  have htokens : b.tokens.toList = pushed ++ a.codeTokens pushed := by
    rw [show b.tokens.toList = _ from tokens_analyzeWith table pushed bare,
      Event.ofSource_withoutComments, Event.filterMap_token?_filter]
    exact congrArg _ (codeTokens_analyzeWith table pushed source).symm
  have hevents : (Event.ofSource bare.toList).filter (fun e => !e.isComment) =
      (Event.ofSource source.toList).filter fun e => !e.isComment := by
    rw [Event.ofSource_withoutComments, List.filter_filter]
    simp only [Bool.and_self]
  refine ⟨⟨?_, fun k line => getElem?_lines_withoutComments⟩, ⟨htokens, fun t ht => ?_⟩,
    analyzeWith_congr table pushed hevents⟩
  · rw [toList_withoutComments, copiesParts_lineCode.lines_copied, length_copiedLines]
  · rw [htokens, List.drop_left] at ht
    exact of_decide_eq_true (List.mem_filter.mp ht).2

end ScopeLex
