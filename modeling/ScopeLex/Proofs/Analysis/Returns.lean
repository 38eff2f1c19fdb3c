import ScopeLex.Diagnostic.Render
import ScopeLex.Proofs.Analysis.HandOver
import ScopeLex.Proofs.Analysis.Scan
import ScopeLex.Proofs.Comment.Returns
import ScopeLex.Proofs.Token.Trailing

/-!
# Line ends do not matter

A text may end its lines with a carriage return and a newline. The carriage return is a
blank at the end of the code or is trimmed from a line comment, so that each line is
scanned as before; only in block comments it stays.

* `Event.ofLine_concat_return`: a carriage return at the end of a line has no effect.
* `Event.ofOpenLines_withReturns`: the open lines of both texts have the same events.
* `returns_inert`: what changes in an analysis, and what does not.
-/
namespace ScopeLex

open Text (lines trimReturns withReturns UpToReturn lines_withReturns line?_withReturns)

/-! ## Lines -/

namespace Event

/-- A carriage return at the end of a line has no effect. -/
theorem ofLine_concat_return (k : Nat) (line : List Char) :
    ofLine k (line ++ ['\r']) = ofLine k line := by
  have hblank : ∀ c ∈ ['\r'], Text.isBlank c = true := by
    intro c hc
    rw [List.mem_singleton.mp hc]
    rfl
  rw [ofLine_eq, ofLine_eq, splitMarker_concat (by decide)]
  split
  · rename_i hnone
    have hline := splitMarker_append line
    rw [hnone, List.append_nil] at hline
    rw [hnone, hline, ofCode_append_blanks hblank]
  · rename_i hsome
    have htrim : trimReturns ((splitMarker line).2 ++ ['\r']) = trimReturns (splitMarker line).2 :=
      UpToReturn.trimReturns_eq (Or.inr rfl)
    have hsome' : (splitMarker line).2 ++ ['\r'] ≠ [] := List.append_ne_nil_of_left_ne_nil hsome _
    rw [ofLineComment_eq, ofLineComment_eq, lineCommentToken, lineCommentToken, if_neg hsome,
      if_neg hsome', htrim]

theorem ofLine_upToReturn {line other : List Char} (h : UpToReturn line other) (k : Nat) :
    ofLine k other = ofLine k line := by
  rcases h with rfl | rfl
  · rfl
  · exact ofLine_concat_return k line

/-- Lists whose members have the same parts, number by number. -/
theorem flatMap_zipIdx_of_forall₂ {α β : Type} {R : α → α → Prop} {f g : α × Nat → List β}
    (h : ∀ a b k, R a b → g (b, k) = f (a, k)) {l m : List α} (hl : List.Forall₂ R l m) (n : Nat) :
    (m.zipIdx n).flatMap g = (l.zipIdx n).flatMap f := by
  induction hl generalizing n with
  | nil => rfl
  | cons first _ ih =>
    rw [List.zipIdx_cons, List.zipIdx_cons, List.flatMap_cons, List.flatMap_cons, ih,
      h _ _ n first]

/-- The open lines of both texts have the same events. -/
theorem ofOpenLines_withReturns (text : List Char) :
    ofOpenLines (BlockComment.all (withReturns text)) (withReturns text) =
      ofOpenLines (BlockComment.all text) text := by
  refine flatMap_zipIdx_of_forall₂ (fun line other k h => ?_) (lines_withReturns text) 1
  dsimp only
  rw [ofLine_upToReturn h k]
  simp only [covers_withReturns_iff]

end Event

/-! ## The analysis -/

/-- The source with a carriage return in front of each newline. -/
def crlf (source : String) : String := String.ofList (withReturns source.toList)

example : crlf "a // b\n/* c\r\n*/" = "a // b\r\n/* c\r\r\n*/" := by decide +kernel

theorem toList_crlf (source : String) : (crlf source).toList = withReturns source.toList :=
  String.toList_ofList

theorem filter_ofSource_crlf (source : String) :
    (Event.ofSource (crlf source).toList).filter (fun e => !e.isComment) =
      (Event.ofSource source.toList).filter fun e => !e.isComment := by
  rw [toList_crlf, Event.ofSource_eq, Event.ofSource_eq, List.filter_append, List.filter_append,
    Event.filter_comments, Event.filter_comments, Event.ofOpenLines_withReturns]

theorem scannedTokens_crlf (table : SymbolTable) (pushed : List Token) (source : String) :
    scannedTokens table pushed (crlf source) = scannedTokens table pushed source := by
  rw [scannedTokens_eq, scannedTokens_eq, toList_crlf, Event.ofOpenLines_withReturns]

/-- A diagnostic is shown alike beside both texts. -/
theorem render_crlf (d : Diagnostic) (source : String) :
    d.render (crlf source).toList = d.render source.toList := by
  rw [Diagnostic.render, Diagnostic.render, Diagnostic.rows, Diagnostic.rows, toList_crlf,
    line?_withReturns]

/-- Line ends do not matter. If each newline comes to stand behind a carriage return, the
table and the diagnostics are the same, and so is what shows a diagnostic beside the
text. The tokens are the same one by one, but for the carriage returns that block
comments now have inside. -/
theorem returns_inert (table : SymbolTable) (pushed : List Token) (source : String) :
    let found := BlockComment.all source.toList
    let a := analyzeWith table pushed source
    let b := analyzeWith table pushed (crlf source)
    b.table = a.table ∧ b.diagnostics.toList = a.diagnostics.toList ∧
    (a.tokens.toList =
        pushed ++ found.map BlockComment.token ++ scannedTokens table pushed source ∧
      b.tokens.toList =
        pushed ++ found.map BlockComment.tokenWithReturns ++ scannedTokens table pushed source) ∧
    ∀ d : Diagnostic, d.render (crlf source).toList = d.render source.toList := by
  intro found a b
  obtain ⟨htable, hdiagnostics⟩ := analyzeWith_congr table pushed (filter_ofSource_crlf source)
  refine ⟨htable, hdiagnostics, ⟨?_, ?_⟩, fun d => render_crlf d source⟩
  · rw [scannedTokens_eq]
    exact tokens_eq_append table pushed source
  · rw [← scannedTokens_crlf, scannedTokens_eq, ← BlockComment.map_token_withReturns,
      ← toList_crlf]
    exact tokens_eq_append table pushed (crlf source)

end ScopeLex
