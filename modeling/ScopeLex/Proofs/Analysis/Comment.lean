import ScopeLex.Proofs.Analysis.Report
import ScopeLex.Proofs.Comment.Extraction

/-!
# Block comments in an analysis

The block comments of a text come first among its tokens, and the lines they
cover are the lines that the scan leaves out.

* `BlockComment.isCommentAt_text`: a comment found is a comment from its first
  character to its last.
* `BlockComment.lineAt?_start`, `BlockComment.lineAt?_stop`: its offsets lie
  between characters, so that they have a line.
* `blockComments_exact`: extraction is exact and complete.
-/
namespace ScopeLex

open Text (byteSize byteSize_append lineAt? lineAt?_append lines)

/-! ## One comment -/

/-- What stands between two places is a comment if one stands there. -/
theorem IsCommentAt.slice {text : List Char} {i e : Nat} (h : IsCommentAt text i e) :
    IsCommentAt ((text.take e).drop i) 0 (e - i) := by
  have hl := h.long
  have closes_slice : ∀ j, j + 2 ≤ e - i →
      (Closes ((text.take e).drop i) j ↔ Closes text (i + j)) := by
    intro j hj
    rw [← closes_drop, List.drop_take, Closes, Closes, List.drop_take, List.prefix_take_iff]
    simp only [List.length_cons, List.length_nil, and_iff_left_iff_imp]
    omega
  have ho : Opens ((text.take e).drop i) 0 := by
    rw [Opens, List.drop_zero, List.drop_take, List.prefix_take_iff]
    exact ⟨h.opens, by simp only [List.length_cons, List.length_nil]; omega⟩
  refine ⟨ho, by omega, ?_, ?_⟩
  · rw [closes_slice _ (by omega), show i + (e - i - 2) = e - 2 by omega]
    exact h.closes
  · intro j h1 h2
    rw [closes_slice j (by omega)]
    exact h.first (i + j) (by omega) (by omega)

namespace BlockComment

variable {text : List Char} {i e : Nat}

theorem text_ofSpan : (ofSpan text (i, e)).text = (text.take e).drop i := rfl

theorem start_ofSpan :
    (ofSpan text (i, e)).start = ⟨byteSize (text.take i), 1 + (text.take i).count '\n'⟩ := by
  rw [ofSpan, Place.afterAll_eq, Nat.zero_add]

theorem length_text_ofSpan (h : e ≤ text.length) : (ofSpan text (i, e)).text.length = e - i := by
  rw [text_ofSpan, List.length_drop, List.length_take, Nat.min_eq_left h]

theorem take_append_text (h : i ≤ e) : text.take i ++ (ofSpan text (i, e)).text = text.take e := by
  rw [text_ofSpan]
  conv => rhs; rw [← List.take_append_drop i (text.take e), List.take_take, Nat.min_eq_left h]

/-- The source is what stands before a comment, the comment and the rest. -/
theorem append_text_append (h : i ≤ e) :
    text.take i ++ (ofSpan text (i, e)).text ++ text.drop e = text := by
  rw [take_append_text h, List.take_append_drop]

theorem stop_ofSpan (h : i ≤ e) : (ofSpan text (i, e)).stop = byteSize (text.take e) := by
  rw [stop, start_ofSpan, ← byteSize_append, take_append_text h]

/-- A comment found is a comment from its first character to its last. -/
theorem isCommentAt_text (h : IsCommentAt text i e) :
    IsCommentAt (ofSpan text (i, e)).text 0 (ofSpan text (i, e)).text.length := by
  rw [length_text_ofSpan h.le_length]
  exact h.slice

theorem lineAt?_start :
    lineAt? text (ofSpan text (i, e)).start.offset = some (ofSpan text (i, e)).firstLine := by
  have h := lineAt?_append (text.take i) (text.drop i)
  rw [List.take_append_drop] at h
  rw [firstLine, start_ofSpan]
  exact h

theorem lineAt?_stop (h : i ≤ e) :
    lineAt? text (ofSpan text (i, e)).stop = some (ofSpan text (i, e)).lastLine := by
  have hl := lineAt?_append (text.take e) (text.drop e)
  rw [List.take_append_drop] at hl
  rw [stop_ofSpan h, hl, lastLine, start_ofSpan, Nat.add_assoc, ← List.count_append,
    take_append_text h]

/-- An earlier place has the smaller offset. -/
theorem byteSize_take_le (text : List Char) {m n : Nat} (h : m ≤ n) :
    byteSize (text.take m) ≤ byteSize (text.take n) := by
  obtain ⟨k, rfl⟩ := Nat.exists_eq_add_of_le h
  rw [List.take_add, byteSize_append]
  exact Nat.le_add_right _ _

/-- A place further on inside the text has the greater one. -/
theorem byteSize_take_lt {text : List Char} {m n : Nat} (h : m < n) (hm : m < text.length) :
    byteSize (text.take m) < byteSize (text.take n) := by
  have hstep : byteSize (text.take (m + 1)) = byteSize (text.take m) + text[m].utf8Size := by
    rw [List.take_add_one, List.getElem?_eq_getElem hm, byteSize_append]
    rfl
  have hpos := text[m].utf8Size_pos
  have hle : byteSize (text.take (m + 1)) ≤ byteSize (text.take n) :=
    byteSize_take_le text h
  omega

end BlockComment

/-! ## The lines that are left out -/

/-- Line `k` holds a part of one of the comments. -/
def Covers (found : List BlockComment) (k : Nat) : Prop :=
  ∃ b ∈ found, b.firstLine ≤ k ∧ k ≤ b.firstLine + b.text.count '\n'

instance (found : List BlockComment) (k : Nat) : Decidable (Covers found k) :=
  inferInstanceAs (Decidable (∃ b ∈ found, _))

theorem isCovered_lineRange_iff {found : List BlockComment} {k : Nat} :
    Event.isCovered (found.map BlockComment.lineRange) k = true ↔ Covers found k := by
  rw [Event.isCovered_iff]
  constructor
  · intro h
    obtain ⟨r, hr, h1, h2⟩ := h
    obtain ⟨b, hb, rfl⟩ := List.mem_map.mp hr
    exact ⟨b, hb, h1, h2⟩
  · intro h
    obtain ⟨b, hb, h1, h2⟩ := h
    exact ⟨b.lineRange, List.mem_map_of_mem hb, h1, h2⟩

theorem ofLineUnless_eq (found : List BlockComment) (numbered : List Char × Nat) :
    Event.ofLineUnless (found.map BlockComment.lineRange) numbered =
      if Covers found numbered.2 then [] else Event.ofLine numbered.2 numbered.1 := by
  unfold Event.ofLineUnless
  by_cases h : Covers found numbered.2
  · rw [if_pos h, if_pos (isCovered_lineRange_iff.mpr h)]
  · rw [if_neg h, if_neg (fun hc => h (isCovered_lineRange_iff.mp hc))]

/-- A block comment as a token. -/
def BlockComment.token (b : BlockComment) : Token := ⟨.comment, String.ofList b.text, b.firstLine⟩

/-- The events of the lines that hold no part of a comment. -/
def Event.ofOpenLines (found : List BlockComment) (text : List Char) : List Event :=
  ((lines text).zipIdx 1).flatMap fun (line, k) => if Covers found k then [] else ofLine k line

theorem Event.ofOpenLines_eq (found : List BlockComment) (text : List Char) :
    ofOpenLines found text = ofLines (found.map BlockComment.lineRange) text := by
  have h : ofLineUnless (found.map BlockComment.lineRange) =
      fun (line, k) => if Covers found k then [] else ofLine k line :=
    funext (ofLineUnless_eq found)
  rw [ofLines_eq, h]
  rfl

theorem Event.ofSource_eq (text : List Char) :
    ofSource text = (BlockComment.all text).map (fun b => .token b.token) ++
      ofOpenLines (BlockComment.all text) text := by
  rw [ofOpenLines_eq]
  rfl

/-- The tokens of an analysis: those pushed, the block comments, and those of the
open lines. -/
theorem tokens_eq_append (table : SymbolTable) (pushed : List Token) (source : String) :
    (analyzeWith table pushed source).tokens.toList =
      pushed ++ (BlockComment.all source.toList).map BlockComment.token ++
        (Event.ofOpenLines (BlockComment.all source.toList) source.toList).filterMap
          Event.token? := by
  rw [tokens_analyzeWith, Event.ofSource_eq, List.filterMap_append, List.filterMap_map,
    List.append_assoc]
  congr 2
  exact congrFun List.filterMap_eq_map _

/-! ## Extraction -/

/-- An earlier place has as many newlines in front of it, or fewer. -/
theorem count_take_le (text : List Char) {m n : Nat} (h : m ≤ n) :
    (text.take m).count '\n' ≤ (text.take n).count '\n' := by
  obtain ⟨k, rfl⟩ := Nat.exists_eq_add_of_le h
  rw [List.take_add, List.count_append]
  exact Nat.le_add_right _ _

/-- No newline stands inside an opener. -/
theorem count_take_succ_of_opens {text : List Char} {i : Nat} (h : Opens text i) :
    (text.take (i + 1)).count '\n' = (text.take i).count '\n' := by
  obtain ⟨rest, hrest⟩ := h
  have hslash : text[i]? = some '/' := by
    rw [← List.head?_drop, ← hrest]
    rfl
  rw [List.take_add_one, hslash, List.count_append]
  rfl

/-- An opener that can be closed stands on a line that holds a part of a comment. -/
theorem covers_of_closable {text : List Char} {i : Nat} (h : Closable text i) :
    Covers (BlockComment.all text) (1 + (text.take i).count '\n') := by
  obtain ⟨spans, hs, hf⟩ := BlockComment.all_eq_map_ofSpan text
  obtain ⟨⟨start, stop⟩, hm, h1, h2⟩ := hs.overlaps (Nat.zero_le i) h
  have hc : IsCommentAt text start stop := (hs.mem hm).2
  have hle : start ≤ stop := by have := hc.long; omega
  have hfirst : (BlockComment.ofSpan text (start, stop)).firstLine =
      1 + (text.take start).count '\n' := by
    rw [BlockComment.firstLine, BlockComment.start_ofSpan]
  refine ⟨BlockComment.ofSpan text (start, stop), ?_, ?_, ?_⟩
  · rw [hf]
    exact List.mem_map_of_mem hm
  · have hbefore := count_take_le text (Nat.le_of_lt_succ h1)
    rw [count_take_succ_of_opens h.1] at hbefore
    rw [hfirst]
    exact Nat.add_le_add_left hbefore 1
  · have hbehind := count_take_le text (Nat.le_of_lt h2)
    rw [hfirst, Nat.add_assoc, ← List.count_append, BlockComment.take_append_text hle]
    exact Nat.add_le_add_left hbehind 1

/-- A text without such an opener has no block comments. -/
theorem BlockComment.all_eq_nil {text : List Char} (h : ∀ i, ¬ Closable text i) :
    all text = [] := by
  obtain ⟨spans, hs, hf⟩ := all_eq_map_ofSpan text
  cases spans with
  | nil => exact hf
  | cons s spans => exact absurd (hs.mem List.mem_cons_self).2.closable (h s.1)

/-- Only such a text has none. -/
theorem BlockComment.all_eq_nil_iff {text : List Char} :
    all text = [] ↔ ∀ i, ¬ Closable text i := by
  refine ⟨fun hnone i hi => ?_, all_eq_nil⟩
  obtain ⟨b, hb, -⟩ := covers_of_closable hi
  rw [hnone] at hb
  cases hb

/-- Extraction is exact and complete: the comments found are the ones of the
scanner, they ascend, each is the slice of the source at its offset and a
comment from its first character to its last, both its offsets have a line, and
no opener that can be closed is passed. Their tokens come first, and exactly
the lines that hold a part of one are left out. -/
theorem blockComments_exact (table : SymbolTable) (pushed : List Token) (source : String) :
    let text := source.toList
    let found := BlockComment.all text
    (∃ spans, Scanned text 0 spans ∧ (∀ other, Scanned text 0 other → other = spans) ∧
      found = spans.map (BlockComment.ofSpan text) ∧
      ∀ i, Closable text i → ∃ s ∈ spans, s.1 < i + 2 ∧ i < s.2) ∧
    found.Pairwise (fun a b => a.stop ≤ b.start.offset) ∧
    (∀ b ∈ found,
      (∃ before after, text = before ++ b.text ++ after ∧
        b.start = ⟨byteSize before, 1 + before.count '\n'⟩) ∧
      IsCommentAt b.text 0 b.text.length ∧
      lineAt? text b.start.offset = some b.firstLine ∧ lineAt? text b.stop = some b.lastLine) ∧
    Event.ofSource text = found.map (fun b => .token b.token) ++ Event.ofOpenLines found text ∧
    (analyzeWith table pushed source).tokens.toList =
      pushed ++ found.map BlockComment.token ++
        (Event.ofOpenLines found text).filterMap Event.token? := by
  intro text found
  obtain ⟨spans, hs, hf⟩ := BlockComment.all_eq_map_ofSpan text
  have hf : found = spans.map (BlockComment.ofSpan text) := hf
  have hcomment : ∀ s ∈ spans, IsCommentAt text s.1 s.2 := fun s h => (hs.mem h).2
  refine ⟨⟨spans, hs, fun other ho => hs.unique ho, hf, fun i hi => hs.overlaps (Nat.zero_le i) hi⟩,
    ?_, ?_, Event.ofSource_eq text, tokens_eq_append table pushed source⟩
  · rw [hf, List.pairwise_map]
    refine hs.pairwise.imp_of_mem fun {a b} ha hb hab => ?_
    have := (hcomment a ha).long
    rw [BlockComment.stop_ofSpan (by omega), BlockComment.start_ofSpan]
    exact BlockComment.byteSize_take_le text hab
  · intro b hb
    rw [hf] at hb
    obtain ⟨⟨i, e⟩, hm, rfl⟩ := List.mem_map.mp hb
    have hc : IsCommentAt text i e := hcomment _ hm
    have hle : i ≤ e := by have := hc.long; omega
    exact ⟨⟨text.take i, text.drop e, (BlockComment.append_text_append hle).symm,
      BlockComment.start_ofSpan⟩, BlockComment.isCommentAt_text hc, BlockComment.lineAt?_start,
      BlockComment.lineAt?_stop hle⟩

/-- An opener alone is no comment: the closer needs characters of its own. -/
example : BlockComment.all "/*/".toList = [] := by decide +kernel

end ScopeLex
