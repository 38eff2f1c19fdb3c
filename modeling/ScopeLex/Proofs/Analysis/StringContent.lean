import ScopeLex.Proofs.Analysis.Scan
import ScopeLex.Proofs.Comment.Joined
import ScopeLex.Proofs.Text.Lines
import ScopeLex.Proofs.Token.First

/-!
# What stands between quotes

Comments are looked for before strings and with no regard to quotes, so that a string
hides its content from the other tokens, but not from comments. A line that is one
string by its escapes is one token exactly if no comment begins between the quotes.

* `StringContent`, `freeQuote?_eq_length_iff`: a content leaves no quote free in front of
  the closing one.
* `pair_quoted_iff`: quotes add no marker, no opener and no closer.
* `ofSource_quoted`: without a comment the string is all there is.
* `exists_comment_of_marks`, `exists_comment_of_closable`: the comment that is found else.
* `string_hides_content_iff`: when a string hides its content.
-/
namespace ScopeLex

open Text (lines trimReturns)

/-! ## Contents -/

/-- What may stand between the quotes of a string: a backslash together with the
character after it, whatever that is, and characters that need no escape. -/
inductive StringContent : List Char → Prop
  | nil : StringContent []
  | pair (c : Char) {w : List Char} (tail : StringContent w) : StringContent ('\\' :: c :: w)
  | plain {c : Char} {w : List Char} (hq : c ≠ '"') (hb : c ≠ '\\') (tail : StringContent w) :
      StringContent (c :: w)

theorem freeQuote?_of_content {w : List Char} (h : StringContent w) :
    freeQuote? false (w ++ ['"']) = some w.length := by
  induction h with
  | nil => rfl
  | pair c tail ih =>
    rw [List.cons_append, List.cons_append, freeQuote?_pair, ih]
    rfl
  | plain hq hb tail ih =>
    rw [List.cons_append, freeQuote?_plain hq fun hp => hb hp.1, ih]
    rfl

theorem map_add_eq_some_iff {place : Option Nat} {m n : Nat} :
    place.map (· + m) = some (n + m) ↔ place = some n := by
  cases place <;> simp

theorem content_of_freeQuote? {w : List Char} (h : freeQuote? false (w ++ ['"']) = some w.length) :
    StringContent w := by
  -- A pair is passed as a whole, so that the recursion goes back two characters or one.
  match w with
  | [] => exact .nil
  | c :: w =>
    by_cases hq : c = '"'
    · subst hq
      cases h
    by_cases hb : c = '\\'
    · subst hb
      cases w with
      | nil => cases h
      | cons d w =>
        rw [List.cons_append, List.cons_append, freeQuote?_pair] at h
        exact .pair d (content_of_freeQuote? (map_add_eq_some_iff.mp h))
    · rw [List.cons_append, freeQuote?_plain hq fun hp => hb hp.1] at h
      exact .plain hq hb (content_of_freeQuote? (map_add_eq_some_iff.mp h))
termination_by w.length

/-- A text is a content exactly if the quote behind it is the first that is free. -/
theorem freeQuote?_eq_length_iff {w : List Char} :
    freeQuote? false (w ++ ['"']) = some w.length ↔ StringContent w :=
  ⟨content_of_freeQuote?, freeQuote?_of_content⟩

instance (w : List Char) : Decidable (StringContent w) :=
  decidable_of_iff _ freeQuote?_eq_length_iff

/-- A text between quotes. -/
def quoted (w : List Char) : List Char := '"' :: (w ++ ['"'])

/-- The pattern of strings takes both quotes and what stands between them. -/
theorem firstLexeme?_quoted {w : List Char} (h : StringContent w) :
    firstLexeme? (quoted w) = some (.stringLiteral, quoted w) := by
  have hclosing : closingQuote? (w ++ ['"']) = some w.length := by
    rw [closingQuote?, freeQuote?_of_content h]
    rfl
  have hall : (w ++ ['"']).take (w.length + 1) = w ++ ['"'] :=
    List.take_of_length_le (by rw [List.length_append]; exact Nat.le_refl _)
  rw [quoted, firstLexeme?_quote, hclosing, Option.map_some, hall]

theorem pieces_quoted {w : List Char} (h : StringContent w) (column : Nat) :
    pieces column (quoted w) = [(column, .lexeme .stringLiteral (quoted w))] := by
  have hfirst : Piece.first '"' (w ++ ['"']) = .lexeme .stringLiteral (quoted w) := by
    have hlexeme := firstLexeme?_quoted h
    rw [quoted] at hlexeme
    rw [Piece.first, if_neg (by decide), hlexeme]
    rfl
  rw [quoted, pieces_cons, hfirst, Piece.text, quoted, List.drop_length, pieces_nil]

/-! ## Comments between quotes -/

variable {w : List Char} {i : Nat}

/-- Quotes add no pair of signs, for none of them is a quote. -/
theorem pair_quoted_iff {a b : Char} (ha : '"' ≠ a) (hb : '"' ≠ b) :
    [a, b] <+: (quoted w).drop i ↔ ∃ j, i = j + 1 ∧ [a, b] <+: w.drop j := by
  cases i with
  | zero =>
    constructor
    · intro h
      rw [List.drop_zero, quoted, List.cons_prefix_cons] at h
      exact absurd h.1.symm ha
    · rintro ⟨j, hj, -⟩
      cases hj
  | succ i =>
    rw [quoted, List.drop_succ_cons, pair_concat_iff hb]
    constructor
    · exact fun h => ⟨i, rfl, h⟩
    · rintro ⟨j, hj, h⟩
      cases hj
      exact h

theorem marks_quoted_iff : Marks (quoted w) i ↔ ∃ j, i = j + 1 ∧ Marks w j :=
  pair_quoted_iff (by decide) (by decide)

theorem closable_quoted_iff : Closable (quoted w) i ↔ ∃ j, i = j + 1 ∧ Closable w j := by
  have hopens : ∀ k, Opens (quoted w) k ↔ ∃ j, k = j + 1 ∧ Opens w j :=
    fun _ => pair_quoted_iff (by decide) (by decide)
  have hcloses : ∀ k, Closes (quoted w) k ↔ ∃ j, k = j + 1 ∧ Closes w j :=
    fun _ => pair_quoted_iff (by decide) (by decide)
  constructor
  · rintro ⟨ho, e, he, hc⟩
    obtain ⟨j, rfl, hj⟩ := (hopens i).mp ho
    obtain ⟨m, rfl, hm⟩ := (hcloses e).mp hc
    exact ⟨j, rfl, hj, m, by omega, hm⟩
  · rintro ⟨j, rfl, ho, e, he, hc⟩
    exact ⟨(hopens _).mpr ⟨j, rfl, ho⟩, e + 1, by omega, (hcloses _).mpr ⟨e, rfl, hc⟩⟩

/-- A comment begins somewhere in the text. -/
def HoldsComment (w : List Char) : Prop := (∃ i, Marks w i) ∨ ∃ i, Closable w i

theorem holdsComment_iff :
    HoldsComment w ↔ (splitMarker w).2 ≠ [] ∨ BlockComment.all w ≠ [] := by
  rw [HoldsComment, ne_eq, snd_splitMarker_eq_nil_iff, not_forall_not, ne_eq,
    BlockComment.all_eq_nil_iff, not_forall_not]

instance (w : List Char) : Decidable (HoldsComment w) := decidable_of_iff' _ holdsComment_iff

/-- The token is a comment that begins between the quotes, at place `i` of the text. -/
structure BeginsInside (w : List Char) (i : Nat) (t : Token) : Prop where
  kind : t.kind = .comment
  inside : i < w.length
  begins : Marks w i ∨ Closable w i
  /-- The lexeme is what stands from there on, the closing quote included. -/
  lexeme : t.lexeme.toList <+: w.drop i ++ ['"']
  long : 2 ≤ t.lexeme.length

theorem drop_quoted (h : i ≤ w.length) : (quoted w).drop (i + 1) = w.drop i ++ ['"'] :=
  List.drop_append_of_le_length h

/-! ## The scan -/

theorem lines_quoted (hn : '\n' ∉ w) : lines (quoted w) = [quoted w] := by
  refine Text.lines_of_notMem fun hm => ?_
  rw [quoted, List.mem_cons, List.mem_append, List.mem_singleton] at hm
  rcases hm with he | hm | he
  · cases he
  · exact hn hm
  · cases he

/-- Where no comment can be closed the only line is scanned. -/
theorem ofSource_quoted_of_open (hn : '\n' ∉ w) (hclosable : ∀ i, ¬ Closable w i) :
    Event.ofSource (quoted w) = Event.ofLine 1 (quoted w) := by
  have hall : BlockComment.all (quoted w) = [] := by
    refine BlockComment.all_eq_nil fun i hi => ?_
    obtain ⟨j, -, hj⟩ := closable_quoted_iff.mp hi
    exact hclosable j hj
  have hopen : ¬ Covers [] 1 := by
    rintro ⟨b, hb, -⟩
    cases hb
  rw [Event.ofSource_eq, hall, Event.ofOpenLines, lines_quoted hn, List.zipIdx_singleton,
    List.flatMap_singleton]
  show (if Covers [] 1 then [] else Event.ofLine 1 (quoted w)) = _
  rw [if_neg hopen]

/-- Without a comment the string is all there is. -/
theorem ofSource_quoted (hw : StringContent w) (hn : '\n' ∉ w) (hfree : ¬ HoldsComment w) :
    Event.ofSource (quoted w) = [.token ⟨.stringLiteral, String.ofList (quoted w), 1⟩] := by
  rw [HoldsComment, not_or] at hfree
  obtain ⟨hmarks, hclosable⟩ := hfree
  have hsplit : splitMarker (quoted w) = (quoted w, []) := by
    refine splitMarker_of_free fun i hi => ?_
    obtain ⟨j, -, hj⟩ := marks_quoted_iff.mp hi
    exact hmarks ⟨j, hj⟩
  rw [ofSource_quoted_of_open hn fun i hi => hclosable ⟨i, hi⟩, Event.ofLine_eq, hsplit,
    Event.ofCode, pieces_quoted hw]
  rfl

/-- An opener with a closer behind it begins a comment, which may be an earlier one. -/
theorem exists_comment_of_closable (h : Closable w i) :
    ∃ t, .token t ∈ Event.ofSource (quoted w) ∧ ∃ j, BeginsInside w j t := by
  obtain ⟨b, hb, -⟩ := covers_of_closable (closable_quoted_iff.mpr ⟨i, rfl, h⟩)
  obtain ⟨start, stop, hc, rfl⟩ := BlockComment.exists_span_of_mem_all hb
  obtain ⟨j, rfl, hj⟩ := closable_quoted_iff.mp hc.closable
  have hlt : j < w.length := hj.1.lt_length
  have hlong := hc.long
  refine ⟨(BlockComment.ofSpan (quoted w) (j + 1, stop)).token, ?_, j, rfl, hlt, Or.inr hj, ?_, ?_⟩
  · rw [Event.ofSource_eq]
    exact List.mem_append_left _ (List.mem_map_of_mem hb)
  · rw [BlockComment.token, String.toList_ofList, BlockComment.text_ofSpan, List.drop_take,
      drop_quoted (Nat.le_of_lt hlt)]
    exact List.take_prefix _ _
  · rw [BlockComment.token, String.length_ofList, BlockComment.length_text_ofSpan hc.le_length]
    omega

/-- Where no comment can be closed, the first marker begins one. It takes the rest of the
line, to which the closing quote belongs. -/
theorem exists_comment_of_marks (hn : '\n' ∉ w) (hclosable : ∀ i, ¬ Closable w i)
    (h : Marks w i) : ∃ t, .token t ∈ Event.ofSource (quoted w) ∧ ∃ j, BeginsInside w j t := by
  have hline := splitMarker_append (quoted w)
  have hsome : (splitMarker (quoted w)).2 ≠ [] := fun hnone =>
    snd_splitMarker_eq_nil_iff.mp hnone (i + 1) (marks_quoted_iff.mpr ⟨i, rfl, h⟩)
  have hmarks := startsWithMarker_iff.mp (startsWithMarker_of_ne_nil hsome)
  -- The cut, as a place between the quotes.
  have hrest : (quoted w).drop (splitMarker (quoted w)).1.length = (splitMarker (quoted w)).2 := by
    conv => lhs; arg 2; rw [← hline]
    exact List.drop_left
  obtain ⟨j, hj, hbegins⟩ : ∃ j, (splitMarker (quoted w)).1.length = j + 1 ∧ Marks w j := by
    refine marks_quoted_iff.mp ?_
    rw [Marks, hrest]
    exact hmarks
  have hlt : j < w.length := Nat.lt_of_succ_lt (pair_le_length hbegins)
  rw [hj, drop_quoted (Nat.le_of_lt hlt)] at hrest
  have hkept : trimReturns (w.drop j ++ ['"']) = w.drop j ++ ['"'] := by
    rw [trimReturns, Text.trimEnd_append_singleton, if_neg (by decide)]
  refine ⟨⟨.comment, String.ofList (w.drop j ++ ['"']), 1⟩, ?_, j, rfl, hlt, Or.inl hbegins, ?_, ?_⟩
  · rw [ofSource_quoted_of_open hn hclosable, Event.ofLine_eq, Event.ofLineComment_eq,
      Event.lineCommentToken, if_neg hsome, ← hrest, hkept]
    exact List.mem_append_left _ List.mem_cons_self
  · exact ⟨[], (List.append_nil _).trans String.toList_ofList⟩
  · rw [String.length_ofList, List.length_append, List.length_drop, List.length_singleton]
    omega

/-- A string hides its content exactly if no comment begins in it: then the text between
quotes is one token, nothing is reported and the table stays as it was. Else a comment is
emitted that begins between the quotes. -/
theorem string_hides_content_iff (table : SymbolTable) {w : List Char} (hw : StringContent w)
    (hn : '\n' ∉ w) :
    let source := String.ofList (quoted w)
    let a := analyzeWith table [] source
    (a.tokens.toList = [⟨.stringLiteral, source, 1⟩] ∧ a.diagnostics.toList = [] ∧
        a.table = table ↔ ¬ HoldsComment w) ∧
      (HoldsComment w → ∃ t ∈ a.tokens.toList, ∃ i, BeginsInside w i t) := by
  intro source a
  have htext : source.toList = quoted w := String.toList_ofList
  have htokens : a.tokens.toList = (Event.ofSource (quoted w)).filterMap Event.token? := by
    have ht := tokens_analyzeWith table [] source
    rwa [htext, List.nil_append] at ht
  have hcomment : HoldsComment w → ∃ t ∈ a.tokens.toList, ∃ i, BeginsInside w i t := by
    intro hholds
    obtain ⟨t, ht, hinside⟩ :
        ∃ t, .token t ∈ Event.ofSource (quoted w) ∧ ∃ i, BeginsInside w i t := by
      by_cases hc : ∃ i, Closable w i
      · obtain ⟨i, hi⟩ := hc
        exact exists_comment_of_closable hi
      · obtain ⟨i, hi⟩ := hholds.resolve_right hc
        exact exists_comment_of_marks hn (not_exists.mp hc) hi
    rw [htokens]
    exact ⟨t, List.mem_filterMap.mpr ⟨_, ht, rfl⟩, hinside⟩
  refine ⟨⟨fun hone hholds => ?_, fun hfree => ?_⟩, hcomment⟩
  · obtain ⟨t, ht, i, hinside⟩ := hcomment hholds
    rw [hone.1, List.mem_singleton] at ht
    rw [ht] at hinside
    cases hinside.kind
  · have hevents := ofSource_quoted hw hn hfree
    refine ⟨?_, ?_, ?_⟩
    · rw [htokens, hevents]
      rfl
    · show (analyzeWith table [] source).diagnostics.toList = []
      rw [diagnostics_analyzeWith, htext, hevents]
      rfl
    · show (analyzeWith table [] source).table = table
      rw [table_analyzeWith, htext, hevents]
      rfl

/-- An escaped quote and an opener that nothing closes are hidden by a string, a marker is
not. -/
theorem string_hides_opener_not_marker :
    let hidden := "\\\" */ int /*/".toList
    let shown := "int \\\\ // a".toList
    (analyzeWith (.empty 1000) [] (String.ofList (quoted hidden))).tokens.size = 1 ∧
      ∃ t ∈ (analyzeWith (.empty 1000) [] (String.ofList (quoted shown))).tokens.toList,
        ∃ i, BeginsInside shown i t := by
  intro hidden shown
  have hhidden := string_hides_content_iff (.empty 1000) (w := hidden) (by decide) (by decide)
  have hshown := string_hides_content_iff (.empty 1000) (w := shown) (by decide) (by decide)
  have hone := (hhidden.1.mpr (by decide +kernel)).1
  exact ⟨congrArg List.length hone, hshown.2 (by decide +kernel)⟩

end ScopeLex
