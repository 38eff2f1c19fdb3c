import ScopeLex.Proofs.Token.Quoted

/-!
# What a quoted lexeme takes

The text behind the opening quote of a string falls into units: a backslash with the
character after it, unless that is a newline, and single characters. A quote that is a
unit of its own ends the string. If there is none, the last pair with a quote is given
up, and its quote ends the string. A character literal has a pair between its quotes
or, where that does not fit, one character.

* `freeQuote?_eq`, `closingQuote?_free`, `closingQuote?_escaped`: the closing quote among
  the units.
* `StringLexeme`, `CharLexeme`: how a lexeme stands at the start of a text.
* `lexeme?_stringLiteral_iff`, `lexeme?_charLiteral_iff`: they are what is matched.
* `quoted_extent`: both patterns on every text.
-/
namespace ScopeLex

/-! ## Units -/

/-- The text as it is read behind an opening quote: a backslash takes the character after
it with it, unless that is a newline. -/
def readUnits : List Char → List (List Char)
  | [] => []
  | [c] => [[c]]
  | c :: d :: text =>
    if c = '\\' ∧ d ≠ '\n' then [c, d] :: readUnits text else [c] :: readUnits (d :: text)

/-- Nothing of the text is left out. -/
theorem flatten_readUnits (text : List Char) : (readUnits text).flatten = text := by
  fun_induction readUnits text with
  | case1 => rfl
  | case2 c => rfl
  | case3 c d text _ ih => rw [List.flatten_cons, ih]; rfl
  | case4 c d text _ ih => rw [List.flatten_cons, ih]; rfl

/-- The text on both sides of a unit. -/
theorem eq_of_readUnits {text unit : List Char} {before after : List (List Char)}
    (h : readUnits text = before ++ unit :: after) :
    text = before.flatten ++ (unit ++ after.flatten) := by
  rw [← flatten_readUnits text, h, List.flatten_append, List.flatten_cons]

/-- A quote is a unit of its own or stands behind a backslash. -/
theorem eq_of_quote_mem {text unit : List Char} (h : unit ∈ readUnits text) (hq : '"' ∈ unit) :
    unit = ['"'] ∨ unit = ['\\', '"'] := by
  fun_induction readUnits text with
  | case1 => cases h
  | case2 c =>
    cases List.mem_singleton.mp h
    rw [← List.mem_singleton.mp hq]
    exact Or.inl rfl
  | case3 c d text hpair ih =>
    rcases List.mem_cons.mp h with rfl | h
    · obtain ⟨rfl, -⟩ := hpair
      rcases List.mem_cons.mp hq with he | hq
      · exact absurd he (by decide)
      · rw [← List.mem_singleton.mp hq]
        exact Or.inr rfl
    · exact ih h
  | case4 c d text _ ih =>
    rcases List.mem_cons.mp h with rfl | h
    · rw [← List.mem_singleton.mp hq]
      exact Or.inl rfl
    · exact ih h

/-! ## The closing quote -/

/-- The place in the text of the first unit that is a quote. -/
def quoteUnit? : List (List Char) → Option Nat
  | [] => none
  | unit :: units =>
    if unit = ['"'] then some 0 else (quoteUnit? units).map (· + unit.length)

theorem quoteUnit?_append {before : List (List Char)} (h : ['"'] ∉ before)
    (after : List (List Char)) :
    quoteUnit? (before ++ ['"'] :: after) = some before.flatten.length := by
  induction before with
  | nil => rfl
  | cons unit before ih =>
    rw [List.mem_cons, not_or] at h
    rw [List.cons_append, quoteUnit?, if_neg (Ne.symm h.1), ih h.2, List.flatten_cons,
      List.length_append, Nat.add_comm]
    rfl

theorem quoteUnit?_eq_none {units : List (List Char)} (h : ['"'] ∉ units) :
    quoteUnit? units = none := by
  induction units with
  | nil => rfl
  | cons unit units ih =>
    rw [List.mem_cons, not_or] at h
    rw [quoteUnit?, if_neg (Ne.symm h.1), ih h.2]
    rfl

/-- A quote is free where it is a unit of its own. -/
theorem freeQuote?_eq (text : List Char) : freeQuote? false text = quoteUnit? (readUnits text) := by
  fun_induction readUnits text with
  | case1 => rfl
  | case2 c =>
    by_cases hc : c = '"'
    · subst hc
      rfl
    · simp [freeQuote?, quoteUnit?, hc]
  | case3 c d text hpair ih =>
    obtain ⟨rfl, -⟩ := hpair
    rw [freeQuote?_pair, ih, quoteUnit?, if_neg (by simp)]
    rfl
  | case4 c d text hpair ih =>
    by_cases hc : c = '"'
    · subst hc
      rfl
    · have hplain : ¬ (c = '\\' ∧ (d :: text).head?.any (· != '\n')) := by simpa using hpair
      rw [freeQuote?_plain hc hplain, ih, quoteUnit?, if_neg (by simpa using hc)]
      rfl

/-- The first quote that is a unit of its own closes the string. -/
theorem closingQuote?_free {text : List Char} {before after : List (List Char)}
    (hunits : readUnits text = before ++ ['"'] :: after) (hfirst : ['"'] ∉ before) :
    closingQuote? text = some before.flatten.length := by
  rw [closingQuote?, freeQuote?_eq, hunits, quoteUnit?_append hfirst, Option.some_or]

/-- Without such a quote the last one of the text closes the string. -/
theorem closingQuote?_escaped {text : List Char} {before after : List (List Char)}
    (hunits : readUnits text = before ++ ['\\', '"'] :: after) (hnone : ['"'] ∉ readUnits text)
    (hlast : '"' ∉ after.flatten) :
    closingQuote? text = some (before.flatten.length + 1) := by
  have hquote : lastQuote? (['\\', '"'] ++ after.flatten) = some 1 := by
    rw [lastQuote?_append, lastQuote?_eq_none.mpr hlast]
    rfl
  rw [closingQuote?, freeQuote?_eq, quoteUnit?_eq_none hnone, Option.none_or,
    eq_of_readUnits hunits, lastQuote?_append, hquote, Option.map_some, Option.some_or,
    Nat.add_comm]

/-! ## Strings -/

/-- How a string stands at the start of a text. -/
inductive StringLexeme : List Char → List Char → Prop
  /-- The first quote that is a unit of its own ends the string. -/
  | free {rest : List Char} {before after : List (List Char)}
      (units : readUnits rest = before ++ ['"'] :: after) (first : ['"'] ∉ before) :
      StringLexeme ('"' :: rest) ('"' :: before.flatten ++ ['"'])
  /-- All quotes stand behind backslashes; the last one ends the string. -/
  | escaped {rest : List Char} {before after : List (List Char)}
      (units : readUnits rest = before ++ ['\\', '"'] :: after)
      (none_free : ['"'] ∉ readUnits rest) (last : '"' ∉ after.flatten) :
      StringLexeme ('"' :: rest) ('"' :: before.flatten ++ ['\\', '"'])

/-- One more quote is enough for a string. -/
theorem exists_stringLexeme {rest : List Char} (h : '"' ∈ rest) :
    ∃ lexeme, StringLexeme ('"' :: rest) lexeme := by
  by_cases hfree : ['"'] ∈ readUnits rest
  · obtain ⟨before, after, hunits, hfirst⟩ := List.eq_append_cons_of_mem hfree
    exact ⟨_, .free hunits hfirst⟩
  -- Every unit with a quote is then a pair; the last of these is looked for from the end.
  have hpair : ∀ unit ∈ readUnits rest, '"' ∈ unit → unit = ['\\', '"'] := fun unit hm hq =>
    (eq_of_quote_mem hm hq).resolve_left fun he => hfree (he ▸ hm)
  have hsome : ['\\', '"'] ∈ (readUnits rest).reverse := by
    rw [← flatten_readUnits rest, List.mem_flatten] at h
    obtain ⟨unit, hm, hq⟩ := h
    rw [List.mem_reverse, ← hpair unit hm hq]
    exact hm
  obtain ⟨after, before, hunits, hlast⟩ := List.eq_append_cons_of_mem hsome
  have hunits' : readUnits rest = before.reverse ++ ['\\', '"'] :: after.reverse := by
    rw [← List.reverse_reverse (readUnits rest), hunits]
    simp
  refine ⟨_, .escaped hunits' hfree fun hq => ?_⟩
  obtain ⟨unit, hm, hq⟩ := List.mem_flatten.mp hq
  have hunit : unit = ['\\', '"'] := hpair unit (by rw [hunits']; simp [hm]) hq
  exact hlast (hunit ▸ List.mem_reverse.mp hm)

theorem lexeme?_of_stringLexeme {text lexeme : List Char} (h : StringLexeme text lexeme) :
    Pattern.stringLiteral.lexeme? text = some lexeme := by
  cases h with
  | @free rest before after units first =>
    rw [lexeme?_stringLiteral, closingQuote?_free units first, Option.map_some,
      eq_of_readUnits units, List.take_length_add_append]
    rfl
  | @escaped rest before after units none_free last =>
    rw [lexeme?_stringLiteral, closingQuote?_escaped units none_free last, Option.map_some,
      eq_of_readUnits units, Nat.add_assoc, List.take_length_add_append]
    rfl

/-- A string needs its opening quote and one more. -/
theorem quote_mem_of_lexeme? {text lexeme : List Char}
    (h : Pattern.stringLiteral.lexeme? text = some lexeme) :
    ∃ rest, text = '"' :: rest ∧ '"' ∈ rest := by
  obtain ⟨rest, rfl⟩ := eq_cons_of_lexeme?_quoted h
  refine ⟨rest, rfl, Classical.byContradiction fun hq => ?_⟩
  rw [lexeme?_stringLiteral, closingQuote?_eq_none hq] at h
  cases h

/-- Strings are matched as they stand. -/
theorem lexeme?_stringLiteral_iff (text lexeme : List Char) :
    Pattern.stringLiteral.lexeme? text = some lexeme ↔ StringLexeme text lexeme := by
  refine ⟨fun h => ?_, lexeme?_of_stringLexeme⟩
  obtain ⟨rest, rfl, hq⟩ := quote_mem_of_lexeme? h
  obtain ⟨other, hother⟩ := exists_stringLexeme hq
  rw [lexeme?_of_stringLexeme hother, Option.some.injEq] at h
  exact h ▸ hother

/-! ## Character literals -/

/-- How a character literal stands at the start of a text. -/
inductive CharLexeme (text : List Char) : List Char → Prop
  /-- A backslash and any character but a newline. -/
  | escaped {c : Char} (inLine : c ≠ '\n') (stands : ['\'', '\\', c, '\''] <+: text) :
      CharLexeme text ['\'', '\\', c, '\'']
  /-- Any character but the quote, where nothing escaped stands. -/
  | plain {c : Char} (noQuote : c ≠ '\'') (stands : ['\'', c, '\''] <+: text)
      (unescaped : ∀ d, d ≠ '\n' → ¬ ['\'', '\\', d, '\''] <+: text) :
      CharLexeme text ['\'', c, '\'']

theorem charEnd?_escaped {c : Char} (hc : c ≠ '\n') (after : List Char) :
    charEnd? ('\\' :: c :: '\'' :: after) = some 3 := by
  simp [charEnd?, hc]

/-- A quote behind a backslash and a quote would make an escaped literal. -/
theorem charEnd?_plain {c : Char} {after : List Char} (hc : c ≠ '\'')
    (hafter : c = '\\' → after.head? ≠ some '\'') :
    charEnd? (c :: '\'' :: after) = some 2 := by
  have hpair : ¬ ((c = '\\' ∧ ('\'' :: after).head?.any (· != '\n')) ∧
      ('\'' :: after)[1]? = some '\'') := by
    rintro ⟨⟨hb, -⟩, hq⟩
    rw [List.getElem?_cons_succ, ← List.head?_eq_getElem?] at hq
    exact hafter hb hq
  rw [charEnd?, if_neg hpair, if_pos ⟨hc, rfl⟩]

theorem lexeme?_of_charLexeme {text lexeme : List Char} (h : CharLexeme text lexeme) :
    Pattern.charLiteral.lexeme? text = some lexeme := by
  cases h with
  | @escaped c inLine stands =>
    obtain ⟨after, rfl⟩ := stands
    exact (lexeme?_charLiteral _).trans (congrArg _ (charEnd?_escaped inLine after))
  | @plain c noQuote stands unescaped =>
    obtain ⟨after, rfl⟩ := stands
    refine (lexeme?_charLiteral _).trans (congrArg _ (charEnd?_plain noQuote ?_))
    rintro rfl hq
    obtain ⟨tail, rfl⟩ := List.head?_eq_some_iff.mp hq
    exact unescaped '\'' (by decide) ⟨tail, rfl⟩

/-- What is found is a pair or a single character, in front of a quote. -/
theorem eq_of_charEnd? {rest : List Char} {n : Nat} (h : charEnd? rest = some n) :
    (∃ d, d ≠ '\n' ∧ ['\\', d, '\''] <+: rest) ∨ ∃ c, c ≠ '\'' ∧ [c, '\''] <+: rest := by
  unfold charEnd? at h
  split at h
  · cases h
  rename_i c rest
  split at h
  · rename_i hpair
    obtain ⟨⟨rfl, hd⟩, hq⟩ := hpair
    obtain ⟨d, hhead, hd⟩ := Option.any_eq_true _ _ |>.mp hd
    obtain ⟨tail, rfl⟩ := List.head?_eq_some_iff.mp hhead
    rw [List.getElem?_cons_succ, ← List.head?_eq_getElem?] at hq
    obtain ⟨after, rfl⟩ := List.head?_eq_some_iff.mp hq
    exact Or.inl ⟨d, bne_iff_ne.mp hd, after, rfl⟩
  · obtain ⟨⟨hc, hq⟩, -⟩ := Option.ite_none_right_eq_some.mp h
    rw [← List.head?_eq_getElem?] at hq
    obtain ⟨after, rfl⟩ := List.head?_eq_some_iff.mp hq
    exact Or.inr ⟨c, hc, after, rfl⟩

/-- Where a character literal is matched one of its forms stands. -/
theorem exists_charLexeme {text lexeme : List Char}
    (h : Pattern.charLiteral.lexeme? text = some lexeme) :
    ∃ other, CharLexeme text other := by
  by_cases hescaped : ∃ d, d ≠ '\n' ∧ ['\'', '\\', d, '\''] <+: text
  · obtain ⟨d, hd, hstands⟩ := hescaped
    exact ⟨_, .escaped hd hstands⟩
  obtain ⟨rest, rfl⟩ := eq_cons_of_lexeme?_quoted h
  rw [lexeme?_charLiteral, Option.map_eq_some_iff] at h
  obtain ⟨n, hn, -⟩ := h
  rcases eq_of_charEnd? hn with ⟨d, hd, hstands⟩ | ⟨c, hc, hstands⟩
  · exact absurd ⟨d, hd, List.cons_prefix_cons.mpr ⟨rfl, hstands⟩⟩ hescaped
  · exact ⟨_, .plain hc (List.cons_prefix_cons.mpr ⟨rfl, hstands⟩)
      fun d hd hs => hescaped ⟨d, hd, hs⟩⟩

/-- Character literals are matched as they stand. -/
theorem lexeme?_charLiteral_iff (text lexeme : List Char) :
    Pattern.charLiteral.lexeme? text = some lexeme ↔ CharLexeme text lexeme := by
  refine ⟨fun h => ?_, lexeme?_of_charLexeme⟩
  obtain ⟨other, hother⟩ := exists_charLexeme h
  rw [lexeme?_of_charLexeme hother, Option.some.injEq] at h
  exact h ▸ hother

/-! ## Both patterns -/

/-- A pattern that begins with a quote takes something, so that its lexeme is as long as
its match. -/
theorem firstMatch?_quoted (kind : TokenKind) (quote : Char) (inner : Regex) (text : List Char) :
    Regex.firstMatch? none text (Pattern.quoted quote inner) =
      ((Pattern.mk kind (Pattern.quoted quote inner)).lexeme? text).map List.length := by
  cases h : Regex.firstMatch? none text (Pattern.quoted quote inner) with
  | none =>
    rw [Pattern.lexeme?, Regex.matchLength?_eq, h]
    rfl
  | some n =>
    have hle := Regex.firstMatch?_le_length h
    rw [Pattern.lexeme?, Regex.matchLength?_eq, h]
    cases n with
    | zero =>
      have hmem : 0 ∈ Regex.ways none text (Pattern.quoted quote inner) :=
        List.mem_of_head? (Regex.firstMatch?_eq_head? _ _ _ ▸ h)
      obtain ⟨i, hi, j, -, hsum⟩ := Regex.mem_ways_seq.mp hmem
      have := (Regex.mem_ways_char.mp hi).2
      omega
    | succ n => simp [List.length_take, Nat.min_eq_left hle]

/-- Strings and character literals on every text, in the order in which a search that
goes back tries the alternatives of their patterns. A string needs its opening quote and
one more. It ends at the first quote that is not read together with a backslash, or,
where all quotes are, at the last one. A character literal is a backslash and a
character, or, where this does not stand there, one character. -/
theorem quoted_extent (text : List Char) :
    Pattern.stringLiteral.regex.written = "\"(\\\\.|[^\"])*\"" ∧
      Pattern.charLiteral.regex.written = "'(\\\\.|[^'])'" ∧
      (∀ p ∈ [Pattern.stringLiteral, Pattern.charLiteral],
        Regex.firstMatch? none text p.regex = (p.lexeme? text).map List.length) ∧
      ((∃ lexeme, Pattern.stringLiteral.lexeme? text = some lexeme) ↔
        ∃ rest, text = '"' :: rest ∧ '"' ∈ rest) ∧
      (∀ lexeme, Pattern.stringLiteral.lexeme? text = some lexeme ↔ StringLexeme text lexeme) ∧
      ∀ lexeme, Pattern.charLiteral.lexeme? text = some lexeme ↔ CharLexeme text lexeme := by
  refine ⟨by decide +kernel, by decide +kernel, ?_, ⟨?_, ?_⟩, lexeme?_stringLiteral_iff text,
    lexeme?_charLiteral_iff text⟩
  · intro p hp
    rcases List.mem_cons.mp hp with rfl | hp
    · exact firstMatch?_quoted _ _ _ _
    · cases List.mem_singleton.mp hp
      exact firstMatch?_quoted _ _ _ _
  · rintro ⟨lexeme, h⟩
    exact quote_mem_of_lexeme? h
  · rintro ⟨rest, rfl, hq⟩
    obtain ⟨lexeme, h⟩ := exists_stringLexeme hq
    exact ⟨lexeme, lexeme?_of_stringLexeme h⟩

/-- The only quote behind the opening one is escaped, and ends the string all the same. -/
example : Pattern.stringLiteral.lexeme? "\"a\\\"b".toList = some "\"a\\\"".toList := by
  decide +kernel

end ScopeLex
