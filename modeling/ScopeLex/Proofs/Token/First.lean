import ScopeLex.Proofs.Token.Quoted
import ScopeLex.Proofs.Token.Word

/-!
# Which pattern matches first

The first character of a text leaves at most two patterns that can match there, and
each pattern is known by what it takes, so that the first lexeme of a text has a
closed form.

* `kind_mem_leading`: a lexeme begins with a character for its kind.
* `firstLexeme?_quote`, `firstLexeme?_apostrophe`, `firstLexeme?_lower`,
  `firstLexeme?_digit`, `firstLexeme?_sign`, `firstLexeme?_bracket`: the first
  lexeme by the first character.
-/
namespace ScopeLex

open Regex (ways mem_ways_firstOf mem_ways_one mem_ways_char)

/-! ## Signs -/

def signs : List Char := ['=', '>', '+', '-', '*', '/', '%', '^']

def brackets : List Char := [';', '(', ')', '\x7b', '\x7d']

/-- A pattern that takes one character of `set`, which it may do in several ways. -/
theorem lexeme?_single {p : Pattern} {c : Char} {text : List Char} {set : List Char}
    (h : ∀ n, n ∈ ways none (c :: text) p.regex ↔ c ∈ set ∧ n = 1) :
    p.lexeme? (c :: text) = if c ∈ set then some [c] else none := by
  split
  · rename_i hc
    exact lexeme?_of_unique Nat.one_pos ((h 1).mpr ⟨hc, rfl⟩) fun m hm => ((h m).mp hm).2
  · rename_i hc
    exact lexeme?_of_no_match fun n hn => hc ((h n).mp hn).1

theorem lexeme?_operator (c : Char) (text : List Char) :
    Pattern.operator.lexeme? (c :: text) = if c ∈ signs then some [c] else none := by
  refine lexeme?_single fun n => ?_
  unfold Pattern.operator
  rw [mem_ways_firstOf (by decide)]
  constructor
  · intro h
    obtain ⟨r, hr, hn⟩ := h
    obtain ⟨d, hd, rfl⟩ := List.mem_map.mp hr
    obtain ⟨hc, rfl⟩ := mem_ways_char.mp hn
    cases hc
    exact ⟨hd, rfl⟩
  · intro h
    exact ⟨_, List.mem_map_of_mem h.1, mem_ways_char.mpr ⟨rfl, h.2⟩⟩

theorem contains_brackets (c : Char) :
    (CharSet.anyOf ";()\x7b\x7d").contains c = true ↔ c ∈ brackets := by
  have hranges : CharSet.anyOf ";()\x7b\x7d" = .within (brackets.map fun d => (d, d)) := rfl
  rw [hranges, CharSet.contains, CharSet.inRanges, List.any_map, List.any_eq_true]
  simp only [Function.comp_apply, range_self, beq_iff_eq, exists_eq_right']

theorem lexeme?_delimiter (c : Char) (text : List Char) :
    Pattern.delimiter.lexeme? (c :: text) = if c ∈ brackets then some [c] else none := by
  refine lexeme?_single fun n => ?_
  unfold Pattern.delimiter
  rw [mem_ways_one]
  constructor
  · intro h
    obtain ⟨d, rest, he, hc, rfl⟩ := h
    cases he
    exact ⟨(contains_brackets c).mp hc, rfl⟩
  · intro h
    exact ⟨c, text, rfl, (contains_brackets c).mpr h.1, h.2⟩

/-! ## First characters -/

/-- The kinds whose lexemes can begin with `c`. -/
def leading (c : Char) : List TokenKind :=
  if c = '"' then [.stringLiteral]
  else if c = '\'' then [.charLiteral]
  else if c.isLower then [.keyword, .identifier]
  else if c.isDigit then [.decimal, .integer]
  else if c ∈ signs then [.operator]
  else if c ∈ brackets then [.delimiter]
  else []

theorem leading_of_isLower {c : Char} (h : c.isLower = true) :
    leading c = [.keyword, .identifier] := by
  have hq : c ≠ '"' := fun he => by rw [he] at h; cases h
  have ha : c ≠ '\'' := fun he => by rw [he] at h; cases h
  rw [leading, if_neg hq, if_neg ha, if_pos h]

theorem leading_of_isDigit {c : Char} (h : c.isDigit = true) :
    leading c = [.decimal, .integer] := by
  have hq : c ≠ '"' := fun he => by rw [he] at h; cases h
  have ha : c ≠ '\'' := fun he => by rw [he] at h; cases h
  have hl : ¬ c.isLower = true := by
    intro hl
    have := toNat_of_isLower hl
    have := toNat_of_isDigit h
    omega
  rw [leading, if_neg hq, if_neg ha, if_neg hl, if_pos h]

theorem leading_of_mem_signs {c : Char} (h : c ∈ signs) : leading c = [.operator] := by
  have hall : signs.all (fun d => leading d == [.operator]) = true := by decide
  exact beq_iff_eq.mp (List.all_eq_true.mp hall c h)

theorem leading_of_mem_brackets {c : Char} (h : c ∈ brackets) : leading c = [.delimiter] := by
  have hall : brackets.all (fun d => leading d == [.delimiter]) = true := by decide
  exact beq_iff_eq.mp (List.all_eq_true.mp hall c h)

theorem isLower_of_keyword {c : Char} {text : List Char}
    (h : String.ofList (firstWord (c :: text)) ∈ keywords) : c.isLower = true := by
  obtain ⟨hne, hlower⟩ := isLower_of_mem_keywords _ h
  have hw : firstWord (c :: text) ≠ [] := fun he => hne (by rw [he])
  rw [String.toList_ofList, firstWord_cons hw, List.all_cons, Bool.and_eq_true] at hlower
  exact hlower.1

theorem isLower_of_isIdentifier {c : Char} {text : List Char}
    (h : isIdentifier (String.ofList (firstWord (c :: text))) = true) : c.isLower = true := by
  have hw : firstWord (c :: text) ≠ [] := fun he => by rw [he] at h; cases h
  rw [firstWord_cons hw, isIdentifier_ofList_cons, Bool.and_eq_true] at h
  exact h.1

theorem isDigit_of_isNumber {c : Char} {text : List Char}
    (h : IsNumber (firstWord (c :: text))) : c.isDigit = true := by
  have hall := h.2
  rw [firstWord_cons h.1, List.all_cons, Bool.and_eq_true] at hall
  exact hall.1

/-- A lexeme begins with a character for its kind. -/
theorem kind_mem_leading {p : Pattern} (hp : p ∈ patterns) {c : Char} {text lexeme : List Char}
    (h : p.lexeme? (c :: text) = some lexeme) : p.kind ∈ leading c := by
  simp only [patterns, List.mem_cons, List.not_mem_nil, or_false] at hp
  rcases hp with rfl | rfl | rfl | rfl | rfl | rfl | rfl | rfl
  · by_cases hc : c = '"'
    · subst hc
      decide
    · rw [Pattern.stringLiteral, lexeme?_quoted_of_ne _ _ _ hc] at h
      cases h
  · rw [lexeme?_keyword] at h
    rw [leading_of_isLower (isLower_of_keyword (Option.ite_none_right_eq_some.mp h).1)]
    decide
  · rw [lexeme?_operator] at h
    rw [leading_of_mem_signs (Option.ite_none_right_eq_some.mp h).1]
    decide
  · rw [lexeme?_delimiter] at h
    rw [leading_of_mem_brackets (Option.ite_none_right_eq_some.mp h).1]
    decide
  · rw [lexeme?_decimal] at h
    rw [leading_of_isDigit (isDigit_of_isNumber (Option.ite_none_right_eq_some.mp h).1.1)]
    decide
  · rw [lexeme?_integer] at h
    rw [leading_of_isDigit (isDigit_of_isNumber (Option.ite_none_right_eq_some.mp h).1)]
    decide
  · by_cases hc : c = '\''
    · subst hc
      decide
    · rw [Pattern.charLiteral, lexeme?_quoted_of_ne _ _ _ hc] at h
      cases h
  · rw [lexeme?_identifier] at h
    rw [leading_of_isLower (isLower_of_isIdentifier (Option.ite_none_right_eq_some.mp h).1)]
    decide

/-- A pattern whose lexemes begin otherwise does not match. -/
theorem lexeme?_eq_none_of_leading {p : Pattern} (hp : p ∈ patterns) {c : Char}
    (hk : p.kind ∉ leading c) (text : List Char) : p.lexeme? (c :: text) = none :=
  Option.eq_none_iff_forall_ne_some.mpr fun _ h => hk (kind_mem_leading hp h)

/-! ## The first lexeme -/

theorem findSome?_filter {α β : Type} (keep : α → Bool) (f : α → Option β) (l : List α)
    (h : ∀ a ∈ l, keep a = false → f a = none) : (l.filter keep).findSome? f = l.findSome? f := by
  induction l with
  | nil => rfl
  | cons a l ih =>
    have ih := ih fun b hb => h b (List.mem_cons_of_mem _ hb)
    cases ha : keep a with
    | true => rw [List.filter_cons_of_pos ha, List.findSome?_cons, List.findSome?_cons, ih]
    | false =>
      rw [List.filter_cons_of_neg (by rw [ha]; decide), List.findSome?_cons,
        h a List.mem_cons_self ha, ih]

/-- Of patterns in any order only those for the first character matter. -/
theorem findSome?_filter_leading {order : List Pattern} (h : ∀ p ∈ order, p ∈ patterns) (c : Char)
    (text : List Char) :
    (order.filter fun p => p.kind ∈ leading c).findSome?
        (fun p => (p.lexeme? (c :: text)).map (p.kind, ·)) =
      order.findSome? fun p => (p.lexeme? (c :: text)).map (p.kind, ·) := by
  refine findSome?_filter _ _ _ fun p hp hk => ?_
  rw [lexeme?_eq_none_of_leading (h p hp) (of_decide_eq_false hk), Option.map_none]

theorem firstLexeme?_cons (c : Char) (text : List Char) :
    firstLexeme? (c :: text) = (patterns.filter fun p => p.kind ∈ leading c).findSome? fun p =>
      (p.lexeme? (c :: text)).map (p.kind, ·) :=
  (findSome?_filter_leading (fun _ hp => hp) c text).symm

/-- What a pattern that matches alone makes of a text. -/
theorem firstLexeme?_of_leading {c : Char} {p : Pattern}
    (h : (patterns.filter fun q => q.kind ∈ leading c) = [p]) (text : List Char) :
    firstLexeme? (c :: text) = (p.lexeme? (c :: text)).map (p.kind, ·) := by
  rw [firstLexeme?_cons, h, List.findSome?_cons, List.findSome?_nil]
  cases p.lexeme? (c :: text) <;> rfl

theorem firstLexeme?_quote (text : List Char) :
    firstLexeme? ('"' :: text) =
      (closingQuote? text).map fun n => (.stringLiteral, '"' :: text.take (n + 1)) := by
  rw [firstLexeme?_of_leading (p := .stringLiteral) (by decide), lexeme?_stringLiteral,
    Option.map_map]
  rfl

theorem firstLexeme?_apostrophe (text : List Char) :
    firstLexeme? ('\'' :: text) =
      (charEnd? text).map fun n => (.charLiteral, '\'' :: text.take n) := by
  rw [firstLexeme?_of_leading (p := .charLiteral) (by decide), lexeme?_charLiteral,
    Option.map_map]
  rfl

theorem firstLexeme?_sign {c : Char} (hc : c ∈ signs) (text : List Char) :
    firstLexeme? (c :: text) = some (.operator, [c]) := by
  have h : (patterns.filter fun q => q.kind ∈ leading c) = [.operator] := by
    rw [leading_of_mem_signs hc]
    decide
  rw [firstLexeme?_of_leading h, lexeme?_operator, if_pos hc]
  rfl

theorem firstLexeme?_bracket {c : Char} (hc : c ∈ brackets) (text : List Char) :
    firstLexeme? (c :: text) = some (.delimiter, [c]) := by
  have h : (patterns.filter fun q => q.kind ∈ leading c) = [.delimiter] := by
    rw [leading_of_mem_brackets hc]
    decide
  rw [firstLexeme?_of_leading h, lexeme?_delimiter, if_pos hc]
  rfl

/-- The kind of a word that begins with a letter. -/
def wordKind? (word : List Char) : Option TokenKind :=
  if String.ofList word ∈ keywords then some .keyword
  else if isIdentifier (String.ofList word) then some .identifier
  else none

theorem firstLexeme?_lower {c : Char} (hc : c.isLower = true) (text : List Char) :
    firstLexeme? (c :: text) =
      (wordKind? (firstWord (c :: text))).map (·, firstWord (c :: text)) := by
  have h : (patterns.filter fun q => q.kind ∈ leading c) = [.keyword, .identifier] := by
    rw [leading_of_isLower hc]
    decide
  rw [firstLexeme?_cons, h, List.findSome?_cons, List.findSome?_cons, List.findSome?_nil,
    lexeme?_keyword, lexeme?_identifier, wordKind?]
  by_cases hk : String.ofList (firstWord (c :: text)) ∈ keywords
  · rw [if_pos hk, if_pos hk]
    rfl
  · rw [if_neg hk, if_neg hk]
    by_cases hi : isIdentifier (String.ofList (firstWord (c :: text))) = true
    · rw [if_pos hi, if_pos hi]
      rfl
    · rw [if_neg hi, if_neg hi]
      rfl

theorem firstLexeme?_digit {c : Char} (hc : c.isDigit = true) (text : List Char) :
    firstLexeme? (c :: text) =
      if HasDecimal (c :: text) then
        some (.decimal, firstWord (c :: text) ++ '.' :: firstWord (behindWord (c :: text)))
      else if IsNumber (firstWord (c :: text)) then some (.integer, firstWord (c :: text))
      else none := by
  have h : (patterns.filter fun q => q.kind ∈ leading c) = [.decimal, .integer] := by
    rw [leading_of_isDigit hc]
    decide
  rw [firstLexeme?_cons, h, List.findSome?_cons, List.findSome?_cons, List.findSome?_nil,
    lexeme?_decimal, lexeme?_integer]
  by_cases hd : HasDecimal (c :: text)
  · rw [if_pos hd, if_pos hd]
    rfl
  · rw [if_neg hd, if_neg hd]
    by_cases hn : IsNumber (firstWord (c :: text))
    · rw [if_pos hn, if_pos hn]
      rfl
    · rw [if_neg hn, if_neg hn]
      rfl

theorem firstLexeme?_eq_none {c : Char} (hc : leading c = []) (text : List Char) :
    firstLexeme? (c :: text) = none := by
  have h : (patterns.filter fun q => q.kind ∈ leading c) = [] := by
    rw [hc]
    decide
  rw [firstLexeme?_cons, h]
  rfl

end ScopeLex
