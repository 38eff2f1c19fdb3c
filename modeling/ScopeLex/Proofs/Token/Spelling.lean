import ScopeLex.Proofs.Token.First
import ScopeLex.Proofs.Token.Segmentation
import ScopeLex.Symbol.Literal

/-!
# How lexemes are spelled

The lexeme of a token shows of which kind the token is.

* `spelled_of_firstLexeme?`: what the first pattern takes is spelled as its kind.
* `Spelled.categoryOfText_eq`: the category of a literal can be read off its lexeme.
* `Spelled.not_identifier`: no literal is spelled like a name.
-/
namespace ScopeLex

/-- How the lexemes of each kind are spelled. -/
inductive Spelled : TokenKind → List Char → Prop
  | stringLiteral (text : List Char) : Spelled .stringLiteral ('"' :: text)
  | keyword {word : List Char} (reserved : String.ofList word ∈ keywords) : Spelled .keyword word
  | operator {c : Char} (sign : c ∈ signs) : Spelled .operator [c]
  | delimiter {c : Char} (bracket : c ∈ brackets) : Spelled .delimiter [c]
  | decimal {c : Char} (digit : c.isDigit = true) (text : List Char) : Spelled .decimal (c :: text)
  | integer {c : Char} (digit : c.isDigit = true) (text : List Char) : Spelled .integer (c :: text)
  | charLiteral (text : List Char) : Spelled .charLiteral ('\'' :: text)
  | identifier {word : List Char} (name : isIdentifier (String.ofList word) = true)
      (free : String.ofList word ∉ keywords) : Spelled .identifier word
  | comment {c : Char} (mark : c = '*' ∨ c = '/') (text : List Char) :
      Spelled .comment ('/' :: c :: text)

/-! ## Lexemes of the code -/

theorem spelled_of_wordKind? {word : List Char} {kind : TokenKind}
    (h : wordKind? word = some kind) : Spelled kind word := by
  unfold wordKind? at h
  split at h
  · rename_i hk
    cases h
    exact .keyword hk
  · rename_i hk
    obtain ⟨hi, he⟩ := Option.ite_none_right_eq_some.mp h
    cases he
    exact .identifier hi hk

/-- What the first pattern takes is spelled as its kind. -/
theorem spelled_of_firstLexeme? {c : Char} {text found : List Char} {kind : TokenKind}
    (h : firstLexeme? (c :: text) = some (kind, found)) : Spelled kind found := by
  by_cases hq : c = '"'
  · subst hq
    rw [firstLexeme?_quote] at h
    obtain ⟨n, -, he⟩ := Option.map_eq_some_iff.mp h
    cases he
    exact .stringLiteral _
  by_cases ha : c = '\''
  · subst ha
    rw [firstLexeme?_apostrophe] at h
    obtain ⟨n, -, he⟩ := Option.map_eq_some_iff.mp h
    cases he
    exact .charLiteral _
  by_cases hl : c.isLower = true
  · rw [firstLexeme?_lower hl] at h
    obtain ⟨k, hk, he⟩ := Option.map_eq_some_iff.mp h
    cases he
    exact spelled_of_wordKind? hk
  by_cases hd : c.isDigit = true
  · have hw : firstWord (c :: text) = c :: firstWord text :=
      List.takeWhile_cons_of_pos (isWord_of_isDigit hd)
    rw [firstLexeme?_digit hd, hw] at h
    split at h
    · cases h
      exact .decimal hd _
    · obtain ⟨-, he⟩ := Option.ite_none_right_eq_some.mp h
      cases he
      exact .integer hd _
  by_cases hs : c ∈ signs
  · rw [firstLexeme?_sign hs] at h
    cases h
    exact .operator hs
  by_cases hb : c ∈ brackets
  · rw [firstLexeme?_bracket hb] at h
    cases h
    exact .delimiter hb
  · rw [firstLexeme?_eq_none (by simp [leading, hq, ha, hl, hd, hs, hb])] at h
    cases h

theorem Segmented.spelled {code : List Char} {segs : List Piece} (h : Segmented code segs)
    {kind : TokenKind} {found : List Char} (hp : .lexeme kind found ∈ segs) :
    Spelled kind found := by
  obtain ⟨rest, hfirst⟩ := h.firstLexeme?_of_mem hp
  obtain ⟨-, hne, -⟩ := firstLexeme?_eq_some hfirst
  obtain ⟨c, text, rfl⟩ := List.exists_cons_of_ne_nil hne
  exact spelled_of_firstLexeme? hfirst

/-! ## Literals -/

/-- The category of the literal that a lexeme is. -/
def categoryOfText : List Char → Category
  | [] => .identifier
  | c :: rest =>
    if c = '"' then .stringConstant
    else if c = '/' ∧ rest ≠ [] then .comment
    else if c.isDigit then .numericConstant
    else if c.isLower then .io
    else .arithmeticOperator

theorem categoryOfText_lower {c : Char} (h : c.isLower = true) (rest : List Char) :
    categoryOfText (c :: rest) = .io := by
  have hq : c ≠ '"' := fun he => by rw [he] at h; cases h
  have hs : c ≠ '/' := fun he => by rw [he] at h; cases h
  have hd : ¬ c.isDigit = true := by
    intro hd
    have := toNat_of_isLower h
    have := toNat_of_isDigit hd
    omega
  simp [categoryOfText, hq, hs, hd, h]

theorem categoryOfText_digit {c : Char} (h : c.isDigit = true) (rest : List Char) :
    categoryOfText (c :: rest) = .numericConstant := by
  have hq : c ≠ '"' := fun he => by rw [he] at h; cases h
  have hs : c ≠ '/' := fun he => by rw [he] at h; cases h
  simp [categoryOfText, hq, hs, h]

theorem categoryOfText_sign {c : Char} (h : c ∈ signs) :
    categoryOfText [c] = .arithmeticOperator := by
  have hall : signs.all (fun d => categoryOfText [d] == .arithmeticOperator) = true := by decide
  exact beq_iff_eq.mp (List.all_eq_true.mp hall c h)

theorem categoryOfText_keyword {word : List Char} (h : String.ofList word ∈ keywords) :
    categoryOfText word = .io := by
  obtain ⟨hne, hlower⟩ := isLower_of_mem_keywords _ h
  rw [String.toList_ofList] at hlower
  cases word with
  | nil => exact absurd rfl hne
  | cons c word =>
    rw [List.all_cons, Bool.and_eq_true] at hlower
    exact categoryOfText_lower hlower.1 word

theorem categoryOfText_identifier {word : List Char}
    (h : isIdentifier (String.ofList word) = true) : categoryOfText word = .io := by
  cases word with
  | nil => cases h
  | cons c word =>
    rw [isIdentifier_ofList_cons, Bool.and_eq_true] at h
    exact categoryOfText_lower h.1 word

namespace Spelled

variable {t : Token} {literal : Category}

/-- The category of a literal can be read off its lexeme. -/
theorem categoryOfText_eq (h : Spelled t.kind t.lexeme.toList)
    (hc : Literal.categoryOf? t = some literal) : categoryOfText t.lexeme.toList = literal := by
  unfold Literal.categoryOf? at hc
  cases hk : t.kind <;> rw [hk] at h hc
  case stringLiteral =>
    cases hc
    generalize t.lexeme.toList = text at h
    cases h
    rfl
  case keyword =>
    obtain ⟨-, he⟩ := Option.ite_none_right_eq_some.mp hc
    cases he
    generalize t.lexeme.toList = text at h
    cases h with
    | keyword hr => exact categoryOfText_keyword hr
  case operator =>
    obtain ⟨-, he⟩ := Option.ite_none_right_eq_some.mp hc
    cases he
    generalize t.lexeme.toList = text at h
    cases h with
    | operator hs => exact categoryOfText_sign hs
  case decimal =>
    cases hc
    generalize t.lexeme.toList = text at h
    cases h with
    | decimal hd => exact categoryOfText_digit hd _
  case integer =>
    cases hc
    generalize t.lexeme.toList = text at h
    cases h with
    | integer hd => exact categoryOfText_digit hd _
  case comment =>
    cases hc
    generalize t.lexeme.toList = text at h
    cases h
    rfl
  all_goals cases hc

/-- No literal is spelled like a name: the words that read and write are reserved. -/
theorem not_identifier (h : Spelled t.kind t.lexeme.toList)
    (hc : Literal.categoryOf? t = some literal) : ¬ Spelled .identifier t.lexeme.toList := by
  intro hname
  have free : t.lexeme ∉ keywords ∧ categoryOfText t.lexeme.toList = .io := by
    generalize he : t.lexeme.toList = word at hname
    cases hname with
    | identifier hi hk =>
      rw [← he, String.ofList_toList] at hk
      exact ⟨hk, categoryOfText_identifier hi⟩
  obtain ⟨hfree, hio⟩ := free
  have hword : Literal.categoryOf? t = some .io := by rw [hc, ← h.categoryOfText_eq hc, hio]
  -- Among the literals only reserved words read and write.
  have hkind : t.kind = .keyword := by
    unfold Literal.categoryOf? at hword
    cases hk : t.kind <;> simp_all
  rw [hkind] at h
  generalize he : t.lexeme.toList = word at h
  cases h with
  | keyword hr =>
    rw [← he, String.ofList_toList] at hr
    exact hfree hr

end Spelled

end ScopeLex
