import ScopeLex.Regex.Match
import ScopeLex.Regex.Written
import ScopeLex.Token.Basic

/-!
# The token patterns

One pattern for each kind that is found inside a line, in the order in which
they are tried: reserved words also look like identifiers, and `3.14` starts
like an integer, so the first pattern that matches wins. A pattern sees
only the rest of its line; what stands before plays no part.

* `lexeme?_eq_some`: a lexeme is a non-empty prefix of the text.
* `firstLexeme?_eq_some`: so is the lexeme of the first pattern that matches.
-/
namespace ScopeLex

/-- How lexemes of one kind look. -/
structure Pattern where
  kind : TokenKind
  regex : Regex
  deriving DecidableEq, Repr

namespace Pattern

open Regex (char chars firstOf star plus between)

/-! ## The registry -/

/-- Ranges of characters by their ends. -/
def digit : CharSet := .within [('0', '9')]

/-- `quote`, then what `inner` allows, then `quote`. -/
def quoted (quote : Char) (inner : Regex) : Regex := .seq (char quote) (.seq inner (char quote))

/-- A backslash with the character after it, or any character but `quote`. -/
def quotedChar (quote : Char) : Regex :=
  .group (.alt (.seq (char '\\') (.one .inLine)) (.one (.except quote)))

/-- `inner` between two word boundaries. -/
def wholeWord (inner : Regex) : Regex := .seq .boundary (.seq inner .boundary)

def stringLiteral : Pattern := ⟨.stringLiteral, quoted '"' (star (quotedChar '"'))⟩

def keyword : Pattern :=
  ⟨.keyword, wholeWord (firstOf (keywords.map fun word => chars word.toList))⟩

def operator : Pattern :=
  ⟨.operator, firstOf (['=', '>', '+', '-', '*', '/', '%', '^'].map char)⟩

def delimiter : Pattern := ⟨.delimiter, .one (.anyOf ";()\x7b\x7d")⟩

def decimal : Pattern :=
  ⟨.decimal, wholeWord (.seq (plus (.one digit)) (.seq (char '.') (between 1 5 (.one digit))))⟩

def integer : Pattern := ⟨.integer, wholeWord (plus (.one digit))⟩

def charLiteral : Pattern := ⟨.charLiteral, quoted '\'' (quotedChar '\'')⟩

def identifier : Pattern :=
  ⟨.identifier, wholeWord (.seq (.one (.within [('a', 'z')]))
    (star (.one (.within [('a', 'z'), ('0', '9'), ('_', '_')]))))⟩

end Pattern

/-- The patterns in the order in which they are tried. -/
def patterns : List Pattern :=
  [.stringLiteral, .keyword, .operator, .delimiter, .decimal, .integer, .charLiteral, .identifier]

/-- The pattern of a kind; comments have none. -/
def patternFor? (kind : TokenKind) : Option Pattern := patterns.find? (·.kind == kind)

/-! ## Lexemes -/

namespace Pattern

/-- The lexeme at the start of `text`; a pattern that takes nothing does not
match. -/
def lexeme? (p : Pattern) (text : List Char) : Option (List Char) :=
  match p.regex.matchLength? text with
  | some (n + 1) => some (text.take (n + 1))
  | _ => none

theorem lexeme?_eq_some {p : Pattern} {text lexeme : List Char} (h : p.lexeme? text = some lexeme) :
    lexeme ≠ [] ∧ lexeme <+: text := by
  unfold lexeme? at h
  split at h
  · rename_i n hn
    have hle := Regex.matchLength?_le_length hn
    simp only [Option.some.injEq] at h
    subst h
    refine ⟨fun he => ?_, List.take_prefix _ _⟩
    have := congrArg List.length he
    simp only [List.length_take, List.length_nil] at this
    omega
  · cases h

end Pattern

/-- Kind and lexeme of the first pattern that matches at the start of `text`. -/
def firstLexeme? (text : List Char) : Option (TokenKind × List Char) :=
  patterns.findSome? fun p => (p.lexeme? text).map (p.kind, ·)

/-- Kind and lexeme of every pattern that matches at the start of `text`. -/
def allLexemes (text : List Char) : List (TokenKind × List Char) :=
  patterns.filterMap fun p => (p.lexeme? text).map (p.kind, ·)

theorem firstLexeme?_eq_some {text lexeme : List Char} {kind : TokenKind}
    (h : firstLexeme? text = some (kind, lexeme)) :
    (∃ p ∈ patterns, p.kind = kind ∧ p.lexeme? text = some lexeme) ∧
      lexeme ≠ [] ∧ lexeme <+: text := by
  obtain ⟨p, hp, hm⟩ := List.exists_of_findSome?_eq_some h
  obtain ⟨l, hl, he⟩ := Option.map_eq_some_iff.mp hm
  simp only [Prod.mk.injEq] at he
  obtain ⟨rfl, rfl⟩ := he
  exact ⟨⟨p, hp, rfl, hl⟩, Pattern.lexeme?_eq_some hl⟩

theorem firstLexeme?_eq_head? (text : List Char) :
    firstLexeme? text = (allLexemes text).head? := by
  simp [firstLexeme?, allLexemes, List.head?_filterMap]

end ScopeLex
