import ScopeLex.Text.WordRanges

/-!
# Word characters

Words are what a word boundary separates. ASCII letters, digits and `_` are
decided by rule, every other character by the table `wordRanges`.

* `isWord_of_ascii`: below U+0080 the table is never asked.
-/
namespace ScopeLex.Text

/-- A character that can stand inside a word. -/
def isWord (c : Char) : Bool :=
  if c.toNat < 128 then c.isAlphanum || c == '_'
  else wordRanges.any fun r => r.1 ≤ c.toNat && c.toNat ≤ r.2

theorem isWord_of_ascii {c : Char} (h : c.toNat < 128) : isWord c = (c.isAlphanum || c == '_') :=
  if_pos h

/-- The place between two neighbours (`none`: the text ends there) is a word
boundary if exactly one of them is a word character. -/
def isBoundary (before next : Option Char) : Bool :=
  before.any isWord != next.any isWord

/-- At the very start of a text a boundary is the start of a word. -/
theorem isBoundary_start (next : Option Char) : isBoundary none next = next.any isWord := by
  simp [isBoundary]

end ScopeLex.Text
