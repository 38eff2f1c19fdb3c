/-!
# Regular expressions as data

Patterns are plain terms, so that one definition can be matched, printed and
reasoned about. A loop bounds its iterations and says whether it prefers to
go on (`greedy`) or to leave.
-/
namespace ScopeLex

/-- What one character of a pattern accepts. Ranges include both ends. -/
inductive CharSet where
  | just (c : Char)
  /-- Any character but a newline. -/
  | inLine
  | anything
  | within (ranges : List (Char × Char))
  | outside (ranges : List (Char × Char))
  deriving DecidableEq, Repr

namespace CharSet

/-- Membership in a list of ranges. -/
def inRanges (ranges : List (Char × Char)) (c : Char) : Bool :=
  ranges.any fun r => r.1 ≤ c && c ≤ r.2

def contains : CharSet → Char → Bool
  | .just d, c => c == d
  | .inLine, c => c != '\n'
  | .anything, _ => true
  | .within ranges, c => inRanges ranges c
  | .outside ranges, c => !inRanges ranges c

/-- One of the characters of `s`. -/
def anyOf (s : String) : CharSet := .within (s.toList.map fun c => (c, c))

/-- Every character but `c`. -/
def except (c : Char) : CharSet := .outside [(c, c)]

@[simp] theorem contains_just (d c : Char) : (just d).contains c = (c == d) := rfl

@[simp] theorem contains_inLine (c : Char) : inLine.contains c = (c != '\n') := rfl

@[simp] theorem contains_anything (c : Char) : anything.contains c = true := rfl

@[simp] theorem contains_except (d c : Char) : (except d).contains c = (c != d) := by
  simp only [except, contains, inRanges, List.any_cons, List.any_nil, Bool.or_false, bne]
  congr 1
  rw [Bool.eq_iff_iff, Bool.and_eq_true, decide_eq_true_eq, decide_eq_true_eq, beq_iff_eq]
  exact ⟨fun h => Char.le_antisymm h.2 h.1, fun h => h ▸ ⟨Char.le_refl _, Char.le_refl _⟩⟩

end CharSet

/-- A regular expression. -/
inductive Regex where
  | empty
  | one (set : CharSet)
  /-- A word boundary; takes no character. -/
  | boundary
  | seq (first second : Regex)
  /-- Either side, the first by preference. -/
  | alt (first second : Regex)
  /-- A parenthesised part. -/
  | group (body : Regex)
  /-- At least `least` and at most `most` iterations, `none` being no bound. -/
  | loop (body : Regex) (least : Nat) (most : Option Nat) (greedy : Bool)
  deriving DecidableEq, Repr

namespace Regex

/-- The single character `c`. -/
def char (c : Char) : Regex := .one (.just c)

/-- The characters `cs`, one after the other. -/
def chars : List Char → Regex
  | [] => .empty
  | [c] => char c
  | c :: cs => .seq (char c) (chars cs)

/-- The first of `rs` that leads to a match. -/
def firstOf : List Regex → Regex
  | [] => .empty
  | [r] => r
  | r :: rs => .alt r (firstOf rs)

/-- Any number of iterations, as many as possible. -/
def star (body : Regex) : Regex := .loop body 0 none true

/-- At least one iteration, as many as possible. -/
def plus (body : Regex) : Regex := .loop body 1 none true

/-- Any number of iterations, as few as possible. -/
def lazyStar (body : Regex) : Regex := .loop body 0 none false

/-- Between `least` and `most` iterations, as many as possible. -/
def between (least most : Nat) (body : Regex) : Regex := .loop body least (some most) true

/-- `first`, then `second`, leaving out a first part that is empty. -/
def andThen : Regex → Regex → Regex
  | .empty, second => second
  | first, second => .seq first second

end Regex

end ScopeLex
