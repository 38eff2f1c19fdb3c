import ScopeLex.Diagnostic.Basic
import ScopeLex.Text.Line

/-!
# Diagnostics beside their source

A diagnostic is shown above the line it speaks of, which stands beside a gutter
as wide as its number; a diagnostic with a column points into the line:

    error: unrecognized token near: '#'
       |
    12 | write(total #);
       | ------------^

The line is shown without the white space around it, so the arrow is shorter
by what was removed in front.
-/
namespace ScopeLex.Diagnostic

open Text (Layout isSpace line? trimEnd)

/-- The bar that ends a gutter of `width` characters. -/
def bar (width : Nat) : List Char := (Layout.right width).fit ['|']

/-- An arrow whose head is its character number `length`. -/
def arrow (length : Nat) : List Char := (⟨length, .right, '-', none⟩ : Layout).fit ['^']

/-- The rows that show `d` in `source`. -/
def rows (d : Diagnostic) (source : List Char) : List (List Char) :=
  let number := (toString d.line).toList
  let width := number.length + 2
  let line := (line? source d.line).getD []
  let shown := line.dropWhile isSpace
  let removed := line.length - shown.length
  let pointer := match d.column with
    | some column => [bar width ++ ' ' :: arrow (max (column - removed) 1)]
    | none => []
  [(d.severity.name ++ ": " ++ d.message).toList, bar width,
    number ++ " | ".toList ++ trimEnd isSpace shown] ++ pointer

/-- The rows, each ended by a newline. -/
def render (d : Diagnostic) (source : List Char) : String :=
  String.ofList ((d.rows source).flatMap (· ++ ['\n']))

end ScopeLex.Diagnostic
