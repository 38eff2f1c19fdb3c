import ScopeLex.Comment
import ScopeLex.Token.Piece

/-!
# What a text consists of

A text is scanned into events: the tokens and stray characters found in it,
in the order in which they take effect. The block comments come first; then,
line by line, the line comment and the code before it. Lines that a block
comment covers are left out. Nothing here depends on a symbol table.
-/
namespace ScopeLex

open Text (lines trimReturns)

inductive Event where
  | token (t : Token)
  /-- A character at which no token begins. -/
  | stray (c : Char) (line column : Nat)
  deriving DecidableEq, Repr

namespace Event

/-- The event of a piece of line `line`; blanks have none. -/
def ofPiece? (line : Nat) : Nat × Piece → Option Event
  | (_, .blank _) => none
  | (_, .lexeme kind found) => some (.token ⟨kind, String.ofList found, line⟩)
  | (column, .stray c) => some (.stray c line column)

/-- The events of code that begins in `column` of `line`. -/
def ofCode (line column : Nat) (code : List Char) : List Event :=
  (pieces column code).filterMap (ofPiece? line)

/-- A comment as a token. -/
def comment (line : Nat) (text : List Char) : Event :=
  .token ⟨.comment, String.ofList text, line⟩

/-- The event of a line comment, if there is one. -/
def ofLineComment (line : Nat) (text : List Char) : List Event :=
  if text.isEmpty then [] else [comment line (trimReturns text)]

/-- The events of a line: its comment, then its code. -/
def ofLine (line : Nat) (text : List Char) : List Event :=
  let (code, rest) := splitMarker text
  ofLineComment line rest ++ ofCode line 1 code

/-- The event of a block comment. -/
def ofBlockComment (b : BlockComment) : Event := comment b.firstLine b.text

/-- Line `k` lies in one of the ranges, which include both ends. -/
def isCovered (ranges : List (Nat × Nat)) (k : Nat) : Bool :=
  ranges.any fun r => r.1 ≤ k && k ≤ r.2

/-- The events of the lines outside `ranges`. -/
def ofLines (ranges : List (Nat × Nat)) (source : List Char) : List Event :=
  ((lines source).zipIdx 1).flatMap fun (text, line) =>
    if isCovered ranges line then [] else ofLine line text

/-- The events of a text. -/
def ofSource (source : List Char) : List Event :=
  let comments := BlockComment.all source
  comments.map ofBlockComment ++ ofLines (comments.map BlockComment.lineRange) source

end Event

end ScopeLex
