/-!
# Text in a field of fixed width

A *label* is padded and cut to the field it is written in; a *sentence*
ignores the field and is always written whole.
-/
namespace ScopeLex.Text

/-- Where the text stands in a wider field. -/
inductive Align where
  | left | right | center
  deriving DecidableEq, Repr

/-- How a field is filled: at least `width` characters, at most `limit` of
the text. -/
structure Layout where
  width : Nat
  align : Align
  fill : Char
  limit : Option Nat
  deriving DecidableEq, Repr

namespace Layout

/-- A field padded with blanks on the right. -/
def left (width : Nat) : Layout := ⟨width, .left, ' ', none⟩

/-- A field padded with blanks on the left. -/
def right (width : Nat) : Layout := ⟨width, .right, ' ', none⟩

/-- A centred field; where the padding is odd, the right side has one more. -/
def center (fill : Char) (width : Nat) : Layout := ⟨width, .center, fill, none⟩

/-- Only a cut after `limit` characters. -/
def atMost (limit : Nat) : Layout := ⟨0, .left, ' ', some limit⟩

/-- How much of `missing` characters of padding stands before the text. -/
def indent (align : Align) (missing : Nat) : Nat :=
  match align with
  | .left => 0
  | .right => missing
  | .center => missing / 2

/-- `text` in the field. -/
def fit (layout : Layout) (text : List Char) : List Char :=
  let shown := match layout.limit with
    | some n => text.take n
    | none => text
  let missing := layout.width - shown.length
  let before := indent layout.align missing
  List.replicate before layout.fill ++ shown ++ List.replicate (missing - before) layout.fill

end Layout

/-! ## Captions -/

/-- A text to be shown, and whether it obeys the field it is shown in. -/
inductive Caption where
  | label (text : String)
  | sentence (text : String)
  deriving DecidableEq, Repr

/-- The caption as it is written in a field. -/
def Caption.fit (layout : Layout) : Caption → String
  | .label text => String.ofList (layout.fit text.toList)
  | .sentence text => text

end ScopeLex.Text
