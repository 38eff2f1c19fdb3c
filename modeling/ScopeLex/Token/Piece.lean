import ScopeLex.Text.Line
import ScopeLex.Token.Pattern

/-!
# Cutting a line into pieces

From left to right a line is cut into runs of blanks, lexemes and stray
characters, each with the column where it begins.

* `pieces_cons`: how the cut goes on after its first piece.
* `flatMap_text_pieces`: the pieces together are the line.
-/
namespace ScopeLex

open Text (isBlank)

inductive Piece where
  | blank (text : List Char)
  | lexeme (kind : TokenKind) (text : List Char)
  /-- A character at which no pattern matches. -/
  | stray (c : Char)
  deriving DecidableEq, Repr

namespace Piece

def text : Piece → List Char
  | .blank text => text
  | .lexeme _ text => text
  | .stray c => [c]

/-- The piece at the start of `c :: rest`. -/
def first (c : Char) (rest : List Char) : Piece :=
  if isBlank c then .blank ((c :: rest).takeWhile isBlank)
  else match firstLexeme? (c :: rest) with
    | some (kind, found) => .lexeme kind found
    | none => .stray c

theorem text_first_prefix (c : Char) (rest : List Char) : (first c rest).text <+: c :: rest := by
  unfold first
  split
  · exact List.takeWhile_prefix _
  · split
    · rename_i h; exact (firstLexeme?_eq_some h).2.2
    · exact ⟨rest, rfl⟩

theorem text_first_ne_nil (c : Char) (rest : List Char) : (first c rest).text ≠ [] := by
  unfold first
  split
  · rename_i h; simp [text, h]
  · split
    · rename_i h; exact (firstLexeme?_eq_some h).2.1
    · simp [text]

end Piece

/-! ## The cut -/

/-- Cut `text`, which begins in `column`, leaving out its first `skip`
characters; the pieces are appended to `cut`. -/
def piecesFrom (column skip : Nat) (cut : Array (Nat × Piece)) : List Char → Array (Nat × Piece)
  | [] => cut
  | c :: text =>
    match skip with
    | skip + 1 => piecesFrom (column + 1) skip cut text
    | 0 =>
      let piece := Piece.first c text
      piecesFrom (column + 1) (piece.text.length - 1) (cut.push (column, piece)) text

/-- The pieces of `text`, which begins in `column`, each with its column. -/
def pieces (column : Nat) (text : List Char) : List (Nat × Piece) :=
  (piecesFrom column 0 #[] text).toList

theorem toList_piecesFrom (column skip : Nat) (cut : Array (Nat × Piece)) (text : List Char) :
    (piecesFrom column skip cut text).toList =
      cut.toList ++ pieces (column + skip) (text.drop skip) := by
  induction text generalizing column skip cut with
  | nil => simp [piecesFrom, pieces]
  | cons c text ih =>
    cases skip with
    | succ skip => rw [piecesFrom, ih, List.drop_succ_cons]; congr 2; omega
    | zero =>
      simp only [List.drop_zero, Nat.add_zero, pieces, piecesFrom]
      rw [ih, ih]
      simp

@[simp] theorem pieces_nil (column : Nat) : pieces column [] = [] := rfl

theorem pieces_cons (column : Nat) (c : Char) (text : List Char) :
    pieces column (c :: text) =
      (column, Piece.first c text) ::
        pieces (column + (Piece.first c text).text.length)
          ((c :: text).drop (Piece.first c text).text.length) := by
  have hp := List.length_pos_iff.mpr (Piece.text_first_ne_nil c text)
  obtain ⟨n, hn⟩ : ∃ n, (Piece.first c text).text.length = n + 1 :=
    ⟨_, (Nat.sub_add_cancel hp).symm⟩
  simp only [pieces, piecesFrom]
  rw [toList_piecesFrom]
  simp only [hn, Nat.add_sub_cancel, List.drop_succ_cons, pieces]
  simp only [Array.toList_push, List.nil_append, List.singleton_append]
  congr 3
  omega

theorem flatMap_text_pieces (column : Nat) (text : List Char) :
    (pieces column text).flatMap (·.2.text) = text := by
  match text with
  | [] => rfl
  | c :: text =>
    have hp := List.length_pos_iff.mpr (Piece.text_first_ne_nil c text)
    have hlt : ((c :: text).drop (Piece.first c text).text.length).length < (c :: text).length := by
      simp only [List.length_drop, List.length_cons]; omega
    rw [pieces_cons, List.flatMap_cons, flatMap_text_pieces]
    conv => rhs; rw [← List.take_append_drop (Piece.first c text).text.length (c :: text)]
    rw [← List.prefix_iff_eq_take.mp (Piece.text_first_prefix c text)]
termination_by text.length

end ScopeLex
