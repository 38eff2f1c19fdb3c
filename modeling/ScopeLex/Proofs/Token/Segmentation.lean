import ScopeLex.Token.Piece

/-!
# The segments of a line

`Segmented` says what it means to cut code without loss: every segment is a
maximal run of blanks, the lexeme of the first pattern that matches, or a
character at which no pattern matches, and the segments in order are the code.

* `segmented_pieces`: the cut that is made is such a segmentation.
* `placed_pieces`: each piece has the column where its text begins.
* `getElem?_of_mem_placed`: the column of a stray character is its own.
-/
namespace ScopeLex

open Text (isBlank)

/-- `code` is the segments one after the other. -/
inductive Segmented : List Char → List Piece → Prop
  | nil : Segmented [] []
  /-- A run of blanks that cannot be made longer. -/
  | blank {run rest : List Char} {segs : List Piece} (ne : run ≠ [])
      (blanks : ∀ c ∈ run, isBlank c = true)
      (maximal : ∀ c, rest.head? = some c → isBlank c = false) (tail : Segmented rest segs) :
      Segmented (run ++ rest) (.blank run :: segs)
  /-- What the first pattern takes from the rest of the code. -/
  | lexeme {kind : TokenKind} {found rest : List Char} {segs : List Piece}
      (visible : ∀ c, found.head? = some c → isBlank c = false)
      (first : firstLexeme? (found ++ rest) = some (kind, found)) (tail : Segmented rest segs) :
      Segmented (found ++ rest) (.lexeme kind found :: segs)
  /-- One character at which no pattern matches. -/
  | stray {c : Char} {rest : List Char} {segs : List Piece} (visible : isBlank c = false)
      (none_here : firstLexeme? (c :: rest) = none) (tail : Segmented rest segs) :
      Segmented (c :: rest) (.stray c :: segs)

theorem kind_of_mem_patterns : ∀ p ∈ patterns, p.kind ≠ .comment := by decide

namespace Segmented

variable {code : List Char} {segs : List Piece}

/-- Nothing is lost, repeated or moved. -/
theorem flatMap_text (h : Segmented code segs) : segs.flatMap Piece.text = code := by
  induction h with
  | nil => rfl
  | blank _ _ _ _ ih => rw [List.flatMap_cons, ih]; rfl
  | lexeme _ _ _ ih => rw [List.flatMap_cons, ih]; rfl
  | stray _ _ _ ih => rw [List.flatMap_cons, ih]; rfl

/-- Every segment takes a character, so that there are at most as many segments as
characters. -/
theorem length_le (h : Segmented code segs) : segs.length ≤ code.length := by
  induction h with
  | nil => exact Nat.le_refl 0
  | blank ne _ _ _ ih =>
    have := List.length_pos_iff.mpr ne
    rw [List.length_cons, List.length_append]
    omega
  | lexeme _ first _ ih =>
    have := List.length_pos_iff.mpr (firstLexeme?_eq_some first).2.1
    rw [List.length_cons, List.length_append]
    omega
  | stray _ _ _ ih => exact Nat.succ_le_succ ih

/-- What follows some segments is cut into those behind them. -/
theorem of_append {before after : List Piece} (h : Segmented code (before ++ after)) :
    Segmented (after.flatMap Piece.text) after := by
  induction before generalizing code with
  | nil => exact h.flatMap_text ▸ h
  | cons p before ih =>
    cases h with
    | blank _ _ _ tail => exact ih tail
    | lexeme _ _ tail => exact ih tail
    | stray _ _ tail => exact ih tail

/-- A segment is the first one of some code. -/
theorem of_mem {p : Piece} (h : Segmented code segs) (hp : p ∈ segs) :
    ∃ after, Segmented ((p :: after).flatMap Piece.text) (p :: after) := by
  obtain ⟨before, after, rfl⟩ := List.append_of_mem hp
  exact ⟨after, h.of_append⟩

/-- A lexeme is what the first pattern takes from the rest of the code. -/
theorem firstLexeme?_of_append {before after : List Piece} {kind : TokenKind} {found : List Char}
    (h : Segmented code (before ++ .lexeme kind found :: after)) :
    firstLexeme? (found ++ after.flatMap Piece.text) = some (kind, found) := by
  have hrest := h.of_append
  generalize (Piece.lexeme kind found :: after).flatMap Piece.text = rest at hrest
  cases hrest with
  | lexeme _ first tail => rwa [tail.flatMap_text]

theorem firstLexeme?_of_mem (h : Segmented code segs) {kind : TokenKind} {found : List Char}
    (hp : .lexeme kind found ∈ segs) :
    ∃ rest, firstLexeme? (found ++ rest) = some (kind, found) := by
  obtain ⟨before, after, rfl⟩ := List.append_of_mem hp
  exact ⟨_, h.firstLexeme?_of_append⟩

/-- No pattern is for comments. -/
theorem kind_ne_comment (h : Segmented code segs) {kind : TokenKind} {found : List Char}
    (hp : .lexeme kind found ∈ segs) : kind ≠ .comment := by
  obtain ⟨rest, hfirst⟩ := h.firstLexeme?_of_mem hp
  obtain ⟨⟨p, hm, rfl, -⟩, -⟩ := firstLexeme?_eq_some hfirst
  exact kind_of_mem_patterns p hm

/-- A blank is no stray character. -/
theorem not_isBlank_of_stray (h : Segmented code segs) {c : Char} (hp : .stray c ∈ segs) :
    isBlank c = false := by
  obtain ⟨after, hrest⟩ := h.of_mem hp
  generalize (Piece.stray c :: after).flatMap Piece.text = rest at hrest
  cases hrest with
  | stray visible _ _ => exact visible

end Segmented

/-! ## The cut that is made -/

/-- The first piece of a text begins each of its segmentations. -/
theorem exists_first (c : Char) (text : List Char) :
    ∃ rest, (Piece.first c text).text ++ rest = c :: text ∧
      ∀ segs, Segmented rest segs → Segmented (c :: text) (Piece.first c text :: segs) := by
  unfold Piece.first
  split
  · rename_i hb
    have happ := List.takeWhile_append_dropWhile (p := isBlank) (l := c :: text)
    refine ⟨(c :: text).dropWhile isBlank, happ, fun segs hs => ?_⟩
    have hmax : ∀ d, ((c :: text).dropWhile isBlank).head? = some d → isBlank d = false := by
      intro d hd
      have := List.head?_dropWhile_not isBlank (c :: text)
      rw [hd] at this
      simpa using this
    have hblank : ∀ d ∈ (c :: text).takeWhile isBlank, isBlank d = true := fun d hd =>
      List.all_eq_true.mp List.all_takeWhile d hd
    have hne : (c :: text).takeWhile isBlank ≠ [] := by
      rw [List.takeWhile_cons_of_pos hb]
      exact List.cons_ne_nil _ _
    have h := Segmented.blank hne hblank hmax hs
    rwa [happ] at h
  · rename_i hb
    have hc : isBlank c = false := by simpa using hb
    cases hf : firstLexeme? (c :: text) with
    | none => exact ⟨text, rfl, fun segs hs => .stray hc hf hs⟩
    | some found =>
      obtain ⟨kind, lexeme⟩ := found
      obtain ⟨-, hne, rest, happ⟩ := firstLexeme?_eq_some hf
      refine ⟨rest, happ, fun segs hs => ?_⟩
      have hv : ∀ d, lexeme.head? = some d → isBlank d = false := by
        intro d hd
        cases lexeme with
        | nil => cases hd
        | cons e lexeme =>
          cases hd
          cases happ
          exact hc
      have h := Segmented.lexeme hv (by rw [happ]; exact hf) hs
      rwa [happ] at h

/-- The pieces of a text are a segmentation of it. -/
theorem segmented_pieces (column : Nat) (code : List Char) :
    Segmented code ((pieces column code).map Prod.snd) := by
  match code with
  | [] => exact .nil
  | c :: text =>
    obtain ⟨rest, happ, hseg⟩ := exists_first c text
    have hpos := List.length_pos_iff.mpr (Piece.text_first_ne_nil c text)
    have hlt : rest.length < (c :: text).length := by
      rw [← happ, List.length_append]
      omega
    rw [pieces_cons, List.map_cons]
    refine hseg _ ?_
    rw [← happ, List.drop_left]
    exact segmented_pieces _ rest
termination_by code.length
decreasing_by exact hlt

/-! ## Columns -/

/-- Segments that begin in `column`, each with the column of its first
character. -/
def placed (column : Nat) : List Piece → List (Nat × Piece)
  | [] => []
  | p :: segs => (column, p) :: placed (column + p.text.length) segs

theorem placed_pieces (column : Nat) (code : List Char) :
    placed column ((pieces column code).map Prod.snd) = pieces column code := by
  match code with
  | [] => rfl
  | c :: text =>
    have hpos := List.length_pos_iff.mpr (Piece.text_first_ne_nil c text)
    have hlt : ((c :: text).drop (Piece.first c text).text.length).length < (c :: text).length := by
      rw [List.length_drop, List.length_cons]
      omega
    rw [pieces_cons, List.map_cons, placed, placed_pieces]
termination_by code.length

/-- A piece stands in the text at its column. -/
theorem prefix_of_mem_placed {column at_ : Nat} {segs : List Piece} {p : Piece}
    (h : (at_, p) ∈ placed column segs) :
    column ≤ at_ ∧ p.text <+: (segs.flatMap Piece.text).drop (at_ - column) := by
  induction segs generalizing column with
  | nil => cases h
  | cons q segs ih =>
    rw [placed, List.mem_cons] at h
    rw [List.flatMap_cons]
    rcases h with he | h
    · cases he
      rw [Nat.sub_self, List.drop_zero]
      exact ⟨Nat.le_refl _, List.prefix_append _ _⟩
    · obtain ⟨hle, hp⟩ := ih h
      have hd : (q.text ++ segs.flatMap Piece.text).drop (at_ - column) =
          (segs.flatMap Piece.text).drop (at_ - (column + q.text.length)) := by
        rw [List.drop_append, List.drop_of_length_le (by omega), List.nil_append]
        congr 1
        omega
      exact ⟨by omega, hd ▸ hp⟩

/-- The column of a stray character is its own. -/
theorem getElem?_of_mem_placed {column at_ : Nat} {segs : List Piece} {c : Char}
    (h : (at_, .stray c) ∈ placed column segs) :
    column ≤ at_ ∧ (segs.flatMap Piece.text)[at_ - column]? = some c := by
  obtain ⟨hle, rest, hr⟩ := prefix_of_mem_placed h
  have hd : ((segs.flatMap Piece.text).drop (at_ - column))[0]? = some c := by
    rw [← hr]
    rfl
  rw [List.getElem?_drop, Nat.add_zero] at hd
  exact ⟨hle, hd⟩

end ScopeLex
