import ScopeLex.Text.Blank

/-!
# Lines of a text

A text is split at every newline, so it has one line more than newlines.
Lines are numbered from 1, places in the text by their UTF-8 byte offset.

* `lines_append_newline`: a newline separates the lines before it from those
  after it.
* `length_lines`: the number of lines.
* `lineAt?_append`: the line at the end of a prefix counts its newlines.
-/
namespace ScopeLex.Text

/-! ## Splitting -/

/-- Put `c` in front of a text that is already split. -/
def consLine (c : Char) (split : List (List Char)) : List (List Char) :=
  if c = '\n' then [] :: split
  else (c :: split.head?.getD []) :: split.tail

/-- The lines of `text`, newlines removed. -/
def lines (text : List Char) : List (List Char) := text.foldr consLine [[]]

@[simp] theorem lines_nil : lines [] = [[]] := rfl

@[simp] theorem lines_cons (c : Char) (text : List Char) :
    lines (c :: text) = consLine c (lines text) := rfl

theorem lines_ne_nil (text : List Char) : lines text ≠ [] := by
  cases text with
  | nil => simp
  | cons c text => simp only [lines_cons, consLine]; split <;> simp

theorem consLine_append {c : Char} {l m : List (List Char)} (h : l ≠ []) :
    consLine c (l ++ m) = consLine c l ++ m := by
  cases l with
  | nil => exact absurd rfl h
  | cons a l => simp only [consLine]; split <;> simp

theorem lines_append_newline (a b : List Char) :
    lines (a ++ '\n' :: b) = lines a ++ lines b := by
  induction a with
  | nil => simp [consLine]
  | cons c a ih =>
    rw [List.cons_append, lines_cons, ih, consLine_append (lines_ne_nil a), lines_cons]

theorem length_lines (text : List Char) : (lines text).length = text.count '\n' + 1 := by
  induction text with
  | nil => rfl
  | cons c text ih =>
    have hp := List.length_pos_iff.mpr (lines_ne_nil text)
    by_cases hc : c = '\n'
    · simp [consLine, hc, ih]
    · simp only [lines_cons, consLine, if_neg hc, List.length_cons, List.length_tail,
        List.count_cons_of_ne hc]
      omega

theorem newline_notMem_of_mem_lines {text line : List Char} (h : line ∈ lines text) :
    '\n' ∉ line := by
  induction text generalizing line with
  | nil => simp only [lines_nil, List.mem_singleton] at h; simp [h]
  | cons c text ih =>
    rw [lines_cons, consLine] at h
    split at h
    · rcases List.mem_cons.mp h with rfl | h
      · simp
      · exact ih h
    · rename_i hc
      rcases List.mem_cons.mp h with rfl | h
      · rw [List.mem_cons]
        rintro (e | hm)
        · exact hc e.symm
        · cases hl : lines text with
          | nil => rw [hl] at hm; simp at hm
          | cons a rest =>
            rw [hl] at hm ih
            exact ih List.mem_cons_self hm
      · exact ih (List.mem_of_mem_tail h)

/-! ## Showing one line -/

/-- `line` without the carriage returns at its end. -/
def trimReturns (line : List Char) : List Char := trimEnd (· == '\r') line

/-- Line `k` as it is shown, without its carriage returns. -/
def line? (text : List Char) : Nat → Option (List Char)
  | 0 => none
  | k + 1 => (lines text)[k]?.map trimReturns

/-- Exactly the numbers from 1 to the number of lines have a line. -/
theorem isSome_line?_iff (text : List Char) (k : Nat) :
    (line? text k).isSome ↔ 1 ≤ k ∧ k ≤ (lines text).length := by
  cases k with
  | zero => simp [line?]
  | succ k =>
    rw [line?, Option.isSome_map, Option.isSome_iff_ne_none, ne_eq, List.getElem?_eq_none_iff]
    omega

/-! ## Byte offsets -/

/-- The UTF-8 length of `text`. -/
def byteSize (text : List Char) : Nat := text.foldr (fun c size => c.utf8Size + size) 0

@[simp] theorem byteSize_nil : byteSize [] = 0 := rfl

@[simp] theorem byteSize_cons (c : Char) (text : List Char) :
    byteSize (c :: text) = c.utf8Size + byteSize text := rfl

@[simp] theorem byteSize_append (a b : List Char) :
    byteSize (a ++ b) = byteSize a + byteSize b := by
  induction a with
  | nil => simp
  | cons c a ih => rw [List.cons_append, byteSize_cons, byteSize_cons, ih, Nat.add_assoc]

/-- The line reached after `offset` bytes of `text`, which begins in `line`.
Past the end it stays at the last line; inside a character there is none. -/
def lineFrom? (line : Nat) : List Char → Nat → Option Nat
  | _, 0 => some line
  | [], _ + 1 => some line
  | c :: text, offset + 1 =>
    if offset + 1 < c.utf8Size then none
    else lineFrom? (if c = '\n' then line + 1 else line) text (offset + 1 - c.utf8Size)

/-- The line that holds the byte at `offset`, if a character starts there. -/
def lineAt? (text : List Char) (offset : Nat) : Option Nat := lineFrom? 1 text offset

theorem lineFrom?_zero (line : Nat) (text : List Char) : lineFrom? line text 0 = some line := by
  cases text <;> rfl

theorem lineFrom?_cons (line : Nat) (c : Char) (text : List Char) (offset : Nat) :
    lineFrom? line (c :: text) (c.utf8Size + offset) =
      lineFrom? (if c = '\n' then line + 1 else line) text offset := by
  have hp := c.utf8Size_pos
  obtain ⟨n, hn⟩ : ∃ n, c.utf8Size + offset = n + 1 := ⟨c.utf8Size + offset - 1, by omega⟩
  rw [hn, lineFrom?, if_neg (by omega)]
  congr 1
  omega

theorem lineFrom?_append (line : Nat) (a b : List Char) (offset : Nat) :
    lineFrom? line (a ++ b) (byteSize a + offset) = lineFrom? (line + a.count '\n') b offset := by
  induction a generalizing line with
  | nil => simp
  | cons c a ih =>
    rw [List.cons_append, byteSize_cons, Nat.add_assoc, lineFrom?_cons, ih]
    by_cases hc : c = '\n'
    · simp only [hc, if_true, List.count_cons_self]
      congr 1
      omega
    · simp [hc, List.count_cons_of_ne hc]

theorem lineAt?_append (a b : List Char) :
    lineAt? (a ++ b) (byteSize a) = some (1 + a.count '\n') := by
  have h := lineFrom?_append 1 a b 0
  rwa [Nat.add_zero, lineFrom?_zero] at h

end ScopeLex.Text
