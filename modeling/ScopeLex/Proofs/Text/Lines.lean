import ScopeLex.Text.Line

/-!
# Putting lines together

The lines of a text are what the library splits off at newlines, so that splitting a
text and joining lines undo each other.

* `lines_eq_splitOn`: both split alike.
* `intercalate_lines`: the lines of a text, joined, are the text.
* `lines_intercalate`: lines that are joined are the lines of the result.
* `lines_of_notMem`: a text without a newline is one line.
-/
namespace ScopeLex.Text

theorem lines_eq_splitOn (text : List Char) : lines text = text.splitOn '\n' := by
  induction text with
  | nil => rfl
  | cons c text ih =>
    rw [lines_cons, List.splitOn_cons_eq_if_modifyHead, ← ih, consLine]
    by_cases hc : c = '\n'
    · rw [if_pos hc, if_pos (beq_iff_eq.mpr hc)]
    · rw [if_neg hc, if_neg (fun h => hc (beq_iff_eq.mp h))]
      cases hl : lines text with
      | nil => exact absurd hl (lines_ne_nil text)
      | cons line rest => rfl

/-- The lines of a text, joined, are the text. -/
theorem intercalate_lines (text : List Char) : ['\n'].intercalate (lines text) = text := by
  rw [lines_eq_splitOn]
  exact List.intercalate_splitOn '\n'

/-- Lines that are joined are the lines of the result. -/
theorem lines_intercalate {parts : List (List Char)} (hne : parts ≠ [])
    (h : ∀ part ∈ parts, '\n' ∉ part) : lines (['\n'].intercalate parts) = parts := by
  rw [lines_eq_splitOn]
  exact List.splitOn_intercalate '\n' h hne

/-- A text without a newline is one line. -/
theorem lines_of_notMem {text : List Char} (h : '\n' ∉ text) : lines text = [text] := by
  have hlines : lines (['\n'].intercalate [text]) = [text] :=
    lines_intercalate (List.cons_ne_nil _ _) fun part hp => List.mem_singleton.mp hp ▸ h
  rwa [List.intercalate_singleton] at hlines

end ScopeLex.Text
