/-!
# Blanks and white space

Two sets of invisible characters. *Blanks* are the six ASCII characters that
separate tokens; *white space* is the wider Unicode property, used where a
source line is shown.

* `eq_trimEnd_append`, `not_drop_of_getLast?_trimEnd`: what is trimmed, and what is left.
-/
namespace ScopeLex.Text

/-- A character that separates tokens. -/
def isBlank (c : Char) : Bool :=
  c == ' ' || c == '\t' || c == '\n' || c == '\x0b' || c == '\x0c' || c == '\r'

/-- A character with the Unicode property `White_Space`. -/
def isSpace (c : Char) : Bool :=
  let n := c.toNat
  9 ≤ n && n ≤ 13 || n == 0x20 || n == 0x85 || n == 0xa0 || n == 0x1680 ||
    0x2000 ≤ n && n ≤ 0x200a || n == 0x2028 || n == 0x2029 || n == 0x202f || n == 0x205f ||
    n == 0x3000

/-! ## Trimming at the end -/

/-- `text` without the run of `drop` characters at its end. -/
def trimEnd (drop : Char → Bool) (text : List Char) : List Char :=
  (text.reverse.dropWhile drop).reverse

@[simp] theorem trimEnd_nil (drop : Char → Bool) : trimEnd drop [] = [] := rfl

theorem trimEnd_append_singleton (drop : Char → Bool) (text : List Char) (c : Char) :
    trimEnd drop (text ++ [c]) = if drop c then trimEnd drop text else text ++ [c] := by
  simp only [trimEnd, List.reverse_append, List.reverse_singleton, List.singleton_append,
    List.dropWhile_cons]
  split <;> simp

/-- Nothing in front of a character that stays is dropped. -/
theorem trimEnd_cons {drop : Char → Bool} {c : Char} (h : drop c = false) (text : List Char) :
    trimEnd drop (c :: text) = c :: trimEnd drop text := by
  have hsplit : (text.reverse ++ [c]).dropWhile drop = _ := List.dropWhile_append
  unfold trimEnd
  rw [List.reverse_cons, hsplit]
  split
  · rename_i he
    rw [List.isEmpty_iff] at he
    rw [he, List.dropWhile_cons_of_neg (by rw [h]; decide)]
    rfl
  · rw [List.reverse_append]
    rfl

/-- What is trimmed stands behind what is left. -/
theorem eq_trimEnd_append (drop : Char → Bool) (text : List Char) :
    ∃ tail, text = trimEnd drop text ++ tail ∧ ∀ c ∈ tail, drop c = true := by
  refine ⟨(text.reverse.takeWhile drop).reverse, ?_, fun c hc => ?_⟩
  · rw [trimEnd, ← List.reverse_append, List.takeWhile_append_dropWhile, List.reverse_reverse]
  · exact List.all_eq_true.mp List.all_takeWhile c (List.mem_reverse.mp hc)

theorem not_drop_of_getLast?_trimEnd {drop : Char → Bool} {text : List Char} {c : Char}
    (h : (trimEnd drop text).getLast? = some c) : drop c = false := by
  have hnot := List.head?_dropWhile_not drop text.reverse
  rw [trimEnd, List.getLast?_reverse] at h
  rw [h] at hnot
  simpa using hnot

end ScopeLex.Text
