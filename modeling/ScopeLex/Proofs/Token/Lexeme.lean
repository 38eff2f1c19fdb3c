import ScopeLex.Proofs.Regex.Ways
import ScopeLex.Token.Pattern

/-!
# Lexemes and matches

A lexeme is the best match of its pattern, unless that takes nothing.

* `lexeme?_eq`: the lexeme from the list of all matches.
* `lexeme?_of_unique`, `lexeme?_of_no_match`: patterns that match in one way or not
  at all.
-/
namespace ScopeLex

open Regex (ways)

/-- A lexeme is the best match, if that takes anything. -/
theorem lexeme?_eq (p : Pattern) (text : List Char) :
    p.lexeme? text = ((ways none text p.regex).head?.filter (0 < ·)).map (text.take ·) := by
  rw [Pattern.lexeme?, Regex.matchLength?_eq_head?]
  cases (ways none text p.regex).head? with
  | none => rfl
  | some n => cases n <;> rfl

/-- A match that is the only one is the lexeme. -/
theorem lexeme?_of_unique {p : Pattern} {text : List Char} {n : Nat} (h0 : 0 < n)
    (hn : n ∈ ways none text p.regex) (hu : ∀ m ∈ ways none text p.regex, m = n) :
    p.lexeme? text = some (text.take n) := by
  have hhead : (ways none text p.regex).head? = some n := by
    cases hl : ways none text p.regex with
    | nil => rw [hl] at hn; cases hn
    | cons m rest => rw [hu m (by rw [hl]; exact List.mem_cons_self), List.head?_cons]
  rw [lexeme?_eq, hhead, Option.filter_some, if_pos (decide_eq_true h0)]
  rfl

theorem lexeme?_of_no_match {p : Pattern} {text : List Char}
    (h : ∀ n, n ∉ ways none text p.regex) : p.lexeme? text = none := by
  rw [lexeme?_eq, List.eq_nil_iff_forall_not_mem.mpr h]
  rfl

end ScopeLex
