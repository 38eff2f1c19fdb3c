import Mathlib.Data.List.Forall2
import ScopeLex.Text.Line

/-!
# Carriage returns in front of newlines

A text may end its lines with a carriage return and a newline instead of a newline. All
that this changes is one carriage return at the end of each line but the last.

* `withReturns_take_append`: what a prefix becomes is a prefix again.
* `prefix_withReturns_iff`: what stands on one line stands there in both.
* `lines_withReturns`: the lines of both texts, side by side.
* `line?_withReturns`: lines are shown alike.
-/
namespace ScopeLex.Text

/-- The text with a carriage return in front of each newline. -/
def withReturns (text : List Char) : List Char :=
  text.flatMap fun c => if c = '\n' then ['\r', '\n'] else [c]

@[simp] theorem withReturns_nil : withReturns [] = [] := rfl

theorem withReturns_newline (text : List Char) :
    withReturns ('\n' :: text) = '\r' :: '\n' :: withReturns text := rfl

theorem withReturns_cons {c : Char} (h : c ≠ '\n') (text : List Char) :
    withReturns (c :: text) = c :: withReturns text := by
  rw [withReturns, List.flatMap_cons, if_neg h]
  rfl

theorem withReturns_append (a b : List Char) :
    withReturns (a ++ b) = withReturns a ++ withReturns b := List.flatMap_append

theorem withReturns_take_append (text : List Char) (n : Nat) :
    withReturns (text.take n) ++ withReturns (text.drop n) = withReturns text := by
  rw [← withReturns_append, List.take_append_drop]

theorem count_newline_withReturns (text : List Char) :
    (withReturns text).count '\n' = text.count '\n' := by
  induction text with
  | nil => rfl
  | cons c text ih =>
    by_cases hc : c = '\n'
    · subst hc
      rw [withReturns_newline, List.count_cons_of_ne (by decide), List.count_cons_self,
        List.count_cons_self, ih]
    · rw [withReturns_cons hc, List.count_cons_of_ne hc, List.count_cons_of_ne hc, ih]

/-- What holds no line end begins both texts or neither. -/
theorem prefix_withReturns_iff {part : List Char} (hreturn : '\r' ∉ part) (hnewline : '\n' ∉ part)
    (text : List Char) : part <+: withReturns text ↔ part <+: text := by
  induction part generalizing text with
  | nil => exact iff_of_true List.nil_prefix List.nil_prefix
  | cons a part ih =>
    rw [List.mem_cons, not_or] at hreturn hnewline
    have ih := ih hreturn.2 hnewline.2
    cases text with
    | nil => exact Iff.rfl
    | cons c text =>
      by_cases hc : c = '\n'
      · subst hc
        rw [withReturns_newline, List.cons_prefix_cons, List.cons_prefix_cons]
        exact iff_of_false (fun hp => hreturn.1 hp.1.symm) fun hp => hnewline.1 hp.1.symm
      · rw [withReturns_cons hc, List.cons_prefix_cons, List.cons_prefix_cons, ih]

/-! ## Lines -/

/-- The second line is the first or has one more carriage return at its end. -/
def UpToReturn (line other : List Char) : Prop := other = line ∨ other = line ++ ['\r']

theorem UpToReturn.cons {line other : List Char} (h : UpToReturn line other) (c : Char) :
    UpToReturn (c :: line) (c :: other) := by
  rcases h with rfl | rfl
  · exact Or.inl rfl
  · exact Or.inr rfl

theorem UpToReturn.trimReturns_eq {line other : List Char} (h : UpToReturn line other) :
    trimReturns other = trimReturns line := by
  rcases h with rfl | rfl
  · rfl
  · exact (trimEnd_append_singleton _ line '\r').trans (if_pos (by decide))

/-- The lines of both texts, side by side. -/
theorem lines_withReturns (text : List Char) :
    List.Forall₂ UpToReturn (lines text) (lines (withReturns text)) := by
  induction text with
  | nil => exact .cons (Or.inl rfl) .nil
  | cons c text ih =>
    by_cases hc : c = '\n'
    · subst hc
      exact .cons (Or.inr rfl) ih
    · rw [withReturns_cons hc, lines_cons, lines_cons, consLine, consLine, if_neg hc, if_neg hc]
      generalize lines text = split at ih ⊢
      generalize lines (withReturns text) = other at ih ⊢
      cases ih with
      | nil => exact .cons (Or.inl rfl) .nil
      | cons first rest => exact .cons (first.cons c) rest

/-- Lines are shown alike. -/
theorem line?_withReturns (text : List Char) (k : Nat) :
    line? (withReturns text) k = line? text k := by
  have hshown : (lines (withReturns text)).map trimReturns = (lines text).map trimReturns := by
    refine Eq.symm ?_
    rw [← List.forall₂_eq_eq_eq, List.forall₂_map_left_iff, List.forall₂_map_right_iff]
    exact (lines_withReturns text).imp fun _ _ h => h.trimReturns_eq.symm
  cases k with
  | zero => rfl
  | succ k => rw [line?, line?, ← List.getElem?_map, ← List.getElem?_map, hshown]

end ScopeLex.Text
