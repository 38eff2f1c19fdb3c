import ScopeLex.Proofs.Comment.Extraction
import ScopeLex.Proofs.Comment.Marker

/-!
# Comments in a copy

A copy of a text leaves characters out and writes blanks and newlines, but keeps
parts whole and apart. Two signs that stand side by side in the copy stand side by
side in the text, so that no comment comes to be that was not there.

* `Respaced.pair`: two neighbours in the copy are neighbours in the text.
* `Respaced.closable`: an opener that can be closed in the copy is one in the text.
-/
namespace ScopeLex

/-- What is written between the parts of a copy. -/
def IsGap (c : Char) : Prop := c = ' ' ∨ c = '\n'

/-- The third argument is a copy of the second, which begins at place `p`; only
places with `ok` are copied. -/
inductive Respaced (ok : Nat → Prop) : Nat → List Char → List Char → Prop
  /-- Leave out the rest. -/
  | nil {p : Nat} {text : List Char} : Respaced ok p text []
  /-- Leave a character out. -/
  | drop {p : Nat} {c : Char} {text copy : List Char} (tail : Respaced ok (p + 1) text copy) :
      Respaced ok p (c :: text) copy
  /-- Write a blank or a newline. -/
  | gap {p : Nat} {c : Char} {text copy : List Char} (hc : IsGap c)
      (tail : Respaced ok p text copy) : Respaced ok p text (c :: copy)
  /-- Keep a part, which ends in front of a gap. -/
  | keep {p : Nat} {part text copy : List Char} (here : ∀ i < part.length, ok (p + i))
      (apart : ∀ c, copy.head? = some c → IsGap c)
      (tail : Respaced ok (p + part.length) text copy) :
      Respaced ok p (part ++ text) (part ++ copy)

namespace Respaced

variable {ok : Nat → Prop} {p : Nat} {text copy : List Char}

/-- Leave a whole part out. -/
theorem drop_append {part : List Char} (h : Respaced ok (p + part.length) text copy) :
    Respaced ok p (part ++ text) copy := by
  induction part generalizing p with
  | nil => exact h
  | cons c part ih =>
    refine .drop (ih ?_)
    rwa [List.length_cons, Nat.add_comm part.length 1, ← Nat.add_assoc] at h

/-- One copy behind another one. -/
theorem append {text' copy' : List Char} (h : Respaced ok p text copy)
    (h' : Respaced ok (p + text.length) text' copy')
    (apart : ∀ c, copy'.head? = some c → IsGap c) :
    Respaced ok p (text ++ text') (copy ++ copy') := by
  induction h with
  | nil => exact h'.drop_append
  | @drop p c text copy tail ih =>
    refine .drop (ih ?_)
    rwa [List.length_cons, Nat.add_comm text.length 1, ← Nat.add_assoc] at h'
  | gap hc tail ih => exact .gap hc (ih h')
  | @keep p part text copy here apart' tail ih =>
    rw [List.append_assoc, List.append_assoc]
    refine .keep here ?_ (ih ?_)
    · intro c hc
      cases copy with
      | nil => exact apart c hc
      | cons d copy => exact apart' c hc
    · rwa [List.length_append, ← Nat.add_assoc] at h'

/-- Two neighbours lie inside a part or behind it. -/
theorem pair_keep {part : List Char} {a b : Char} {i : Nat}
    (apart : ∀ c, copy.head? = some c → IsGap c) (hb : ¬ IsGap b)
    (h : [a, b] <+: (part ++ copy).drop i) :
    (i + 2 ≤ part.length ∧ [a, b] <+: part.drop i) ∨
      (part.length ≤ i ∧ [a, b] <+: copy.drop (i - part.length)) := by
  rw [List.drop_append] at h
  rcases Nat.lt_or_ge i part.length with hi | hi
  · have hd : i - part.length = 0 := by omega
    rw [hd, List.drop_zero] at h
    match hp : part.drop i with
    | [] =>
      rw [List.drop_eq_nil_iff] at hp
      omega
    | [x] =>
      rw [hp, List.singleton_append, List.cons_prefix_cons] at h
      obtain ⟨-, rest, rfl⟩ := h
      exact absurd (apart b rfl) hb
    | x :: y :: rest =>
      have hlen := congrArg List.length hp
      simp only [List.length_drop, List.length_cons] at hlen
      rw [hp, List.cons_append, List.cons_append, List.cons_prefix_cons,
        List.cons_prefix_cons] at h
      obtain ⟨rfl, rfl, -⟩ := h
      exact Or.inl ⟨by omega, ⟨rest, rfl⟩⟩
  · rw [List.drop_of_length_le hi, List.nil_append] at h
    exact Or.inr ⟨hi, h⟩

/-- What stands in a part stands in the text. -/
theorem prefix_drop_append {part : List Char} {a b : Char} {i : Nat}
    (h : [a, b] <+: part.drop i) (hi : i + 2 ≤ part.length) : [a, b] <+: (part ++ text).drop i := by
  rw [List.drop_append_of_le_length (by omega)]
  exact h.trans (List.prefix_append _ _)

/-- Two neighbours in the copy are neighbours in the text. -/
theorem pair (h : Respaced ok p text copy) {a b : Char} (ha : ¬ IsGap a) (hb : ¬ IsGap b) {i : Nat}
    (hi : [a, b] <+: copy.drop i) : ∃ j, ok (p + j) ∧ [a, b] <+: text.drop j := by
  induction h generalizing i with
  | nil =>
    rw [List.drop_nil] at hi
    exact absurd (List.prefix_nil.mp hi) (List.cons_ne_nil _ _)
  | @drop p c text copy tail ih =>
    obtain ⟨j, hok, hj⟩ := ih hi
    refine ⟨j + 1, ?_, hj⟩
    rwa [Nat.add_comm j 1, ← Nat.add_assoc]
  | @gap p c text copy hc tail ih =>
    cases i with
    | zero =>
      rw [List.drop_zero, List.cons_prefix_cons] at hi
      exact absurd (hi.1 ▸ hc) ha
    | succ i => exact ih hi
  | @keep p part text copy here apart tail ih =>
    rcases pair_keep apart hb hi with ⟨hle, hpart⟩ | ⟨hle, hcopy⟩
    · exact ⟨i, here i (by omega), prefix_drop_append hpart hle⟩
    · obtain ⟨j, hok, hj⟩ := ih hcopy
      refine ⟨part.length + j, ?_, ?_⟩
      · rwa [← Nat.add_assoc]
      · rwa [← List.drop_drop, List.drop_left]

theorem not_isGap_star : ¬ IsGap '*' := by unfold IsGap; decide

theorem not_isGap_slash : ¬ IsGap '/' := by unfold IsGap; decide

/-- A line comment in the copy would be one in the text. -/
theorem marks (h : Respaced ok p text copy) {i : Nat} (hi : Marks copy i) :
    ∃ j, Marks text j := by
  obtain ⟨j, -, hj⟩ := h.pair not_isGap_slash not_isGap_slash hi
  exact ⟨j, hj⟩

/-- A block comment in the copy would be one in the text. -/
theorem closable (h : Respaced ok p text copy) {i : Nat} (hi : Closable copy i) :
    ∃ j, ok (p + j) ∧ Closable text j := by
  -- `pair` for the opener and for the closer is not enough: the closer has to stay
  -- behind the opener and apart from it. So both are followed in one induction.
  induction h generalizing i with
  | nil =>
    have := hi.1
    rw [Opens, List.drop_nil] at this
    exact absurd (List.prefix_nil.mp this) (List.cons_ne_nil _ _)
  | @drop p c text copy tail ih =>
    obtain ⟨j, hok, hj⟩ := ih hi
    refine ⟨1 + j, ?_, closable_drop.mp hj⟩
    rwa [← Nat.add_assoc]
  | @gap p c text copy hc tail ih =>
    cases i with
    | zero =>
      have ho := hi.1
      rw [Opens, List.drop_zero, List.cons_prefix_cons] at ho
      exact absurd (ho.1 ▸ hc) not_isGap_slash
    | succ i =>
      rw [Nat.add_comm i 1] at hi
      exact ih (closable_drop.mpr hi)
  | @keep p part text copy here apart tail ih =>
    obtain ⟨ho, e, he, hc⟩ := hi
    rcases pair_keep apart not_isGap_star ho with ⟨hle, hpart⟩ | ⟨hle, hcopy⟩
    · refine ⟨i, here i (by omega), prefix_drop_append hpart hle, ?_⟩
      rcases pair_keep apart not_isGap_slash hc with ⟨hle', hpart'⟩ | ⟨hle', hcopy'⟩
      · exact ⟨e, he, prefix_drop_append hpart' hle'⟩
      · obtain ⟨j, -, hj⟩ := tail.pair not_isGap_star not_isGap_slash hcopy'
        refine ⟨part.length + j, by omega, ?_⟩
        rwa [Closes, ← List.drop_drop, List.drop_left]
    · rcases pair_keep apart not_isGap_slash hc with ⟨hle', -⟩ | ⟨hle', hcopy'⟩
      · omega
      · obtain ⟨j, hok, hj⟩ := ih (i := i - part.length) ⟨hcopy, e - part.length, by omega, hcopy'⟩
        refine ⟨part.length + j, ?_, ?_⟩
        · rwa [← Nat.add_assoc]
        · rw [← closable_drop, List.drop_left]
          exact hj

end Respaced

end ScopeLex
