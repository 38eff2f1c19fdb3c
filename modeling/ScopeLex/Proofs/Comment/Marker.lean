import ScopeLex.Comment

/-!
# Where a line comment begins

`splitMarker` cuts a line at its first `//`.

* `startsWithMarker_iff`: the test is that of a prefix.
* `not_marker_of_lt`, `not_marks_code`: no marker begins in the code of a line.
* `splitMarker_eq`: the cut is the only one of its kind.
* `splitMarker_of_free`, `snd_splitMarker_eq_nil_iff`: without a marker the whole line is
  code, and only then.
* `pair_concat_iff`, `splitMarker_concat`: what one more character does to pairs of signs
  and to the cut.
-/
namespace ScopeLex

/-- Two signs that stand at place `i` of a text stand inside it. -/
theorem pair_le_length {a b : Char} {text : List Char} {i : Nat} (h : [a, b] <+: text.drop i) :
    i + 2 ≤ text.length := by
  have := h.length_le
  simp only [List.length_cons, List.length_nil, List.length_drop] at this
  omega

/-- `//` stands at place `i`. -/
def Marks (text : List Char) (i : Nat) : Prop := ['/', '/'] <+: text.drop i

theorem startsWithMarker_iff {text : List Char} : startsWithMarker text = true ↔ Marks text 0 := by
  unfold Marks
  rw [List.drop_zero]
  constructor
  · intro h
    unfold startsWithMarker at h
    split at h
    · exact ⟨_, rfl⟩
    · cases h
  · intro h
    obtain ⟨rest, rfl⟩ := h
    rfl

theorem marks_cons_succ {c : Char} {text : List Char} {i : Nat} :
    Marks (c :: text) (i + 1) ↔ Marks text i := Iff.rfl

/-- No marker begins in the code of a line. -/
theorem not_marker_of_lt {line : List Char} {i : Nat} (h : i < (splitMarker line).1.length) :
    ¬ Marks line i := by
  induction line generalizing i with
  | nil => simp at h
  | cons c text ih =>
    rw [splitMarker_cons] at h
    split at h
    · simp at h
    · rename_i hm
      cases i with
      | zero => exact fun hp => hm (startsWithMarker_iff.mpr hp)
      | succ i =>
        simp only [List.length_cons] at h
        exact fun hp => ih (by omega) (marks_cons_succ.mp hp)

/-- Nor does one stand in the code by itself. -/
theorem not_marks_code (line : List Char) (i : Nat) : ¬ Marks (splitMarker line).1 i := by
  intro hm
  have hlt : i < (splitMarker line).1.length := Nat.lt_of_succ_lt (pair_le_length hm)
  refine not_marker_of_lt hlt ?_
  conv => arg 1; rw [← splitMarker_append line]
  rw [Marks, List.drop_append_of_le_length (by omega)]
  exact hm.trans (List.prefix_append _ _)

/-- The cut is at the first marker, or at the end if there is none. -/
theorem splitMarker_eq {code rest : List Char} (hr : rest = [] ∨ Marks rest 0)
    (hc : ∀ i < code.length, ¬ Marks (code ++ rest) i) :
    splitMarker (code ++ rest) = (code, rest) := by
  induction code with
  | nil =>
    rcases hr with rfl | hr
    · rfl
    · cases rest with
      | nil => rfl
      | cons c text => rw [List.nil_append, splitMarker_cons, if_pos (startsWithMarker_iff.mpr hr)]
  | cons c code ih =>
    have h0 : startsWithMarker (c :: (code ++ rest)) ≠ true := fun h =>
      hc 0 (by simp) (startsWithMarker_iff.mp h)
    have hs := ih fun i hi hm => hc (i + 1) (by simpa using hi) (marks_cons_succ.mpr hm)
    rw [List.cons_append, splitMarker_cons, if_neg h0, hs]

/-- Without a marker the whole line is code. -/
theorem splitMarker_of_free {line : List Char} (h : ∀ i, ¬ Marks line i) :
    splitMarker line = (line, []) := by
  have hs := @splitMarker_eq line [] (Or.inl rfl) fun i _ => by
    rw [List.append_nil]; exact h i
  rwa [List.append_nil] at hs

/-- A line has no comment exactly if it has no marker. -/
theorem snd_splitMarker_eq_nil_iff {line : List Char} :
    (splitMarker line).2 = [] ↔ ∀ i, ¬ Marks line i := by
  constructor
  · intro hnone i
    have hline := splitMarker_append line
    rw [hnone, List.append_nil] at hline
    rw [← hline]
    exact not_marks_code line i
  · intro h
    rw [splitMarker_of_free h]

/-! ## One more character -/

/-- A character makes no pair of signs whose second one it is not. -/
theorem pair_concat_iff {a b c : Char} (hc : c ≠ b) (line : List Char) (i : Nat) :
    [a, b] <+: (line ++ [c]).drop i ↔ [a, b] <+: line.drop i := by
  constructor
  · intro hm
    rcases Nat.lt_or_ge line.length i with hlt | hle
    · rw [List.drop_of_length_le (by rw [List.length_append]; exact hlt)] at hm
      exact absurd (List.prefix_nil.mp hm) (List.cons_ne_nil _ _)
    · rw [List.drop_append_of_le_length hle, List.prefix_concat_iff] at hm
      rcases hm with he | hm
      · have hlast := congrArg List.getLast? he
        rw [List.getLast?_concat] at hlast
        exact absurd (Option.some.inj hlast).symm hc
      · exact hm
  · intro hm
    rcases Nat.lt_or_ge line.length i with hlt | hle
    · rw [List.drop_of_length_le (Nat.le_of_lt hlt)] at hm
      exact absurd (List.prefix_nil.mp hm) (List.cons_ne_nil _ _)
    · rw [List.drop_append_of_le_length hle]
      exact hm.trans (List.prefix_append _ _)

/-- A character that is no slash makes no marker. -/
theorem marks_concat_iff {c : Char} (hc : c ≠ '/') (line : List Char) (i : Nat) :
    Marks (line ++ [c]) i ↔ Marks line i := pair_concat_iff hc line i

/-- It is code if all of the line is code, and else belongs to the comment. -/
theorem splitMarker_concat {c : Char} (hc : c ≠ '/') (line : List Char) :
    splitMarker (line ++ [c]) =
      if (splitMarker line).2 = [] then (line ++ [c], [])
      else ((splitMarker line).1, (splitMarker line).2 ++ [c]) := by
  have hline := splitMarker_append line
  split
  · rename_i hnone
    refine splitMarker_of_free fun i hi => ?_
    exact snd_splitMarker_eq_nil_iff.mp hnone i ((marks_concat_iff hc line i).mp hi)
  · rename_i hsome
    have hmarks : Marks ((splitMarker line).2 ++ [c]) 0 :=
      (marks_concat_iff hc _ 0).mpr (startsWithMarker_iff.mp (startsWithMarker_of_ne_nil hsome))
    have hfree : ∀ i < (splitMarker line).1.length,
        ¬ Marks ((splitMarker line).1 ++ ((splitMarker line).2 ++ [c])) i := by
      intro i hi
      rw [← List.append_assoc, hline, marks_concat_iff hc]
      exact not_marker_of_lt hi
    have hsplit := splitMarker_eq (Or.inr hmarks) hfree
    rwa [← List.append_assoc, hline] at hsplit

end ScopeLex
