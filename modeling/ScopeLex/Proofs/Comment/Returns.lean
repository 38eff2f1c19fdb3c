import ScopeLex.Proofs.Analysis.Comment
import ScopeLex.Proofs.Text.Returns

/-!
# Block comments and carriage returns

Neither an opener nor a closer reaches over the end of a line. So a text with a carriage
return in front of each newline has the same block comments, at the same lines, with
carriage returns in them.

* `matchLength?_withReturns`: a match is what the match in the text becomes.
* `all_withReturns`: the comments of both texts, one by one.
* `covers_withReturns_iff`: they hold parts of the same lines.
-/
namespace ScopeLex

open Text (withReturns withReturns_nil withReturns_newline withReturns_cons withReturns_append
  withReturns_take_append count_newline_withReturns prefix_withReturns_iff)

/-! ## One comment -/

theorem isClose_withReturns_iff (text : List Char) :
    ['*', '/'] <+: withReturns text ↔ ['*', '/'] <+: text :=
  prefix_withReturns_iff (by decide) (by decide) text

/-- The first closer stands behind what the characters in front of it become. -/
theorem firstClose?_withReturns (text : List Char) :
    firstClose? (withReturns text) =
      (firstClose? text).map fun n => (withReturns (text.take n)).length := by
  induction text with
  | nil => rfl
  | cons c text ih =>
    by_cases hc : c = '\n'
    · subst hc
      have hnot : ∀ d rest, d ≠ '*' → ¬ ['*', '/'] <+: d :: rest := fun d rest hd hp =>
        hd (List.cons_prefix_cons.mp hp).1.symm
      rw [withReturns_newline, firstClose?, if_neg (hnot _ _ (by decide)), firstClose?,
        if_neg (hnot _ _ (by decide)), firstClose?, if_neg (hnot _ _ (by decide)), ih,
        Option.map_map, Option.map_map, Option.map_map]
      congr 1
    · rw [withReturns_cons hc, firstClose?, firstClose?, ← withReturns_cons hc]
      by_cases hp : ['*', '/'] <+: c :: text
      · rw [if_pos hp, if_pos ((isClose_withReturns_iff _).mpr hp)]
        rfl
      · rw [if_neg hp, if_neg (fun h => hp ((isClose_withReturns_iff _).mp h)), ih, Option.map_map,
          Option.map_map]
        congr 1
        funext n
        simp only [Function.comp_apply, List.take_succ_cons, withReturns_cons hc, List.length_cons]

namespace BlockComment

/-- A match is what the match in the text becomes. -/
theorem matchLength?_withReturns (text : List Char) :
    regex.matchLength? (withReturns text) =
      (regex.matchLength? text).map fun n => (withReturns (text.take n)).length := by
  have hopens : Opens (withReturns text) 0 ↔ Opens text 0 :=
    prefix_withReturns_iff (by decide) (by decide) text
  rw [matchLength?_regex, matchLength?_regex]
  by_cases ho : Opens text 0
  · obtain ⟨rest, rfl⟩ : ∃ rest, text = '/' :: '*' :: rest := by
      obtain ⟨rest, hrest⟩ := ho
      exact ⟨rest, hrest.symm⟩
    have hcons : ∀ rest, withReturns ('/' :: '*' :: rest) = '/' :: '*' :: withReturns rest := by
      intro rest
      rw [withReturns_cons (by decide), withReturns_cons (by decide)]
    rw [if_pos ho, if_pos (hopens.mpr ho), hcons, List.drop_succ_cons, List.drop_succ_cons,
      List.drop_zero, List.drop_succ_cons, List.drop_succ_cons, List.drop_zero,
      firstClose?_withReturns, Option.map_map, Option.map_map]
    refine Option.map_congr fun n hn => ?_
    -- The comment ends with its closer, which stays as it is.
    obtain ⟨behind, hbehind⟩ := (firstClose?_eq_some hn).1
    have htake : rest.take (n + 2) = rest.take n ++ ['*', '/'] := by
      rw [List.take_add, ← hbehind]
      rfl
    simp only [Function.comp_apply, List.take_succ_cons, htake, hcons, withReturns_append,
      List.length_cons, List.length_append]
    rfl
  · rw [if_neg ho, if_neg (fun h => ho (hopens.mp h))]
    rfl

/-- Where no comment begins the search goes on. -/
theorem allFrom_cons_of_not_slash {c : Char} (h : c ≠ '/') (place : Place) (text : List Char) :
    allFrom place (c :: text) = allFrom (place.after c) text := by
  refine allFrom_cons_of_no_match (fun n hn => ?_) place
  rw [matchLength?_regex, if_neg] at hn
  · cases hn
  · exact fun hp => h (List.cons_prefix_cons.mp hp).1.symm

/-! ## All comments -/

/-- The token of a comment, with carriage returns in the comment. -/
def tokenWithReturns (b : BlockComment) : Token :=
  ⟨.comment, String.ofList (withReturns b.text), b.firstLine⟩

/-- The second comment is the first with carriage returns. -/
structure IsWithReturns (b b' : BlockComment) : Prop where
  firstLine : b'.firstLine = b.firstLine
  text : b'.text = withReturns b.text

theorem line_afterAll_withReturns {place other : Place} (h : other.line = place.line)
    (text : List Char) : (other.afterAll (withReturns text)).line = (place.afterAll text).line := by
  rw [Place.afterAll_eq, Place.afterAll_eq, count_newline_withReturns, h]

/-- The comments of both texts, one by one. -/
theorem allFrom_withReturns {place other : Place} (h : other.line = place.line)
    (text : List Char) :
    List.Forall₂ IsWithReturns (allFrom place text) (allFrom other (withReturns text)) := by
  -- As the search goes: behind a comment, else behind one character. Only the lines of the
  -- two places agree, as carriage returns push their offsets apart.
  match text with
  | [] => exact .nil
  | c :: text =>
    have hafter := line_afterAll_withReturns h [c]
    by_cases hc : c = '\n'
    · subst hc
      rw [withReturns_newline, allFrom_cons_of_not_slash (by decide),
        allFrom_cons_of_not_slash (by decide), allFrom_cons_of_not_slash (by decide)]
      exact allFrom_withReturns hafter text
    · have hmatch := matchLength?_withReturns (c :: text)
      rw [withReturns_cons hc] at hmatch hafter ⊢
      cases hm : regex.matchLength? (c :: text) with
      | none =>
        rw [hm] at hmatch
        rw [allFrom_cons_of_no_match (by rw [hm]; exact fun _ => nofun),
          allFrom_cons_of_no_match (by rw [hmatch]; exact fun _ => nofun)]
        exact allFrom_withReturns hafter text
      | some n =>
        have hlong := (matchLength?_regex_iff.mp hm).long
        obtain ⟨m, rfl⟩ : ∃ m, n = m + 1 := ⟨n - 1, by omega⟩
        have hsplit := withReturns_take_append (c :: text) (m + 1)
        rw [withReturns_cons hc text] at hsplit
        rw [hm, Option.map_some, List.take_succ_cons, withReturns_cons hc,
          List.length_cons] at hmatch
        rw [allFrom_cons_of_match hm, allFrom_cons_of_match hmatch, ← hsplit, List.take_succ_cons,
          withReturns_cons hc, ← List.length_cons, List.take_left, List.drop_left,
          ← withReturns_cons hc, ← List.take_succ_cons]
        exact .cons ⟨h, rfl⟩ (allFrom_withReturns (line_afterAll_withReturns h _) _)
termination_by text.length
decreasing_by
  all_goals simp only [List.length_cons, List.length_drop]; omega

theorem all_withReturns (text : List Char) :
    List.Forall₂ IsWithReturns (all text) (all (withReturns text)) := allFrom_withReturns rfl text

theorem map_token_withReturns (text : List Char) :
    (all (withReturns text)).map token = (all text).map tokenWithReturns := by
  refine Eq.symm ?_
  rw [← List.forall₂_eq_eq_eq, List.forall₂_map_left_iff, List.forall₂_map_right_iff]
  exact (all_withReturns text).imp fun b b' h => by
    rw [token, tokenWithReturns, h.firstLine, h.text]

theorem map_lineRange_withReturns (text : List Char) :
    (all (withReturns text)).map lineRange = (all text).map lineRange := by
  refine Eq.symm ?_
  rw [← List.forall₂_eq_eq_eq, List.forall₂_map_left_iff, List.forall₂_map_right_iff]
  refine (all_withReturns text).imp fun b b' h => ?_
  have hline : b'.start.line = b.start.line := h.firstLine
  rw [lineRange, lineRange, lastLine, lastLine, h.firstLine, hline, h.text,
    count_newline_withReturns]

end BlockComment

/-- The comments of both texts hold parts of the same lines. -/
theorem covers_withReturns_iff {text : List Char} {k : Nat} :
    Covers (BlockComment.all (withReturns text)) k ↔ Covers (BlockComment.all text) k := by
  rw [← isCovered_lineRange_iff, ← isCovered_lineRange_iff,
    BlockComment.map_lineRange_withReturns]

end ScopeLex
